import Pseudocode.Proofs.Rules
import Mathlib.Data.List.Basic

/-!
# Taking notes of what is read

The parser reads tokens from left to right. A `Recording` is a way to take notes of the tokens on
the way, such that the notes of two stretches are the notes of one after the other and most tokens
leave no note. The keywords that start statements and divide blocks may leave one (`reserved`).

`Parser.Tells` is the logic of partial correctness for the notes: a parser that succeeds has a
result that fits them. Expressions, types, parameters and labels hold no reserved token. So under
every recording the rules for them leave no note (`Parser.Fills`), and this is shown here once and
for all.

Result: `expression_fills`.
-/

namespace Pseudocode

open Parse Pseudocode.Parser

/-! ## Recordings -/

/-- The keywords that stand nowhere but at the beginning of a statement. Names, IF and FOR also
stand elsewhere. -/
def openers : List TokenKind :=
  [.keyword .declareKw, .keyword .outputKw, .keyword .inputKw, .keyword .whileKw,
    .keyword .repeatKw, .keyword .caseKw, .keyword .procedureKw, .keyword .functionKw,
    .keyword .callKw, .keyword .returnKw,
    .keyword .openFileKw, .keyword .closeFileKw, .keyword .readFileKw, .keyword .writeFileKw]

/-- The other keywords that open, divide or close a block. -/
def dividers : List TokenKind :=
  [.keyword .ifKw, .keyword .elseKw, .keyword .endIfKw, .keyword .endWhileKw, .keyword .untilKw,
    .keyword .forKw,
    .keyword .nextKw, .keyword .endCaseKw, .keyword .endProcedureKw, .keyword .endFunctionKw]

/-- The tokens that stand in no expression, type, parameter or label. -/
def reserved : List TokenKind :=
  .eof :: (openers ++ dividers)

/-- A way to take notes of tokens: `Noted ss ts ts'` says that `ss` are the notes of reading `ts` up
to `ts'`. -/
structure Recording (σ : Type) where
  Noted : List σ → List Token → List Token → Prop
  nil : ∀ ts, Noted [] ts ts
  append : ∀ {ss ss' : List σ} {ts ts' ts'' : List Token}, Noted ss ts ts' → Noted ss' ts' ts'' →
    Noted (ss ++ ss') ts ts''
  suffix : ∀ {ss : List σ} {ts ts' : List Token}, Noted ss ts ts' → ts' <:+ ts
  plain : ∀ {t : Token} (ts : List Token), t.kind ∉ reserved → Noted [] (t :: ts) ts

/-- The tokens from a place on. -/
def Cursor.tokens (c : Cursor) : List Token :=
  c.current :: c.rest

theorem Cursor.tokens_start {tokens : List Token} (h : tokens ≠ []) :
    (Cursor.start tokens).tokens = tokens := by
  cases tokens with
  | nil => exact absurd rfl h
  | cons => rfl

/-- The end of the input is the last token. -/
def Cursor.Ended (c : Cursor) : Prop :=
  ∃ before last, c.tokens = before ++ [last] ∧ last.kind = .eof

namespace Cursor.Ended

variable {c : Cursor}

theorem of_suffix {c' : Cursor} (h : c.Ended) (hsuffix : c'.tokens <:+ c.tokens) : c'.Ended := by
  obtain ⟨ts, htokens⟩ := hsuffix
  obtain ⟨before, last, heq, hlast⟩ := h
  obtain ⟨front, last', hfront⟩ : ∃ front last', c'.tokens = front ++ [last'] :=
    ⟨_, _, (List.dropLast_append_getLast (List.cons_ne_nil c'.current c'.rest)).symm⟩
  rw [← htokens, hfront, ← List.append_assoc] at heq
  obtain ⟨-, heq⟩ := List.append_inj' heq rfl
  cases heq
  exact ⟨front, last, hfront, hlast⟩

theorem advance (h : c.Ended) (hkind : c.current.kind ≠ .eof) :
    c.tokens = c.current :: c.advance.tokens := by
  unfold Cursor.advance
  cases hrest : c.rest with
  | nil =>
    obtain ⟨before, last, heq, hlast⟩ := h
    have heq : [] ++ [c.current] = before ++ [last] := by
      rw [← heq, Cursor.tokens, hrest, List.nil_append]
    obtain ⟨-, heq⟩ := List.append_inj' heq rfl
    cases heq
    exact absurd hlast hkind
  | cons t rest => rw [Cursor.tokens, hrest]; rfl

end Cursor.Ended

theorem Recording.skipNewlines {σ : Type} (R : Recording σ) (c : Cursor) :
    R.Noted [] c.tokens c.skipNewlines.tokens := by
  obtain ⟨position, current, rest⟩ := c
  unfold Cursor.skipNewlines
  dsimp only
  induction rest generalizing position current with
  | nil => exact R.nil _
  | cons t rest ih =>
    unfold Cursor.pastNewlines
    split
    · next hnewline =>
        exact R.append (R.plain (t :: rest) (by rw [hnewline]; decide)) (ih (position + 1) t)
    · exact R.nil _

/-! ## The logic -/

namespace Parser

variable {σ α β : Type} {R : Recording σ}

theorem bind_eq_ok {p : Parser α} {f : α → Parser β} {c c' : Cursor} {b : β} :
    (p >>= f) c = .ok b c' ↔ ∃ a m, p c = .ok a m ∧ f a m = .ok b c' := by
  change EStateM.bind p f c = .ok b c' ↔ _
  unfold EStateM.bind
  cases p c with
  | ok a m => exact ⟨fun h => ⟨a, m, rfl, h⟩, fun ⟨_, _, ha, h⟩ => by cases ha; exact h⟩
  | error failure m => exact ⟨fun h => (by cases h), fun ⟨_, _, ha, _⟩ => by cases ha⟩

theorem expect_eq_ok {kind : TokenKind} {cause : SyntaxCause} {c c' : Cursor} {t : Token}
    (h : expect kind cause c = .ok t c') : c.current.kind = kind ∧ c' = c.advance := by
  by_cases hkind : c.current.kind = kind
  · rw [expect_ok hkind] at h
    cases h
    exact ⟨hkind, rfl⟩
  · unfold expect at h
    rw [bind_ok (current_ok c), if_neg hkind] at h
    cases h

/-- Run at `c`, a parser that succeeds gives a result that fits the notes of what it has read, as
`post` says. -/
def Tells (R : Recording σ) (p : Parser α) (c : Cursor) (post : α → List σ → Prop) : Prop :=
  c.Ended → ∀ a c', p c = .ok a c' → ∃ ss, R.Noted ss c.tokens c'.tokens ∧ post a ss

namespace Tells

variable {p q : Parser α} {f : α → Parser β} {c : Cursor} {mid post : α → List σ → Prop}
  {goal : β → List σ → Prop}

theorem pure {a : α} (h : post a []) : Tells R (Pure.pure a : Parser α) c post := by
  rintro - _ _ ⟨⟩
  exact ⟨[], R.nil _, h⟩

theorem throw (failure : ParseFailure) : Tells R (MonadExcept.throw failure : Parser α) c post := by
  rintro - _ _ ⟨⟩

/-- What follows a parser is run at a place where the parser has stopped. -/
theorem bind_run (hp : p.Tells R c mid)
    (hf : ∀ a c' ss, p c = .ok a c' → mid a ss → (f a).Tells R c' fun b ss' => goal b (ss ++ ss')) :
    (p >>= f).Tells R c goal := by
  intro hc b c' h
  obtain ⟨a, m, hrun, h⟩ := bind_eq_ok.mp h
  obtain ⟨ss, hnoted, hmid⟩ := hp hc a m hrun
  obtain ⟨ss', hnoted', hgoal⟩ := hf a m ss hrun hmid (hc.of_suffix (R.suffix hnoted)) b c' h
  exact ⟨ss ++ ss', R.append hnoted hnoted', hgoal⟩

theorem bind (hp : p.Tells R c mid)
    (hf : ∀ a c' ss, mid a ss → (f a).Tells R c' fun b ss' => goal b (ss ++ ss')) :
    (p >>= f).Tells R c goal :=
  hp.bind_run fun a c' ss _ hmid => hf a c' ss hmid

theorem imp (hp : p.Tells R c mid) (h : ∀ a ss, mid a ss → post a ss) : p.Tells R c post := by
  intro hc a c' hrun
  obtain ⟨ss, hnoted, hmid⟩ := hp hc a c' hrun
  exact ⟨ss, hnoted, h a ss hmid⟩

theorem ite {b : Prop} [Decidable b] (hp : b → p.Tells R c post) (hq : ¬ b → q.Tells R c post) :
    (if b then p else q).Tells R c post := by
  split
  · next hb => exact hp hb
  · next hb => exact hq hb

/-- A parser that reads nothing is followed by the next one at the same place. -/
theorem of_ok {a : α} (h : p c = .ok a c) (hf : (f a).Tells R c goal) :
    (p >>= f).Tells R c goal := by
  intro hc b c' hrun
  rw [bind_ok h] at hrun
  exact hf hc b c' hrun

theorem current {f : Token → Parser β} (hf : (f c.current).Tells R c goal) :
    (current >>= f).Tells R c goal :=
  of_ok (current_ok c) hf

theorem get {f : Cursor → Parser β} (hf : (f c).Tells R c goal) :
    (MonadState.get >>= f : Parser β).Tells R c goal :=
  of_ok (get_ok c) hf

theorem check {kinds : List TokenKind} {f : Bool → Parser β}
    (hf : (f (kinds.contains c.current.kind)).Tells R c goal) :
    (check kinds >>= f).Tells R c goal :=
  of_ok (check_ok kinds c) hf

/-- A token is read, and noted. -/
theorem read {f : Token → Parser β} {ss : List σ} (hkind : c.current.kind ≠ .eof)
    (hnoted : R.Noted ss (c.current :: c.advance.tokens) c.advance.tokens)
    (hf : (f c.current).Tells R c.advance fun b ss' => goal b (ss ++ ss')) :
    (advance >>= f).Tells R c goal := by
  intro hc b c' hrun
  rw [bind_ok (advance_ok c)] at hrun
  rw [← hc.advance hkind] at hnoted
  obtain ⟨ss', hnoted', hgoal⟩ := hf (hc.of_suffix (R.suffix hnoted)) b c' hrun
  exact ⟨ss ++ ss', R.append hnoted hnoted', hgoal⟩

/-- A token that is not reserved is read, and leaves no note. -/
theorem advance {f : Token → Parser β} (hkind : c.current.kind ∉ reserved)
    (hf : (f c.current).Tells R c.advance goal) : (advance >>= f).Tells R c goal :=
  read (List.ne_of_not_mem_cons hkind) (R.plain _ hkind) hf

/-- Two tokens are read, and noted together. -/
theorem read₂ {f : Token → Token → Parser β} {ss : List σ} (hkind : c.current.kind ≠ .eof)
    (hnext : c.advance.current.kind ≠ .eof) (hnoted : R.Noted ss
      (c.current :: c.advance.current :: c.advance.advance.tokens) c.advance.advance.tokens)
    (hf : (f c.current c.advance.current).Tells R c.advance.advance fun b ss' =>
      goal b (ss ++ ss')) :
    (do let t ← Parser.advance; let u ← Parser.advance; f t u).Tells R c goal := by
  intro hc b c' hrun
  rw [bind_ok (advance_ok c), bind_ok (advance_ok _)] at hrun
  have htokens := hc.advance hkind
  have hended : c.advance.Ended := hc.of_suffix ⟨[c.current], htokens.symm⟩
  rw [← hended.advance hnext, ← htokens] at hnoted
  obtain ⟨ss', hnoted', hgoal⟩ := hf (hc.of_suffix (R.suffix hnoted)) b c' hrun
  exact ⟨ss ++ ss', R.append hnoted hnoted', hgoal⟩

/-- A token of the expected kind is read, and noted. -/
theorem expect {kind : TokenKind} {f : Token → Parser β} {ss : List σ} (hkind : kind ≠ .eof)
    (hnoted : c.current.kind = kind → R.Noted ss (c.current :: c.advance.tokens) c.advance.tokens)
    (cause : SyntaxCause)
    (hf : c.current.kind = kind → (f c.current).Tells R c.advance fun b ss' => goal b (ss ++ ss')) :
    (expect kind cause >>= f).Tells R c goal := by
  unfold Parser.expect
  rw [bind_assoc]
  refine current ?_
  rw [ite_bind]
  refine ite (fun heq => read (heq ▸ hkind) (hnoted heq) (hf heq)) fun _ => ?_
  unfold reject
  rw [bind_assoc]
  exact current (throw _)

theorem expectKeyword {k : Keyword} {f : Token → Parser β} {ss : List σ}
    (hnoted : c.current.kind = .keyword k →
      R.Noted ss (c.current :: c.advance.tokens) c.advance.tokens)
    (hf : c.current.kind = .keyword k →
      (f c.current).Tells R c.advance fun b ss' => goal b (ss ++ ss')) :
    (expectKeyword k >>= f).Tells R c goal := by
  unfold Parser.expectKeyword
  rw [bind_assoc]
  exact current (expect (by simp) hnoted _ hf)

/-- A token of a given kind is read, and noted, or the parser goes on without it. -/
theorem accept {kind : TokenKind} {f : Bool → Parser β} {ss : List σ} (hkind : kind ≠ .eof)
    (hnoted : c.current.kind = kind → R.Noted ss (c.current :: c.advance.tokens) c.advance.tokens)
    (htrue : c.current.kind = kind → (f true).Tells R c.advance fun b ss' => goal b (ss ++ ss'))
    (hfalse : c.current.kind ≠ kind → (f false).Tells R c goal) :
    (accept kind >>= f).Tells R c goal := by
  unfold Parser.accept
  rw [bind_assoc]
  refine current ?_
  rw [ite_bind]
  refine ite (fun heq => ?_) fun hne => ?_
  · rw [bind_assoc]
    refine read (heq ▸ hkind) (hnoted heq) ?_
    rw [pure_bind]
    exact htrue heq
  · rw [pure_bind]
    exact hfalse hne

end Tells

/-- A parser leaves no notes, wherever it is run. -/
def Fills (R : Recording σ) (p : Parser α) : Prop :=
  ∀ c, p.Tells R c fun _ ss => ss = []

namespace Fills

variable {p q : Parser α} {f : α → Parser β} {c : Cursor} {goal : β → List σ → Prop}

/-- What leaves no notes makes no difference to the notes of what follows. -/
theorem bind (hp : p.Fills R) (hf : ∀ a c', (f a).Tells R c' goal) : (p >>= f).Tells R c goal := by
  refine (hp c).bind fun a c' ss hss => ?_
  subst hss
  exact hf a c'

theorem pure (a : α) : Fills R (Pure.pure a : Parser α) :=
  fun _ => Tells.pure rfl

theorem throw (failure : ParseFailure) : Fills R (MonadExcept.throw failure : Parser α) :=
  fun _ => Tells.throw failure

theorem reject (cause : SyntaxCause) : Fills R (reject cause : Parser α) :=
  fun _ => Tells.current (Tells.throw _)

/-- A token of the expected kind that leaves no note. -/
theorem expect_of {kind : TokenKind} (hkind : kind ≠ .eof)
    (hnoted : ∀ t ts, t.kind = kind → R.Noted [] (t :: ts) ts) (cause : SyntaxCause) :
    (expect kind cause).Fills R := by
  intro c
  have hread : (expect kind cause >>= Pure.pure : Parser Token).Tells R c fun _ ss => ss = [] :=
    Tells.expect hkind (hnoted _ _) cause fun _ => Tells.pure rfl
  rwa [bind_pure] at hread

theorem expect {kind : TokenKind} (hkind : kind ∉ reserved) (cause : SyntaxCause) :
    (expect kind cause).Fills R :=
  expect_of (List.ne_of_not_mem_cons hkind) (fun _ ts heq => R.plain ts (heq ▸ hkind)) cause

theorem accept {kind : TokenKind} (hkind : kind ∉ reserved) : (accept kind).Fills R :=
  fun _ => Tells.current
    (Tells.ite (fun heq => Tells.advance (heq ▸ hkind) (Tells.pure rfl)) fun _ => Tells.pure rfl)

theorem skipNewlines : skipNewlines.Fills R := by
  rintro c - _ _ ⟨⟩
  exact ⟨[], R.skipNewlines c, rfl⟩

end Fills

/-- A token of the expected kind is passed over if it leaves no note. -/
theorem Tells.past {kind : TokenKind} (hkind : kind ∉ reserved) {cause : SyntaxCause}
    {f : Token → Parser β} {c : Cursor} {goal : β → List σ → Prop}
    (hf : ∀ t c', (f t).Tells R c' goal) : (Parser.expect kind cause >>= f).Tells R c goal :=
  (Fills.expect hkind cause).bind hf

end Parser

/-! ## Expressions -/

section Expressions

variable {σ α : Type} {R : Recording σ} {n : Nat}

theorem moreItems_fills {item : Parser α} (hitem : item.Fills R) (n : Nat) :
    (moreItems item n).Fills R := by
  induction n with
  | zero => exact .throw _
  | succ n ih =>
    refine fun c => (Fills.accept (by decide)).bind fun b c' =>
      .ite (fun _ => ?_) fun _ => .pure rfl
    exact hitem.bind fun x _ => ih.bind fun xs _ => .pure rfl

theorem items_fills {item : Parser α} (hitem : item.Fills R) (n : Nat) : (items item n).Fills R :=
  fun _ => hitem.bind fun _ _ => (moreItems_fills hitem n).bind fun _ _ => .pure rfl

theorem indexList_fills {expr : Parser Expr} (hexpr : expr.Fills R) : (indexList expr n).Fills R :=
  fun _ => (items_fills hexpr n).bind fun _ _ => .past (by decide) fun _ _ => .pure rfl

theorem argumentList_fills {expr : Parser Expr} (hexpr : expr.Fills R) :
    (argumentList expr n).Fills R := by
  have hclose : ∀ es : List Expr,
      (do let _ ← expect (.symbol .rparen) .parenAfterArguments; return es : Parser
      (List Expr)).Fills R :=
    fun es c => .past (by decide) fun _ _ => .pure rfl
  refine fun c => .check (.ite (fun _ => hclose [] c) fun _ => ?_)
  exact (items_fills hexpr n).bind fun es c' => hclose es c'

theorem numberLiteral_fills (t : Token) : (numberLiteral t).Fills R := by
  unfold numberLiteral
  split
  · dsimp only
    split
    · exact .pure _
    · exact .throw _
  · exact .throw _

theorem primary_fills {expr : Parser Expr} (hexpr : expr.Fills R) : (primary expr n).Fills R := by
  intro c
  refine Tells.current ?_
  split
  · next hkind =>
    refine .advance (by rw [hkind]; decide) (hexpr.bind fun e _ => ?_)
    exact .past (by decide) fun _ _ => .pure rfl
  · next hkind => exact .advance (by rw [hkind]; decide) (numberLiteral_fills _ _)
  · next hkind => exact .advance (by rw [hkind]; decide) (.pure rfl)
  · next hkind => exact .advance (by rw [hkind]; decide) (.pure rfl)
  · next hkind =>
    refine .advance (by rw [hkind]; decide) ?_
    refine (Fills.accept (by decide)).bind fun b _ => .ite (fun _ => ?_) fun _ => ?_
    · exact (indexList_fills hexpr).bind fun es _ => .pure rfl
    refine (Fills.accept (by decide)).bind fun b _ => .ite (fun _ => ?_) fun _ => .pure rfl
    exact (argumentList_fills hexpr).bind fun es _ => .pure rfl
  · refine .get (.ite (fun hword => ?_) fun _ => Fills.reject _ c)
    simp only [Bool.and_eq_true, List.contains_eq_mem, decide_eq_true_eq] at hword
    have hall : ∀ kind ∈ conversionWords, kind ∉ reserved := by decide
    have hahead : c.advance.current.kind ∉ reserved := by
      rw [← Cursor.ahead_eq, hword.2]
      decide
    refine .advance (hall _ hword.1) (.advance hahead ?_)
    exact (argumentList_fills hexpr).bind fun es _ => .pure rfl

theorem unary_fills {expr : Parser Expr} (hexpr : expr.Fills R) (k : Nat) :
    (unary expr n k).Fills R := by
  induction k with
  | zero => exact .throw _
  | succ k ih =>
    refine fun c => .check (.ite (fun hminus => ?_) fun _ => primary_fills hexpr c)
    have hkind : c.current.kind = .symbol .minus := by simpa using hminus
    exact .advance (by rw [hkind]; decide) (ih.bind fun e _ => .pure rfl)

/-- A token that binds as a binary operator is not reserved. -/
theorem not_mem_reserved_of_bindingPower {kind : TokenKind} (h : 0 ≤ bindingPower kind) :
    kind ∉ reserved := by
  have hall : ∀ kind ∈ reserved, ¬ 0 ≤ bindingPower kind := by decide
  exact fun hmem => hall kind hmem h

variable {expr : Int → Parser Expr} (hexpr : ∀ power, 0 ≤ power → (expr power).Fills R)
include hexpr

theorem operand_fills : (operand expr n).Fills R := by
  refine fun c => .check (.ite (fun hnot => ?_) fun _ => unary_fills (hexpr 0 (by decide)) n c)
  have hkind : c.current.kind = .keyword .notKw := by simpa using hnot
  exact .advance (by rw [hkind]; decide) ((hexpr notPower (by decide)).bind fun e _ => .pure rfl)

theorem climb_fills {power : Int} (hpower : 0 ≤ power) (k : Nat) (l : Expr) :
    (climb expr power k l).Fills R := by
  induction k generalizing l with
  | zero => exact .throw _
  | succ k ih =>
    refine fun c => .current (.ite (fun _ => .pure rfl) fun hge => ?_)
    have hbinds : 0 ≤ bindingPower c.current.kind := Int.le_trans hpower (Int.not_lt.mp hge)
    have hright : 0 ≤ rightPower c.current.kind := by
      unfold rightPower
      split <;> omega
    refine .advance (not_mem_reserved_of_bindingPower hbinds) ?_
    exact (hexpr _ hright).bind fun r _ => ih _ _

end Expressions

/-- **Reading an expression leaves no notes.** -/
theorem expression_fills {σ : Type} (R : Recording σ) (n : Nat) {power : Int} (hpower : 0 ≤ power) :
    (expression n power).Fills R := by
  induction n generalizing power with
  | zero => exact .throw _
  | succ n ih =>
    exact fun c => (operand_fills fun power hpower => ih hpower).bind fun l c' =>
      climb_fills (fun power hpower => ih hpower) hpower n l c'

/-! ## Parts of statements -/

section Statements

variable {σ : Type} {R : Recording σ} {n : Nat}

theorem anyExpression_fills : (anyExpression n).Fills R :=
  expression_fills R n (by decide)

theorem typeName_fills : typeName.Fills R := by
  refine fun c => .check (.ite (fun hmem => ?_) fun _ => .current (Fills.reject _ c))
  refine .advance (fun hreserved => ?_) (.pure rfl)
  have hall : ∀ kind ∈ reserved, [TokenKind.keyword .integerKw, .keyword .realKw,
      .keyword .stringKw, .keyword .charKw, .keyword .booleanKw].contains kind = false := by decide
  rw [hall _ hreserved] at hmem
  cases hmem

theorem arrayBound_fills : (arrayBound n).Fills R := by
  refine fun c => .current (anyExpression_fills.bind fun e c' => ?_)
  split
  · exact .pure rfl
  · exact .pure rfl
  · exact .throw _

theorem dimension_fills : (dimension n).Fills R :=
  fun _ => arrayBound_fills.bind fun _ _ => .past (by decide) fun _ _ =>
    arrayBound_fills.bind fun _ _ => .pure rfl

theorem target_fills : (target n).Fills R :=
  fun _ => .past (by decide) fun _ _ => (Fills.accept (by decide)).bind fun _ _ =>
    .ite (fun _ => (indexList_fills anyExpression_fills).bind fun _ _ => .pure rfl)
      fun _ => .pure rfl

theorem nextName_fills (x : String) : (nextName x).Fills R := by
  refine fun c => .check (.ite (fun hname => ?_) fun _ => .pure rfl)
  have hkind : c.current.kind = .identifier := by simpa using hname
  exact .advance (by rw [hkind]; decide) (.ite (fun _ => .pure rfl) fun _ => .throw _)

theorem conditionThen_fills : (conditionThen n).Fills R :=
  fun _ => anyExpression_fills.bind fun _ _ => Fills.skipNewlines.bind fun _ _ =>
    .past (by decide) fun _ _ => .pure rfl

theorem stepPart_fills (line : Int) : (stepPart line n).Fills R :=
  fun _ => (Fills.accept (by decide)).bind fun _ c' =>
    .ite (fun _ => anyExpression_fills c') fun _ => .pure rfl

theorem param_fills : param.Fills R := by
  have hmode : passMode.Fills R := fun _ => (Fills.accept (by decide)).bind fun _ _ =>
    .ite (fun _ => .pure rfl) fun _ => (Fills.accept (by decide)).bind fun _ _ => .pure rfl
  rw [param_eq]
  refine fun c => hmode.bind fun mode _ => .past (by decide) fun name _ => ?_
  refine .past (by decide) fun _ _ => (Fills.accept (by decide)).bind fun _ _ => ?_
  refine .ite (fun _ => ?_) fun _ => typeName_fills.bind fun _ _ => .pure rfl
  exact .past (by decide) fun _ _ => typeName_fills.bind fun _ _ => .pure rfl

theorem optionalParams_fills : (optionalParams n).Fills R := by
  have hlist : (paramList n).Fills R :=
    fun c => .check (.ite (fun _ => .pure rfl) fun _ => items_fills param_fills n c)
  rw [optionalParams_eq]
  refine fun c => (Fills.accept (by decide)).bind fun _ _ => .ite (fun _ => ?_) fun _ => .pure rfl
  exact hlist.bind fun _ _ => .past (by decide) fun _ _ => .pure rfl

theorem caseLabel_fills : (caseLabel n).Fills R := by
  refine fun c =>
    .current (anyExpression_fills.bind fun _ _ => (Fills.accept (by decide)).bind fun _ _ => ?_)
  exact .ite (fun _ => anyExpression_fills.bind fun _ _ => .pure rfl) fun _ => .pure rfl

end Statements

/-- A block is read up to a place where it stops. -/
theorem blockUntil_stops {stop : Cursor → Bool} {stmt : Parser Block} {k : Nat} {c c' : Cursor}
    {b : Block} (h : blockUntil stop stmt k c = .ok b c') : stop c' = true := by
  induction k generalizing c b with
  | zero => cases h
  | succ k ih =>
    obtain ⟨_, m, -, h⟩ := bind_eq_ok.mp h
    obtain ⟨_, m, hget, h⟩ := bind_eq_ok.mp h
    cases hget
    split at h
    · next hstop =>
      cases h
      exact hstop
    · obtain ⟨first, m, -, h⟩ := bind_eq_ok.mp h
      obtain ⟨rest, m, hrest, heq⟩ := bind_eq_ok.mp h
      cases heq
      exact ih hrest

/-- A whole program is read up to an end of the input. -/
theorem eof_of_runOn {tokens : List Token} {b : Block} {c : Cursor}
    (h : runOn program tokens = .ok b c) : c.current.kind = .eof := by
  have hrun :
    block (statement (stepBound tokens)) [] (stepBound tokens) (Cursor.start tokens) = .ok b c := h
  rw [block_eq] at hrun
  simpa [stopsAt] using blockUntil_stops hrun

end Pseudocode
