import Pseudocode.Proofs.Advancing
import Pseudocode.Proofs.Rereading

/-!
# What the parser makes

Every rule of the parser has one statement here, in the logic `Parser.Proceeds`: how it moves, and
what it makes. What reads an expression or a statement moves on by at least one token, so the bound
on the number of steps is never met. And if the tokens carry what the scanner puts into them
(`AllProper`), every tree that is made can be written.

Two facts need more than the form of a tree. An expression ends before a token that binds more
loosely than its operators, so each operator of its left spine binds at least as tightly as the ones
further out, and the spine is written without parentheses. Hence an expression that starts with a
literal or a negative number is written with one in front, which is what ends a CASE branch when the
next label is written.

Results: `expression_moves`, `statement_moves`, `program_proceeds` and `writable_of_parseSource`.
-/

namespace Pseudocode

open Parse Pseudocode.Parser

/-- Every token carries what the scanner puts into it. -/
def AllProper (tokens : List Token) : Prop :=
  ∀ t ∈ tokens, t.Proper

namespace Parser

variable {α : Type}

/-- A parser moves on from every place with fewer tokens after it than `n` allows. -/
def Moves (tokens : List Token) (n : Nat) (p : Parser α) : Prop :=
  ∀ c : Cursor, c.left + 2 ≤ n → p.Proceeds tokens c fun _ c' => c'.left < c.left

/-- A parser moves on from every place with fewer tokens after it than `n` allows, and what it makes
is good if the tokens are proper. -/
def Yields (tokens : List Token) (n : Nat) (p : Parser α) (good : α → Prop) : Prop :=
  ∀ c : Cursor, c.left + 2 ≤ n → p.Proceeds tokens c fun a c' => c'.left < c.left ∧
    (AllProper tokens → good a)

theorem Yields.moves {tokens : List Token} {n : Nat} {p : Parser α} {good : α → Prop}
    (h : p.Yields tokens n good) : p.Moves tokens n :=
  fun c hn => (h c hn).imp fun _ _ _ ha => ha.1

end Parser

/-! ## Tokens -/

theorem Token.Proper.name {t : Token} (ht : t.Proper) (hkind : t.kind = .identifier) :
    IsName t.text := by
  rw [Token.Proper, hkind] at ht
  obtain ⟨w, hvalue, hw⟩ := ht
  rw [Token.text, hvalue]
  exact hw

theorem Token.Proper.word {t : Token} (ht : t.Proper) {k : Keyword} (hkind : t.kind = .keyword k) :
    t.text = k.word := by
  rw [Token.Proper, hkind] at ht
  rw [Token.text, ht]
  rfl

/-- A token that binds as a binary operator stands for one. -/
theorem Token.Proper.operator {t : Token} (ht : t.Proper) (hpower : 0 ≤ bindingPower t.kind) :
    BinaryOp.ofSymbol t.text ∈ BinaryOp.known ∧ (BinaryOp.ofSymbol t.text).kind = t.kind := by
  cases hkind : t.kind with
  | keyword k =>
    have hall : ∀ k ∈ Keyword.all, 0 ≤ bindingPower (.keyword k) →
        BinaryOp.ofSymbol k.word ∈ BinaryOp.known ∧
          (BinaryOp.ofSymbol k.word).kind = .keyword k := by decide
    rw [ht.word hkind]
    exact hall k k.mem_all (hkind ▸ hpower)
  | symbol s =>
    have hall : ∀ p ∈ symbolTexts, 0 ≤ bindingPower (.symbol p.1) →
        BinaryOp.ofSymbol p.2 ∈ BinaryOp.known ∧
          (BinaryOp.ofSymbol p.2).kind = .symbol p.1 := by decide
    rw [Token.Proper, hkind] at ht
    obtain ⟨text, hvalue, hmem⟩ := ht
    rw [Token.text, hvalue]
    exact hall (s, text) hmem (hkind ▸ hpower)
  | _ =>
    rw [hkind] at hpower
    exact absurd hpower (by decide)

theorem isLiteral_of_numeral {cs : List Char} (h : IsNumeral cs) {v : Value}
    (hv : numeralValue? (String.ofList cs) = some v) : v.IsLiteral ∧ v.isNumber = true := by
  unfold numeralValue? at hv
  obtain ⟨whole, hne, hw, rfl | ⟨fraction, hf, rfl⟩⟩ := h
  · rw [contains_point_digits hw, if_neg (by decide), Number.liberalWhole?_digits hne hw] at hv
    split at hv
    · cases hv
    · next hshort =>
      cases hv
      exact ⟨⟨Int.natCast_nonneg _, Number.digitsValue_lt_writeLimit hw (Nat.not_lt.mp hshort)⟩,
        rfl⟩
  · rw [contains_point_decimal, if_pos rfl, Number.liberalReal?_decimal hne hw hf] at hv
    cases hv
    exact ⟨Number.isMagnitude_ofDecimal _ _, rfl⟩

/-! ## Expressions -/

section Expressions

variable {tokens : List Token} {n : Nat} {c : Cursor}

theorem numberLiteral_proceeds {t : Token} (ht : t ∈ tokens) (hkind : t.kind = .number) :
    (numberLiteral t).Proceeds tokens c fun e c' =>
      c' = c ∧
          (AllProper tokens → ∃ v, e = .literal t.line v ∧ v.IsLiteral ∧ v.isNumber = true) := by
  unfold numberLiteral
  split
  · next s hs =>
    dsimp only
    split
    · next v hv =>
      refine .pure ⟨rfl, fun hproper => ?_⟩
      have hp := hproper t ht
      rw [Token.Proper, hkind] at hp
      obtain ⟨cs, hvalue, hcs⟩ := hp
      rw [hs] at hvalue
      cases hvalue
      exact ⟨v, rfl, isLiteral_of_numeral hcs hv⟩
    · next hnone => exact .throw fun _ => ⟨t, ht, hkind, s, hs, hnone⟩
  · next hnone => exact .throw fun _ => ⟨t, ht, hkind, hnone⟩

theorem moreItems_proceeds {α : Type} {item : Parser α} {good : α → Prop}
    (hitem : item.Yields tokens n good) (k : Nat) (c : Cursor)
    (hn : c.left + 2 ≤ n) (hk : c.left < k) :
    (moreItems item k).Proceeds tokens c fun xs _ => AllProper tokens → ∀ x ∈ xs, good x := by
  induction k generalizing c with
  | zero => omega
  | succ k ih =>
    refine (Proceeds.accept (by simp)).bind fun b m hm hb =>
      .ite (fun h => ?_) fun _ => .pure (by simp)
    have := hb.1 h
    refine (hitem m (by omega)).bind fun x m' _ hx =>
      (ih m' (by omega) (by omega)).bind fun xs _ _ hxs => ?_
    exact .pure fun hp => List.forall_mem_cons.mpr ⟨hx.2 hp, hxs hp⟩

theorem items_yields {α : Type} {item : Parser α} {good : α → Prop}
    (hitem : item.Yields tokens n good) :
    (items item n).Yields tokens n fun xs => xs ≠ [] ∧ ∀ x ∈ xs, good x := by
  refine fun c hn => (hitem c hn).bind fun x m _ hx => ?_
  refine (moreItems_proceeds hitem n m (by omega) (by omega)).bind fun xs m' _ hxs =>
    .pure ⟨by omega, fun hp => ?_⟩
  exact ⟨List.cons_ne_nil x xs, List.forall_mem_cons.mpr ⟨hx.2 hp, hxs hp⟩⟩

/-- What is known of an expression that is read at `c`, up to `c'`, with operators that bind at
least as tightly as `power`. -/
structure Expr.ReadAt (power : Int) (c : Cursor) (e : Expr) (c' : Cursor) : Prop where
  writable : e.Writable
  ends : bindingPower c'.current.kind < power
  opens : labelStarts c = true → e.opensLabel = true

/-- A parser for expressions that moves on, and whose results are as `Expr.ReadAt` says. -/
def MakesExprs (tokens : List Token) (n : Nat) (expr : Int → Parser Expr) : Prop :=
  ∀ power c, 0 ≤ power → c.left + 2 ≤ n → (expr power).Proceeds tokens c fun e c' =>
    c'.left < c.left ∧ (AllProper tokens → Expr.ReadAt power c e c')

variable {expr : Int → Parser Expr}

theorem MakesExprs.yields (hexpr : MakesExprs tokens n expr) :
    (expr 0).Yields tokens n Expr.Writable :=
  fun c hn => (hexpr 0 c (by decide) hn).imp fun _ _ _ h => ⟨h.1, fun hp => (h.2 hp).writable⟩

theorem indexList_yields (hexpr : MakesExprs tokens n expr) :
    (indexList (expr 0) n).Yields tokens n fun es => es ≠ [] ∧ ∀ e ∈ es, e.Writable :=
  fun c hn => (items_yields hexpr.yields c hn).bind fun _ m _ hes =>
    .past (by simp) fun _ m' _ => .pure ⟨by omega, hes.2⟩

theorem argumentList_yields (hexpr : MakesExprs tokens n expr) :
    (argumentList (expr 0) n).Yields tokens n fun es => ∀ e ∈ es, e.Writable := by
  intro c hn
  have hclose : ∀ (es : List Expr) (m : Cursor), m.left ≤ c.left →
      (AllProper tokens → ∀ e ∈ es, e.Writable) →
      (do let _ ← expect (.symbol .rparen) .parenAfterArguments; return es :
        Parser (List Expr)).Proceeds tokens m fun es c' =>
          c'.left < c.left ∧ (AllProper tokens → ∀ e ∈ es, e.Writable) :=
    fun es m _ hes => .past (by simp) fun _ m' _ => .pure ⟨by omega, hes⟩
  refine (Proceeds.check _).bind ?_
  rintro b m - ⟨rfl, -⟩
  refine .ite (fun _ => hclose [] m (Nat.le_refl _) (by simp)) fun _ => ?_
  exact (items_yields hexpr.yields m hn).bind fun es m' hm' hes =>
    hclose es m' hm' fun hp => (hes.2 hp).2

/-- What is known of a primary expression that is read at `c`: at a literal it is one. -/
structure Expr.PrimaryAt (c : Cursor) (e : Expr) : Prop where
  writable : e.Writable
  literal : [TokenKind.number, .string, .boolean].contains c.current.kind = true →
    ∃ line v, e = .literal line v ∧ (c.current.kind = .number → v.isNumber = true)

theorem Expr.PrimaryAt.of_ne {c : Cursor} {e : Expr} (he : e.Writable)
    (h : [TokenKind.number, .string, .boolean].contains c.current.kind = false) : e.PrimaryAt c :=
  ⟨he, fun hliteral => by rw [h] at hliteral; cases hliteral⟩

theorem primary_proceeds (hexpr : MakesExprs tokens n expr) (c : Cursor) (hn : c.left < n) :
    (primary (expr 0) n).Proceeds tokens c fun e c' => c'.left < c.left ∧
      (AllProper tokens → e.PrimaryAt c) := by
  unfold primary
  refine Proceeds.current.bind ?_
  rintro t c - ⟨rfl, rfl, ht⟩
  split
  · next hkind =>
    refine (Proceeds.advance (by simp [hkind])).bind fun _ m _ hm => ?_
    refine (hexpr.yields m (by omega)).bind fun e m' _ he => ?_
    refine .past (by simp) fun _ m'' _ => ?_
    exact .pure ⟨by omega, fun hp => .of_ne (he.2 hp) (by rw [hkind]; rfl)⟩
  · next hkind =>
    refine (Proceeds.advance (by simp [hkind])).bind fun _ m _ hm =>
      (numberLiteral_proceeds ht hkind).imp ?_
    rintro e _ - ⟨rfl, he⟩
    refine ⟨hm.1, fun hp => ?_⟩
    obtain ⟨v, rfl, hv, hnumber⟩ := he hp
    exact ⟨.literal _ hv, fun _ => ⟨_, v, rfl, fun _ => hnumber⟩⟩
  · next hkind =>
    refine (Proceeds.advance (by simp [hkind])).bind fun _ m _ hm => .pure ⟨hm.1, fun hp => ?_⟩
    have hp := hp _ ht
    rw [Token.Proper, hkind] at hp
    obtain ⟨w, hvalue, hw⟩ := hp
    rw [hvalue]
    exact ⟨.literal _ hw, fun _ =>
      ⟨_, _, rfl, fun hnumber => by rw [hkind] at hnumber; cases hnumber⟩⟩
  · next hkind =>
    refine (Proceeds.advance (by simp [hkind])).bind fun _ m _ hm => .pure ⟨hm.1, fun hp => ?_⟩
    have hp := hp _ ht
    rw [Token.Proper, hkind] at hp
    obtain ⟨b, hvalue⟩ := hp
    rw [hvalue]
    exact ⟨.literal _ trivial, fun _ =>
      ⟨_, _, rfl, fun hnumber => by rw [hkind] at hnumber; cases hnumber⟩⟩
  · next hkind =>
    have hnone : [TokenKind.number, .string, .boolean].contains c.current.kind = false := by
      rw [hkind]
      rfl
    refine (Proceeds.advance (by simp [hkind])).bind fun _ m _ hm => ?_
    refine (Proceeds.accept (by simp)).bind fun b m' _ _ => .ite (fun _ => ?_) fun _ => ?_
    · refine (indexList_yields hexpr m' (by omega)).bind fun es m'' _ hes =>
        .pure ⟨by omega, fun hp => ?_⟩
      exact .of_ne (.element _ ((hp _ ht).name hkind) (hes.2 hp).1 (hes.2 hp).2) hnone
    refine (Proceeds.accept (by simp)).bind fun b m'' _ _ => .ite (fun _ => ?_) fun _ => ?_
    · refine (argumentList_yields hexpr m'' (by omega)).bind fun es m₃ _ hes =>
        .pure ⟨by omega, fun hp => ?_⟩
      exact .of_ne (.call _ (.inl ((hp _ ht).name hkind)) (hes.2 hp)) hnone
    · exact .pure ⟨by omega, fun hp => .of_ne (.var _ ((hp _ ht).name hkind)) hnone⟩
  · refine Proceeds.get (fun hc more => ?_) (.ite (fun hword => ?_) fun _ => .reject _)
    · rw [hc.test_followedBy fun heof => by rw [heof]; decide]
    simp only [Bool.and_eq_true, List.contains_eq_mem, decide_eq_true_eq] at hword
    have hall : ∀ kind ∈ conversionWords, kind ≠ .eof ∧ (∃ k ∈ Keyword.all, kind = .keyword k) ∧
        [TokenKind.number, .string, .boolean].contains kind = false := by decide
    obtain ⟨hkind, ⟨k, -, hk⟩, hnone⟩ := hall _ hword.1
    have hahead : c.advance.current.kind ≠ .eof := by
      rw [← Cursor.ahead_eq, hword.2]
      simp
    refine (Proceeds.advance hkind).bind ?_
    rintro _ m - ⟨hm, rfl, -⟩
    refine (Proceeds.advance hahead).bind fun _ m' _ hm' => ?_
    refine (argumentList_yields hexpr m' (by omega)).bind fun es m'' _ hes =>
      .pure ⟨by omega, fun hp => ?_⟩
    exact .of_ne (.call _ (.inr ⟨k, hk ▸ hword.1, (hp _ ht).word hk⟩) (hes.2 hp)) hnone

/-- What is known of an operand that is read at `c`: where a label starts, it is a literal or a
negative number. -/
structure Expr.OperandAt (c : Cursor) (e : Expr) : Prop where
  writable : e.Writable
  opens : labelStarts c = true → e.opensLabel = true ∧ e.isTight = true
  number : c.current.kind = .number → ∃ line v, e = .literal line v ∧ v.isNumber = true

theorem Expr.PrimaryAt.operandAt {c : Cursor} {e : Expr} (he : e.PrimaryAt c)
    (hminus : c.current.kind ≠ .symbol .minus) : e.OperandAt c where
  writable := he.writable
  opens hstarts := by
    rw [labelStarts, decide_eq_false hminus, Bool.false_and, Bool.or_false] at hstarts
    obtain ⟨line, v, rfl, -⟩ := he.literal hstarts
    exact ⟨rfl, rfl⟩
  number hnumber := by
    obtain ⟨line, v, rfl, hv⟩ := he.literal (by rw [hnumber]; rfl)
    exact ⟨line, v, rfl, hv hnumber⟩

theorem Expr.OperandAt.neg {c : Cursor} {e : Expr} (he : e.OperandAt c.advance)
    (hminus : c.current.kind = .symbol .minus) (line : Int) :
    (Expr.unary line .neg e).OperandAt c where
  writable := .neg line he.writable
  opens hstarts := by
    have hnumber : c.advance.current.kind = .number := by
      rw [labelStarts, hminus, Cursor.ahead_eq] at hstarts
      simpa using hstarts
    obtain ⟨line', v, rfl, hv⟩ := he.number hnumber
    exact ⟨hv, rfl⟩
  number hnumber := by
    rw [hminus] at hnumber
    cases hnumber

theorem unary_proceeds (hexpr : MakesExprs tokens n expr) (k : Nat) (c : Cursor)
    (hn : c.left < n) (hk : c.left < k) :
    (unary (expr 0) n k).Proceeds tokens c fun e c' => c'.left < c.left ∧
      (AllProper tokens → e.OperandAt c) := by
  induction k generalizing c with
  | zero => omega
  | succ k ih =>
    refine (Proceeds.check _).bind ?_
    rintro b c - ⟨rfl, rfl⟩
    refine .ite (fun hminus => ?_) fun hminus => ?_
    · have hkind : c.current.kind = .symbol .minus := by simpa using hminus
      refine (Proceeds.advance (by simp [hkind])).bind ?_
      rintro t m - ⟨hm, rfl, -⟩
      refine (ih c.advance (by omega) (by omega)).bind fun e m' _ he =>
        .pure ⟨by omega, fun hp => ?_⟩
      exact (he.2 hp).neg hkind _
    · refine (primary_proceeds hexpr c hn).imp fun e _ _ he => ⟨he.1, fun hp => ?_⟩
      exact (he.2 hp).operandAt (by simpa using hminus)

theorem operand_proceeds (hexpr : MakesExprs tokens n expr) (c : Cursor) (hn : c.left < n) :
    (operand expr n).Proceeds tokens c fun e c' => c'.left < c.left ∧
      (AllProper tokens → e.OperandAt c) := by
  refine (Proceeds.check _).bind ?_
  rintro b c - ⟨rfl, rfl⟩
  refine .ite (fun hnot => ?_) fun _ => unary_proceeds hexpr n c hn hn
  have hkind : c.current.kind = .keyword .notKw := by simpa using hnot
  refine (Proceeds.advance (by simp [hkind])).bind fun t m _ hm => ?_
  refine (hexpr notPower m (by decide) (by omega)).bind fun e m' _ he =>
    .pure ⟨by omega, fun hp => ?_⟩
  refine ⟨.not _ (he.2 hp).writable, fun hstarts => ?_, fun hnumber => ?_⟩
  · rw [labelStarts, hkind] at hstarts
    cases hstarts
  · rw [hkind] at hnumber
    cases hnumber

/-- The expression read so far can be a left operand of the operator at `c` without parentheses, and
is written with a literal or a negative number in front. -/
structure Expr.JoinsAt (c : Cursor) (e : Expr) : Prop where
  opens : e.opensLabel = true
  bare : ∀ op ∈ BinaryOp.known, op.kind = c.current.kind →
    needsParens op.leftPower op.power e = false

theorem Expr.OperandAt.joinsAt {c : Cursor} {e : Expr} (he : e.OperandAt c)
    (hstarts : labelStarts c = true) (c' : Cursor) : e.JoinsAt c' where
  opens := (he.opens hstarts).1
  bare op _ _ := by
    have htight := (he.opens hstarts).2
    cases he.writable with
    | binary line hop hl hr => cases htight
    | not line he => cases htight
    | _ => rfl

/-- A right operand ends before a token that does not bind more tightly than its operator. -/
theorem Expr.JoinsAt.binary {c c' : Cursor} {l r : Expr} {op : BinaryOp} (hl : l.JoinsAt c)
    (hop : op ∈ BinaryOp.known) (hkind : op.kind = c.current.kind)
    (hends : bindingPower c'.current.kind < op.rightPower) (line : Int) :
    (Expr.binary line l op r).JoinsAt c' where
  opens := by rw [Expr.opensLabel, hl.opens, hl.bare op hop hkind]; rfl
  bare next hnext hnextKind := by
    have hall : ∀ op ∈ BinaryOp.known, ∀ next ∈ BinaryOp.known, next.power < op.rightPower →
        next.leftPower ≤ op.power := by decide
    have hle := hall op hop next hnext (by rw [BinaryOp.power, hnextKind]; exact hends)
    simp only [needsParens, decide_eq_false_iff_not]
    omega

theorem climb_proceeds (hexpr : MakesExprs tokens n expr) {power : Int} (hpower : 0 ≤ power)
    (k : Nat) (l : Expr) (c : Cursor) (hn : c.left < n) (hk : c.left < k) :
    (climb expr power k l).Proceeds tokens c fun e c' => AllProper tokens → l.Writable →
      e.Writable ∧ bindingPower c'.current.kind < power ∧ (l.JoinsAt c → e.opensLabel = true) := by
  induction k generalizing l c with
  | zero => omega
  | succ k ih =>
    refine Proceeds.current.bind ?_
    rintro t c - ⟨rfl, rfl, ht⟩
    refine .ite (fun hlt => .pure fun _ hl => ⟨hl, hlt, fun h => h.opens⟩) fun hge => ?_
    have hbinds : 0 ≤ bindingPower c.current.kind := by omega
    have hkind : c.current.kind ≠ .eof := fun heof => by
      rw [heof] at hbinds
      exact absurd hbinds (by decide)
    have hright : 0 ≤ rightPower c.current.kind := by
      unfold rightPower
      split <;> omega
    refine (Proceeds.advance hkind).bind fun _ m _ hm => ?_
    refine (hexpr _ m hright (by omega)).bind fun r m' _ hr => ?_
    refine (ih _ m' (by omega) (by omega)).imp fun e c' _ he hp hl => ?_
    obtain ⟨hop, hopKind⟩ := (hp _ ht).operator hbinds
    obtain ⟨hwritable, hends, hopens⟩ := he hp (.binary _ hop hl (hr.2 hp).writable)
    have hrends : bindingPower m'.current.kind < (BinaryOp.ofSymbol c.current.text).rightPower := by
      rw [BinaryOp.rightPower, hopKind]
      exact (hr.2 hp).ends
    exact ⟨hwritable, hends, fun hjoins => hopens (hjoins.binary hop hopKind hrends _)⟩

end Expressions

/-- **Every expression that is read can be written**, ends where its operators end, and is written
with a literal or a negative number in front if it was read from one. Reading it moves on. -/
theorem expression_makes (tokens : List Token) (n : Nat) : MakesExprs tokens n (expression n) := by
  induction n with
  | zero => exact fun power c _ hn => absurd hn (by omega)
  | succ n ih =>
    intro power c hpower hn
    refine (operand_proceeds ih c (by omega)).bind fun l m _ hl => ?_
    refine (climb_proceeds ih hpower n l m (by omega) (by omega)).imp fun e c' _ he =>
      ⟨by omega, fun hp => ?_⟩
    obtain ⟨hwritable, hends, hopens⟩ := he hp (hl.2 hp).writable
    exact ⟨hwritable, hends, fun hstarts => hopens ((hl.2 hp).joinsAt hstarts m)⟩

/-- **Reading an expression moves on.** -/
theorem expression_moves (tokens : List Token) (n : Nat) {power : Int} (hpower : 0 ≤ power) :
    (expression n power).Moves tokens n :=
  fun c hn => (expression_makes tokens n power c hpower hn).imp fun _ _ _ h => h.1

/-! ## Simple statements -/

section Statements

variable {tokens : List Token} {n : Nat}

theorem anyExpression_yields : (anyExpression n).Yields tokens n Expr.Writable :=
  (expression_makes tokens n).yields

theorem name_yields (cause : SyntaxCause) :
    (expect .identifier cause).Yields tokens n fun t => IsName t.text :=
  fun _ _ => (Proceeds.expect (by simp) cause).imp fun _ _ _ ht =>
    ⟨ht.1, fun hp => (hp _ ht.2.2).name ht.2.1⟩

theorem typeName_proceeds (c : Cursor) :
    typeName.Proceeds tokens c fun type c' => c'.left < c.left ∧
      (AllProper tokens → IsTypeName type) := by
  refine (Proceeds.check _).bind ?_
  rintro b c - ⟨rfl, rfl⟩
  refine .ite (fun hmem => ?_) fun _ => Proceeds.current.bind fun _ _ _ _ => .reject _
  have hall : ∀ kind ∈ [TokenKind.keyword .integerKw, .keyword .realKw, .keyword .stringKw,
      .keyword .charKw, .keyword .booleanKw], kind ≠ .eof ∧
      ∃ k ∈ typeWords, kind = .keyword k := by decide
  obtain ⟨heof, k, hk, hkind⟩ := hall _ (List.contains_iff_mem.mp hmem)
  refine (Proceeds.advance heof).bind ?_
  rintro t m - ⟨hm, -, rfl, ht⟩
  exact .pure ⟨hm, fun hp => ⟨k, hk, (hp _ ht).word hkind⟩⟩

theorem arrayBound_yields :
    (arrayBound n).Yields tokens n fun b => b.natAbs < Number.writeLimit := by
  intro c hn
  refine Proceeds.current.bind ?_
  rintro t c - ⟨rfl, rfl, ht⟩
  refine (anyExpression_yields c hn).bind fun e m _ he => ?_
  split
  · refine .pure ⟨he.1, fun hp => ?_⟩
    cases he.2 hp with
    | literal line hv => exact hv.2
  · refine .pure ⟨he.1, fun hp => ?_⟩
    cases he.2 hp with
    | neg line he =>
      cases he with
      | literal line hv => rw [Int.natAbs_neg]; exact hv.2
  · exact .rejectAt ht _

theorem dimension_yields : (dimension n).Yields tokens n fun d =>
    d.1.natAbs < Number.writeLimit ∧ d.2.natAbs < Number.writeLimit :=
  fun c hn => (arrayBound_yields c hn).bind fun _ m _ hlower =>
    .past (by simp) fun _ m₁ _ =>
    (arrayBound_yields m₁ (by omega)).bind fun _ m₂ _ hupper =>
      .pure ⟨by omega, fun hp => ⟨hlower.2 hp, hupper.2 hp⟩⟩

theorem declareForms_yields :
    (declareForms n).Yields tokens (n + 1) fun fs => ∀ f ∈ fs, f.Writable := by
  intro c hn
  refine .pastKeyword fun _ m _ => ?_
  refine (name_yields (n := n) _ m (by omega)).bind fun first m₁ _ hfirst => ?_
  refine (moreItems_proceeds (name_yields (n := n) _) n m₁ (by omega) (by omega)).bind
    fun more m₂ _ hmore => ?_
  have hforms : ∀ {type : String} {shape : Shape}, AllProper tokens →
      IsTypeName type → shape.Writable →
      ∀ f ∈ ((first :: more).map Token.text).map fun name => Form.declare name type shape,
        f.Writable := by
    intro type shape hp htype hshape
    simp only [List.map_cons, List.forall_mem_cons, List.forall_mem_map]
    exact ⟨.declare (hfirst.2 hp) htype hshape, fun t ht => .declare (hmore hp t ht) htype hshape⟩
  refine .past (by simp) fun _ m₃ _ => ?_
  refine (Proceeds.accept (by simp)).bind fun b m₄ _ _ => .ite (fun _ => ?_) fun _ => ?_
  · refine .past (by simp) fun _ m₅ _ => ?_
    refine (items_yields dimension_yields m₅ (by omega)).bind fun bounds m₆ _ hbounds => ?_
    refine .past (by simp) fun _ m₇ _ => ?_
    refine .past (by simp) fun _ m₈ _ => ?_
    refine (typeName_proceeds m₈).bind fun type m₉ _ htype => ?_
    exact .pure ⟨by omega, fun hp =>
      hforms hp (htype.2 hp) (.array (hbounds.2 hp).1 (hbounds.2 hp).2)⟩
  · exact (typeName_proceeds m₄).bind fun type m₅ _ htype =>
      .pure ⟨by omega, fun hp => hforms hp (htype.2 hp) .scalar⟩

theorem target_proceeds (c : Cursor) (hn : c.left < n) :
    (target n).Proceeds tokens c fun t c' => c'.left < c.left ∧
      (AllProper tokens → t.Writable) := by
  refine (name_yields (n := n + 1) _ c (by omega)).bind fun t m _ ht => ?_
  refine (Proceeds.accept (by simp)).bind fun b m₁ _ _ => .ite (fun _ => ?_) fun _ => ?_
  · refine (indexList_yields (expression_makes tokens n) m₁ (by omega)).bind fun es m₂ _ hes =>
      .pure ⟨by omega, ?_⟩
    exact fun hp => .element _ (ht.2 hp) (hes.2 hp).1 (hes.2 hp).2
  · exact .pure ⟨by omega, fun hp => .var _ (ht.2 hp)⟩

theorem assignForm_yields : (assignForm n).Yields tokens (n + 1) Form.Writable :=
  fun c hn => (target_proceeds c (by omega)).bind fun _ m _ ht =>
    .past (by simp) fun _ m₁ _ =>
      (anyExpression_yields m₁ (by omega)).bind fun _ m₂ _ he =>
        .pure ⟨by omega, fun hp => .assign (ht.2 hp) (he.2 hp)⟩

theorem inputForm_yields : (inputForm n).Yields tokens (n + 1) Form.Writable :=
  fun c hn => .pastKeyword fun _ m _ =>
    (target_proceeds m (by omega)).bind fun _ m₁ _ ht =>
      .pure ⟨by omega, fun hp => .input (ht.2 hp)⟩

theorem outputForm_yields : (outputForm n).Yields tokens (n + 1) Form.Writable :=
  fun c hn => .pastKeyword fun _ m _ =>
    (items_yields anyExpression_yields m (by omega)).bind fun _ m₁ _ hes =>
      .pure ⟨by omega, fun hp => .output (hes.2 hp).1 (hes.2 hp).2⟩

theorem callForm_yields : (callForm n).Yields tokens (n + 1) Form.Writable := by
  refine fun c hn => .pastKeyword fun _ m _ => ?_
  refine (name_yields (n := n) _ m (by omega)).bind fun t m₁ _ ht => ?_
  refine (Proceeds.accept (by simp)).bind fun b m₂ _ _ => .ite (fun _ => ?_) fun _ => ?_
  · exact (argumentList_yields (expression_makes tokens n) m₂ (by omega)).bind fun es m₃ _ hes =>
      .pure ⟨by omega, fun hp => .call (ht.2 hp) (hes.2 hp)⟩
  · exact .pure ⟨by omega, fun hp => .call (ht.2 hp) (by simp)⟩

theorem returnForm_yields : (returnForm n).Yields tokens (n + 1) Form.Writable :=
  fun c hn => .pastKeyword fun _ m _ =>
    (anyExpression_yields m (by omega)).bind fun _ m₁ _ he =>
      .pure ⟨by omega, fun hp => .returnValue (he.2 hp)⟩

theorem fileOpenForm_yields : (fileOpenForm n).Yields tokens (n + 1) Form.Writable := by
  refine fun c hn => .pastKeyword fun _ m _ => ?_
  refine (anyExpression_yields m (by omega)).bind fun e m₁ _ he => ?_
  refine .past (by simp) fun _ m₂ _ => Proceeds.current.bind ?_
  rintro t m₂ - ⟨rfl, rfl, -⟩
  have hmode : ∀ k ∈ modeWords, m₂.current.kind ≠ .eof →
      (do let _ ← advance; return .fileOpen e k.word : Parser Form).Proceeds tokens m₂ fun f c' =>
        c'.left < c.left ∧ (AllProper tokens → f.Writable) :=
    fun k hk hkind => (Proceeds.advance hkind).bind fun _ m₃ _ _ =>
      .pure ⟨by omega, fun hp => .fileOpen (he.2 hp) hk⟩
  split
  · next hkind => exact hmode .readKw (by decide) (by simp [hkind])
  · next hkind => exact hmode .writeKw (by decide) (by simp [hkind])
  · next hkind => exact hmode .appendKw (by decide) (by simp [hkind])
  · exact .reject _

theorem fileCloseForm_yields : (fileCloseForm n).Yields tokens (n + 1) Form.Writable :=
  fun c hn => .pastKeyword fun _ m _ =>
    (anyExpression_yields m (by omega)).bind fun _ m₁ _ he =>
      .pure ⟨by omega, fun hp => .fileClose (he.2 hp)⟩

theorem fileReadForm_yields : (fileReadForm n).Yields tokens (n + 1) Form.Writable :=
  fun c hn => .pastKeyword fun _ m _ =>
    (anyExpression_yields m (by omega)).bind fun _ m₁ _ he => .past (by simp) fun _ m₂ _ =>
      (target_proceeds m₂ (by omega)).bind fun _ m₃ _ ht =>
        .pure ⟨by omega, fun hp => .fileRead (he.2 hp) (ht.2 hp)⟩

theorem fileWriteForm_yields : (fileWriteForm n).Yields tokens (n + 1) Form.Writable :=
  fun c hn => .pastKeyword fun _ m _ =>
    (anyExpression_yields m (by omega)).bind fun _ m₁ _ he => .past (by simp) fun _ m₂ _ =>
      (anyExpression_yields m₂ (by omega)).bind fun _ m₃ _ hd =>
        .pure ⟨by omega, fun hp => .fileWrite (he.2 hp) (hd.2 hp)⟩

/-! ## Parts of compound statements -/

/-- Every statement of a block can be written. -/
def Block.Writable (b : Block) : Prop :=
  ∀ t ∈ b, t.form.Writable

theorem conditionThen_yields : (conditionThen n).Yields tokens n Expr.Writable :=
  fun c hn => (anyExpression_yields c hn).bind fun _ m _ he =>
      Proceeds.skipNewlines.bind fun _ m₁ _ _ =>
    .past (by simp) fun _ m₂ _ => .pure ⟨by omega, he.2⟩

theorem stepPart_proceeds (line : Int) (c : Cursor) (hn : c.left + 2 ≤ n) :
    (stepPart line n).Proceeds tokens c fun e _ => AllProper tokens → e.Writable := by
  refine (Proceeds.accept (by simp)).bind fun b m _ _ =>
    .ite (fun _ => ?_) fun _ => .pure fun _ => ?_
  · exact (anyExpression_yields m (by omega)).imp fun _ _ _ he => he.2
  · exact .literal line ⟨by decide, Number.lt_writeLimit_iff.mpr (by decide)⟩

theorem nextName_proceeds (x : String) (c : Cursor) :
    (nextName x).Proceeds tokens c fun _ _ => True := by
  refine (Proceeds.check _).bind ?_
  rintro b c - ⟨rfl, rfl⟩
  refine .ite (fun hname => ?_) fun _ => .pure trivial
  have hkind : c.current.kind = .identifier := by simpa using hname
  refine (Proceeds.advance (by simp [hkind])).bind fun t m _ ht => ?_
  exact .ite (fun _ => .pure trivial) fun _ => .rejectAt ht.2.2.2 _

theorem param_yields : param.Yields tokens n Param.Writable := by
  intro c _
  rw [param_eq]
  have hmode : passMode.Proceeds tokens c fun _ _ => True :=
    (Proceeds.accept (by simp)).bind fun _ _ _ _ => .ite (fun _ => .pure trivial) fun _ =>
      (Proceeds.accept (by simp)).bind fun _ _ _ _ => .pure trivial
  refine hmode.bind fun mode m _ _ =>
    (name_yields (n := m.left + 2) _ m (by omega)).bind fun _ m₁ _ hname => ?_
  refine .past (by simp) fun _ m₂ _ => ?_
  refine (Proceeds.accept (by simp)).bind fun _ m₃ _ _ => .ite (fun _ => ?_) fun _ => ?_
  · refine .past (by simp) fun _ m₄ _ => (typeName_proceeds m₄).bind fun _ m₅ _ htype => ?_
    exact .pure ⟨by omega, fun hp => .array mode (hname.2 hp) (htype.2 hp)⟩
  · exact (typeName_proceeds m₃).bind fun _ m₄ _ htype =>
      .pure ⟨by omega, fun hp => .scalar mode (hname.2 hp) (htype.2 hp)⟩

theorem optionalParams_proceeds (c : Cursor) (hn : c.left + 2 ≤ n) :
    (optionalParams n).Proceeds tokens c fun ps _ => AllProper tokens → ∀ p ∈ ps, p.Writable := by
  rw [optionalParams_eq]
  refine (Proceeds.accept (by simp)).bind fun b m _ _ => .ite (fun _ => ?_) fun _ => .pure (by simp)
  have hlist : (paramList n).Proceeds tokens m fun ps _ => AllProper tokens →
      ∀ p ∈ ps, p.Writable := by
    refine (Proceeds.check _).bind ?_
    rintro _ d - ⟨rfl, -⟩
    refine .ite (fun _ => .pure (by simp)) fun _ => ?_
    exact (items_yields param_yields d (by omega)).imp fun _ _ _ h hp => (h.2 hp).2
  exact hlist.bind fun _ m₁ _ hps => .past (by simp) fun _ _ _ => .pure hps

theorem caseLabel_proceeds (c : Cursor) (hn : c.left + 2 ≤ n) :
    (caseLabel n).Proceeds tokens c fun label c' => c'.left < c.left ∧ (AllProper tokens →
      label.Writable ∧ (labelStarts c = true → label.first.opensLabel = true)) := by
  refine Proceeds.current.bind ?_
  rintro t c - ⟨rfl, rfl, -⟩
  refine (expression_makes tokens n 0 c (by decide) hn).bind fun low m _ hlow => ?_
  refine (Proceeds.accept (by simp)).bind fun _ m₁ _ _ => .ite (fun _ => ?_) fun _ => ?_
  · refine (anyExpression_yields m₁ (by omega)).bind fun high m₂ _ hhigh =>
      .pure ⟨by omega, fun hp => ?_⟩
    exact ⟨.range _ (hlow.2 hp).writable (hhigh.2 hp), (hlow.2 hp).opens⟩
  · exact .pure ⟨by omega, fun hp => ⟨.value (hlow.2 hp).writable, (hlow.2 hp).opens⟩⟩

/-- Whether a CASE branch ends can be seen before the end of the input. -/
theorem branchEnds_followedBy (c : Cursor) (hc : c.In tokens) (more : List Token) :
    branchEnds (c.followedBy more) = branchEnds c := by
  have hminus : ((c.followedBy more).current.kind = .symbol .minus &&
      (c.followedBy more).ahead.kind = .number) =
      (c.current.kind = .symbol .minus && c.ahead.kind = .number) :=
    hc.test_followedBy (b := c.current.kind = .symbol .minus)
      (fun heof => by rw [heof]; decide) .number more
  rw [branchEnds, labelStarts, hminus]
  rfl

/-- What is known of the branches of a CASE that are read at `c`: each but the first starts where
the one before it ends, and so does the first if a branch ends at `c`. -/
structure BranchesReadAt (c : Cursor) (branches : List Branch) (otherwise : Option Block) :
    Prop where
  labels : ∀ b ∈ branches, b.label.Writable
  bodies : ∀ b ∈ branches, Block.Writable b.body
  otherwise : ∀ b ∈ otherwise, Block.Writable b
  tail : ∀ b ∈ branches.tail, b.label.first.opensLabel = true
  opens : branchEnds c = true → ∀ b ∈ branches, b.label.first.opensLabel = true

/-- Where a branch ends and the branches go on, a label starts. -/
theorem labelStarts_of_branchEnds {c : Cursor} (h : branchEnds c = true)
    (hend : [TokenKind.keyword .endCaseKw, .eof].contains c.current.kind = false)
    (hotherwise : c.current.kind ≠ .keyword .otherwiseKw) : labelStarts c = true := by
  simp only [List.contains_eq_mem, List.mem_cons, List.not_mem_nil, or_false,
    decide_eq_false_iff_not, not_or] at hend
  simpa [branchEnds, hend.1, hend.2, hotherwise] using h

/-! ## Blocks and compound statements -/

variable {stmt : Parser Block} (hstmt : stmt.Yields tokens n Block.Writable)
include hstmt

theorem blockUntil_proceeds {stop : Cursor → Bool}
    (hstop : ∀ c : Cursor, c.In tokens → ∀ more, stop (c.followedBy more) = stop c) (k : Nat)
    (c : Cursor) (hn : c.left + 2 ≤ n) (hk : c.left < k) :
    (blockUntil stop stmt k).Proceeds tokens c fun b c' => (AllProper tokens → Block.Writable b) ∧
      stop c' = true := by
  induction k generalizing c with
  | zero => omega
  | succ k ih =>
    refine Proceeds.skipNewlines.bind fun _ m hm _ => .get (fun hc more => by rw [hstop m hc]) ?_
    refine .ite (fun hend => .pure ⟨fun _ => by simp [Block.Writable], hend⟩) fun _ => ?_
    refine (hstmt m (by omega)).bind fun first m₁ _ hfirst => ?_
    refine (ih m₁ (by omega) (by omega)).bind fun rest _ _ hrest => .pure ⟨fun hp => ?_, hrest.2⟩
    exact List.forall_mem_append.mpr ⟨hfirst.2 hp, hrest.1 hp⟩

theorem block_proceeds (stops : List TokenKind) (c : Cursor) (hn : c.left + 2 ≤ n) :
    (block stmt stops n).Proceeds tokens c fun b _ => AllProper tokens → Block.Writable b := by
  rw [block_eq]
  exact (blockUntil_proceeds hstmt (fun _ _ _ => rfl) n c hn (by omega)).imp fun _ _ _ h => h.1

theorem elseIfs_proceeds (k : Nat) (c : Cursor) (hn : c.left + 2 ≤ n) (hk : c.left < k) :
    (elseIfs stmt n k).Proceeds tokens c fun arms _ => AllProper tokens →
      (∀ a ∈ arms, a.condition.Writable) ∧ ∀ a ∈ arms, Block.Writable a.body := by
  induction k generalizing c with
  | zero => omega
  | succ k ih =>
    refine (Proceeds.check _).bind ?_
    rintro b c - ⟨rfl, rfl⟩
    refine .get (fun hc more => ?_) (.ite (fun helse => ?_) fun _ => .pure (by simp))
    · rw [hc.test_followedBy fun heof => by rw [heof]; decide]
    simp only [Bool.and_eq_true, List.contains_eq_mem, List.mem_singleton,
      decide_eq_true_eq] at helse
    have hahead : c.advance.current.kind ≠ .eof := by
      rw [← Cursor.ahead_eq, helse.2]
      simp
    refine (Proceeds.advance (by simp [helse.1])).bind ?_
    rintro _ m - ⟨hm, rfl, -⟩
    refine (Proceeds.advance hahead).bind fun _ m₁ _ _ => ?_
    refine (conditionThen_yields m₁ (by omega)).bind fun e m₂ _ he => ?_
    refine (block_proceeds hstmt _ m₂ (by omega)).bind fun body m₃ _ hbody => ?_
    refine (ih m₃ (by omega) (by omega)).bind fun arms _ _ harms => .pure fun hp => ?_
    exact ⟨List.forall_mem_cons.mpr ⟨he.2 hp, (harms hp).1⟩,
      List.forall_mem_cons.mpr ⟨hbody hp, (harms hp).2⟩⟩

theorem elsePart_proceeds (c : Cursor) (hn : c.left + 2 ≤ n) :
    (elsePart stmt n).Proceeds tokens c fun otherwise _ => AllProper tokens →
      ∀ b ∈ otherwise, Block.Writable b := by
  refine (Proceeds.accept (by simp)).bind fun b m _ _ => .ite (fun _ => ?_) fun _ => .pure (by simp)
  exact (block_proceeds hstmt _ m (by omega)).bind fun body _ _ hbody =>
    .pure fun hp => by simpa using hbody hp

theorem ifForm_yields : (ifForm stmt n).Yields tokens (n + 1) Form.Writable := by
  intro c hn
  rw [ifForm_eq]
  refine .pastKeyword fun _ m _ => ?_
  refine (conditionThen_yields m (by omega)).bind fun _ m₁ _ he => ?_
  refine (block_proceeds hstmt _ m₁ (by omega)).bind fun _ m₂ _ hbody => ?_
  refine (elseIfs_proceeds hstmt n m₂ (by omega) (by omega)).bind fun _ m₃ _ harms => ?_
  refine (elsePart_proceeds hstmt m₃ (by omega)).bind fun _ m₄ _ ho => ?_
  refine .past (by simp) fun _ m₅ _ => .pure ⟨by omega, fun hp => ?_⟩
  exact .ifThen (he.2 hp) (hbody hp) (harms hp).1 (harms hp).2 (ho hp)

theorem whileForm_yields : (whileForm stmt n).Yields tokens (n + 1) Form.Writable := by
  refine fun c hn => .pastKeyword fun _ m _ => ?_
  refine (anyExpression_yields m (by omega)).bind fun _ m₁ _ he =>
    Proceeds.skipNewlines.bind fun _ m₂ _ _ => ?_
  refine .past (by simp) fun _ m₃ _ => ?_
  refine (block_proceeds hstmt _ m₃ (by omega)).bind fun _ m₄ _ hbody => ?_
  exact .past (by simp) fun _ m₅ _ =>
    .pure ⟨by omega, fun hp => .whileDo (he.2 hp) (hbody hp)⟩

theorem repeatForm_yields : (repeatForm stmt n).Yields tokens (n + 1) Form.Writable := by
  refine fun c hn => .pastKeyword fun _ m _ => ?_
  refine (block_proceeds hstmt _ m (by omega)).bind fun _ m₁ _ hbody => ?_
  refine .past (by simp) fun _ m₂ _ => ?_
  exact (anyExpression_yields m₂ (by omega)).bind fun _ m₃ _ he =>
    .pure ⟨by omega, fun hp => .repeatUntil (he.2 hp) (hbody hp)⟩

theorem forForm_yields : (forForm stmt n).Yields tokens (n + 1) Form.Writable := by
  intro c hn
  rw [forForm_eq]
  refine .pastKeyword fun _ m _ => ?_
  refine (name_yields (n := n) _ m (by omega)).bind fun _ m₁ _ hname => ?_
  refine .past (by simp) fun _ m₂ _ => ?_
  refine (anyExpression_yields m₂ (by omega)).bind fun _ m₃ _ hstart => ?_
  refine .past (by simp) fun _ m₄ _ => ?_
  refine (anyExpression_yields m₄ (by omega)).bind fun _ m₅ _ hend => ?_
  refine (stepPart_proceeds _ m₅ (by omega)).bind fun _ m₆ _ hstep => ?_
  refine (block_proceeds hstmt _ m₆ (by omega)).bind fun _ m₇ _ hbody => ?_
  refine .past (by simp) fun _ m₈ _ => (nextName_proceeds _ m₈).bind fun _ m₉ _ _ => ?_
  exact .pure ⟨by omega, fun hp =>
    .forTo (hname.2 hp) (hstart.2 hp) (hend.2 hp) (hstep hp) (hbody hp)⟩

theorem procedureForm_yields : (procedureForm stmt n).Yields tokens (n + 1) Form.Writable := by
  refine fun c hn => .pastKeyword fun _ m _ => ?_
  refine (name_yields (n := n) _ m (by omega)).bind fun _ m₁ _ hname => ?_
  refine (optionalParams_proceeds m₁ (by omega)).bind fun _ m₂ _ hps => ?_
  refine (block_proceeds hstmt _ m₂ (by omega)).bind fun _ m₃ _ hbody => ?_
  exact .past (by simp) fun _ m₄ _ =>
    .pure ⟨by omega, fun hp => .procedure (hname.2 hp) (hps hp) (hbody hp)⟩

theorem functionForm_yields : (functionForm stmt n).Yields tokens (n + 1) Form.Writable := by
  refine fun c hn => .pastKeyword fun _ m _ => ?_
  refine (name_yields (n := n) _ m (by omega)).bind fun _ m₁ _ hname => ?_
  refine (optionalParams_proceeds m₁ (by omega)).bind fun _ m₂ _ hps => ?_
  refine .past (by simp) fun _ m₃ _ => (typeName_proceeds m₃).bind fun _ m₄ _ htype => ?_
  refine (block_proceeds hstmt _ m₄ (by omega)).bind fun _ m₅ _ hbody => ?_
  exact .past (by simp) fun _ m₆ _ =>
    .pure ⟨by omega, fun hp => .function (hname.2 hp) (hps hp) (htype.2 hp) (hbody hp)⟩

/-! ## CASE -/

theorem caseBranch_proceeds (c : Cursor) (hn : c.left + 2 ≤ n) :
    (caseBranch stmt n).Proceeds tokens c fun b c' => c'.left < c.left ∧
      branchEnds c' = true ∧ (AllProper tokens →
      (b.label.Writable ∧ Block.Writable b.body) ∧
        (labelStarts c = true → b.label.first.opensLabel = true)) := by
  rw [caseBranch_eq, branchBlock_eq]
  refine (caseLabel_proceeds c hn).bind fun label m _ hlabel => ?_
  refine .past (by simp) fun _ m₁ _ => ?_
  refine (blockUntil_proceeds hstmt branchEnds_followedBy n m₁ (by omega) (by omega)).bind
    fun body m₂ _ hbody => ?_
  exact .pure ⟨by omega, hbody.2, fun hp => ⟨⟨(hlabel.2 hp).1, hbody.1 hp⟩, (hlabel.2 hp).2⟩⟩

theorem caseBranch_moves : (caseBranch stmt n).Moves tokens n :=
  fun c hn => (caseBranch_proceeds hstmt c hn).imp fun _ _ _ h => h.1

theorem caseBranches_proceeds (k : Nat) (c : Cursor) (hn : c.left + 2 ≤ n) (hk : c.left < k) :
    (caseBranches stmt n k).Proceeds tokens c fun r _ => AllProper tokens →
      BranchesReadAt c r.1 r.2 := by
  induction k generalizing c with
  | zero => omega
  | succ k ih =>
    refine Proceeds.skipNewlines.bind ?_
    rintro _ _ hleft rfl
    refine (Proceeds.check _).bind ?_
    rintro _ _ - ⟨rfl, rfl⟩
    refine .ite (fun _ => .pure fun _ => ?_) fun hend =>
        (Proceeds.accept (by simp)).bind fun b m _ haccept =>
      .ite (fun _ => ?_) fun hfalse => ?_
    · exact ⟨by simp, by simp, by simp, by simp, by simp⟩
    · refine .past (by simp) fun _ m₁ _ => ?_
      refine (block_proceeds hstmt _ m₁ (by omega)).bind fun body _ _ hbody => .pure fun hp => ?_
      exact ⟨by simp, by simp, by simpa using hbody hp, by simp, by simp⟩
    · obtain ⟨hotherwise, rfl⟩ := haccept.2 (by simpa using hfalse)
      refine (caseBranch_proceeds hstmt _ (by omega)).bind fun branch m₁ _ hbranch => ?_
      refine (ih m₁ (by omega) (by omega)).bind ?_
      rintro ⟨rest, otherwise⟩ _ - hrest
      refine .pure fun hp => ?_
      obtain ⟨⟨hlabel, hbody⟩, hfirst⟩ := hbranch.2.2 hp
      have hrest := hrest hp
      have hopens := hrest.opens hbranch.2.1
      refine ⟨List.forall_mem_cons.mpr ⟨hlabel, hrest.labels⟩,
        List.forall_mem_cons.mpr ⟨hbody, hrest.bodies⟩,
        hrest.otherwise, hopens, fun hends => List.forall_mem_cons.mpr ⟨hfirst ?_, hopens⟩⟩
      rw [Cursor.skipNewlines_of_ne (endsBlock_branchEnds.newline c hends)] at hend hotherwise ⊢
      exact labelStarts_of_branchEnds hends (by simpa using hend) hotherwise

theorem caseForm_yields : (caseForm stmt n).Yields tokens (n + 1) Form.Writable := by
  refine fun c hn => .pastKeyword fun _ m _ => ?_
  refine .past (by simp) fun _ m₁ _ => ?_
  refine (anyExpression_yields m₁ (by omega)).bind fun _ m₂ _ he => ?_
  refine (caseBranches_proceeds hstmt n m₂ (by omega) (by omega)).bind fun _ m₃ _ h => ?_
  refine .past (by simp) fun _ m₄ _ => .pure ⟨by omega, fun hp => ?_⟩
  exact .caseOf (he.2 hp) (h hp).labels (h hp).tail (h hp).bodies (h hp).otherwise

/-! ## Programs -/

theorem forms_yields : (forms stmt n).Yields tokens (n + 1) fun fs => ∀ f ∈ fs, f.Writable := by
  intro c hn
  have hone : ∀ {rule : Parser Form}, rule.Yields tokens (n + 1) Form.Writable →
      (do return [← rule] : Parser (List Form)).Proceeds tokens c fun fs c' =>
        c'.left < c.left ∧ (AllProper tokens → ∀ f ∈ fs, f.Writable) :=
    fun hrule => (hrule c hn).bind fun _ _ _ hf => .pure ⟨hf.1, fun hp => by simpa using hf.2 hp⟩
  refine Proceeds.current.bind ?_
  rintro t c - ⟨rfl, rfl, -⟩
  split
  · exact declareForms_yields c hn
  · exact hone fun _ _ => .reject _
  · exact hone inputForm_yields
  · exact hone outputForm_yields
  · exact hone (ifForm_yields hstmt)
  · exact hone (caseForm_yields hstmt)
  · exact hone (whileForm_yields hstmt)
  · exact hone (repeatForm_yields hstmt)
  · exact hone (forForm_yields hstmt)
  · exact hone (procedureForm_yields hstmt)
  · exact hone (functionForm_yields hstmt)
  · exact hone callForm_yields
  · exact hone returnForm_yields
  · exact hone fileOpenForm_yields
  · exact hone fileCloseForm_yields
  · exact hone fileReadForm_yields
  · exact hone fileWriteForm_yields
  · exact hone assignForm_yields
  · exact .reject _

end Statements

theorem statement_yields (tokens : List Token) (n : Nat) :
    (statement n).Yields tokens n Block.Writable := by
  induction n with
  | zero => exact fun c hn => absurd hn (by omega)
  | succ n ih =>
    intro c hn
    refine Proceeds.current.bind ?_
    rintro t c - ⟨rfl, rfl, -⟩
    refine (forms_yields ih c hn).bind fun _ _ _ hfs => .pure ⟨hfs.1, fun hp => ?_⟩
    rw [Block.Writable, List.forall_mem_map]
    exact hfs.2 hp

/-- **Reading a statement moves on.** -/
theorem statement_moves (tokens : List Token) (n : Nat) : (statement n).Moves tokens n :=
  (statement_yields tokens n).moves

/-- **A token list is read to a place of its own**, and one that is no program has a token to blame.
A program that is read from proper tokens can be written. -/
theorem program_proceeds {tokens : List Token}
    (hended : ∃ before last, tokens = before ++ [last] ∧ last.kind = .eof) :
    Outcome tokens (Cursor.start tokens) (fun b _ => AllProper tokens → Block.Writable b)
      (runOn program tokens) ∧ (program (stepBound tokens)).StopsShort (Cursor.start tokens) := by
  obtain ⟨hin, hleft⟩ := Cursor.start_in hended
  exact block_proceeds (statement_yields tokens (stepBound tokens)) [] (Cursor.start tokens)
    (by unfold stepBound; omega) hin

/-- **Every program that is read can be written.** -/
theorem writable_of_parseSource {source : String} {p : Block} (h : parseSource source = .ok p) :
    Block.Writable p := by
  unfold parseSource at h
  split at h
  · cases h
  · next tokens htokens =>
    have hrun := (program_proceeds (tokens_of_scanFrom htokens).2.1).1
    unfold parseTokens at h
    split at h
    · next hok =>
      cases h
      rw [hok] at hrun
      exact hrun.2.2 (proper_of_scanFrom htokens)
    · cases h

end Pseudocode
