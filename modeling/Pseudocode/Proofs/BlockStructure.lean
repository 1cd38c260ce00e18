import Pseudocode.Proofs.TokenOrder

/-!
# Only nested blocks are read

An IF, a loop, a CASE and a routine hold blocks, and each is opened by one keyword and closed by
another. `blockMarks` lists these keywords in a token list: an IF right behind an ELSE only goes on
with the IF it belongs to, and a FOR in front of a file mode belongs to an OPENFILE. The marks are
well nested when each construct is closed by its own keyword, the innermost one first, and in the
end none is open (`openConstructs`).

The marks are the notes of a `Recording`. A rule for a construct opens it, reads blocks and closes
it, so what it reads leaves the open constructs as they were (`Neutral`), whatever ends the blocks
in between. Parsing stops at the first end of the input, since no rule reads one.

Result: `accepted_tokens_are_well_nested`.
-/

namespace Pseudocode

open Parse Pseudocode.Parser

/-! ## Marks -/

/-- The constructs that hold blocks. -/
inductive Construct where
  | ifThen | whileDo | repeatUntil | forTo | caseOf | procedure | function
  deriving DecidableEq

/-- A keyword that opens or closes a construct. -/
inductive BlockMark where
  | opens (k : Construct)
  | closes (k : Construct)
  deriving DecidableEq

namespace Construct

def all : List Construct :=
  [ifThen, whileDo, repeatUntil, forTo, caseOf, procedure, function]

/-- The keyword that opens a construct. -/
def opener : Construct → Keyword
  | ifThen => .ifKw | whileDo => .whileKw | repeatUntil => .repeatKw | forTo =>
    .forKw | caseOf => .caseKw
  | procedure => .procedureKw | function => .functionKw

/-- The keyword that closes a construct. -/
def closer : Construct → Keyword
  | ifThen => .endIfKw | whileDo => .endWhileKw | repeatUntil => .untilKw | forTo => .nextKw
  | caseOf => .endCaseKw | procedure => .endProcedureKw | function => .endFunctionKw

end Construct

/-- The kinds of token that name a file mode. -/
def fileModes : List TokenKind :=
  [.keyword .readKw, .keyword .writeKw, .keyword .appendKw]

/-- What a keyword opens or closes. -/
def Keyword.blockMark? (k : Keyword) : Option BlockMark :=
  match Construct.all.find? (·.opener = k) with
  | some construct => some (.opens construct)
  | none => (Construct.all.find? (·.closer = k)).map .closes

def TokenKind.blockMark? : TokenKind → Option BlockMark
  | .keyword k => k.blockMark?
  | _ => none

/-- What a token opens or closes, between the tokens next to it. -/
def blockMark? (previous : Option TokenKind) (kind : TokenKind) (next : Option TokenKind) :
    Option BlockMark :=
  if kind = .keyword .ifKw ∧ previous = some (.keyword .elseKw) then none
  else if kind = .keyword .forKw ∧ next ∈ fileModes.map some then none
  else kind.blockMark?

/-- The marks of a token list behind a given token. -/
def blockMarks (previous : Option TokenKind) : List Token → List BlockMark
  | [] => []
  | t :: ts => (blockMark? previous t.kind (ts.head?.map Token.kind)).toList ++
    blockMarks (some t.kind) ts

/-- The constructs that are open after the given marks, the innermost one first; none if a mark
closes another construct than the innermost one. -/
def openConstructs : List Construct → List BlockMark → Option (List Construct)
  | stack, [] => some stack
  | stack, .opens k :: marks => openConstructs (k :: stack) marks
  | [], .closes _ :: _ => none
  | innermost :: stack,
    .closes k :: marks => if k = innermost then openConstructs stack marks else none

/-- Every construct is closed by its own keyword, the innermost one first, and nothing else is
closed. -/
def WellNested (marks : List BlockMark) : Prop :=
  openConstructs [] marks = some []

/-- Marks that leave the open constructs as they were. -/
def Neutral (marks : List BlockMark) : Prop :=
  ∀ stack rest, openConstructs stack (marks ++ rest) = openConstructs stack rest

theorem Neutral.nil : Neutral [] :=
  fun _ _ => rfl

theorem Neutral.append {marks marks' : List BlockMark} (h : Neutral marks) (h' : Neutral marks') :
    Neutral (marks ++ marks') := by
  intro stack rest
  rw [List.append_assoc, h, h']

theorem Neutral.wrap {marks : List BlockMark} (h : Neutral marks) (k : Construct) :
    Neutral (.opens k :: (marks ++ [.closes k])) := by
  intro stack rest
  rw [List.cons_append, openConstructs, List.append_assoc, h, List.singleton_append,
    openConstructs, if_pos rfl]

theorem Neutral.wellNested {marks : List BlockMark} (h : Neutral marks) : WellNested marks := by
  have hall := h [] []
  rwa [List.append_nil] at hall

/-! ## Noting marks -/

/-- No IF stands right behind an ELSE here. -/
def ElseIfFree (previous : Option TokenKind) (ts : List Token) : Prop :=
  previous = some (.keyword .elseKw) → ts.head?.map Token.kind ≠ some (.keyword .ifKw)

/-- Reading `ts` up to `ts'` passes the given marks, where no ELSE IF is cut in two, and no end of
the input. -/
def Marked (marks : List BlockMark) (ts ts' : List Token) : Prop :=
  (∃ front, ts = front ++ ts' ∧ ∀ t ∈ front, t.kind ≠ .eof) ∧
  ∀ previous, ElseIfFree previous ts →
    ∃ previous', ElseIfFree previous' ts' ∧
      blockMarks previous ts = marks ++ blockMarks previous' ts'

namespace Marked

variable {t u : Token} {ts : List Token}

theorem step {mark : Option BlockMark} (heof : t.kind ≠ .eof) (hfree : ElseIfFree (some t.kind) ts)
    (hmark : ∀ previous, ElseIfFree previous (t :: ts) →
      blockMark? previous t.kind (ts.head?.map Token.kind) = mark) :
    Marked mark.toList (t :: ts) ts := by
  refine ⟨⟨[t], rfl, by simpa using heof⟩, fun previous hprevious => ⟨some t.kind, hfree, ?_⟩⟩
  rw [blockMarks, hmark previous hprevious]

/-- A token that does not depend on its neighbours has the mark of its kind. -/
theorem token (heof : t.kind ≠ .eof) (helse : t.kind ≠ .keyword .elseKw)
    (hfor : t.kind ≠ .keyword .forKw) (ts : List Token) :
    Marked t.kind.blockMark?.toList (t :: ts) ts := by
  refine step heof (fun h => absurd (Option.some.inj h) helse) fun previous hfree => ?_
  rw [blockMark?, if_neg fun h => hfree h.2 (congrArg some h.1), if_neg fun h => hfor h.1]

theorem keyword {k : Keyword} {mark : Option BlockMark} (ht : t.kind = .keyword k)
    (hmark : k.blockMark? = mark) (helse : k ≠ .elseKw) (hfor : k ≠ .forKw) (ts : List Token) :
    Marked mark.toList (t :: ts) ts := by
  have hne : ∀ k', k ≠ k' → t.kind ≠ .keyword k' := by
    intro k' hk hkind
    exact hk (TokenKind.keyword.inj (ht.symm.trans hkind))
  have hmarked := token (ht ▸ TokenKind.noConfusion) (hne _ helse) (hne _ hfor) ts
  rwa [ht, TokenKind.blockMark?, hmark] at hmarked

/-- An ELSE that no IF follows has no mark. -/
theorem elseAlone (ht : t.kind = .keyword .elseKw)
    (hnext : ts.head?.map Token.kind ≠ some (.keyword .ifKw)) : Marked [] (t :: ts) ts := by
  have hmark : ∀ previous next, blockMark? previous t.kind next = none := by
    intro previous next
    rw [ht]
    rfl
  exact step (by rw [ht]; decide) (fun _ => hnext) fun previous _ => hmark previous _

/-- An ELSE and an IF have no mark. -/
theorem elseIf (ht : t.kind = .keyword .elseKw) (hu : u.kind = .keyword .ifKw) :
    Marked [] (t :: u :: ts) ts := by
  refine ⟨⟨[t, u], rfl, by simp [ht, hu]⟩, fun previous _ => ⟨some u.kind, fun h => ?_, ?_⟩⟩
  · rw [hu] at h
    cases h
  · rw [blockMarks, blockMarks, ht, hu]
    rfl

/-- A FOR has a mark or not according to the token behind it. -/
theorem forWord (ht : t.kind = .keyword .forKw) :
    Marked (blockMark? none (.keyword .forKw) (ts.head?.map Token.kind)).toList (t :: ts) ts := by
  refine step (by rw [ht]; decide) (fun h => ?_) fun previous _ => ?_
  · rw [ht] at h
    cases h
  · rw [ht]
    rfl

end Marked

theorem blockMark?_of_not_reserved {kind : TokenKind} (h : kind ∉ reserved) :
    kind.blockMark? = none := by
  cases kind with
  | keyword k => revert h; cases k <;> decide
  | _ => rfl

/-- The marks of what is read. -/
def marking : Recording BlockMark where
  Noted := Marked
  nil _ := ⟨⟨[], rfl, by simp⟩, fun previous hfree => ⟨previous, hfree, rfl⟩⟩
  append := by
    rintro marks marks' _ _ ts'' ⟨⟨front, rfl, hfront⟩, h⟩ ⟨⟨front', rfl, hfront'⟩, h'⟩
    refine ⟨⟨front ++ front', (List.append_assoc ..).symm,
      List.forall_mem_append.mpr ⟨hfront, hfront'⟩⟩, ?_⟩
    intro previous hfree
    obtain ⟨middle, hfree', heq⟩ := h previous hfree
    obtain ⟨last, hfree'', heq'⟩ := h' middle hfree'
    exact ⟨last, hfree'', by rw [heq, heq', List.append_assoc]⟩
  suffix := by
    rintro _ _ ts' ⟨⟨front, rfl, -⟩, -⟩
    exact ⟨front, rfl⟩
  plain {t} ts hkind := by
    have hne : ∀ kind ∈ reserved, t.kind ≠ kind := fun kind hmem heq => hkind (heq ▸ hmem)
    have hmarked := Marked.token (hne .eof (by decide)) (hne _ (by decide)) (hne _ (by decide)) ts
    rwa [blockMark?_of_not_reserved hkind] at hmarked

/-! ## Rules -/

section Rules

variable {α β : Type} {n : Nat} {c : Cursor} {goal : β → List BlockMark → Prop}

/-- Marks that end by closing a construct. -/
def Closes (k : Construct) (marks : List BlockMark) : Prop :=
  ∃ inner, Neutral inner ∧ marks = inner ++ [.closes k]

/-- A keyword that opens a construct is read, and what follows closes it. FOR has a rule of its
own. -/
theorem opener_tells (k : Construct) (hk : k ≠ .forTo) {f : Token → Parser α}
    (hf : ∀ t c', (f t).Tells marking c' fun _ marks => Closes k marks) :
    (expectKeyword k.opener >>= f).Tells marking c fun _ marks => Neutral marks := by
  have hwords : ∀ k : Construct, k.opener ≠ .elseKw ∧ (k ≠ .forTo → k.opener ≠ .forKw) ∧
      k.opener.blockMark? = some (.opens k) := by
    intro k
    cases k <;> decide
  obtain ⟨helse, hfor, hmark⟩ := hwords k
  refine .expectKeyword (fun hkind => Marked.keyword hkind hmark helse (hfor hk) _) fun _ =>
    (hf _ _).imp ?_
  rintro _ _ ⟨inner, hinner, rfl⟩
  exact hinner.wrap k

/-- The keyword that closes a construct is read, and nothing is marked behind it. -/
theorem closer_tells (k : Construct) (cause : SyntaxCause) {f : Token → Parser β}
    (hf : ∀ t, (f t).Fills marking) (hgoal : ∀ b, goal b [.closes k]) :
    (expect (.keyword k.closer) cause >>= f).Tells marking c goal := by
  have hwords : ∀ k : Construct, k.closer ≠ .elseKw ∧ k.closer ≠ .forKw ∧
      k.closer.blockMark? = some (.closes k) := by
    intro k
    cases k <;> decide
  obtain ⟨helse, hfor, hmark⟩ := hwords k
  refine .expect (by simp) (fun hkind => Marked.keyword hkind hmark helse hfor _) _ fun _ =>
    (hf _ _).imp ?_
  rintro b _ rfl
  exact hgoal b

/-- A keyword that neither opens nor closes anything, nor depends on its neighbours. -/
theorem word_tells {k : Keyword} (hk : k.blockMark? = none ∧ k ≠ .elseKw ∧ k ≠ .forKw)
    {f : Token → Parser β} (hf : ∀ t c', (f t).Tells marking c' goal) :
    (expectKeyword k >>= f).Tells marking c goal :=
  .expectKeyword (fun hkind => Marked.keyword hkind hk.1 hk.2.1 hk.2.2 _) fun _ => hf _ _

/-! ## Blocks -/

/-- What a parser reads leaves the open constructs as they were. -/
def Parser.Balances (p : Parser α) : Prop :=
  ∀ c, p.Tells marking c fun _ marks => Neutral marks

theorem Parser.Fills.balances {p : Parser α} (h : p.Fills marking) : p.Balances := by
  refine fun c => (h c).imp ?_
  rintro _ _ rfl
  exact .nil

section Blocks

variable {stmt : Parser Block} (hstmt : stmt.Balances)
include hstmt

theorem blockUntil_balances (stop : Cursor → Bool) (k : Nat) :
    (blockUntil stop stmt k).Balances := by
  induction k with
  | zero => exact fun c => .throw _
  | succ k ih =>
    refine fun c => Fills.skipNewlines.bind fun _ c' =>
      .get (.ite (fun _ => .pure .nil) fun _ => ?_)
    refine (hstmt c').bind fun _ c₁ marks hmarks => (ih c₁).bind fun _ _ marks' hmarks' => .pure ?_
    rw [List.append_nil]
    exact hmarks.append hmarks'

theorem block_balances (stops : List TokenKind) : (block stmt stops n).Balances := by
  rw [block_eq]
  exact blockUntil_balances hstmt _ n

theorem elseIfs_balances (k : Nat) : (elseIfs stmt n k).Balances := by
  induction k with
  | zero => exact fun c => .throw _
  | succ k ih =>
    refine fun c => .check (.get (.ite (fun helse => ?_) fun _ => .pure .nil))
    simp only [Bool.and_eq_true, List.contains_eq_mem, List.mem_singleton,
      decide_eq_true_eq] at helse
    have hahead : c.advance.current.kind = .keyword .ifKw := by rw [← Cursor.ahead_eq, helse.2]
    refine .read₂ (by rw [helse.1]; decide) (by rw [hahead]; decide)
      (Marked.elseIf helse.1 hahead) ?_
    refine conditionThen_fills.bind fun _ c₁ =>
      (block_balances hstmt _ c₁).bind fun _ c₂ marks hmarks => ?_
    refine (ih c₂).bind fun _ _ marks' hmarks' => .pure ?_
    rw [List.append_nil, List.nil_append]
    exact hmarks.append hmarks'

omit hstmt in
/-- Behind the ELSE IF branches there is no other. -/
theorem elseIfs_stops {k : Nat} {c c' : Cursor} {arms : List Arm}
    (h : elseIfs stmt n k c = .ok arms c') :
    ¬ (c'.current.kind = .keyword .elseKw ∧ c'.ahead.kind = .keyword .ifKw) := by
  induction k generalizing c arms with
  | zero => cases h
  | succ k ih =>
    obtain ⟨_, _, hcheck, h⟩ := bind_eq_ok.mp h
    cases hcheck
    obtain ⟨_, _, hget, h⟩ := bind_eq_ok.mp h
    cases hget
    split at h
    · obtain ⟨_, _, -, h⟩ := bind_eq_ok.mp h
      obtain ⟨_, _, -, h⟩ := bind_eq_ok.mp h
      obtain ⟨_, _, -, h⟩ := bind_eq_ok.mp h
      obtain ⟨_, _, -, h⟩ := bind_eq_ok.mp h
      obtain ⟨_, _, hrest, heq⟩ := bind_eq_ok.mp h
      cases heq
      exact ih hrest
    · next helse =>
      cases h
      simpa using helse

theorem elsePart_neutral
    (hfree : ¬ (c.current.kind = .keyword .elseKw ∧ c.ahead.kind = .keyword .ifKw)) :
    (elsePart stmt n).Tells marking c fun _ marks => Neutral marks := by
  have hnoted : c.current.kind = .keyword .elseKw →
      marking.Noted [] (c.current :: c.advance.tokens) c.advance.tokens := by
    refine fun helse => Marked.elseAlone helse fun hif => hfree ⟨helse, ?_⟩
    rw [Cursor.ahead_eq]
    exact Option.some.inj hif
  refine .accept (by decide) hnoted (fun _ => ?_) fun _ => .pure .nil
  refine (block_balances hstmt _ _).bind fun _ _ marks hmarks => .pure ?_
  rwa [List.append_nil]

theorem caseBranch_balances : (caseBranch stmt n).Balances := by
  rw [caseBranch_eq, branchBlock_eq]
  refine fun c => caseLabel_fills.bind fun _ _ => .past (by decide) fun _ c₁ => ?_
  refine (blockUntil_balances hstmt _ n c₁).bind fun _ _ marks hmarks => .pure ?_
  rwa [List.append_nil]

theorem caseBranches_balances (k : Nat) : (caseBranches stmt n k).Balances := by
  induction k with
  | zero => exact fun c => .throw _
  | succ k ih =>
    refine fun c => Fills.skipNewlines.bind fun _ _ =>
      .check (.ite (fun _ => .pure .nil) fun _ => ?_)
    refine (Fills.accept (by decide)).bind fun _ c₁ => .ite (fun _ => ?_) fun _ => ?_
    · refine .past (by decide) fun _ c₂ => ?_
      refine (block_balances hstmt _ c₂).bind fun _ _ marks hmarks => .pure ?_
      rwa [List.append_nil]
    · refine (caseBranch_balances hstmt c₁).bind fun _ c₂ marks hmarks => ?_
      refine (ih c₂).bind fun _ _ marks' hmarks' => .pure ?_
      rw [List.append_nil]
      exact hmarks.append hmarks'

/-! ## Forms -/

theorem ifForm_balances : (ifForm stmt n).Balances := by
  rw [ifForm_eq]
  refine fun c => opener_tells .ifThen (by decide) fun _ _ =>
    conditionThen_fills.bind fun _ c₁ => ?_
  refine (block_balances hstmt _ c₁).bind fun _ c₂ body hbody => ?_
  refine (elseIfs_balances hstmt n c₂).bind_run fun _ c₃ arms hrun harms => ?_
  refine (elsePart_neutral hstmt (elseIfs_stops hrun)).bind fun _ _ otherwise hotherwise => ?_
  refine closer_tells .ifThen _ (fun _ => .pure _) fun _ =>
    ⟨_, hbody.append (harms.append hotherwise), ?_⟩
  simp only [List.append_assoc]

theorem whileForm_balances : (whileForm stmt n).Balances := by
  refine fun c => opener_tells .whileDo (by decide) fun _ _ =>
    anyExpression_fills.bind fun _ _ => ?_
  refine Fills.skipNewlines.bind fun _ _ => .past (by decide) fun _ c₁ => ?_
  refine (block_balances hstmt _ c₁).bind fun _ _ body hbody => ?_
  exact closer_tells .whileDo _ (fun _ => .pure _) fun _ => ⟨body, hbody, rfl⟩

theorem repeatForm_balances : (repeatForm stmt n).Balances := by
  refine fun c => opener_tells .repeatUntil (by decide) fun _ c₁ => ?_
  refine (block_balances hstmt _ c₁).bind fun _ _ body hbody => ?_
  refine closer_tells .repeatUntil _ (fun _ _ => ?_) fun _ => ⟨body, hbody, rfl⟩
  exact anyExpression_fills.bind fun _ _ => .pure rfl

theorem caseForm_balances : (caseForm stmt n).Balances := by
  refine fun c => opener_tells .caseOf (by decide) fun _ _ => .past (by decide) fun _ _ => ?_
  refine anyExpression_fills.bind fun _ c₁ =>
    (caseBranches_balances hstmt n c₁).bind fun _ _ body hbody => ?_
  exact closer_tells .caseOf _ (fun _ => .pure _) fun _ => ⟨body, hbody, rfl⟩

theorem procedureForm_balances : (procedureForm stmt n).Balances := by
  refine fun c => opener_tells .procedure (by decide) fun _ _ => .past (by decide) fun _ _ => ?_
  refine optionalParams_fills.bind fun _ c₁ =>
    (block_balances hstmt _ c₁).bind fun _ _ body hbody => ?_
  exact closer_tells .procedure _ (fun _ => .pure _) fun _ => ⟨body, hbody, rfl⟩

theorem functionForm_balances : (functionForm stmt n).Balances := by
  refine fun c => opener_tells .function (by decide) fun _ _ => .past (by decide) fun _ _ => ?_
  refine optionalParams_fills.bind fun _ _ => .past (by decide) fun _ _ => ?_
  refine typeName_fills.bind fun _ c₁ => (block_balances hstmt _ c₁).bind fun _ _ body hbody => ?_
  exact closer_tells .function _ (fun _ => .pure _) fun _ => ⟨body, hbody, rfl⟩

theorem forForm_balances : (forForm stmt n).Balances := by
  rw [forForm_eq]
  refine fun c => .expectKeyword Marked.forWord fun _ => ?_
  -- the name behind the FOR is no file mode
  refine .expect (by decide) (fun hname => marking.plain _ (by rw [hname]; decide)) _
    fun hname => ?_
  refine .past (by decide) fun _ _ => anyExpression_fills.bind fun _ _ => ?_
  refine .past (by decide) fun _ _ => anyExpression_fills.bind fun _ _ => ?_
  refine (stepPart_fills _).bind fun _ c₁ =>
    (block_balances hstmt _ c₁).bind fun _ _ body hbody => ?_
  refine closer_tells .forTo _ (fun _ _ => (nextName_fills _).bind fun _ _ => .pure rfl) fun _ => ?_
  have hopens : blockMark? none (.keyword .forKw) (c.advance.tokens.head?.map Token.kind) =
      some (.opens .forTo) := by
    change blockMark? none (.keyword .forKw) (some c.advance.current.kind) = _
    rw [hname]
    decide
  rw [hopens]
  exact hbody.wrap .forTo

end Blocks

theorem fileOpenForm_fills : (fileOpenForm n).Fills marking := by
  refine fun c => word_tells (by decide) fun _ _ => anyExpression_fills.bind fun _ c₁ => ?_
  refine .expect (by decide) Marked.forWord _ fun _ => .current ?_
  -- the file mode behind the FOR takes its mark away
  have hopens : ∀ {kind : TokenKind} (form : Form), kind ∈ fileModes →
      c₁.advance.current.kind = kind →
      (do let _ ← advance; return form : Parser Form).Tells marking c₁.advance fun _ marks =>
        (blockMark? none (.keyword .forKw) (c₁.advance.tokens.head?.map Token.kind)).toList ++
            marks = [] := by
    intro kind form hmem hkind
    have hall : ∀ kind ∈ fileModes, kind ∉ reserved ∧
      blockMark? none (.keyword .forKw) (some kind) = none := by decide
    refine .advance (hkind ▸ (hall kind hmem).1) (.pure ?_)
    change (blockMark? none (.keyword .forKw) (some c₁.advance.current.kind)).toList ++ [] = []
    rw [hkind, (hall kind hmem).2]
    rfl
  split
  · next hkind => exact hopens _ (by decide) hkind
  · next hkind => exact hopens _ (by decide) hkind
  · next hkind => exact hopens _ (by decide) hkind
  · exact .current (.throw _)

theorem declareForms_fills : (declareForms n).Fills marking := by
  have hmark : Keyword.declareKw.blockMark? = none := by decide
  exact fun c => (declareForms_starts n c).tells
    (fun _ _ _ h => Marked.keyword h.1.1 hmark (by decide) (by decide) _) fun _ _ h => h.2

theorem assignForm_fills : (assignForm n).Fills marking :=
  fun _ => target_fills.bind fun _ _ => .past (by decide) fun _ _ =>
    anyExpression_fills.bind fun _ _ => .pure rfl

theorem inputForm_fills : (inputForm n).Fills marking :=
  fun _ => word_tells (by decide) fun _ _ => target_fills.bind fun _ _ => .pure rfl

theorem outputForm_fills : (outputForm n).Fills marking :=
  fun _ => word_tells (by decide) fun _ _ =>
    (items_fills anyExpression_fills n).bind fun _ _ => .pure rfl

theorem callForm_fills : (callForm n).Fills marking := by
  refine fun c => word_tells (by decide) fun _ _ => .past (by decide) fun _ _ => ?_
  refine (Fills.accept (by decide)).bind fun _ _ => .ite (fun _ => ?_) fun _ => .pure rfl
  exact (argumentList_fills anyExpression_fills).bind fun _ _ => .pure rfl

theorem returnForm_fills : (returnForm n).Fills marking :=
  fun _ => word_tells (by decide) fun _ _ => anyExpression_fills.bind fun _ _ => .pure rfl

theorem fileCloseForm_fills : (fileCloseForm n).Fills marking :=
  fun _ => word_tells (by decide) fun _ _ => anyExpression_fills.bind fun _ _ => .pure rfl

theorem fileReadForm_fills : (fileReadForm n).Fills marking :=
  fun _ => word_tells (by decide) fun _ _ => anyExpression_fills.bind fun _ _ =>
    .past (by decide) fun _ _ => target_fills.bind fun _ _ => .pure rfl

theorem fileWriteForm_fills : (fileWriteForm n).Fills marking :=
  fun _ => word_tells (by decide) fun _ _ => anyExpression_fills.bind fun _ _ =>
    .past (by decide) fun _ _ => anyExpression_fills.bind fun _ _ => .pure rfl

theorem forms_balances {stmt : Parser Block} (hstmt : stmt.Balances) (n : Nat) :
    (forms stmt n).Balances := by
  intro c
  have hone : ∀ {rule : Parser Form}, rule.Balances →
      (do return [← rule] : Parser (List Form)).Tells marking c fun _ marks => Neutral marks := by
    refine fun hrule => (hrule c).bind fun _ _ marks hmarks => .pure ?_
    rwa [List.append_nil]
  refine .current ?_
  split
  · exact declareForms_fills.balances c
  · exact hone (Fills.reject _).balances
  · exact hone inputForm_fills.balances
  · exact hone outputForm_fills.balances
  · exact hone (ifForm_balances hstmt)
  · exact hone (caseForm_balances hstmt)
  · exact hone (whileForm_balances hstmt)
  · exact hone (repeatForm_balances hstmt)
  · exact hone (forForm_balances hstmt)
  · exact hone (procedureForm_balances hstmt)
  · exact hone (functionForm_balances hstmt)
  · exact hone callForm_fills.balances
  · exact hone returnForm_fills.balances
  · exact hone fileOpenForm_fills.balances
  · exact hone fileCloseForm_fills.balances
  · exact hone fileReadForm_fills.balances
  · exact hone fileWriteForm_fills.balances
  · exact hone assignForm_fills.balances
  · exact (Fills.reject _).balances c

end Rules

/-- **Reading a statement leaves the open constructs as they were.** -/
theorem statement_balances (n : Nat) : (statement n).Balances := by
  induction n with
  | zero => exact fun c => .throw _
  | succ n ih =>
    refine fun c => .current ((forms_balances ih n c).bind fun _ _ marks hmarks => .pure ?_)
    rwa [List.append_nil]

/-! ## Programs -/

/-- Nothing behind an end of the input makes a difference to the marks before it. -/
theorem blockMarks_append_eof {e : Token} (he : e.kind = .eof) (previous : Option TokenKind)
    (front after : List Token) :
    blockMarks previous (front ++ e :: after) = blockMarks previous front ++
      blockMarks (some .eof) after := by
  induction front generalizing previous with
  | nil =>
    change (blockMark? previous e.kind (after.head?.map Token.kind)).toList ++
      blockMarks (some e.kind) after = _
    rw [he]
    rfl
  | cons t front ih =>
    have hnext : blockMark? previous t.kind ((front ++ e :: after).head?.map Token.kind) =
        blockMark? previous t.kind (front.head?.map Token.kind) := by
      cases front with
      | nil => simp [blockMark?, fileModes, he]
      | cons => rfl
    rw [List.cons_append, blockMarks, blockMarks, hnext, ih, List.append_assoc]

/-- **Only nested blocks are read.** If a token list that ends with the end of the input is
accepted, then the cursor ends on the first end of the input in it, and the marks of the tokens
before that are well nested. -/
theorem accepted_tokens_are_well_nested (tokens : List Token)
    (hended : ∃ before last, tokens = before ++ [last] ∧ last.kind = .eof) (b : Block) (c : Cursor)
    (h : runOn program tokens = .ok b c) :
    ∃ before e after, tokens = before ++ e :: after ∧ e.kind = .eof ∧
      (∀ t ∈ before, t.kind ≠ .eof) ∧
      c = ⟨before.length, e, after⟩ ∧ WellNested (blockMarks none before) := by
  obtain ⟨hin, -, -⟩ : Parser.Outcome tokens _ _ (.ok b c) := h ▸ (program_proceeds hended).1
  have hplace := hin.position_add_left
  have hstart : (Cursor.start tokens).tokens = tokens :=
    Cursor.tokens_start (by obtain ⟨_, _, rfl, -⟩ := hended; simp)
  have hbalances : (program (stepBound tokens)).Balances := block_balances (statement_balances _) []
  obtain ⟨marks, ⟨⟨before, htokens, hbefore⟩, hmarks⟩, hneutral⟩ :=
    hbalances _ (hstart.symm ▸ hended) b c h
  rw [hstart] at htokens hmarks
  have heof := eof_of_runOn h
  refine ⟨before, c.current, c.rest, htokens, heof, hbefore, ?_, ?_⟩
  · have hposition : c.position = before.length := by
      rw [htokens, List.length_append, Cursor.tokens, List.length_cons, Cursor.left] at hplace
      omega
    rw [← hposition]
  · obtain ⟨previous, -, heq⟩ := hmarks none fun hnone => absurd hnone (by simp)
    have hcancel : blockMarks none before ++ blockMarks (some .eof) c.rest =
        marks ++ blockMarks (some .eof) c.rest := by
      calc blockMarks none before ++ blockMarks (some .eof) c.rest
        _ = blockMarks none tokens := by
          rw [htokens]; exact (blockMarks_append_eof heof none before c.rest).symm
        _ = marks ++ blockMarks previous c.tokens := heq
        _ = marks ++ blockMarks (some .eof) c.rest :=
          congrArg (marks ++ ·) (blockMarks_append_eof heof previous [] c.rest)
    rw [List.append_cancel_right hcancel]
    exact hneutral.wellNested

/-- A conditional with an OPENFILE and an ELSE IF, and in the latter a loop. -/
def nestedTokens : List Token :=
  [⟨.keyword .ifKw, .text "IF", 1, 1⟩, ⟨.identifier, .text "a", 1, 4⟩,
    ⟨.keyword .thenKw, .text "THEN", 1, 6⟩, ⟨.keyword .openFileKw, .text "OPENFILE", 2, 1⟩,
    ⟨.identifier, .text "f", 2, 10⟩, ⟨.keyword .forKw, .text "FOR", 2, 12⟩,
    ⟨.keyword .readKw, .text "READ", 2, 16⟩, ⟨.keyword .elseKw, .text "ELSE", 3, 1⟩,
    ⟨.keyword .ifKw, .text "IF", 3, 6⟩, ⟨.identifier, .text "b", 3, 9⟩,
    ⟨.keyword .thenKw, .text "THEN", 3, 11⟩, ⟨.keyword .whileKw, .text "WHILE", 4, 1⟩,
    ⟨.identifier, .text "c", 4, 7⟩, ⟨.keyword .doKw, .text "DO", 4, 9⟩,
    ⟨.keyword .endWhileKw, .text "ENDWHILE", 5, 1⟩, ⟨.keyword .endIfKw, .text "ENDIF", 6, 1⟩]

/-- The conditional is read up to the first of two ends of the input, and its marks are those of an
IF and a loop. -/
theorem nestedTokens_are_accepted :
    ∃ b c, runOn program (nestedTokens ++ [.eofAt 7 1, .eofAt 7 1]) = .ok b c ∧
      (∃ before e after, nestedTokens ++ [.eofAt 7 1, .eofAt 7 1] = before ++ e :: after ∧
        e.kind = .eof ∧
        (∀ t ∈ before, t.kind ≠ .eof) ∧ c = ⟨before.length, e, after⟩ ∧
          WellNested (blockMarks none before)) ∧
      blockMarks none nestedTokens = [.opens .ifThen, .opens .whileDo, .closes .whileDo,
        .closes .ifThen] := by
  have hended : ∃ before last, nestedTokens ++ [.eofAt 7 1, .eofAt 7 1] = before ++ [last] ∧
      last.kind = .eof :=
    ⟨nestedTokens ++ [.eofAt 7 1], .eofAt 7 1, rfl, rfl⟩
  have hparsed :
    (parseTokens (nestedTokens ++ [.eofAt 7 1, .eofAt 7 1])).isOk = true := by decide +kernel
  unfold parseTokens at hparsed
  cases hrun : runOn program (nestedTokens ++ [.eofAt 7 1, .eofAt 7 1]) with
  | ok b c => exact ⟨b, c, rfl, accepted_tokens_are_well_nested _ hended b c hrun, by decide⟩
  | error failure c =>
    rw [hrun] at hparsed
    cases hparsed

end Pseudocode
