import Pseudocode.Proofs.TokenOrder

/-!
# Every statement knows its line

A statement is read from a stretch of tokens, from its first token up to where the rule for
statements stops (`Stmt.ReadFrom`). It has the line of the first of them, and the expressions in it,
those in statements within it apart, have lines of tokens of the stretch.

Two recordings show this. One notes the statements with the stretches they are read from
(`reading`), which gives a stretch for every statement at every depth. The other notes lines of
tokens (`citing`): a rule cites the lines of the nodes that it makes. Most nodes are made from a
token that has just been read. Only the step that a FOR does not have cites the FOR, and a range of
a CASE cites the token in front of it, which the first of its bounds reads.

Results:
* `readFrom_of_parseTokens`: every statement of a program is read from a stretch of its tokens.
* `Stmt.ReadFrom.locates`: the lines of a statement and of its expressions are found in the stretch.
* `Stands.pairwise_line`: in the order of the source, lines never decrease.
* `statements_know_their_lines`: all of this for whole sources.
-/

namespace Pseudocode

open Parse Pseudocode.Parser

/-! ## Lines of nodes -/

mutual
/-- The lines of an expression and of all expressions within it. -/
def Expr.lines : Expr → List Int
  | .literal line _ | .var line _ | .inert line _ => [line]
  | .element line _ es | .call line _ es => line :: exprLines es
  | .binary line l _ r => line :: (l.lines ++ r.lines)
  | .unary line _ e => line :: e.lines

/-- The lines of expressions and of all expressions within them. -/
def exprLines : List Expr → List Int
  | [] => []
  | e :: es => e.lines ++ exprLines es
end

theorem exprLines_eq (es : List Expr) : exprLines es = es.flatMap Expr.lines := by
  induction es with
  | nil => rw [exprLines, List.flatMap_nil]
  | cons e es ih => rw [exprLines, List.flatMap_cons, ih]

/-- The lines of a target and of the expressions within it. -/
def Target.lines : Target → List Int
  | .var line _ | .improper line => [line]
  | .element line _ indices => line :: exprLines indices

/-- The lines of a label and of the expressions within it. -/
def CaseLabel.lines : CaseLabel → List Int
  | .value e => e.lines
  | .range line low high => line :: (low.lines ++ high.lines)

/-- The lines of the expressions in a form, without those in the statements within it. -/
def Form.lines : Form → List Int
  | .assign target value => target.lines ++ value.lines
  | .output values | .call _ values => exprLines values
  | .input target => target.lines
  | .ifThen condition _ arms _ => condition.lines ++ arms.flatMap fun arm => arm.condition.lines
  | .whileDo condition _ | .repeatUntil _ condition => condition.lines
  | .forTo _ start stop step _ => start.lines ++ (stop.lines ++ step.lines)
  | .caseOf selector branches _ => selector.lines ++ branches.flatMap fun branch =>
    branch.label.lines
  | .returnValue e | .fileOpen e _ | .fileClose e => e.lines
  | .fileRead name target => name.lines ++ target.lines
  | .fileWrite name data => name.lines ++ data.lines
  | .declare .. | .procedure .. | .function .. | .inert _ => []

/-! ## Citing lines -/

/-- Notes are lines of tokens that are read. -/
def citing : Recording Int where
  Noted ls ts ts' := ∃ front, ts = front ++ ts' ∧ ∀ l ∈ ls, ∃ t ∈ front, t.line = l
  nil _ := ⟨[], rfl, by simp⟩
  append := by
    rintro ls ls' _ _ ts'' ⟨front, rfl, h⟩ ⟨front', rfl, h'⟩
    refine ⟨front ++ front', (List.append_assoc ..).symm, fun l hl => ?_⟩
    rcases List.mem_append.mp hl with hl | hl
    · obtain ⟨t, ht, hline⟩ := h l hl
      exact ⟨t, List.mem_append_left _ ht, hline⟩
    · obtain ⟨t, ht, hline⟩ := h' l hl
      exact ⟨t, List.mem_append_right _ ht, hline⟩
  suffix := by
    rintro _ _ ts' ⟨front, rfl, -⟩
    exact ⟨front, rfl⟩
  plain {t} _ _ := ⟨[t], rfl, by simp⟩

theorem citing_token (t : Token) (ts : List Token) : citing.Noted [t.line] (t :: ts) ts :=
  ⟨[t], rfl, by simp⟩

theorem citing_skipsDividers : citing.SkipsDividers :=
  fun t _ _ => ⟨[t], rfl, by simp⟩

namespace Parser

variable {α β : Type}

/-- Wherever it is run, a parser cites the lines of what it makes. -/
def Cites (p : Parser α) (lines : α → List Int) : Prop :=
  ∀ c, p.Tells citing c fun a ls => lines a ⊆ ls

/-- A parser also cites the line of the token at which it is run. -/
def CitesFrom (p : Parser α) (lines : α → List Int) : Prop :=
  ∀ c, p.Tells citing c fun a ls => c.current.line :: lines a ⊆ ls

theorem CitesFrom.cites {p : Parser α} {lines : α → List Int} (h : p.CitesFrom lines) :
    p.Cites lines :=
  fun c => (h c).imp fun _ _ hls => (List.cons_subset.mp hls).2

/-- What leaves no notes may stand behind what cites. -/
theorem Cites.bind {p : Parser α} {lines : α → List Int} (hp : p.Cites lines) {f : α → Parser β}
    {c : Cursor} {goal : β → List Int → Prop}
    (hf : ∀ a c' ls, lines a ⊆ ls → (f a).Tells citing c' fun b ls' => goal b (ls ++ ls')) :
    (p >>= f).Tells citing c goal :=
  (hp c).bind hf

/-- The current token is read, and its line cited. -/
theorem Tells.cite {f : Token → Parser β} {c : Cursor} {goal : β → List Int → Prop}
    (hkind : c.current.kind ≠ .eof)
    (hf : (f c.current).Tells citing c.advance fun b ls => goal b (c.current.line :: ls)) :
    (Parser.advance >>= f).Tells citing c goal :=
  .read hkind (citing_token _ _) hf

end Parser

/-! ## Expressions -/

section Expressions

variable {α : Type} {lines : α → List Int} {n : Nat}

theorem moreItems_cites {item : Parser α} (hitem : item.Cites lines) (n : Nat) :
    (moreItems item n).Cites (List.flatMap lines) := by
  induction n with
  | zero => exact fun _ => .throw _
  | succ n ih =>
    refine fun c => (Fills.accept (by decide)).bind fun _ _ =>
      .ite (fun _ => ?_) fun _ => .pure (by simp)
    refine hitem.bind fun x _ ls hx => ih.bind fun xs _ ls' hxs => .pure ?_
    rw [List.flatMap_cons]
    grind

theorem items_cites {item : Parser α} (hitem : item.Cites lines) (n : Nat) :
    (items item n).Cites (List.flatMap lines) := by
  refine fun c => hitem.bind fun x _ ls hx =>
    (moreItems_cites hitem n).bind fun xs _ ls' hxs => .pure ?_
  rw [List.flatMap_cons]
  grind

theorem expressions_cites {expr : Parser Expr} (hexpr : expr.Cites Expr.lines) :
    (items expr n).Cites exprLines := by
  rw [funext exprLines_eq]
  exact items_cites hexpr n

theorem indexList_cites {expr : Parser Expr} (hexpr : expr.Cites Expr.lines) :
    (indexList expr n).Cites exprLines :=
  fun _ => (expressions_cites hexpr).bind fun es _ ls hes => .past (by decide) fun _ _ =>
    .pure (by grind)

theorem argumentList_cites {expr : Parser Expr} (hexpr : expr.Cites Expr.lines) :
    (argumentList expr n).Cites exprLines := by
  have hclose : ∀ (es : List Expr) (c : Cursor),
      (do let _ ← expect (.symbol .rparen) .parenAfterArguments; return es : Parser
        (List Expr)).Tells citing c fun es' ls => es' = es ∧ ls = [] :=
    fun es c => .past (by decide) fun _ _ => .pure ⟨rfl, rfl⟩
  refine fun c => .check (.ite (fun _ => (hclose [] c).imp ?_) fun _ => ?_)
  · rintro _ _ ⟨rfl, -⟩
    simp [exprLines]
  · refine (expressions_cites hexpr).bind fun es c' ls hes => (hclose es c').imp ?_
    rintro _ _ ⟨rfl, rfl⟩
    simpa using hes

theorem numberLiteral_cites (t : Token) (c : Cursor) :
    (numberLiteral t).Tells citing c fun e _ => e.lines = [t.line] := by
  unfold numberLiteral
  split
  · dsimp only
    split
    · exact .pure (by rw [Expr.lines])
    · exact .throw _
  · exact .throw _

/-- A node is made at the token that is read first. -/
theorem primary_cites {expr : Parser Expr} (hexpr : expr.CitesFrom Expr.lines) :
    (primary expr n).CitesFrom Expr.lines := by
  intro c
  refine Tells.current ?_
  split
  · next hkind =>
    refine .cite (by simp [hkind]) (hexpr.cites.bind fun e _ ls he => ?_)
    exact .past (by decide) fun _ _ => .pure (by grind)
  · next hkind =>
    refine .cite (by simp [hkind]) ((numberLiteral_cites _ _).imp fun e ls he => ?_)
    grind
  · next hkind => exact .cite (by simp [hkind]) (.pure (by simp [Expr.lines]))
  · next hkind => exact .cite (by simp [hkind]) (.pure (by simp [Expr.lines]))
  · next hkind =>
    refine .cite (by simp [hkind]) ?_
    refine (Fills.accept (by decide)).bind fun _ _ => .ite (fun _ => ?_) fun _ => ?_
    · exact (indexList_cites hexpr.cites).bind fun es _ ls hes => .pure (by grind [Expr.lines])
    refine (Fills.accept (by decide)).bind fun _ _ => .ite (fun _ => ?_) fun _ =>
      .pure (by simp [Expr.lines])
    exact (argumentList_cites hexpr.cites).bind fun es _ ls hes => .pure (by grind [Expr.lines])
  · refine .get (.ite (fun hword => ?_) fun _ => .current (.throw _))
    simp only [Bool.and_eq_true, List.contains_eq_mem, decide_eq_true_eq] at hword
    have hall : ∀ kind ∈ conversionWords, kind ≠ .eof := by decide
    have hahead : c.advance.current.kind = .symbol .lparen := by rw [← Cursor.ahead_eq, hword.2]
    refine .cite (hall _ hword.1) (.advance (by rw [hahead]; decide) ?_)
    exact (argumentList_cites hexpr.cites).bind fun es _ ls hes => .pure (by grind [Expr.lines])

theorem unary_cites {expr : Parser Expr} (hexpr : expr.CitesFrom Expr.lines) (k : Nat) :
    (unary expr n k).CitesFrom Expr.lines := by
  induction k with
  | zero => exact fun _ => .throw _
  | succ k ih =>
    refine fun c => .check (.ite (fun hminus => ?_) fun _ => primary_cites hexpr c)
    have hkind : c.current.kind = .symbol .minus := by simpa using hminus
    exact .cite (by simp [hkind]) (ih.cites.bind fun e _ ls he => .pure (by grind [Expr.lines]))

variable {expr : Int → Parser Expr} (hexpr : ∀ power, 0 ≤ power → (expr power).CitesFrom Expr.lines)
include hexpr

theorem operand_cites : (operand expr n).CitesFrom Expr.lines := by
  refine fun c => .check (.ite (fun hnot => ?_) fun _ => unary_cites (hexpr 0 (by decide)) n c)
  have hkind : c.current.kind = .keyword .notKw := by simpa using hnot
  refine .cite (by simp [hkind]) ((hexpr notPower (by decide)).cites.bind fun e _ ls he => .pure ?_)
  grind [Expr.lines]

/-- An operator is cited on the way, and its left operand has been before. -/
theorem climb_cites {power : Int} (hpower : 0 ≤ power) (k : Nat) (l : Expr) (c : Cursor) :
    (climb expr power k l).Tells citing c fun e ls => e.lines ⊆ l.lines ++ ls := by
  induction k generalizing l c with
  | zero => exact .throw _
  | succ k ih =>
    refine .current (.ite (fun _ => .pure (by simp)) fun hge => ?_)
    have hbinds : 0 ≤ bindingPower c.current.kind := Int.le_trans hpower (Int.not_lt.mp hge)
    have hright : 0 ≤ rightPower c.current.kind := by
      unfold rightPower
      split <;> omega
    refine .cite (List.ne_of_not_mem_cons (not_mem_reserved_of_bindingPower hbinds)) ?_
    refine (hexpr _ hright).cites.bind fun r c' ls hr => (ih _ c').imp fun e ls' he => ?_
    rw [Expr.lines] at he
    grind

end Expressions

/-- **An expression has lines of tokens it is read from**, and its first token is one of these. -/
theorem expression_cites (n : Nat) {power : Int} (hpower : 0 ≤ power) :
    (expression n power).CitesFrom Expr.lines := by
  induction n generalizing power with
  | zero => exact fun _ => .throw _
  | succ n ih =>
    refine fun c => (operand_cites (fun _ => ih) c).bind fun l c' ls hl => ?_
    exact (climb_cites (fun _ => ih) hpower n l c').imp fun e ls' he => by grind

/-! ## Forms -/

section Forms

variable {n : Nat}

theorem anyExpression_cites : (anyExpression n).CitesFrom Expr.lines :=
  expression_cites n (by decide)

theorem target_cites : (target n).Cites Target.lines := by
  refine fun c => .expect (by decide) (fun _ => citing_token _ _) _ fun _ => ?_
  refine (Fills.accept (by decide)).bind fun _ _ => .ite (fun _ => ?_) fun _ =>
    .pure (by simp [Target.lines])
  refine (indexList_cites anyExpression_cites.cites).bind fun es _ ls hes => .pure ?_
  grind [Target.lines]

theorem conditionThen_cites : (conditionThen n).Cites Expr.lines :=
  fun _ => anyExpression_cites.cites.bind fun e _ ls he => Fills.skipNewlines.bind fun _ _ =>
    .past (by decide) fun _ _ => .pure (by grind)

/-- A step that is not there cites the line it is given. -/
theorem stepPart_cites (line : Int) (c : Cursor) :
    (stepPart line n).Tells citing c fun e ls => e.lines ⊆ line :: ls := by
  refine (Fills.accept (by decide)).bind fun _ c' => .ite (fun _ => ?_) fun _ =>
    .pure (by simp [Expr.lines])
  exact (anyExpression_cites.cites c').imp fun e ls he => by grind

/-- A range cites the token in front of it, which its lower bound reads. -/
theorem caseLabel_cites : (caseLabel n).Cites CaseLabel.lines := by
  refine fun c => .current ((anyExpression_cites c).bind fun low _ ls hlow => ?_)
  refine (Fills.accept (by decide)).bind fun _ _ => .ite (fun _ => ?_) fun _ => .pure ?_
  · refine anyExpression_cites.cites.bind fun high _ ls' hhigh => .pure ?_
    grind [CaseLabel.lines]
  · grind [CaseLabel.lines]

/-- The rule for a form that starts with a keyword. -/
theorem keyword_cites {k : Keyword} {f : Token → Parser Form}
    (hf : ∀ t c, (f t).Tells citing c fun form ls => form.lines ⊆ t.line :: ls) :
    (expectKeyword k >>= f).Cites Form.lines :=
  fun _ => .expectKeyword (fun _ => citing_token _ _) fun _ => hf _ _

theorem inputForm_cites : (inputForm n).Cites Form.lines :=
  keyword_cites fun _ _ => target_cites.bind fun _ _ _ h => .pure (by grind [Form.lines])

theorem outputForm_cites : (outputForm n).Cites Form.lines :=
  keyword_cites fun _ _ => (expressions_cites anyExpression_cites.cites).bind fun _ _ _ h =>
    .pure (by grind [Form.lines])

theorem returnForm_cites : (returnForm n).Cites Form.lines :=
  keyword_cites fun _ _ => anyExpression_cites.cites.bind fun _ _ _ h =>
    .pure (by grind [Form.lines])

theorem callForm_cites : (callForm n).Cites Form.lines := by
  refine keyword_cites fun _ _ => .past (by decide) fun _ _ => ?_
  refine (Fills.accept (by decide)).bind fun _ _ => .ite (fun _ => ?_) fun _ => .pure ?_
  · exact (argumentList_cites anyExpression_cites.cites).bind fun _ _ _ h =>
      .pure (by grind [Form.lines])
  · simp [Form.lines, exprLines]

theorem assignForm_cites : (assignForm n).Cites Form.lines :=
  fun _ => target_cites.bind fun _ _ _ htarget => .past (by decide) fun _ _ =>
    anyExpression_cites.cites.bind fun _ _ _ h => .pure (by grind [Form.lines])

theorem fileOpenForm_cites : (fileOpenForm n).Cites Form.lines := by
  refine keyword_cites fun t _ => anyExpression_cites.cites.bind fun name _ ls hname => ?_
  refine (divider_fills citing_skipsDividers (by decide) _).bind fun _ c' => .current ?_
  have hdone :
      ∀ (mode : String) (c : Cursor), (return .fileOpen name mode : Parser Form).Tells citing c
      fun form ls' => form.lines ⊆ t.line :: (ls ++ ls') :=
    fun mode c => .pure (by grind [Form.lines])
  split
  · next hkind => exact .advance (by rw [hkind]; decide) (hdone _ _)
  · next hkind => exact .advance (by rw [hkind]; decide) (hdone _ _)
  · next hkind => exact .advance (by rw [hkind]; decide) (hdone _ _)
  · exact .current (.throw _)

theorem fileCloseForm_cites : (fileCloseForm n).Cites Form.lines :=
  keyword_cites fun _ _ => anyExpression_cites.cites.bind fun _ _ _ h =>
    .pure (by grind [Form.lines])

theorem fileReadForm_cites : (fileReadForm n).Cites Form.lines :=
  keyword_cites fun _ _ => anyExpression_cites.cites.bind fun _ _ _ hname =>
    .past (by decide) fun _ _ =>
      target_cites.bind fun _ _ _ htarget => .pure (by grind [Form.lines])

theorem fileWriteForm_cites : (fileWriteForm n).Cites Form.lines :=
  keyword_cites fun _ _ => anyExpression_cites.cites.bind fun _ _ _ hname =>
    .past (by decide) fun _ _ =>
      anyExpression_cites.cites.bind fun _ _ _ hdata => .pure (by grind [Form.lines])

/-! Statements within a form read tokens, but the form has nothing of theirs. -/

variable {stmt : Parser Block} (hstmt : stmt.Fills citing)
include hstmt

theorem blockUntil_fills (stop : Cursor → Bool) (k : Nat) :
    (blockUntil stop stmt k).Fills citing := by
  induction k with
  | zero => exact .throw _
  | succ k ih =>
    refine fun c => Fills.skipNewlines.bind fun _ _ => .get (.ite (fun _ => .pure rfl) fun _ => ?_)
    exact hstmt.bind fun _ _ => ih.bind fun _ _ => .pure rfl

theorem block_fills (stops : List TokenKind) : (block stmt stops n).Fills citing := by
  rw [block_eq]
  exact blockUntil_fills hstmt _ n

theorem elsePart_fills : (elsePart stmt n).Fills citing :=
  fun _ => .accept (by decide) (fun helse => citing_skipsDividers _ _ (by rw [helse]; decide))
    (fun _ => (block_fills hstmt _).bind fun _ _ => .pure rfl) fun _ => .pure rfl

theorem elseIfs_cites (k : Nat) :
    (elseIfs stmt n k).Cites (List.flatMap fun arm => arm.condition.lines) := by
  induction k with
  | zero => exact fun _ => .throw _
  | succ k ih =>
    refine fun c => .check (.get (.ite (fun helse => ?_) fun _ => .pure (by simp)))
    simp only [Bool.and_eq_true, List.contains_eq_mem, List.mem_singleton,
      decide_eq_true_eq] at helse
    have hahead : c.advance.current.kind = .keyword .ifKw := by rw [← Cursor.ahead_eq, helse.2]
    refine .cite (by simp [helse.1]) (.cite (by simp [hahead]) ?_)
    refine conditionThen_cites.bind fun condition _ ls hcondition =>
      (block_fills hstmt _).bind fun body _ => ?_
    refine ih.bind fun arms _ ls' harms => .pure ?_
    rw [List.flatMap_cons]
    grind [Arm.condition]

theorem caseBranch_cites : (caseBranch stmt n).Cites fun branch => branch.label.lines := by
  rw [caseBranch_eq, branchBlock_eq]
  refine fun c => caseLabel_cites.bind fun label _ ls hlabel => .past (by decide) fun _ _ => ?_
  refine (blockUntil_fills hstmt _ n).bind fun body _ => .pure ?_
  grind [Branch.label]

theorem caseBranches_cites (k : Nat) :
    (caseBranches stmt n k).Cites fun r => r.1.flatMap fun branch => branch.label.lines := by
  induction k with
  | zero => exact fun _ => .throw _
  | succ k ih =>
    refine fun c => Fills.skipNewlines.bind fun _ _ =>
      .check (.ite (fun _ => .pure (by simp)) fun _ => ?_)
    refine (Fills.accept (by decide)).bind fun _ _ => .ite (fun _ => ?_) fun _ => ?_
    · refine .past (by decide) fun _ _ => (block_fills hstmt _).bind fun _ _ => ?_
      exact .pure (by simp)
    · refine (caseBranch_cites hstmt).bind fun branch _ ls hbranch =>
        ih.bind fun r _ ls' hrest => .pure ?_
      simp only [List.flatMap_cons]
      grind

theorem ifForm_cites : (ifForm stmt n).Cites Form.lines := by
  rw [ifForm_eq]
  refine keyword_cites fun _ _ => conditionThen_cites.bind fun _ _ _ hcondition => ?_
  refine (block_fills hstmt _).bind fun _ _ => (elseIfs_cites hstmt n).bind fun _ _ _ harms => ?_
  refine (elsePart_fills hstmt).bind fun _ _ =>
    (divider_fills citing_skipsDividers (by decide) _).bind fun _ _ => ?_
  exact .pure (by grind [Form.lines])

theorem whileForm_cites : (whileForm stmt n).Cites Form.lines := by
  refine keyword_cites fun _ _ => anyExpression_cites.cites.bind fun _ _ _ hcondition => ?_
  refine Fills.skipNewlines.bind fun _ _ => .past (by decide) fun _ _ => ?_
  refine (block_fills hstmt _).bind fun _ _ =>
    (divider_fills citing_skipsDividers (by decide) _).bind fun _ _ => ?_
  exact .pure (by grind [Form.lines])

theorem repeatForm_cites : (repeatForm stmt n).Cites Form.lines := by
  refine keyword_cites fun _ _ => (block_fills hstmt _).bind fun _ _ => ?_
  refine (divider_fills citing_skipsDividers (by decide) _).bind fun _ _ => ?_
  exact anyExpression_cites.cites.bind fun _ _ _ hcondition => .pure (by grind [Form.lines])

theorem forForm_cites : (forForm stmt n).Cites Form.lines := by
  rw [forForm_eq]
  refine keyword_cites fun t _ => .past (by decide) fun _ _ => ?_
  refine .past (by decide) fun _ _ => anyExpression_cites.cites.bind fun _ _ _ hstart => ?_
  refine .past (by decide) fun _ _ => anyExpression_cites.cites.bind fun _ c _ hstop => ?_
  refine (stepPart_cites t.line c).bind fun _ _ _ hstep => (block_fills hstmt _).bind fun _ _ => ?_
  refine (divider_fills citing_skipsDividers (by decide) _).bind fun _ _ =>
    (nextName_fills _).bind fun _ _ => ?_
  exact .pure (by grind [Form.lines])

theorem caseForm_cites : (caseForm stmt n).Cites Form.lines := by
  refine keyword_cites fun _ _ => .past (by decide) fun _ _ => ?_
  refine anyExpression_cites.cites.bind fun _ _ _ hselector =>
    (caseBranches_cites hstmt n).bind fun r _ _ hr => ?_
  refine (divider_fills citing_skipsDividers (by decide) _).bind fun _ _ => .pure ?_
  grind [Form.lines]

theorem procedureForm_cites : (procedureForm stmt n).Cites Form.lines := by
  refine keyword_cites fun _ _ => .past (by decide) fun _ _ => ?_
  refine optionalParams_fills.bind fun _ _ => (block_fills hstmt _).bind fun _ _ => ?_
  exact (divider_fills citing_skipsDividers (by decide) _).bind fun _ _ =>
    .pure (by simp [Form.lines])

theorem functionForm_cites : (functionForm stmt n).Cites Form.lines := by
  refine keyword_cites fun _ _ => .past (by decide) fun _ _ => ?_
  refine optionalParams_fills.bind fun _ _ => .past (by decide) fun _ _ => ?_
  refine typeName_fills.bind fun _ _ => (block_fills hstmt _).bind fun _ _ => ?_
  exact (divider_fills citing_skipsDividers (by decide) _).bind fun _ _ =>
    .pure (by simp [Form.lines])

omit hstmt in
/-- A DECLARE has no expressions. -/
theorem declareForms_cites : (declareForms n).Cites (List.flatMap Form.lines) := by
  refine fun c =>
    (declareForms_starts n c).tells (fun _ _ _ _ => citing_token _ _) fun forms ss h => ?_
  rw [h.1.2.flatMap fun _ _ _ => rfl]
  exact List.nil_subset _

/-- **Every form has lines of the tokens it is read from.** -/
theorem forms_cites : (forms stmt n).Cites (List.flatMap Form.lines) := by
  have hone : ∀ {rule : Parser Form}, rule.Cites Form.lines →
      (do return [← rule] : Parser (List Form)).Cites (List.flatMap Form.lines) := by
    refine fun hrule c => hrule.bind fun form _ ls hform => .pure ?_
    rw [List.flatMap_singleton]
    grind
  refine fun c => .current ?_
  split
  · exact declareForms_cites c
  · exact hone (fun _ => .current (.throw _)) c
  · exact hone inputForm_cites c
  · exact hone outputForm_cites c
  · exact hone (ifForm_cites hstmt) c
  · exact hone (caseForm_cites hstmt) c
  · exact hone (whileForm_cites hstmt) c
  · exact hone (repeatForm_cites hstmt) c
  · exact hone (forForm_cites hstmt) c
  · exact hone (procedureForm_cites hstmt) c
  · exact hone (functionForm_cites hstmt) c
  · exact hone callForm_cites c
  · exact hone returnForm_cites c
  · exact hone fileOpenForm_cites c
  · exact hone fileCloseForm_cites c
  · exact hone fileReadForm_cites c
  · exact hone fileWriteForm_cites c
  · exact hone assignForm_cites c
  · exact .current (.throw _)

end Forms

/-! ## Stretches -/

/-- A run of the rule for statements reads the given tokens, the first ones of those that are left,
and makes the statement of them, perhaps with others of the same DECLARE. -/
def Stmt.ReadFrom (s : Stmt) (own rest : List Token) : Prop :=
  ∃ n b c c', statement n c = .ok b c' ∧ s ∈ b ∧ c.tokens = own ++ rest ∧ c'.tokens = rest

/-- Notes are the statements that are read. -/
def reading : Recording Stmt where
  Noted ss ts ts' := ts' <:+ ts ∧ ∀ s ∈ ss, ∃ before own after,
    ts = before ++ (own ++ (after ++ ts')) ∧ s.ReadFrom own (after ++ ts')
  nil _ := ⟨List.suffix_refl _, by simp⟩
  append := by
    rintro ss ss' _ _ ts'' ⟨⟨front, rfl⟩, h⟩ ⟨⟨front', rfl⟩, h'⟩
    refine ⟨⟨front ++ front', List.append_assoc ..⟩, fun s hs => ?_⟩
    rcases List.mem_append.mp hs with hs | hs
    · obtain ⟨before, own, after, htokens, hread⟩ := h s hs
      exact ⟨before, own,
        after ++ front', by rw [htokens, List.append_assoc], by rwa [List.append_assoc]⟩
    · obtain ⟨before, own, after, htokens, hread⟩ := h' s hs
      exact ⟨front ++ before, own, after, by rw [htokens, List.append_assoc], hread⟩
  suffix h := h.1
  plain {t} ts _ := ⟨List.suffix_cons t ts, by simp⟩

theorem reading_skipsDividers : reading.SkipsDividers :=
  fun t ts _ => ⟨List.suffix_cons t ts, by simp⟩

/-- **Reading a statement reads every statement within it**, each from a stretch of its own. -/
theorem statement_reads (n : Nat) : (statement n).TellsBlock reading := by
  induction n with
  | zero => exact fun c => .throw _
  | succ n ih =>
    refine fun c hc b c' hrun => ?_
    have hrun' := hrun
    obtain ⟨_, m, hcurrent, hforms⟩ := bind_eq_ok.mp hrun
    cases hcurrent
    obtain ⟨forms, m, hforms, heq⟩ := bind_eq_ok.mp hforms
    cases heq
    obtain ⟨ts, ss, htokens, ⟨⟨more, hmore⟩, hinside⟩, hopens, rfl⟩ :=
      forms_starts reading_skipsDividers ih n c hc forms c' hforms
    have hown : c.tokens = (c.current :: more) ++ c'.tokens := by
      rw [htokens, ← hmore, List.cons_append]
    refine ⟨_, ⟨⟨c.current :: more, hown.symm⟩, fun s hs => ?_⟩, (hopens.blockStatements _).symm⟩
    rcases List.mem_append.mp hs with hs | hs
    · exact ⟨[], c.current :: more, [], hown, n + 1, _, c, c', hrun', hs, hown, rfl⟩
    · obtain ⟨before, own, after, hbefore, hread⟩ := hinside s hs
      exact ⟨c.current :: before, own, after, by rw [htokens, hbefore, List.cons_append], hread⟩

theorem statement_fills (n : Nat) : (statement n).Fills citing := by
  intro c hc b c' hrun
  obtain ⟨ss, ⟨⟨front, hfront⟩, -⟩, -⟩ := statement_reads n c hc b c' hrun
  exact ⟨[], ⟨front, hfront.symm, by simp⟩, rfl⟩

/-- A statement and the lines of its expressions are found in a stretch of tokens that starts with
the statement's own token. -/
structure Stmt.Locates (s : Stmt) (first : Token) (more : List Token) : Prop where
  line : s.line = first.line
  opener : first.kind = s.form.opener
  lines : ∀ l ∈ s.form.lines, ∃ t ∈ first :: more, t.line = l

/-- **The stretch of a statement** starts with its own token, and has the lines of its
expressions. -/
theorem Stmt.ReadFrom.locates {s : Stmt} {own rest : List Token} (h : s.ReadFrom own rest)
    {start : Cursor} (hended : start.Ended) (hsuffix : own ++ rest <:+ start.tokens) :
    ∃ first more, own = first :: more ∧ s.Locates first more := by
  obtain ⟨n, b, c, c', hrun, hs, htokens, rfl⟩ := h
  have hc : c.Ended := hended.of_suffix (htokens ▸ hsuffix)
  cases n with
  | zero => cases hrun
  | succ n =>
    obtain ⟨_, m, hcurrent, hforms⟩ := bind_eq_ok.mp hrun
    cases hcurrent
    obtain ⟨forms, m, hforms, heq⟩ := bind_eq_ok.mp hforms
    cases heq
    obtain ⟨form, hform, rfl⟩ := List.mem_map.mp hs
    obtain ⟨ts, -, hstart, ⟨⟨more, hmore⟩, -⟩, hopens, -⟩ :=
      forms_starts reading_skipsDividers (statement_reads n) n c hc forms c' hforms
    obtain ⟨ls, ⟨front, hfront, hlines⟩, hcited⟩ :=
      forms_cites (statement_fills n) c hc forms c' hforms
    obtain rfl : own = c.current :: more := by
      rw [hstart, ← hmore, ← List.cons_append] at htokens
      exact (List.append_cancel_right htokens).symm
    obtain rfl : front = c.current :: more := List.append_cancel_right (hfront.symm.trans htokens)
    exact ⟨c.current, more, rfl, rfl, (hopens.opener form hform).symm,
      fun l hl => hlines l (hcited (List.mem_flatMap.mpr ⟨form, hform, hl⟩))⟩

/-! ## Sources -/

theorem readFrom_of_parseTokens {tokens : List Token} {program : Block}
    (hended : (Cursor.start tokens).Ended) (h : parseTokens tokens = .ok program) :
    ∀ s ∈ blockStatements program, ∃ before own after,
      (Cursor.start tokens).tokens = before ++ (own ++ after) ∧ s.ReadFrom own after := by
  unfold parseTokens at h
  split at h
  · next b c hrun =>
    cases h
    obtain ⟨ss, ⟨-, hread⟩, rfl⟩ := block_tells (statement_reads _) [] _ hended program c hrun
    intro s hs
    obtain ⟨before, own, after, htokens, hs⟩ := hread s hs
    exact ⟨before, own, _, htokens, hs⟩
  · cases h

/-- The lines of the tokens of a source never decrease. -/
theorem pairwise_line_of_scanFrom {p : Position} {cs : List Char} {ts : List Token}
    (h : scanFrom p cs = .ok ts) : ts.Pairwise fun t u => t.line ≤ u.line := by
  fun_induction scanFrom p cs generalizing ts with
  | case1 => cases h; simp
  | case2 => cases h
  | case3 => cases h
  | case4 => cases h
  | case5 p c rest kind n hnext lexeme tokens htokens more hmore =>
    rename_i ih
    cases h
    have hline := fun t ht => (lexemeTokens_at htokens t ht).1
    refine List.pairwise_append.mpr
      ⟨List.pairwise_of_forall_mem_list ?_, ih hmore, fun t ht u hu => ?_⟩
    · intro t ht u hu
      rw [hline t ht, hline u hu]
    · rw [hline t ht]
      exact Int.le_trans (p.line_after lexeme) ((tokens_of_scanFrom hmore).1 u hu)

/-- **In the order of the source, lines never decrease.** -/
theorem Stands.pairwise_line {ss : List Stmt} {ts : List Token} (h : Stands ss ts)
    (hts : ts.Pairwise fun t u => t.line ≤ u.line) : ss.Pairwise fun s s' => s.line ≤ s'.line := by
  induction h with
  | nil => exact .nil
  | other _ _ ih => exact ih (List.pairwise_cons.mp hts).2
  | @here t forms ss ts _ hstands ih =>
    obtain ⟨hfirst, hts⟩ := List.pairwise_cons.mp hts
    refine List.pairwise_append.mpr
      ⟨List.pairwise_of_forall_mem_list ?_, ih hts, fun s hs s' hs' => ?_⟩
    · intro s hs s' hs'
      obtain ⟨form, -, rfl⟩ := List.mem_map.mp hs
      obtain ⟨form', -, rfl⟩ := List.mem_map.mp hs'
      exact Int.le_refl t.line
    · obtain ⟨form, -, rfl⟩ := List.mem_map.mp hs
      obtain ⟨u, hu, hline⟩ := hstands.line_mem hs'
      exact hline ▸ hfirst u hu

/-- **Every statement knows its line.** In a source that is parsed, every statement at every depth
is read from a stretch of the tokens. Its line is that of the first token of the stretch, which is
the one that statements of its form start with, and every expression in it has the line of a token
of the stretch. All these lines count from one, and from each statement to the next in the order of
the source they do not decrease. -/
theorem statements_know_their_lines {source : String} {program : Block}
    (h : parseSource source = .ok program) :
    ∃ tokens, tokenize source = .ok tokens ∧
      (∀ s ∈ blockStatements program, ∃ before first more after, tokens = before ++
        (first :: more ++ after) ∧
        s.ReadFrom (first :: more) after ∧ s.Locates first more ∧ 1 ≤ s.line ∧
          ∀ l ∈ s.form.lines, 1 ≤ l) ∧
      ((blockStatements program).map Stmt.line).Pairwise (· ≤ ·) := by
  obtain ⟨tokens, htokens, hstands, hpos⟩ := stands_of_parseSource h
  obtain ⟨-, ⟨before, last, hlast, heof⟩, -⟩ := tokens_of_scanFrom htokens
  have hstart : (Cursor.start tokens).tokens = tokens := Cursor.tokens_start (by simp [hlast])
  have hended : (Cursor.start tokens).Ended := ⟨before, last, hstart.trans hlast, heof⟩
  have hparse : parseTokens tokens = .ok program := by
    unfold parseSource at h
    rwa [htokens] at h
  refine ⟨tokens, htokens, fun s hs => ?_, ?_⟩
  · obtain ⟨before, own, after, hsplit, hread⟩ := readFrom_of_parseTokens hended hparse s hs
    obtain ⟨first, more, rfl, hlocates⟩ := hread.locates hended ⟨before, hsplit.symm⟩
    rw [hstart] at hsplit
    have hmem : ∀ t ∈ first :: more, 1 ≤ t.line := by
      intro t ht
      refine hpos t ?_
      rw [hsplit]
      exact List.mem_append_right _ (List.mem_append_left _ ht)
    refine ⟨before, first, more, after, hsplit, hread, hlocates, ?_, fun l hl => ?_⟩
    · rw [hlocates.line]
      exact hmem first List.mem_cons_self
    · obtain ⟨t, ht, rfl⟩ := hlocates.lines l hl
      exact hmem t ht
  · rw [List.pairwise_map]
    exact hstands.pairwise_line (pairwise_line_of_scanFrom htokens)

/-- The condition of a REPEAT stands two lines below it, and one DECLARE makes two statements of one
line. -/
theorem repeat_and_declare_know_their_lines :
    ∃ program, parseSource "REPEAT\n  DECLARE b, c : CHAR\nUNTIL a" = .ok program ∧
      (blockStatements program).map (fun s => (s.line, s.form.lines)) = [(1, [3]),
        (2, []), (2, [])] ∧
      ∀ s ∈ blockStatements program, ∃ first more after, s.ReadFrom (first :: more) after ∧
        s.Locates first more := by
  have hlines : (parseSource "REPEAT\n  DECLARE b, c : CHAR\nUNTIL a").toOption.map
      (fun program => (blockStatements program).map fun s => (s.line, s.form.lines)) =
        some [(1, [3]), (2, []), (2, [])] := by
    decide +kernel
  obtain ⟨program, hparse, hlines⟩ := exists_of_parseSource hlines
  obtain ⟨tokens, -, hlocates, -⟩ := statements_know_their_lines hparse
  refine ⟨program, hparse, hlines, fun s hs => ?_⟩
  obtain ⟨before, first, more, after, -, hread, hs, -⟩ := hlocates s hs
  exact ⟨first, more, after, hread, hs⟩

end Pseudocode
