import Pseudocode.Proofs.Diagnosis
import Pseudocode.Proofs.Listing
import Pseudocode.Proofs.Recording

/-!
# Statements stand at their tokens

The parser reads tokens from left to right, and each statement of the program it makes stands at one
of them: its first token. `Stands` says how the statements of a program, in order, go with the
tokens of its source, in order. A token that starts a statement has the kind of the statement's
form, and the statement has the line of the token; one DECLARE stands for a statement for each of
its names. The other tokens are none of the keywords that only ever start a statement (`openers`),
so such a keyword is never read as a part of something else.

The statements are the notes of a `Recording`, so that `Parser.Tells` says that a parser reads whole
statements or none. Each rule of the parser has one statement in it, and a rule for a form of
statement has one in `Parser.Makes`, which sets the first token apart. These hold of every recording
of statements that leaves no note of what divides blocks; that of `Stands` is one of them
(`standing`).

Results:
* `stands_of_parseSource`: **the statements of a parsed program stand at the tokens of its source,
  in order.**
* `line_pos_of_parseSource`: a statement has the line of a token, so the lines of statements count
  from 1.
* `Stands.inputSites`: the input sites of a program are its INPUT and READFILE tokens.
-/

namespace Pseudocode

open Parse Pseudocode.Parser

/-! ## Tokens and statements -/

/-- The kind of the token that a form of statement starts with. -/
def Form.opener : Form → TokenKind
  | declare .. => .keyword .declareKw
  | assign .. => .identifier
  | output .. => .keyword .outputKw
  | input .. => .keyword .inputKw
  | ifThen .. => .keyword .ifKw
  | whileDo .. => .keyword .whileKw
  | repeatUntil .. => .keyword .repeatKw
  | forTo .. => .keyword .forKw
  | caseOf .. => .keyword .caseKw
  | procedure .. => .keyword .procedureKw
  | function .. => .keyword .functionKw
  | call .. => .keyword .callKw
  | returnValue .. => .keyword .returnKw
  | fileOpen .. => .keyword .openFileKw
  | fileClose .. => .keyword .closeFileKw
  | fileRead .. => .keyword .readFileKw
  | fileWrite .. => .keyword .writeFileKw
  | inert .. => .eof

/-- A token starts statements of the given forms: one, or those of the names of a DECLARE. -/
structure Token.Opens (t : Token) (forms : List Form) : Prop where
  opener : ∀ form ∈ forms, form.opener = t.kind
  single : (∃ form, forms = [form]) ∨ t.kind = .keyword .declareKw ∧ forms ≠ []

/-- Statements, in order, stand at tokens, in order. -/
inductive Stands : List Stmt → List Token → Prop
  | nil : Stands [] []
  | other {t : Token} {ss : List Stmt} {ts : List Token} (ht : t.kind ∉ openers)
      (h : Stands ss ts) :
      Stands ss (t :: ts)
  | here {t : Token} {forms : List Form} {ss : List Stmt} {ts : List Token} (ht : t.Opens forms)
      (h : Stands ss ts) : Stands (forms.map (Stmt.mk t.line) ++ ss) (t :: ts)

theorem Stands.append {ss ss' : List Stmt} {ts ts' : List Token} (h : Stands ss ts)
    (h' : Stands ss' ts') : Stands (ss ++ ss') (ts ++ ts') := by
  induction h with
  | nil => exact h'
  | other ht _ ih => exact .other ht ih
  | here ht _ ih =>
    rw [List.append_assoc]
    exact .here ht ih

theorem Form.statements_of_declare {form : Form} (hopener : form.opener = .keyword .declareKw) :
    form.statements = [] := by
  cases form with
  | declare => rw [Form.statements]; all_goals simp
  | _ => cases hopener

/-- The statements of forms that one token opens stand before those within them. -/
theorem Token.Opens.blockStatements {t : Token} {forms : List Form}
    (ht : t.Opens forms) (line : Int) :
    blockStatements (forms.map (Stmt.mk line)) = forms.map (Stmt.mk line) ++
      forms.flatMap Form.statements := by
  rcases ht.single with ⟨form, rfl⟩ | ⟨hkind, -⟩
  · simp [Pseudocode.blockStatements, Stmt.statements]
  · -- a DECLARE has nothing inside it
    have hinside : ∀ form ∈ forms, form.statements = [] :=
      fun form hmem => form.statements_of_declare ((ht.opener form hmem).trans hkind)
    clear ht
    induction forms with
    | nil => rfl
    | cons form rest ih =>
      have hrest := ih fun form hmem => hinside form (List.mem_cons_of_mem _ hmem)
      have hform := hinside form List.mem_cons_self
      rw [List.map_cons, Pseudocode.blockStatements, hrest, List.flatMap_cons,
        Stmt.statements, hform]
      rfl

/-- The statements that stand at the tokens that are read. -/
def standing : Recording Stmt where
  Noted ss ts ts' := ∃ front, ts = front ++ ts' ∧ Stands ss front
  nil _ := ⟨[], rfl, .nil⟩
  append := by
    rintro ss ss' _ _ ts'' ⟨front, rfl, h⟩ ⟨front', rfl, h'⟩
    exact ⟨front ++ front', (List.append_assoc ..).symm, h.append h'⟩
  suffix := by
    rintro _ _ ts' ⟨front, rfl, -⟩
    exact ⟨front, rfl⟩
  plain {t} _ hkind :=
    ⟨[t], rfl,
      .other (fun hmem => hkind (List.mem_cons_of_mem _ (List.mem_append_left _ hmem))) .nil⟩

/-- What divides blocks leaves no note. -/
def Recording.SkipsDividers {σ : Type} (R : Recording σ) : Prop :=
  ∀ (t : Token) (ts : List Token), t.kind ∈ dividers → R.Noted [] (t :: ts) ts

/-- What divides blocks starts no statement. -/
theorem standing_skipsDividers : standing.SkipsDividers := by
  intro t ts ht
  have hall : ∀ kind ∈ dividers, kind ∉ openers := by decide
  exact ⟨[t], rfl, .other (hall _ ht) .nil⟩

theorem divider_fills {σ : Type} {R : Recording σ} (hR : R.SkipsDividers) {kind : TokenKind}
    (hkind : kind ∈ dividers) (cause : SyntaxCause) : (expect kind cause).Fills R := by
  have hall : ∀ kind ∈ dividers, kind ≠ .eof := by decide
  exact .expect_of (hall _ hkind) (fun t ts ht => hR t ts (ht ▸ hkind)) cause

section Statements

variable {R : Recording Stmt} {n : Nat}

/-! ## Blocks -/

/-- A parser for blocks reads the statements of the block it gives. -/
def Parser.TellsBlock (R : Recording Stmt) (stmt : Parser Block) : Prop :=
  ∀ c, stmt.Tells R c fun b ss => ss = blockStatements b

variable {stmt : Parser Block}

theorem blockUntil_tells (hstmt : stmt.TellsBlock R) (stop : Cursor → Bool) (k : Nat) :
    (blockUntil stop stmt k).TellsBlock R := by
  induction k with
  | zero => exact fun c => .throw _
  | succ k ih =>
    refine fun c => Fills.skipNewlines.bind fun _ c' => .get (.ite (fun _ => .pure ?_) fun _ => ?_)
    · rw [blockStatements]
    · refine (hstmt c').bind fun first _ ss hfirst => (ih _).bind fun rest _ ss' hrest => .pure ?_
      rw [blockStatements_append, hfirst, hrest, List.append_nil]

theorem block_tells (hstmt : stmt.TellsBlock R) (stops : List TokenKind) :
    (block stmt stops n).TellsBlock R := by
  rw [block_eq]
  exact blockUntil_tells hstmt _ n

theorem elseIfs_tells (hR : R.SkipsDividers) (hstmt : stmt.TellsBlock R) (k : Nat) (c : Cursor) :
    (elseIfs stmt n k).Tells R c fun arms ss => ss = armsStatements arms := by
  induction k generalizing c with
  | zero => exact .throw _
  | succ k ih =>
    refine .check (.get (.ite (fun helse => ?_) fun _ => .pure (by rw [armsStatements])))
    simp only [Bool.and_eq_true, List.contains_eq_mem, List.mem_singleton,
      decide_eq_true_eq] at helse
    have hahead : c.advance.current.kind = .keyword .ifKw := by rw [← Cursor.ahead_eq, helse.2]
    refine .read (by rw [helse.1]; decide) (hR _ _ (by rw [helse.1]; decide)) ?_
    refine .read (by rw [hahead]; decide) (hR _ _ (by rw [hahead]; decide)) ?_
    refine conditionThen_fills.bind fun condition c' =>
      (block_tells hstmt _ c').bind fun body _ ss hbody => ?_
    refine (ih _).bind fun rest _ ss' hrest => .pure ?_
    rw [armsStatements, Arm.statements, hbody, hrest, List.append_nil,
      List.nil_append, List.nil_append]

theorem elsePart_tells (hR : R.SkipsDividers) (hstmt : stmt.TellsBlock R) (c : Cursor) :
    (elsePart stmt n).Tells R c fun otherwise ss => ss = optionStatements otherwise := by
  refine .accept (by decide) (fun helse => hR _ _ (by rw [helse]; decide)) (fun _ => ?_) fun _ => ?_
  · refine (block_tells hstmt _ _).bind fun body _ ss hbody => .pure ?_
    rw [optionStatements, hbody, List.append_nil, List.nil_append]
  · refine .pure ?_
    rw [optionStatements]

theorem caseBranch_tells (hstmt : stmt.TellsBlock R) (c : Cursor) :
    (caseBranch stmt n).Tells R c fun branch ss => ss = branch.statements := by
  rw [caseBranch_eq, branchBlock_eq]
  refine caseLabel_fills.bind fun label _ => .past (by decide) fun _ c' => ?_
  refine (blockUntil_tells hstmt _ n c').bind fun body _ ss hbody => .pure ?_
  rw [Branch.statements, hbody, List.append_nil]

theorem caseBranches_tells (hstmt : stmt.TellsBlock R) (k : Nat) (c : Cursor) :
    (caseBranches stmt n k).Tells R c fun r ss =>
      ss = branchesStatements r.1 ++ optionStatements r.2 := by
  induction k generalizing c with
  | zero => exact .throw _
  | succ k ih =>
    refine Fills.skipNewlines.bind fun _ _ => .check (.ite (fun _ => .pure ?_) fun _ => ?_)
    · rw [branchesStatements, optionStatements, List.append_nil]
    refine (Fills.accept (by decide)).bind fun _ c' => .ite (fun _ => ?_) fun _ => ?_
    · refine .past (by decide) fun _ c' => ?_
      refine (block_tells hstmt _ c').bind fun body _ ss hbody => ?_
      refine .pure ?_
      rw [branchesStatements, optionStatements, hbody, List.append_nil, List.nil_append]
    · refine (caseBranch_tells hstmt c').bind fun branch _ ss hbranch =>
        (ih _).bind fun r _ ss' hrest => .pure ?_
      rw [branchesStatements, hbranch, hrest, List.append_nil, List.append_assoc]

end Statements

/-! ## Forms -/

namespace Parser

variable {α β σ : Type} {R : Recording σ}

/-- Run at `c`, a parser that succeeds has read the current token, and after it leaves notes as
`post` says. -/
def Starts (R : Recording σ) (p : Parser α) (c : Cursor) (post : α → List σ → Prop) : Prop :=
  c.Ended → ∀ a c', p c = .ok a c' → ∃ ts ss, c.tokens = c.current :: ts ∧
    R.Noted ss ts c'.tokens ∧ post a ss

namespace Starts

variable {p : Parser α} {f : α → Parser β} {c : Cursor} {mid post : α → List σ → Prop}
  {goal : β → List σ → Prop}

/-- A parser starts with the token it expects. -/
theorem expect {kind : TokenKind} {f : Token → Parser β} (hkind : kind ≠ .eof) (cause : SyntaxCause)
    (hf : c.current.kind = kind → ∀ t c', (f t).Tells R c' goal) :
    (expect kind cause >>= f).Starts R c goal := by
  intro hc b c' h
  obtain ⟨t, m, hrun, h⟩ := bind_eq_ok.mp h
  obtain ⟨heq, rfl⟩ := expect_eq_ok hrun
  have htokens := hc.advance (heq ▸ hkind)
  obtain ⟨ss, hnoted, hgoal⟩ := hf heq t c.advance (hc.of_suffix ⟨[c.current], htokens.symm⟩) b c' h
  exact ⟨_, ss, htokens, hnoted, hgoal⟩

theorem expectKeyword {k : Keyword} {f : Token → Parser β}
    (hf : c.current.kind = .keyword k → ∀ t c', (f t).Tells R c' goal) :
    (expectKeyword k >>= f).Starts R c goal := by
  intro hc b c' h
  unfold Parser.expectKeyword at h
  rw [bind_assoc, bind_ok (current_ok c)] at h
  exact expect (by simp) _ hf hc b c' h

theorem throw (failure : ParseFailure) :
    (MonadExcept.throw failure : Parser α).Starts R c post := by
  rintro - _ _ ⟨⟩

theorem current {f : Token → Parser β} (hf : (f c.current).Starts R c goal) :
    (current >>= f).Starts R c goal := by
  intro hc b c' hrun
  rw [bind_ok (current_ok c)] at hrun
  exact hf hc b c' hrun

theorem imp (hp : p.Starts R c mid) (h : ∀ a ss, mid a ss → post a ss) : p.Starts R c post := by
  intro hc a c' hrun
  obtain ⟨ts, ss, htokens, hnoted, hmid⟩ := hp hc a c' hrun
  exact ⟨ts, ss, htokens, hnoted, h a ss hmid⟩

/-- With the notes of the first token. -/
theorem tells {first : List σ} (hp : p.Starts R c mid)
    (hfirst : ∀ a ss ts, mid a ss → R.Noted first (c.current :: ts) ts)
    (h : ∀ a ss, mid a ss → post a (first ++ ss)) : p.Tells R c post := by
  intro hc a c' hrun
  obtain ⟨ts, ss, htokens, hnoted, hmid⟩ := hp hc a c' hrun
  exact ⟨first ++ ss, htokens ▸ R.append (hfirst a ss ts hmid) hnoted, h a ss hmid⟩

theorem map {g : α → β} (hp : p.Starts R c mid) (h : ∀ a ss, mid a ss → goal (g a) ss) :
    (do return g (← p)).Starts R c goal := by
  intro hc b c' hrun
  obtain ⟨a, m, hrun, heq⟩ := bind_eq_ok.mp hrun
  cases heq
  obtain ⟨ts, ss, htokens, hnoted, hmid⟩ := hp hc a c' hrun
  exact ⟨ts, ss, htokens, hnoted, h a ss hmid⟩

end Starts

/-- A rule for a form of statement starts with the form's own token and reads the statements within
the form. -/
def Makes (R : Recording Stmt) (rule : Parser Form) (c : Cursor) : Prop :=
  rule.Starts R c fun form ss => form.opener = c.current.kind ∧ ss = form.statements

theorem Makes.keyword {R : Recording Stmt} {k : Keyword} {f : Token → Parser Form} {c : Cursor}
    (hf : ∀ t c', (f t).Tells R c' fun form ss => form.opener = .keyword k ∧ ss = form.statements) :
    (expectKeyword k >>= f).Makes R c := by
  refine Starts.expectKeyword fun hkind t c' => ?_
  rw [hkind]
  exact hf t c'

end Parser

section Forms

variable {R : Recording Stmt} {n : Nat}

theorem inputForm_makes (c : Cursor) : (inputForm n).Makes R c :=
  .keyword fun _ _ => target_fills.bind fun _ _ => .pure ⟨rfl, rfl⟩

theorem outputForm_makes (c : Cursor) : (outputForm n).Makes R c :=
  .keyword fun _ _ => (items_fills anyExpression_fills n).bind fun _ _ => .pure ⟨rfl, rfl⟩

theorem returnForm_makes (c : Cursor) : (returnForm n).Makes R c :=
  .keyword fun _ _ => anyExpression_fills.bind fun _ _ => .pure ⟨rfl, rfl⟩

theorem callForm_makes (c : Cursor) : (callForm n).Makes R c := by
  refine .keyword fun _ _ => .past (by decide) fun _ _ => ?_
  refine (Fills.accept (by decide)).bind fun _ _ => .ite (fun _ => ?_) fun _ => .pure ⟨rfl, rfl⟩
  exact (argumentList_fills anyExpression_fills).bind fun _ _ => .pure ⟨rfl, rfl⟩

theorem assignForm_makes (c : Cursor) : (assignForm n).Makes R c := by
  unfold assignForm target
  rw [bind_assoc]
  refine Starts.expect (by decide) _ fun hkind name c' => ?_
  rw [hkind]
  refine Fills.bind (fun _ => ?_) fun receiver _ => ?_
  · refine (Fills.accept (by decide)).bind fun _ _ => .ite (fun _ => ?_) fun _ => .pure rfl
    exact (indexList_fills anyExpression_fills).bind fun _ _ => .pure rfl
  · exact .past (by decide) fun _ _ => anyExpression_fills.bind fun _ _ => .pure ⟨rfl, rfl⟩

theorem fileOpenForm_makes (hR : R.SkipsDividers) (c : Cursor) : (fileOpenForm n).Makes R c := by
  refine .keyword fun _ _ => anyExpression_fills.bind fun _ _ => ?_
  refine (divider_fills hR (by decide) _).bind fun _ c' => .current ?_
  split
  · next hkind => exact .advance (by rw [hkind]; decide) (.pure ⟨rfl, rfl⟩)
  · next hkind => exact .advance (by rw [hkind]; decide) (.pure ⟨rfl, rfl⟩)
  · next hkind => exact .advance (by rw [hkind]; decide) (.pure ⟨rfl, rfl⟩)
  · exact .current (.throw _)

theorem fileCloseForm_makes (c : Cursor) : (fileCloseForm n).Makes R c :=
  .keyword fun _ _ => anyExpression_fills.bind fun _ _ => .pure ⟨rfl, rfl⟩

theorem fileReadForm_makes (c : Cursor) : (fileReadForm n).Makes R c :=
  .keyword fun _ _ => anyExpression_fills.bind fun _ _ => .past (by decide) fun _ _ =>
    target_fills.bind fun _ _ => .pure ⟨rfl, rfl⟩

theorem fileWriteForm_makes (c : Cursor) : (fileWriteForm n).Makes R c :=
  .keyword fun _ _ => anyExpression_fills.bind fun _ _ => .past (by decide) fun _ _ =>
    anyExpression_fills.bind fun _ _ => .pure ⟨rfl, rfl⟩

variable (hR : R.SkipsDividers) {stmt : Parser Block} (hstmt : stmt.TellsBlock R)
include hR hstmt

theorem ifForm_makes (c : Cursor) : (ifForm stmt n).Makes R c := by
  rw [ifForm_eq]
  refine .keyword fun _ _ => conditionThen_fills.bind fun _ c₁ => ?_
  refine (block_tells hstmt _ c₁).bind fun body c₂ _ hbody => ?_
  refine (elseIfs_tells hR hstmt n c₂).bind fun arms c₃ _ harms => ?_
  refine (elsePart_tells hR hstmt c₃).bind fun otherwise _ _ hotherwise => ?_
  refine (divider_fills hR (by decide) _).bind fun _ _ => .pure ⟨rfl, ?_⟩
  rw [Form.statements, hbody, harms, hotherwise, List.append_nil, List.append_assoc]

theorem whileForm_makes (c : Cursor) : (whileForm stmt n).Makes R c := by
  refine .keyword fun _ _ => anyExpression_fills.bind fun _ _ =>
    Fills.skipNewlines.bind fun _ _ => ?_
  refine .past (by decide) fun _ c₁ => (block_tells hstmt _ c₁).bind fun _ _ _ hbody => ?_
  refine (divider_fills hR (by decide) _).bind fun _ _ => .pure ⟨rfl, ?_⟩
  rw [Form.statements, hbody, List.append_nil]

theorem repeatForm_makes (c : Cursor) : (repeatForm stmt n).Makes R c := by
  refine .keyword fun _ c₁ => (block_tells hstmt _ c₁).bind fun _ _ _ hbody => ?_
  refine (divider_fills hR (by decide) _).bind fun _ _ =>
    anyExpression_fills.bind fun _ _ => .pure ⟨rfl, ?_⟩
  rw [Form.statements, hbody, List.append_nil]

theorem forForm_makes (c : Cursor) : (forForm stmt n).Makes R c := by
  rw [forForm_eq]
  refine .keyword fun _ _ => .past (by decide) fun _ _ => ?_
  refine .past (by decide) fun _ _ => anyExpression_fills.bind fun _ _ => ?_
  refine .past (by decide) fun _ _ => anyExpression_fills.bind fun _ _ => ?_
  refine (stepPart_fills _).bind fun _ c₁ => (block_tells hstmt _ c₁).bind fun _ _ _ hbody => ?_
  refine (divider_fills hR (by decide) _).bind fun _ _ =>
    (nextName_fills _).bind fun _ _ => .pure ⟨rfl, ?_⟩
  rw [Form.statements, hbody, List.append_nil]

theorem caseForm_makes (c : Cursor) : (caseForm stmt n).Makes R c := by
  refine .keyword fun _ _ => .past (by decide) fun _ _ => ?_
  refine anyExpression_fills.bind fun _ c₁ =>
    (caseBranches_tells hstmt n c₁).bind fun r _ _ hbranches => ?_
  refine (divider_fills hR (by decide) _).bind fun _ _ => .pure ⟨rfl, ?_⟩
  rw [Form.statements, hbranches, List.append_nil]

theorem procedureForm_makes (c : Cursor) : (procedureForm stmt n).Makes R c := by
  refine .keyword fun _ _ => .past (by decide) fun _ _ => ?_
  refine optionalParams_fills.bind fun _ c₁ => (block_tells hstmt _ c₁).bind fun _ _ _ hbody => ?_
  refine (divider_fills hR (by decide) _).bind fun _ _ => .pure ⟨rfl, ?_⟩
  rw [Form.statements, hbody, List.append_nil]

theorem functionForm_makes (c : Cursor) : (functionForm stmt n).Makes R c := by
  refine .keyword fun _ _ => .past (by decide) fun _ _ => ?_
  refine optionalParams_fills.bind fun _ _ => .past (by decide) fun _ _ => ?_
  refine typeName_fills.bind fun _ c₁ => (block_tells hstmt _ c₁).bind fun _ _ _ hbody => ?_
  refine (divider_fills hR (by decide) _).bind fun _ _ => .pure ⟨rfl, ?_⟩
  rw [Form.statements, hbody, List.append_nil]

end Forms

/-! ## Programs -/

/-- The forms of one DECLARE, one for each of its names. -/
def Declared (forms : List Form) : Prop :=
  ∃ names type shape, names ≠ [] ∧ forms = names.map fun name => .declare name type shape

/-- They have nothing inside. -/
theorem Declared.flatMap {α : Type} {forms : List Form} (h : Declared forms) {f : Form → List α}
    (hf : ∀ name type shape, f (.declare name type shape) = []) : forms.flatMap f = [] := by
  obtain ⟨names, type, shape, -, rfl⟩ := h
  rw [List.flatMap_map]
  exact List.flatMap_eq_nil_iff.mpr fun _ _ => hf _ type shape

theorem Declared.opens {t : Token} {forms : List Form} (h : Declared forms)
    (hkind : t.kind = .keyword .declareKw) : t.Opens forms := by
  obtain ⟨names, type, shape, hne, rfl⟩ := h
  refine ⟨fun form hmem => ?_, .inr ⟨hkind, mt List.map_eq_nil_iff.mp hne⟩⟩
  obtain ⟨name, -, rfl⟩ := List.mem_map.mp hmem
  exact hkind.symm

theorem declareForms_starts {σ : Type} {R : Recording σ} (n : Nat) (c : Cursor) :
    (declareForms n).Starts R c fun forms ss =>
      (c.current.kind = .keyword .declareKw ∧ Declared forms) ∧ ss = [] := by
  refine Starts.expectKeyword fun hkind _ _ => .past (by decide) fun first _ => ?_
  refine (moreItems_fills (Fills.expect (by decide) _) n).bind fun more _ => ?_
  have hdone : ∀ type shape,
      Declared (((first :: more).map Token.text).map fun name => .declare name type shape) :=
    fun type shape => ⟨_, type, shape, by simp, rfl⟩
  refine .past (by decide) fun _ _ => (Fills.accept (by decide)).bind fun _ _ => ?_
  refine .ite (fun _ => ?_) fun _ => typeName_fills.bind fun _ _ => .pure ⟨⟨hkind, hdone _ _⟩, rfl⟩
  refine .past (by decide) fun _ _ => (items_fills dimension_fills n).bind fun _ _ => ?_
  refine .past (by decide) fun _ _ => .past (by decide) fun _ _ => ?_
  exact typeName_fills.bind fun _ _ => .pure ⟨⟨hkind, hdone _ _⟩, rfl⟩

theorem forms_starts {R : Recording Stmt} (hR : R.SkipsDividers) {stmt : Parser Block}
    (hstmt : stmt.TellsBlock R) (n : Nat) (c : Cursor) :
    (forms stmt n).Starts R c fun forms ss => c.current.Opens forms ∧
      ss = forms.flatMap Form.statements := by
  have hone : ∀ {rule : Parser Form}, rule.Makes R c →
      (do return [← rule] : Parser (List Form)).Starts R c fun forms ss => c.current.Opens forms ∧
      ss = forms.flatMap Form.statements := by
    refine fun hrule => hrule.map fun form ss h => ⟨⟨?_, .inl ⟨form, rfl⟩⟩, ?_⟩
    · intro _ hmem
      rw [List.mem_singleton.mp hmem]
      exact h.1
    · rw [List.flatMap_singleton]
      exact h.2
  refine Starts.current ?_
  split
  · exact (declareForms_starts n c).imp fun forms ss h =>
      ⟨h.1.2.opens h.1.1, h.2.trans (h.1.2.flatMap fun _ _ _ => rfl).symm⟩
  · exact hone (Starts.current (.throw _))
  · exact hone (inputForm_makes c)
  · exact hone (outputForm_makes c)
  · exact hone (ifForm_makes hR hstmt c)
  · exact hone (caseForm_makes hR hstmt c)
  · exact hone (whileForm_makes hR hstmt c)
  · exact hone (repeatForm_makes hR hstmt c)
  · exact hone (forForm_makes hR hstmt c)
  · exact hone (procedureForm_makes hR hstmt c)
  · exact hone (functionForm_makes hR hstmt c)
  · exact hone (callForm_makes c)
  · exact hone (returnForm_makes c)
  · exact hone (fileOpenForm_makes hR c)
  · exact hone (fileCloseForm_makes c)
  · exact hone (fileReadForm_makes c)
  · exact hone (fileWriteForm_makes c)
  · exact hone (assignForm_makes c)
  · exact Starts.current (.throw _)

/-- **Reading a statement reads the tokens at which it and the statements within it stand.** -/
theorem statement_tells (n : Nat) : (statement n).TellsBlock standing := by
  induction n with
  | zero => exact fun c => .throw _
  | succ n ih =>
    refine fun c => .current fun hc b c' hrun => ?_
    obtain ⟨forms, m, hforms, heq⟩ := bind_eq_ok.mp hrun
    cases heq
    obtain ⟨_, ss, htokens, ⟨ts, rfl, hstands⟩, hopens, rfl⟩ :=
      forms_starts standing_skipsDividers ih n c hc forms c' hforms
    refine ⟨_, ⟨c.current :: ts, htokens, .here hopens hstands⟩, ?_⟩
    rw [hopens.blockStatements]

/-- The tokens of a list whose last one alone is the end of the input are those of the program it
spells. -/
theorem stands_of_parseTokens {before : List Token} {last : Token} {program : Block}
    (hbefore : ∀ t ∈ before, t.kind ≠ .eof) (hlast : last.kind = .eof)
    (h : parseTokens (before ++ [last]) = .ok program) :
    Stands (blockStatements program) (before ++ [last]) := by
  unfold parseTokens at h
  split at h
  · next b c hrun =>
    cases h
    have hstart : (Cursor.start (before ++ [last])).tokens = before ++ [last] :=
      Cursor.tokens_start (by simp)
    have htells := block_tells (statement_tells _) [] _ ⟨before, last, hstart, hlast⟩ program c hrun
    obtain ⟨ss, ⟨ts, htokens, hstands⟩, rfl⟩ := htells
    -- parsing has stopped at the only end of the input there is
    have hstop := eof_of_runOn hrun
    have hrest : c.rest = [] := by
      rcases List.eq_nil_or_concat' c.rest with hnil | ⟨front, t, hfront⟩
      · exact hnil
      · rw [hstart, Cursor.tokens, hfront, ← List.cons_append, ← List.append_assoc] at htokens
        obtain ⟨rfl, -⟩ := List.append_inj' htokens rfl
        exact absurd hstop (hbefore _ (by simp))
    rw [← hstart, htokens, Cursor.tokens, hrest, ← List.append_nil (blockStatements program)]
    refine hstands.append (.other ?_ .nil)
    rw [hstop]
    decide
  · cases h

/-- **The statements of a parsed program stand at the tokens of its source, in order**, and lines
are counted from one. -/
theorem stands_of_parseSource {source : String} {program : Block}
    (h : parseSource source = .ok program) :
    ∃ tokens, tokenize source = .ok tokens ∧ Stands (blockStatements program) tokens ∧
      ∀ t ∈ tokens, 1 ≤ t.line := by
  unfold parseSource at h
  split at h
  · cases h
  · next tokens htokens =>
    obtain ⟨hlines, ⟨before, last, rfl, hlast⟩, hbefore⟩ := tokens_of_scanFrom htokens
    rw [List.dropLast_concat] at hbefore
    exact ⟨_, htokens, stands_of_parseTokens hbefore hlast h, hlines⟩

/-! ## What follows for lines and input -/

namespace Stands

variable {ss : List Stmt} {ts : List Token}

/-- A statement has the line of a token. -/
theorem line_mem (h : Stands ss ts) {s : Stmt} (hs : s ∈ ss) : ∃ t ∈ ts, s.line = t.line := by
  induction h with
  | nil => cases hs
  | other _ _ ih =>
    obtain ⟨t, ht, hline⟩ := ih hs
    exact ⟨t, List.mem_cons_of_mem _ ht, hline⟩
  | here _ _ ih =>
    rcases List.mem_append.mp hs with hs | hs
    · obtain ⟨form, -, rfl⟩ := List.mem_map.mp hs
      exact ⟨_, List.mem_cons_self, rfl⟩
    · obtain ⟨t, ht, hline⟩ := ih hs
      exact ⟨t, List.mem_cons_of_mem _ ht, hline⟩

end Stands

/-- The statements of a parsed program have lines from one on. -/
theorem line_pos_of_parseSource {source : String} {program : Block}
    (h : parseSource source = .ok program) : ∀ s ∈ blockStatements program, 1 ≤ s.line := by
  obtain ⟨tokens, -, hstands, hlines⟩ := stands_of_parseSource h
  intro s hs
  obtain ⟨t, ht, hline⟩ := hstands.line_mem hs
  exact hline ▸ hlines t ht

/-- The kind of input that a token stands for. -/
def Token.inputSource? (t : Token) : Option InputSource :=
  if t.kind = .keyword .inputKw then some .keyboard
  else if t.kind = .keyword .readFileKw then some .file
  else none

/-- The line and kind of input of a token, if it stands for one. -/
def Token.inputMark? (t : Token) : Option (Int × InputSource) :=
  t.inputSource?.map fun source => (t.line, source)

/-- The line and kind of input of an input site. -/
def InputSite.mark (site : InputSite) : Int × InputSource :=
  (site.line, site.source)

/-- A statement is an input site exactly as its first token says. -/
theorem Stmt.mark_inputSite? {t : Token} {form : Form} (hopener : form.opener = t.kind) :
    (Stmt.mk t.line form).inputSite?.map InputSite.mark = t.inputMark? := by
  unfold Token.inputMark? Token.inputSource?
  rw [← hopener]
  cases form <;> rfl

theorem Token.inputMark?_of_kind {t : Token} (hinput : t.kind ≠ .keyword .inputKw)
    (hread : t.kind ≠ .keyword .readFileKw) : t.inputMark? = none := by
  rw [Token.inputMark?, Token.inputSource?, if_neg hinput, if_neg hread, Option.map_none]

/-- **The input sites of a program are the INPUT and READFILE tokens of its source**, one for each,
in order. -/
theorem Stands.inputSites {ss : List Stmt} {ts : List Token} (h : Stands ss ts) :
    (ss.filterMap Stmt.inputSite?).map InputSite.mark = ts.filterMap Token.inputMark? := by
  rw [List.map_filterMap]
  induction h with
  | nil => rfl
  | @other t _ _ ht _ ih =>
    have hnone : t.inputMark? = none := by
      refine Token.inputMark?_of_kind (fun hkind => ht ?_) fun hkind => ht ?_
      · rw [hkind]
        decide
      · rw [hkind]
        decide
    rw [List.filterMap_cons_none hnone, ih]
  | @here t forms _ _ ht _ ih =>
    rcases ht.single with ⟨form, rfl⟩ | ⟨hkind, -⟩
    · have hmark := Stmt.mark_inputSite? (ht.opener form List.mem_cons_self)
      rw [List.map_singleton, List.singleton_append, List.filterMap_cons,
        List.filterMap_cons, hmark, ih]
    · have hnone : t.inputMark? = none :=
        Token.inputMark?_of_kind (by rw [hkind]; decide) (by rw [hkind]; decide)
      have hforms : (forms.map (Stmt.mk t.line)).filterMap (fun s =>
          s.inputSite?.map InputSite.mark) = [] := by
        refine List.filterMap_eq_nil_iff.mpr fun s hs => ?_
        obtain ⟨form, hform, rfl⟩ := List.mem_map.mp hs
        rw [Stmt.mark_inputSite? (ht.opener form hform), hnone]
      rw [List.filterMap_append, hforms, List.filterMap_cons_none hnone, ih, List.nil_append]

end Pseudocode
