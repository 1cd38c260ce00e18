import Pseudocode.Proofs.Climbing
import Pseudocode.Proofs.Rules

/-!
# Reading written statements

Where a writable statement is written, the rule for its form reads it back, up to its lines, and
stops at the end of its last line. The rules are followed one by one with the rules for
`Parser.Takes`; a block is read statement by statement, and nothing that a statement begins with
ends a block.

Results: `statement_rereads`, `parseSource_source`.
-/

namespace Pseudocode

open Parse Pseudocode.Parser

section Reading

variable {s : Spelling} {n : Nat}

/-! ## Types, bounds and parameters -/

theorem typeName_takes {type : String} (h : IsTypeName type) :
    typeName.Takes [.word type] (fun _ => True) (· = type) := by
  obtain ⟨k, hk, rfl⟩ := h
  intro c c' h _
  have hkind : c.current.kind = .keyword k := h.kind.trans k.lexeme.2.1
  have htext : c.current.text = k.word := h.text k.lexeme.2.2
  have hmem : [TokenKind.keyword .integerKw, .keyword .realKw, .keyword .stringKw, .keyword .charKw,
      .keyword .booleanKw].contains (.keyword k) = true := by
    have hall :
        ∀ k ∈ typeWords, [TokenKind.keyword .integerKw, .keyword .realKw, .keyword .stringKw,
        .keyword .charKw, .keyword .booleanKw].contains (.keyword k) = true := by decide
    exact hall k hk
  refine ⟨_, ?_, rfl⟩
  unfold typeName
  rw [bind_ok (check_ok _ c), hkind, if_pos hmem, bind_ok (advance_ok c), htext,
    ← show c.advance = c' from h.2.2]
  rfl

theorem expr_takes {e : Expr} (he : e.Writable) (hn : (s.expr e).length < n) :
    (anyExpression n).Takes (s.expr e) (·.Follows (-1)) (·.unlined = e.unlined) :=
  expression_rereads n e 0 (-1) (s.expr e) (he.written 0 (-1)) (by decide) hn

theorem Expr.eq_literal {e : Expr} {v : Value} (h : e.unlined = .literal 0 v) :
    ∃ line, e = .literal line v := by
  cases e with
  | literal line w =>
    cases h
    exact ⟨line, rfl⟩
  | _ => cases h

theorem Expr.eq_neg_literal {e : Expr} {v : Value} (h : e.unlined = .unary 0 .neg (.literal 0 v)) :
    ∃ line line', e = .unary line .neg (.literal line' v) := by
  cases e with
  | unary line op inner =>
    obtain ⟨-, rfl, hinner⟩ := Expr.unary.inj h
    obtain ⟨line', rfl⟩ := Expr.eq_literal hinner
    exact ⟨line, line', rfl⟩
  | _ => cases h

theorem arrayBound_takes {b : Int} (hb : b.natAbs < Number.writeLimit) (hn : 2 < n) :
    (arrayBound n).Takes (writeBound s b) (·.Follows (-1)) (· = b) := by
  intro c c' h hc'
  unfold arrayBound
  rw [bind_ok (current_ok c)]
  unfold writeBound at h
  split at h
  · have hneg : (Expr.unary 0 .neg (.literal 0 (.int (-b)))).Writable :=
      .neg 0 (.literal 0 ⟨by omega, by rwa [Int.natAbs_neg]⟩)
    obtain ⟨e', he', heq⟩ := expr_takes (s := s) hneg hn c c' h hc'
    obtain ⟨line, line', rfl⟩ := Expr.eq_neg_literal heq
    refine ⟨- -b, ?_, Int.neg_neg b⟩
    rw [bind_ok he']
    rfl
  · have hpos : (Expr.literal 0 (.int b)).Writable := .literal 0 ⟨by omega, hb⟩
    obtain ⟨e', he', heq⟩ := expr_takes (s := s) hpos (by exact Nat.lt_of_succ_lt hn) c c' h hc'
    obtain ⟨line, rfl⟩ := Expr.eq_literal heq
    refine ⟨b, ?_, rfl⟩
    rw [bind_ok he']
    rfl

theorem dimension_takes {d : Int × Int} (h1 : d.1.natAbs < Number.writeLimit)
    (h2 : d.2.natAbs < Number.writeLimit) (hn : 2 < n) :
    (dimension n).Takes (writeDimension s d) (·.Follows (-1)) (· = d) := by
  unfold dimension writeDimension
  refine (arrayBound_takes h1 hn).upTo (fun c hc =>
    (Cursor.FollowsList.of_kind hc (by decide)).follows) fun lower hlower => ?_
  refine (Takes.expect rfl _).first fun _ _ => ?_
  refine (arrayBound_takes h2 hn).last fun upper hupper => ?_
  rw [hlower, hupper]

theorem passMode_takes (mode : PassMode) :
    passMode.Takes [.keyword (if mode = .byRef then .byRefKw else .byValKw)] (fun _ =>
      True) (· = mode) := by
  cases mode with
  | byRef =>
    refine (Takes.accept (Lexeme.keyword_kind _)).first ?_
    rintro _ rfl
    exact .pure rfl
  | byVal =>
    refine (Takes.accept_none (.keyword .byRefKw)).peek (fun c hc => ?_) ?_
    · rw [hc.trans (Lexeme.keyword_kind _)]
      decide
    · rintro _ rfl
      exact (Takes.accept (Lexeme.keyword_kind _)).first fun _ _ => .pure rfl

theorem IsTypeName.not_array {type : String} (h : IsTypeName type) :
    (Lexeme.word type).kind ≠ .keyword .arrayKw := by
  obtain ⟨k, hk, rfl⟩ := h
  rw [show (Lexeme.word k.word).kind = .keyword k from k.lexeme.2.1]
  have hall : ∀ k ∈ typeWords, TokenKind.keyword k ≠ .keyword .arrayKw := by decide
  exact hall k hk

theorem param_takes {p : Param} (hp : p.Writable) :
    param.Takes p.write (fun _ => True) (· = p) := by
  rw [param_eq]
  cases hp with
  | scalar mode hn ht =>
    refine (passMode_takes mode).first ?_
    rintro _ rfl
    refine (Takes.name hn _).first ?_
    rintro token rfl
    refine (Takes.expect rfl _).first fun _ _ => ?_
    refine (Takes.accept_none (.keyword .arrayKw)).peek (fun c hc => ?_) ?_
    · rw [hc]
      exact ht.not_array
    · rintro _ rfl
      refine (typeName_takes ht).last ?_
      rintro _ rfl
      rfl
  | array mode hn ht =>
    refine (passMode_takes mode).first ?_
    rintro _ rfl
    refine (Takes.name hn _).first ?_
    rintro token rfl
    refine (Takes.expect rfl _).first fun _ _ => ?_
    refine (Takes.accept (Lexeme.keyword_kind _)).first ?_
    rintro _ rfl
    refine (Takes.expect (Lexeme.keyword_kind _) _).first fun _ _ => ?_
    refine (typeName_takes ht).last ?_
    rintro _ rfl
    rfl

theorem paramList_takes {ps : List Param} (hps : ∀ p ∈ ps, p.Writable)
    (hn : (writeItems Param.write ps).length ≤ n) :
    (paramList n).Takes (writeItems Param.write ps)
      (·.current.kind = .symbol .rparen) (· = ps) := by
  intro c c' h hc'
  unfold paramList
  rw [bind_ok (check_ok _ c)]
  cases ps with
  | nil =>
    obtain rfl : c = c' := h
    exact ⟨[], by rw [hc']; rfl, rfl⟩
  | cons p ps =>
    have hkind : c.current.kind = .keyword (if p.mode = .byRef then .byRefKw else .byValKw) :=
      h.kind.trans (Lexeme.keyword_kind _)
    have hparen : [TokenKind.symbol .rparen].contains c.current.kind = false := by
      rw [hkind]
      rfl
    have hlength : (p :: ps).length ≤ n :=
      (length_le_writeItems fun p _ => List.cons_ne_nil _ _).trans hn
    rw [hparen, if_neg (by decide)]
    have hitems := items_takes (List.cons_ne_nil p ps)
      (fun q hq => (param_takes (hps q hq)).of_next fun _ _ => trivial) hlength
    obtain ⟨qs, hqs, hall⟩ := hitems c c' h (.of_kind hc' (by decide))
    exact ⟨qs, hqs, eq_of_items hall⟩

theorem optionalParams_takes {ps : List Param} (hps : ∀ p ∈ ps, p.Writable)
    (hn : (writeParams ps).length ≤ n) :
    (optionalParams n).Takes (writeParams ps) (fun _ => True) (· = ps) := by
  rw [optionalParams_eq]
  refine (Takes.accept rfl).first ?_
  rintro _ rfl
  refine (paramList_takes hps ?_).upTo (fun c hc => hc) ?_
  · simp only [writeParams, List.length_cons, List.length_append] at hn
    omega
  · rintro _ rfl
    exact (Takes.expect rfl _).last fun _ _ => rfl

theorem target_takes {t : Target} (ht : t.Writable) (hn : (t.write s).length ≤ n) :
    (target n).Takes (t.write s) (·.Follows (-1)) (·.unlined = t.unlined) := by
  cases ht with
  | var line hx =>
    refine (Takes.name hx _).first ?_
    rintro token rfl
    refine (Takes.accept_none (.symbol .lbracket)).peekEnd (fun c hc => hc.noIndex) ?_
    rintro _ rfl
    exact .pure rfl
  | element line ha hne hi =>
    simp only [Target.write, List.length_cons, List.length_append] at hn
    refine (Takes.name ha _).first ?_
    rintro token rfl
    refine (Takes.accept rfl).first ?_
    rintro _ rfl
    have hindices := indexList_takes (expression_rereads n) hne (s.exprs_written hi) (by omega)
    refine (hindices.of_next fun _ _ => trivial).last fun es hes => ?_
    rw [Target.unlined, Target.unlined, hes]

/-! ## Simple statements -/

/-- What follows a statement: the end of its line. -/
def Cursor.AtLineEnd (c : Cursor) : Prop := c.current.kind = .newline

theorem Cursor.AtLineEnd.followsList {c : Cursor} (h : c.AtLineEnd) : c.FollowsList :=
  .of_kind h (by decide)

theorem Cursor.AtLineEnd.follows {c : Cursor} (h : c.AtLineEnd) : c.Follows (-1) :=
  h.followsList.follows

theorem follows_keyword {k : Keyword} (hk : bindingPower (.keyword k) = -1) (c : Cursor)
    (hc : c.current.kind = (Lexeme.keyword k).kind) : c.Follows (-1) :=
  (Cursor.FollowsList.of_kind (hc.trans (Lexeme.keyword_kind k)) (by simpa using hk)).follows

/-- A rule that reads the given form where it is written. -/
def RereadsForm (s : Spelling) (rule : Parser Form) (form : Form) : Prop :=
  rule.Takes (form.write s) Cursor.AtLineEnd (·.unlined = form.unlined)

theorem assignForm_rereads {t : Target} {e : Expr} (ht : t.Writable) (he : e.Writable)
    (hn : (Form.write s (.assign t e)).length ≤ n) :
    RereadsForm s (assignForm n) (.assign t e) := by
  simp only [RereadsForm, Form.write, List.length_append, List.length_cons] at hn ⊢
  refine (target_takes ht (by omega)).upTo
    (fun c hc => (Cursor.FollowsList.of_kind hc (by decide)).follows) fun t' ht' => ?_
  refine (Takes.expect rfl _).first fun _ _ => ?_
  refine ((expr_takes he (by omega)).of_next fun _ hc => hc.follows).last fun e' he' => ?_
  rw [Form.unlined, Form.unlined, ht', he']

theorem inputForm_rereads {t : Target} (ht : t.Writable)
    (hn : (Form.write s (.input t)).length ≤ n) : RereadsForm s (inputForm n) (.input t) := by
  simp only [RereadsForm, Form.write, List.length_cons] at hn ⊢
  refine (Takes.expectKeyword _).first fun _ _ => ?_
  refine ((target_takes ht (by omega)).of_next fun _ hc => hc.follows).last fun t' ht' => ?_
  rw [Form.unlined, Form.unlined, ht']

theorem outputForm_rereads {es : List Expr} (hne : es ≠ []) (hes : ∀ e ∈ es, e.Writable)
    (hn : (Form.write s (.output es)).length ≤ n) : RereadsForm s (outputForm n) (.output es) := by
  simp only [RereadsForm, Form.write, List.length_cons] at hn ⊢
  have hitems := exprs_takes (expression_rereads n) hne (s.exprs_written hes) hn
  refine (Takes.expectKeyword _).first fun _ _ => ?_
  refine (hitems.of_next fun _ hc => hc.followsList).last fun es' hes' => ?_
  rw [Form.unlined, Form.unlined, hes']

theorem callForm_rereads {name : String} {es : List Expr} (hname : IsName name)
    (hes : ∀ e ∈ es, e.Writable) (hn : (Form.write s (.call name es)).length ≤ n) :
    RereadsForm s (callForm n) (.call name es) := by
  simp only [RereadsForm, Form.write, List.length_cons, List.length_append] at hn ⊢
  have harguments := argumentList_takes (expression_rereads n) (s.exprs_written hes) (by omega)
  refine (Takes.expectKeyword _).first fun _ _ => ?_
  refine (Takes.name hname _).first ?_
  rintro token rfl
  refine (Takes.accept rfl).first ?_
  rintro _ rfl
  refine (harguments.of_next fun _ _ => trivial).last fun es' hes' => ?_
  rw [Form.unlined, Form.unlined, hes']

theorem returnForm_rereads {e : Expr} (he : e.Writable)
    (hn : (Form.write s (.returnValue e)).length ≤ n) :
    RereadsForm s (returnForm n) (.returnValue e) := by
  simp only [RereadsForm, Form.write, List.length_cons] at hn ⊢
  refine (Takes.expectKeyword _).first fun _ _ => ?_
  refine ((expr_takes he (by omega)).of_next fun _ hc => hc.follows).last fun e' he' => ?_
  rw [Form.unlined, Form.unlined, he']

theorem fileOpenForm_rereads {e : Expr} {k : Keyword} (he : e.Writable) (hk : k ∈ modeWords)
    (hn : (Form.write s (.fileOpen e k.word)).length ≤ n) :
    RereadsForm s (fileOpenForm n) (.fileOpen e k.word) := by
  simp only [RereadsForm, Form.write, List.length_cons, List.length_append] at hn ⊢
  refine (Takes.expectKeyword _).first fun _ _ => ?_
  refine (expr_takes he (by omega)).upTo (follows_keyword rfl) fun e' he' => ?_
  refine (Takes.expect (Lexeme.keyword_kind _) _).first fun _ _ => ?_
  intro c c' h _
  have hkind : c.current.kind = .keyword k := h.kind.trans k.lexeme.2.1
  obtain rfl : c.advance = c' := h.2.2
  refine ⟨.fileOpen e' k.word, ?_, by simp only [Form.unlined, he']⟩
  rw [bind_ok (current_ok c), hkind]
  simp only [modeWords, List.mem_cons, List.not_mem_nil, or_false] at hk
  rcases hk with rfl | rfl | rfl <;> rfl

theorem fileCloseForm_rereads {e : Expr} (he : e.Writable)
    (hn : (Form.write s (.fileClose e)).length ≤ n) :
    RereadsForm s (fileCloseForm n) (.fileClose e) := by
  simp only [RereadsForm, Form.write, List.length_cons] at hn ⊢
  refine (Takes.expectKeyword _).first fun _ _ => ?_
  refine ((expr_takes he (by omega)).of_next fun _ hc => hc.follows).last fun e' he' => ?_
  rw [Form.unlined, Form.unlined, he']

theorem fileReadForm_rereads {e : Expr} {t : Target} (he : e.Writable) (ht : t.Writable)
    (hn : (Form.write s (.fileRead e t)).length ≤ n) :
    RereadsForm s (fileReadForm n) (.fileRead e t) := by
  simp only [RereadsForm, Form.write, List.length_cons, List.length_append] at hn ⊢
  refine (Takes.expectKeyword _).first fun _ _ => ?_
  refine (expr_takes he (by omega)).upTo (fun c hc => .of_comma hc) fun e' he' => ?_
  refine (Takes.expect rfl _).first fun _ _ => ?_
  refine ((target_takes ht (by omega)).of_next fun _ hc => hc.follows).last fun t' ht' => ?_
  rw [Form.unlined, Form.unlined, he', ht']

theorem fileWriteForm_rereads {e d : Expr} (he : e.Writable) (hd : d.Writable)
    (hn : (Form.write s (.fileWrite e d)).length ≤ n) :
    RereadsForm s (fileWriteForm n) (.fileWrite e d) := by
  simp only [RereadsForm, Form.write, List.length_cons, List.length_append] at hn ⊢
  refine (Takes.expectKeyword _).first fun _ _ => ?_
  refine (expr_takes he (by omega)).upTo (fun c hc => .of_comma hc) fun e' he' => ?_
  refine (Takes.expect rfl _).first fun _ _ => ?_
  refine ((expr_takes hd (by omega)).of_next fun _ hc => hc.follows).last fun d' hd' => ?_
  rw [Form.unlined, Form.unlined, he', hd']

theorem declareForms_takes {name type : String} {shape : Shape} (hname : IsName name)
    (htype : IsTypeName type) (hshape : shape.Writable)
    (hn : (Form.write s (.declare name type shape)).length ≤ n) :
    (declareForms n).Takes (Form.write s (.declare name type shape)) (fun _ => True)
      (· = [.declare name type shape]) := by
  simp only [Form.write, List.length_cons] at hn ⊢
  -- one name is written to a DECLARE
  have hmore : (moreItems (expect .identifier .nameAfterComma) n).Takes [] Cursor.FollowsList
      (List.Forall₂ (fun _ _ => True) []) :=
    @moreItems_takes Token Token _ (fun _ => []) _ [] (fun _ h => absurd h List.not_mem_nil) n
      (Nat.zero_lt_of_lt hn)
  refine (Takes.expectKeyword _).first fun _ _ => ?_
  refine (Takes.name hname _).first ?_
  rintro token rfl
  refine hmore.peek (fun c hc => .of_kind hc (by decide)) ?_
  rintro _ (- | -)
  refine (Takes.expect rfl _).first fun _ _ => ?_
  cases hshape with
  | scalar =>
    refine (Takes.accept_none (.keyword .arrayKw)).peek (fun c hc => ?_) ?_
    · rw [hc]
      exact htype.not_array
    · rintro _ rfl
      refine (typeName_takes htype).last ?_
      rintro _ rfl
      rfl
  | @array bounds hne hb =>
    refine (Takes.accept (Lexeme.keyword_kind _)).first ?_
    rintro _ rfl
    refine (Takes.expect rfl _).first fun _ _ => ?_
    have hlength : bounds.length ≤ (writeItems (writeDimension s) bounds).length :=
      length_le_writeItems fun d _ => by simp [writeDimension]
    simp only [Shape.write, List.length_cons, List.length_append] at hn
    have hdimension :
        ∀ d ∈ bounds, (dimension n).Takes (writeDimension s d) (·.Follows (-1)) (· = d) :=
      fun d hd => dimension_takes (hb d hd).1 (hb d hd).2 (by omega)
    refine (items_takes hne hdimension (by omega)).upTo (fun c hc => .of_kind hc (by decide))
      fun bounds' hbounds' => ?_
    obtain rfl := eq_of_items hbounds'
    refine (Takes.expect rfl _).first fun _ _ => ?_
    refine (Takes.expect (Lexeme.keyword_kind _) _).first fun _ _ => ?_
    refine (typeName_takes htype).last ?_
    rintro _ rfl
    rfl

/-! ## Blocks -/

/-- The kinds of token that a statement can begin with. -/
def stmtStarts : List TokenKind :=
  .identifier :: [Keyword.declareKw, .inputKw, .outputKw, .ifKw, .caseKw, .whileKw, .repeatKw,
    .forKw, .procedureKw, .functionKw, .callKw, .returnKw, .openFileKw, .closeFileKw, .readFileKw,
    .writeFileKw].map .keyword

theorem Form.Writable.starts {form : Form} (h : form.Writable) :
    ∃ x xs, form.write s = x :: xs ∧ x.kind ∈ stmtStarts := by
  cases h with
  | assign ht he =>
    cases ht with
    | var line hx => exact ⟨_, _, rfl, by rw [hx.2]; decide⟩
    | element line ha hne hi => exact ⟨_, _, rfl, by rw [ha.2]; decide⟩
  | _ => exact ⟨_, _, rfl, by rw [Lexeme.keyword_kind]; decide⟩

theorem Cursor.skipNewlines_of_ne {c : Cursor} (h : c.current.kind ≠ .newline) :
    c.skipNewlines = c := by
  obtain ⟨position, current, rest⟩ := c
  cases rest with
  | nil => rfl
  | cons t rest => exact if_neg h

theorem Cursor.skipNewlines_of_newline {c : Cursor} (h : c.current.kind = .newline)
    (hne : c.rest ≠ []) : c.skipNewlines = c.advance.skipNewlines := by
  obtain ⟨position, current, rest⟩ := c
  cases rest with
  | nil => exact absurd rfl hne
  | cons t rest => exact if_pos h

theorem skipNewlines_takes : skipNewlines.Takes [] (·.current.kind ≠ .newline) (fun _ => True) := by
  rintro c c' rfl hc
  exact ⟨(), by rw [skipNewlines_ok, Cursor.skipNewlines_of_ne hc], trivial⟩

theorem Block.unlined_eq_map (b : Block) : Block.unlined b = b.map Stmt.unlined := by
  induction b with
  | nil => rfl
  | cons t b ih => rw [Block.unlined, ih, List.map_cons]

/-- A parser that reads statements of fewer than `n` lexemes where they are written. -/
def RereadsStatements (s : Spelling) (n : Nat) (stmt : Parser Block) : Prop :=
  ∀ form : Form, form.Writable → (form.write s).length < n →
    stmt.Takes (form.write s) Cursor.AtLineEnd (Block.unlined · = [.mk 0 form.unlined])

/-- A test that no place with a line end or the beginning of a statement meets. -/
structure EndsBlock (stop : Cursor → Bool) : Prop where
  starts : ∀ c, c.current.kind ∈ stmtStarts → stop c = false
  newline : ∀ c, stop c = true → c.current.kind ≠ .newline

theorem length_le_writeBlock (body : Block) : body.length ≤ (writeBlock s body).length := by
  induction body with
  | nil => exact Nat.zero_le _
  | cons t body ih =>
    simp only [writeBlock, List.length_append, List.length_cons]
    omega

variable {stmt : Parser Block} {stop : Cursor → Bool}

theorem skipNewlines_of_reads_block (hstop : EndsBlock stop) {body : Block}
    (hw : ∀ t ∈ body, t.form.Writable) {c c' : Cursor} (h : c.Reads (writeBlock s body) c')
    (hc' : stop c' = true) : c.skipNewlines = c := by
  refine Cursor.skipNewlines_of_ne ?_
  cases body with
  | nil => exact (show c = c' from h) ▸ hstop.newline c' hc'
  | cons t body =>
    obtain ⟨line, form⟩ := t
    obtain ⟨x, xs, hx, hkind⟩ := (hw (.mk line form) (by simp)).starts (s := s)
    obtain ⟨m, hm, -⟩ := Cursor.reads_append.mp h
    rw [show Stmt.write s (.mk line form) = x :: xs from hx] at hm
    intro hline
    rw [← hm.kind, hline] at hkind
    exact absurd hkind (by decide)

theorem blockUntil_reads (hstop : EndsBlock stop) (hstmt : RereadsStatements s n stmt)
    {body : Block} (hw : ∀ t ∈ body, t.form.Writable) (hn : (writeBlock s body).length ≤ n)
    {k : Nat} (hk : body.length < k) {c c' : Cursor}
    (h : c.skipNewlines.Reads (writeBlock s body) c') (hc' : stop c' = true) :
    ∃ b, blockUntil stop stmt k c = .ok b c' ∧ Block.unlined b = Block.unlined body := by
  induction body generalizing c k with
  | nil =>
    obtain ⟨k, rfl⟩ := Nat.exists_eq_succ_of_ne_zero (Nat.ne_of_gt hk)
    have hend : c.skipNewlines = c' := h
    refine ⟨[], ?_, rfl⟩
    rw [blockUntil, bind_ok (skipNewlines_ok c), hend, bind_ok (get_ok c'), if_pos hc']
    rfl
  | cons t body ih =>
    obtain ⟨k, rfl⟩ := Nat.exists_eq_succ_of_ne_zero (Nat.ne_of_gt (Nat.zero_lt_of_lt hk))
    obtain ⟨line, form⟩ := t
    simp only [List.forall_mem_cons, Stmt.form] at hw
    simp only [writeBlock, Stmt.write, List.length_append, List.length_cons] at hn
    obtain ⟨m, hm, hrest⟩ := Cursor.reads_append.mp h
    have hline : m.current.kind = .newline := hrest.kind
    obtain ⟨x, xs, hx, hkind⟩ := hw.1.starts (s := s)
    have hgoes : stop c.skipNewlines = false := by
      refine hstop.starts _ ?_
      rw [show Stmt.write s (.mk line form) = x :: xs from hx] at hm
      exact hm.kind ▸ hkind
    have hskip : m.skipNewlines = m.advance := by
      rw [Cursor.skipNewlines_of_newline hline hrest.2.1]
      exact skipNewlines_of_reads_block hstop hw.2 hrest.2.2 hc'
    obtain ⟨first, hfirst, heq⟩ := hstmt form hw.1 (by omega) _ m hm hline
    obtain ⟨more, hmore, heqs⟩ := ih hw.2 (by omega) (Nat.lt_of_succ_lt_succ hk) (hskip ▸ hrest.2.2)
    refine ⟨first ++ more, ?_, ?_⟩
    · rw [blockUntil, bind_ok (skipNewlines_ok c), bind_ok (get_ok _), hgoes,
        if_neg (by decide), bind_ok hfirst, bind_ok hmore]
      rfl
    · rw [Block.unlined_eq_map, List.map_append, ← Block.unlined_eq_map,
        ← Block.unlined_eq_map, heq, heqs]
      rfl

theorem blockUntil_takes (hstop : EndsBlock stop) (hstmt : RereadsStatements s n stmt)
    {body : Block} (hw : ∀ t ∈ body, t.form.Writable) (hn : (writeBlock s body).length < n) :
    (blockUntil stop stmt n).Takes (.lineEnd :: writeBlock s body) (stop · = true)
      (Block.unlined · = Block.unlined body) := by
  intro c c' h hc'
  have hskip : c.skipNewlines = c.advance := by
    rw [Cursor.skipNewlines_of_newline h.kind h.2.1]
    exact skipNewlines_of_reads_block hstop hw h.2.2 hc'
  exact blockUntil_reads hstop hstmt hw hn.le ((length_le_writeBlock body).trans_lt hn)
    (hskip ▸ h.2.2) hc'

theorem endsBlock_stopsAt {stops : List TokenKind}
    (h : ∀ k ∈ stops, k ∉ stmtStarts ∧ k ≠ .newline) : EndsBlock (stopsAt stops) where
  starts c hc := by
    simp only [stopsAt, List.contains_eq_mem, List.mem_cons, decide_eq_false_iff_not, not_or]
    refine ⟨fun heof => ?_, fun hmem => (h _ hmem).1 hc⟩
    rw [heof] at hc
    exact absurd hc (by decide)
  newline c hc := by
    simp only [stopsAt, List.contains_eq_mem, List.mem_cons, decide_eq_true_eq] at hc
    rcases hc with heof | hmem
    · rw [heof]
      decide
    · exact (h _ hmem).2

theorem block_takes (hstmt : RereadsStatements s n stmt) {stops : List TokenKind}
    (hstops : ∀ k ∈ stops, k ∉ stmtStarts ∧ k ≠ .newline) {body : Block}
    (hw : ∀ t ∈ body, t.form.Writable) (hn : (writeBlock s body).length < n) :
    (block stmt stops n).Takes (.lineEnd :: writeBlock s body) (·.current.kind ∈ stops)
      (Block.unlined · = Block.unlined body) := by
  rw [block_eq]
  refine (blockUntil_takes (endsBlock_stopsAt hstops) hstmt hw hn).of_next fun c hc => ?_
  simp only [stopsAt, List.contains_eq_mem, List.mem_cons, decide_eq_true_eq]
  exact .inr hc

/-! ## Loops and procedures -/

theorem mem_of_keyword {k : Keyword} {stops : List TokenKind} (hk : .keyword k ∈ stops) (c : Cursor)
    (hc : c.current.kind = (Lexeme.keyword k).kind) : c.current.kind ∈ stops := by
  rw [hc, Lexeme.keyword_kind]
  exact hk

theorem not_newline_of_keyword {k : Keyword} (c : Cursor)
    (hc : c.current.kind = (Lexeme.keyword k).kind) : c.current.kind ≠ .newline := by
  rw [hc, Lexeme.keyword_kind]
  exact TokenKind.noConfusion

theorem nextName_takes {x : String} (hx : IsName x) :
    (nextName x).Takes [.word x] (fun _ => True) (fun _ => True) := by
  intro c c' h _
  have hkind : c.current.kind = .identifier := h.kind.trans hx.2
  have htext : c.current.text = x := h.text hx.value
  obtain rfl : c.advance = c' := h.2.2
  refine ⟨(), ?_, trivial⟩
  unfold nextName
  rw [bind_ok (check_ok _ c), hkind, if_pos (by decide), bind_ok (advance_ok c), if_pos htext]
  rfl

section Bodies

variable (hstmt : RereadsStatements s n stmt) {body : Block} (hw : ∀ t ∈ body, t.form.Writable)
include hstmt hw

theorem whileForm_rereads {e : Expr} (he : e.Writable)
    (hn : (Form.write s (.whileDo e body)).length ≤ n) :
    RereadsForm s (whileForm stmt n) (.whileDo e body) := by
  simp only [RereadsForm, Form.write, List.length_cons, List.length_append] at hn ⊢
  refine (Takes.expectKeyword _).first fun _ _ => ?_
  refine (expr_takes he (by omega)).upTo (follows_keyword rfl) fun e' he' => ?_
  refine skipNewlines_takes.peek not_newline_of_keyword fun _ _ => ?_
  refine (Takes.expect (Lexeme.keyword_kind _) _).first fun _ _ => ?_
  refine (block_takes hstmt (by decide) hw (by omega)).upTo (mem_of_keyword (by decide))
    fun b hb => ?_
  refine (Takes.expect (Lexeme.keyword_kind _) _).last fun _ _ => ?_
  rw [Form.unlined, Form.unlined, he', hb]

theorem repeatForm_rereads {e : Expr} (he : e.Writable)
    (hn : (Form.write s (.repeatUntil body e)).length ≤ n) :
    RereadsForm s (repeatForm stmt n) (.repeatUntil body e) := by
  simp only [RereadsForm, Form.write, List.length_cons, List.length_append] at hn ⊢
  refine (Takes.expectKeyword _).first fun _ _ => ?_
  refine (block_takes hstmt (by decide) hw (by omega)).upTo (mem_of_keyword (by decide))
    fun b hb => ?_
  refine (Takes.expect (Lexeme.keyword_kind _) _).first fun _ _ => ?_
  refine ((expr_takes he (by omega)).of_next fun _ hc => hc.follows).last fun e' he' => ?_
  rw [Form.unlined, Form.unlined, he', hb]

theorem forForm_rereads {x : String} {start stop step : Expr} (hx : IsName x)
    (hstart : start.Writable) (hstop : stop.Writable) (hstep : step.Writable)
    (hn : (Form.write s (.forTo x start stop step body)).length ≤ n) :
    RereadsForm s (forForm stmt n) (.forTo x start stop step body) := by
  simp only [RereadsForm, Form.write, List.length_cons, List.length_append] at hn ⊢
  rw [forForm_eq]
  refine (Takes.expectKeyword _).first fun token _ => ?_
  refine (Takes.name hx _).first ?_
  rintro name rfl
  refine (Takes.expect rfl _).first fun _ _ => ?_
  refine (expr_takes hstart (by omega)).upTo (follows_keyword rfl) fun start' hstart' => ?_
  refine (Takes.expect (Lexeme.keyword_kind _) _).first fun _ _ => ?_
  refine (expr_takes hstop (by omega)).upTo (follows_keyword rfl) fun stop' hstop' => ?_
  have hpart : (stepPart token.line n).Takes (.keyword .stepKw :: s.expr step) (·.Follows (-1))
      (·.unlined = step.unlined) := by
    refine (Takes.accept (Lexeme.keyword_kind _)).first ?_
    rintro _ rfl
    exact expr_takes hstep (by omega)
  refine hpart.upTo (fun c hc => (show c.AtLineEnd from hc).follows) fun step' hstep' => ?_
  refine (block_takes hstmt (by decide) hw (by omega)).upTo (mem_of_keyword (by decide))
    fun b hb => ?_
  refine (Takes.expect (Lexeme.keyword_kind _) _).first fun _ _ => ?_
  refine (nextName_takes hx).first fun _ _ => .pure ?_
  rw [Form.unlined, Form.unlined, hstart', hstop', hstep', hb]

theorem procedureForm_rereads {name : String} {ps : List Param} (hname : IsName name)
    (hps : ∀ p ∈ ps, p.Writable) (hn : (Form.write s (.procedure name ps body)).length ≤ n) :
    RereadsForm s (procedureForm stmt n) (.procedure name ps body) := by
  simp only [RereadsForm, Form.write, List.length_cons, List.length_append] at hn ⊢
  refine (Takes.expectKeyword _).first fun _ _ => ?_
  refine (Takes.name hname _).first ?_
  rintro token rfl
  refine (optionalParams_takes hps (by omega)).before ?_
  rintro _ rfl
  refine (block_takes hstmt (by decide) hw (by omega)).upTo (mem_of_keyword (by decide))
    fun b hb => ?_
  refine (Takes.expect (Lexeme.keyword_kind _) _).last fun _ _ => ?_
  rw [Form.unlined, Form.unlined, hb]

theorem functionForm_rereads {name type : String} {ps : List Param} (hname : IsName name)
    (hps : ∀ p ∈ ps, p.Writable) (htype : IsTypeName type)
    (hn : (Form.write s (.function name ps type body)).length ≤ n) :
    RereadsForm s (functionForm stmt n) (.function name ps type body) := by
  simp only [RereadsForm, Form.write, List.length_cons, List.length_append] at hn ⊢
  refine (Takes.expectKeyword _).first fun _ _ => ?_
  refine (Takes.name hname _).first ?_
  rintro token rfl
  refine (optionalParams_takes hps (by omega)).before ?_
  rintro _ rfl
  refine (Takes.expect (Lexeme.keyword_kind _) _).first fun _ _ => ?_
  refine (typeName_takes htype).first ?_
  rintro _ rfl
  refine (block_takes hstmt (by decide) hw (by omega)).upTo (mem_of_keyword (by decide))
    fun b hb => ?_
  refine (Takes.expect (Lexeme.keyword_kind _) _).last fun _ _ => ?_
  rw [Form.unlined, Form.unlined, hb]

end Bodies

/-! ## Branches -/

theorem conditionThen_takes {e : Expr} (he : e.Writable) (hn : (s.expr e).length < n) :
    (conditionThen n).Takes (s.expr e ++ [.keyword .thenKw]) (fun _ => True)
      (·.unlined = e.unlined) := by
  refine (expr_takes he hn).upTo (follows_keyword rfl) fun e' he' => ?_
  refine skipNewlines_takes.peek not_newline_of_keyword fun _ _ => ?_
  exact (Takes.expect (Lexeme.keyword_kind _) _).last fun _ _ => he'

/-- What stands behind the ELSE IF branches: an ELSE at the end of its line, or ENDIF. -/
structure Cursor.FollowsArms (c : Cursor) : Prop where
  mem : c.current.kind ∈ ifStops
  noArm : c.current.kind = .keyword .elseKw → c.ahead.kind ≠ .keyword .ifKw

theorem mem_ifStops_of_reads {arms : List Arm} {c c' : Cursor} (h : c.Reads (writeArms s arms) c')
    (hc' : c'.current.kind ∈ ifStops) : c.current.kind ∈ ifStops := by
  cases arms with
  | nil => exact (show c = c' from h) ▸ hc'
  | cons arm arms =>
    obtain ⟨condition, body⟩ := arm
    exact mem_of_keyword (by decide) c h.kind

theorem length_le_writeArms (arms : List Arm) : arms.length ≤ (writeArms s arms).length := by
  induction arms with
  | nil => exact Nat.zero_le _
  | cons arm arms ih =>
    obtain ⟨condition, body⟩ := arm
    simp only [writeArms, Arm.write, List.length_append, List.length_cons]
    omega

theorem elseIfs_takes (hstmt : RereadsStatements s n stmt) {arms : List Arm}
    (hc : ∀ a ∈ arms, a.condition.Writable) (hw : ∀ a ∈ arms, ∀ t ∈ a.body, t.form.Writable)
    (hn : (writeArms s arms).length ≤ n) {k : Nat} (hk : arms.length < k) :
    (elseIfs stmt n k).Takes (writeArms s arms) Cursor.FollowsArms
      (armsUnlined · = armsUnlined arms) := by
  induction arms generalizing k with
  | nil =>
    obtain ⟨k, rfl⟩ := Nat.exists_eq_succ_of_ne_zero (Nat.ne_of_gt hk)
    rintro c c' rfl hc'
    refine ⟨[], ?_, rfl⟩
    rw [elseIfs, bind_ok (check_ok _ c), bind_ok (get_ok c), if_neg]
    · rfl
    · simpa using hc'.noArm
  | cons arm arms ih =>
    obtain ⟨k, rfl⟩ := Nat.exists_eq_succ_of_ne_zero (Nat.ne_of_gt (Nat.zero_lt_of_lt hk))
    obtain ⟨condition, body⟩ := arm
    simp only [List.forall_mem_cons, Arm.condition, Arm.body] at hc hw
    simp only [writeArms, Arm.write, List.length_append, List.length_cons] at hn
    have hrest : (do
        let condition ← conditionThen n
        let body ← block stmt ifStops n
        let rest ← elseIfs stmt n k
        return .mk condition body :: rest : Parser (List Arm)).Takes
        ((s.expr condition ++ [.keyword .thenKw]) ++
          ((.lineEnd :: writeBlock s body) ++ writeArms s arms))
        Cursor.FollowsArms (armsUnlined · = armsUnlined (.mk condition body :: arms)) := by
      refine (conditionThen_takes hc.1 (by omega)).before fun e he => ?_
      refine (block_takes hstmt (by decide) hw.1 (by omega)).bind (fun c c' h hc' => ?_)
        fun b hb => ?_
      · exact mem_ifStops_of_reads h hc'.mem
      · refine (ih hc.2 hw.2 (by omega) (Nat.lt_of_succ_lt_succ hk)).last fun arms' harms => ?_
        simp only [armsUnlined, Arm.unlined, he, hb, harms]
    intro c c' h hc'
    have hkind : c.current.kind = .keyword .elseKw := h.kind.trans (Lexeme.keyword_kind _)
    have hahead : c.ahead.kind = .keyword .ifKw := h.ahead.trans (Lexeme.keyword_kind _)
    rw [elseIfs, bind_ok (check_ok _ c), bind_ok (get_ok c), hkind, hahead,
      if_pos (by decide), bind_ok (advance_ok c), bind_ok (advance_ok _)]
    have hread : c.advance.advance.Reads ((s.expr condition ++ .keyword .thenKw :: .lineEnd ::
        writeBlock s body) ++ writeArms s arms) c' := h.2.2.2.2
    refine hrest _ c' ?_ hc'
    simpa only [List.append_assoc, List.cons_append, List.nil_append] using hread

theorem followsArms_of_reads {otherwise : Option Block} {c c' : Cursor}
    (h : c.Reads (writeElse s otherwise ++ [.keyword .endIfKw]) c') : c.FollowsArms := by
  cases otherwise with
  | none =>
    have hkind : c.current.kind = .keyword .endIfKw := h.kind.trans (Lexeme.keyword_kind _)
    exact ⟨by rw [hkind]; decide, fun helse => by rw [hkind] at helse; cases helse⟩
  | some body =>
    have hahead : c.ahead.kind = .newline := h.ahead
    exact ⟨mem_of_keyword (by decide) c h.kind, fun _ => by rw [hahead]; decide⟩

theorem elsePart_takes (hstmt : RereadsStatements s n stmt) {otherwise : Option Block}
    (hw : ∀ b ∈ otherwise, ∀ t ∈ b, t.form.Writable) (hn : (writeElse s otherwise).length ≤ n) :
    (elsePart stmt n).Takes (writeElse s otherwise) (·.current.kind = .keyword .endIfKw)
      (optionUnlined · = optionUnlined otherwise) := by
  cases otherwise with
  | none =>
    refine (Takes.accept_none (.keyword .elseKw)).peekEnd (fun c hc => by rw [hc]; decide) ?_
    rintro _ rfl
    exact .pure rfl
  | some body =>
    simp only [writeElse, List.length_cons] at hn
    refine (Takes.accept (Lexeme.keyword_kind _)).first ?_
    rintro _ rfl
    have hblock : (block stmt [.keyword .endIfKw] n).Takes (.lineEnd :: writeBlock s body) _ _ :=
      block_takes hstmt (by decide) (hw body rfl) (by omega)
    refine (hblock.of_next fun c hc => by rw [hc]; decide).last fun b hb => ?_
    rw [optionUnlined, optionUnlined, hb]

theorem ifForm_rereads (hstmt : RereadsStatements s n stmt) {e : Expr} {body : Block}
    {arms : List Arm} {otherwise : Option Block} (he : e.Writable)
    (hw : ∀ t ∈ body, t.form.Writable) (hac : ∀ a ∈ arms, a.condition.Writable)
    (haw : ∀ a ∈ arms, ∀ t ∈ a.body, t.form.Writable)
    (how : ∀ b ∈ otherwise, ∀ t ∈ b, t.form.Writable)
    (hn : (Form.write s (.ifThen e body arms otherwise)).length ≤ n) :
    RereadsForm s (ifForm stmt n) (.ifThen e body arms otherwise) := by
  have hwrite : Form.write s (.ifThen e body arms otherwise) = .keyword .ifKw ::
      ((s.expr e ++ [.keyword .thenKw]) ++ ((.lineEnd :: writeBlock s body) ++
        (writeArms s arms ++ (writeElse s otherwise ++ [.keyword .endIfKw])))) := by
    simp only [Form.write, List.append_assoc, List.cons_append, List.nil_append]
  rw [RereadsForm, ifForm_eq, hwrite]
  simp only [hwrite, List.length_cons, List.length_append] at hn
  refine (Takes.expectKeyword _).first fun _ _ => ?_
  refine (conditionThen_takes he (by omega)).before fun e' he' => ?_
  refine (block_takes hstmt (by decide) hw (by omega)).bind (fun c c' h hc' => ?_) fun b hb => ?_
  · obtain ⟨m, hm, helse⟩ := Cursor.reads_append.mp h
    exact mem_ifStops_of_reads hm (followsArms_of_reads helse).mem
  have hlength := length_le_writeArms (s := s) arms
  refine (elseIfs_takes hstmt hac haw (by omega) (by omega)).bind (fun c c' h _ =>
    followsArms_of_reads h) fun arms' harms => ?_
  refine (elsePart_takes hstmt how (by omega)).upTo (fun c hc => hc.trans (Lexeme.keyword_kind _))
    fun otherwise' hotherwise => ?_
  refine (Takes.expect (Lexeme.keyword_kind _) _).last fun _ _ => ?_
  rw [Form.unlined, Form.unlined, he', hb, harms, hotherwise]

/-! ## CASE -/

/-- An expression that is written with a literal or a negative number in front starts a label. -/
theorem labelStarts_of_reads {e : Expr} (he : e.Writable) (hopen : e.opensLabel = true)
    {follow : Int} {c c' : Cursor} (h : c.Reads (e.bare s needsParens follow) c') :
    labelStarts c = true := by
  induction he generalizing follow c c' with
  | literal line hv =>
    have hkind := h.kind
    unfold labelStarts
    have hlit := (hv.denoted (s := s)).kind
    simp only [List.mem_cons, List.not_mem_nil, or_false] at hlit
    rcases hlit with hlit | hlit | hlit <;> rw [hkind.trans hlit] <;> rfl
  | @neg line e he ih =>
    cases he with
    | @literal line' v hv =>
      have hkind : c.current.kind = .symbol .minus := h.kind
      have hahead : c.ahead.kind = .number := by
        refine h.ahead.trans ?_
        cases v with
        | int n => rfl
        | real x => rfl
        | _ => cases hopen
      unfold labelStarts
      rw [hkind, hahead]
      rfl
    | _ => cases hopen
  | @binary line l op r hop hl hr ihl ihr =>
    rw [Expr.opensLabel, Bool.and_eq_true, Bool.not_eq_true'] at hopen
    obtain ⟨m, hm, -⟩ := Cursor.reads_append.mp h
    rw [placed, hopen.2, if_neg (by decide)] at hm
    exact ihl hopen.1 hm
  | _ => cases hopen

theorem endsBlock_branchEnds : EndsBlock branchEnds where
  starts c hc := by
    have hall : ∀ k ∈ stmtStarts, k ≠ .eof ∧
        [TokenKind.keyword .endCaseKw, .keyword .otherwiseKw].contains k = false ∧
        [TokenKind.number, .string, .boolean].contains k = false ∧ k ≠ .symbol .minus := by decide
    obtain ⟨heof, hend, hliteral, hminus⟩ := hall _ hc
    simp only [branchEnds, labelStarts, hend, hliteral, heof, hminus, decide_false, Bool.false_and,
      Bool.or_self]
  newline c hc hline := by
    rw [branchEnds, labelStarts, hline] at hc
    exact absurd hc (by simp)

theorem caseLabel_takes {label : CaseLabel} (hl : label.Writable)
    (hn : (label.write s).length < n) :
    (caseLabel n).Takes (label.write s) (·.current.kind = .symbol .colon)
      (·.unlined = label.unlined) := by
  intro c c' h hc'
  have hfollows : c'.Follows (-1) := (Cursor.FollowsList.of_kind hc' (by decide)).follows
  unfold caseLabel
  rw [bind_ok (current_ok c)]
  cases hl with
  | value he =>
    obtain ⟨e', he', heq⟩ := expr_takes he hn c c' h hfollows
    refine ⟨.value e', ?_, by simp only [CaseLabel.unlined, heq]⟩
    rw [bind_ok he', bind_ok (accept_other (by rw [hc']; decide)), if_neg (by decide)]
    rfl
  | range line hlow hhigh =>
    simp only [CaseLabel.write, List.length_append, List.length_cons] at hn
    obtain ⟨m, hm, hto⟩ := Cursor.reads_append.mp h
    have hkind : m.current.kind = .keyword .toKw := hto.kind.trans (Lexeme.keyword_kind _)
    obtain ⟨low', hlow', hloweq⟩ :=
      expr_takes (n := n) hlow (by omega) c m hm (follows_keyword rfl m hto.kind)
    obtain ⟨high', hhigh', hhigheq⟩ := expr_takes (n := n) hhigh (by omega) _ c' hto.2.2 hfollows
    refine ⟨.range c.current.line low' high', ?_, by simp only [CaseLabel.unlined, hloweq, hhigheq]⟩
    rw [bind_ok hlow', bind_ok (accept_ok hkind), if_pos rfl, bind_ok hhigh']
    rfl

theorem caseBranch_takes (hstmt : RereadsStatements s n stmt) {label : CaseLabel} {body : Block}
    (hl : label.Writable) (hw : ∀ t ∈ body, t.form.Writable)
    (hn : (Branch.write s (.mk label body)).length ≤ n) :
    (caseBranch stmt n).Takes (Branch.write s (.mk label body)) (branchEnds · = true)
      (·.unlined = Branch.unlined (.mk label body)) := by
  simp only [Branch.write, List.length_append, List.length_cons] at hn ⊢
  rw [caseBranch_eq, branchBlock_eq]
  refine (caseLabel_takes hl (by omega)).upTo (fun c hc => hc) fun label' hlabel => ?_
  refine (Takes.expect rfl _).first fun _ _ => ?_
  refine (blockUntil_takes endsBlock_branchEnds hstmt hw (by omega)).last fun b hb => ?_
  rw [Branch.unlined, Branch.unlined, hlabel, hb]

theorem CaseLabel.Writable.starts_of_reads {label : CaseLabel} (hl : label.Writable) {c c' : Cursor}
    (h : c.Reads (label.write s) c') : c.current.kind ∈ exprStarts := by
  cases hl with
  | value he => exact (he.written 0 (-1)).starts_of_reads h
  | range line hlow hhigh =>
    obtain ⟨m, hm, -⟩ := Cursor.reads_append.mp h
    exact (hlow.written 0 (-1)).starts_of_reads hm

theorem CaseLabel.Writable.labelStarts_of_reads {label : CaseLabel} (hl : label.Writable)
    (hopen : label.first.opensLabel = true) {c c' : Cursor} (h : c.Reads (label.write s) c') :
    labelStarts c = true := by
  have hexpr : ∀ {e : Expr} {m : Cursor}, e.Writable → e.opensLabel = true → c.Reads (s.expr e) m →
      labelStarts c = true := by
    intro e m he hopen hread
    rw [Spelling.expr, write_of_bare (needsParens_whole he.known)] at hread
    exact Pseudocode.labelStarts_of_reads he hopen hread
  cases hl with
  | value he => exact hexpr he hopen h
  | range line hlow hhigh =>
    obtain ⟨m, hm, -⟩ := Cursor.reads_append.mp h
    exact hexpr hlow hopen hm

/-- What stands behind a branch ends it. -/
theorem branchEnds_of_reads {branches : List Branch} {otherwise : Option Block}
    (hl : ∀ b ∈ branches, b.label.Writable)
    (hopen : ∀ b ∈ branches, b.label.first.opensLabel = true) {c c' : Cursor}
    (h : c.Reads (writeBranches s branches ++ writeOtherwise s otherwise) c')
    (hc' : c'.current.kind = .keyword .endCaseKw) : branchEnds c = true := by
  cases branches with
  | nil =>
    cases otherwise with
    | none =>
      obtain rfl : c = c' := h
      rw [branchEnds, hc']
      rfl
    | some body =>
      have hkind : c.current.kind = .keyword .otherwiseKw := h.kind.trans (Lexeme.keyword_kind _)
      rw [branchEnds, hkind]
      rfl
  | cons b branches =>
    obtain ⟨label, body⟩ := b
    obtain ⟨m, hm, -⟩ := Cursor.reads_append.mp h
    obtain ⟨m', hm', -⟩ := Cursor.reads_append.mp hm
    obtain ⟨m'', hm'', -⟩ := Cursor.reads_append.mp hm'
    have hstarts := (hl (.mk label body) (by simp)).labelStarts_of_reads (hopen _ (by simp)) hm''
    rw [branchEnds, hstarts, Bool.or_true]

theorem otherwise_takes (hstmt : RereadsStatements s n stmt) {body : Block}
    (hw : ∀ t ∈ body, t.form.Writable) (hn : (writeBlock s body).length < n) :
    (do
      let _ ← expect (.symbol .colon) .colonAfterOtherwise
      let body ← block stmt [.keyword .endCaseKw] n
      return ([], some body) : Parser (List Branch × Option Block)).Takes
      (.symbol .colon :: .lineEnd :: writeBlock s body) (·.current.kind = .keyword .endCaseKw)
      (fun r => branchesUnlined r.1 = [] ∧ optionUnlined r.2 = some (Block.unlined body)) := by
  have hblock : (block stmt [.keyword .endCaseKw] n).Takes (.lineEnd :: writeBlock s body) _ _ :=
    block_takes hstmt (by decide) hw hn
  refine (Takes.expect rfl _).first fun _ _ => ?_
  refine (hblock.of_next fun c hc => by rw [hc]; decide).last fun b hb => ⟨rfl, ?_⟩
  rw [optionUnlined, hb]

theorem caseBranches_reads (hstmt : RereadsStatements s n stmt) {branches : List Branch}
    {otherwise : Option Block} (hl : ∀ b ∈ branches, b.label.Writable)
    (hopen : ∀ b ∈ branches.tail, b.label.first.opensLabel = true)
    (hw : ∀ b ∈ branches, ∀ t ∈ b.body, t.form.Writable)
    (how : ∀ b ∈ otherwise, ∀ t ∈ b, t.form.Writable)
    (hn : (writeBranches s branches ++ writeOtherwise s otherwise).length ≤ n) {k : Nat}
    (hk : branches.length < k) {c c' : Cursor}
    (h : c.skipNewlines.Reads (writeBranches s branches ++ writeOtherwise s otherwise) c')
    (hc' : c'.current.kind = .keyword .endCaseKw) :
    ∃ r, caseBranches stmt n k c = .ok r c' ∧ branchesUnlined r.1 = branchesUnlined branches ∧
      optionUnlined r.2 = optionUnlined otherwise := by
  induction branches generalizing c k with
  | nil =>
    obtain ⟨k, rfl⟩ := Nat.exists_eq_succ_of_ne_zero (Nat.ne_of_gt hk)
    rw [caseBranches, bind_ok (skipNewlines_ok c), bind_ok (check_ok _ _)]
    cases otherwise with
    | none =>
      have hend : c.skipNewlines = c' := h
      exact ⟨([], none), by rw [hend, hc', if_pos (by decide)]; rfl, rfl, rfl⟩
    | some body =>
      have hkind : c.skipNewlines.current.kind = .keyword .otherwiseKw :=
        h.kind.trans (Lexeme.keyword_kind _)
      simp only [writeBranches, writeOtherwise, List.nil_append, List.length_cons] at hn
      rw [hkind, if_neg (by decide), bind_ok (accept_ok hkind), if_pos rfl]
      exact otherwise_takes hstmt (how body rfl) (by omega) _ c' h.2.2 hc'
  | cons b branches ih =>
    obtain ⟨k, rfl⟩ := Nat.exists_eq_succ_of_ne_zero (Nat.ne_of_gt (Nat.zero_lt_of_lt hk))
    obtain ⟨label, body⟩ := b
    simp only [List.forall_mem_cons, Branch.label, Branch.body, List.tail_cons] at hl hw hopen
    simp only [writeBranches, List.append_assoc, List.length_append] at hn h
    obtain ⟨m, hm, hrest⟩ := Cursor.reads_append.mp h
    have hends : branchEnds m = true := branchEnds_of_reads hl.2 hopen hrest hc'
    obtain ⟨branch, hbranch, heq⟩ := caseBranch_takes hstmt hl.1 hw.1 (by omega) _ m hm hends
    have hskip : m.skipNewlines = m :=
      Cursor.skipNewlines_of_ne (endsBlock_branchEnds.newline m hends)
    obtain ⟨⟨more, otherwise'⟩, hmore, heqs, hoeq⟩ :=
      ih hl.2 (fun b hb => hopen b (List.mem_of_mem_tail hb)) hw.2
      (by rw [List.length_append]; omega) (Nat.lt_of_succ_lt_succ hk) (hskip.symm ▸ hrest)
    refine ⟨(branch :: more, otherwise'), ?_, ?_, hoeq⟩
    · obtain ⟨m', hm', -⟩ := Cursor.reads_append.mp hm
      have hall : ∀ k ∈ exprStarts, [TokenKind.keyword .endCaseKw, .eof].contains k = false ∧
          k ≠ .keyword .otherwiseKw := by decide
      obtain ⟨hend, hotherwise⟩ := hall _ (hl.1.starts_of_reads hm')
      rw [caseBranches, bind_ok (skipNewlines_ok c), bind_ok (check_ok _ _), hend,
        if_neg (by decide), bind_ok (accept_other hotherwise), if_neg (by decide),
        bind_ok hbranch, bind_ok hmore]
      rfl
    · rw [branchesUnlined, branchesUnlined, heq, heqs]

theorem not_newline_of_reads_branches {branches : List Branch} {otherwise : Option Block}
    (hl : ∀ b ∈ branches, b.label.Writable) {c c' : Cursor}
    (h : c.Reads (writeBranches s branches ++ writeOtherwise s otherwise) c')
    (hc' : c'.current.kind = .keyword .endCaseKw) : c.current.kind ≠ .newline := by
  cases branches with
  | nil =>
    have hnone : ∀ b ∈ ([] : List Branch), b.label.first.opensLabel = true := by simp
    exact endsBlock_branchEnds.newline c (branchEnds_of_reads hl hnone h hc')
  | cons b branches =>
    obtain ⟨label, body⟩ := b
    obtain ⟨m, hm, -⟩ := Cursor.reads_append.mp h
    obtain ⟨m', hm', -⟩ := Cursor.reads_append.mp hm
    obtain ⟨m'', hm'', -⟩ := Cursor.reads_append.mp hm'
    have hstarts := (hl (.mk label body) (by simp)).starts_of_reads hm''
    intro hline
    rw [hline] at hstarts
    exact absurd hstarts (by decide)

theorem length_le_writeBranches (branches : List Branch) :
    branches.length ≤ (writeBranches s branches).length := by
  induction branches with
  | nil => exact Nat.zero_le _
  | cons b branches ih =>
    obtain ⟨label, body⟩ := b
    simp only [writeBranches, Branch.write, List.length_append, List.length_cons]
    omega

theorem caseForm_rereads (hstmt : RereadsStatements s n stmt) {e : Expr} {branches : List Branch}
    {otherwise : Option Block} (he : e.Writable) (hl : ∀ b ∈ branches, b.label.Writable)
    (hopen : ∀ b ∈ branches.tail, b.label.first.opensLabel = true)
    (hw : ∀ b ∈ branches, ∀ t ∈ b.body, t.form.Writable)
    (how : ∀ b ∈ otherwise, ∀ t ∈ b, t.form.Writable)
    (hn : (Form.write s (.caseOf e branches otherwise)).length ≤ n) :
    RereadsForm s (caseForm stmt n) (.caseOf e branches otherwise) := by
  have hwrite : Form.write s (.caseOf e branches otherwise) = .keyword .caseKw :: .keyword .ofKw ::
      (s.expr e ++ .lineEnd :: ((writeBranches s branches ++ writeOtherwise s otherwise) ++
        [.keyword .endCaseKw])) := by
    simp only [Form.write, List.append_assoc]
  rw [RereadsForm, hwrite]
  simp only [hwrite, List.length_cons, List.length_append] at hn
  have hlength := length_le_writeBranches (s := s) branches
  have hbranches : (caseBranches stmt n n).Takes
      (.lineEnd :: (writeBranches s branches ++ writeOtherwise s otherwise))
      (·.current.kind = .keyword .endCaseKw) (fun r =>
        branchesUnlined r.1 = branchesUnlined branches ∧
        optionUnlined r.2 = optionUnlined otherwise) := by
    intro c c' h hc'
    refine caseBranches_reads hstmt hl hopen hw how ?_ (by omega) ?_ hc'
    · rw [List.length_append]
      omega
    · rw [Cursor.skipNewlines_of_newline h.kind h.2.1, Cursor.skipNewlines_of_ne ?_]
      · exact h.2.2
      · exact not_newline_of_reads_branches hl h.2.2 hc'
  refine (Takes.expectKeyword _).first fun _ _ => ?_
  refine (Takes.expect (Lexeme.keyword_kind _) _).first fun _ _ => ?_
  refine (expr_takes he (by omega)).upTo (fun c hc => (show c.AtLineEnd from hc).follows)
    fun e' he' => ?_
  refine hbranches.upTo (fun c hc => hc.trans (Lexeme.keyword_kind _)) ?_
  rintro ⟨branches', otherwise'⟩ ⟨hb, ho⟩
  refine (Takes.expect (Lexeme.keyword_kind _) _).last fun _ _ => ?_
  rw [Form.unlined, Form.unlined, he', hb, ho]

/-! ## All statements -/

theorem forms_takes_one {form : Form} {rule : Parser Form} (hrule : RereadsForm s rule form)
    (hforms : ∀ c c', c.Reads (form.write s) c' →
      forms stmt n c = (do return [← rule] : Parser _) c) :
    (forms stmt n).Takes (form.write s) Cursor.AtLineEnd (·.map Form.unlined = [form.unlined]) := by
  intro c c' h hc'
  rw [hforms c c' h]
  exact hrule.last (fun f hf => by rw [List.map_singleton, hf]) c c' h hc'

theorem forms_takes_keyword {form : Form} {rule : Parser Form} (hrule : RereadsForm s rule form)
    {k : Keyword} {xs : List Lexeme} (hwrite : form.write s = .keyword k :: xs)
    (hforms : ∀ c : Cursor, c.current.kind = .keyword k →
      forms stmt n c = (do return [← rule] : Parser _) c) :
    (forms stmt n).Takes (form.write s) Cursor.AtLineEnd (·.map Form.unlined = [form.unlined]) :=
  forms_takes_one hrule fun c _ h => hforms c ((hwrite ▸ h).kind.trans (Lexeme.keyword_kind k))

/-- Where a statement is written, the rule for its form reads it. -/
theorem forms_takes (hstmt : RereadsStatements s n stmt) {form : Form} (h : form.Writable)
    (hn : (form.write s).length ≤ n) :
    (forms stmt n).Takes (form.write s) Cursor.AtLineEnd (·.map Form.unlined = [form.unlined]) := by
  have forms_eq : ∀ c : Cursor, forms stmt n c = _ := fun c => bind_ok (current_ok c)
  cases h with
  | declare hname ht hs =>
    intro c c' h hc'
    have hkind : c.current.kind = .keyword .declareKw := h.kind.trans (Lexeme.keyword_kind _)
    rw [forms_eq, hkind]
    exact ((declareForms_takes hname ht hs hn).imp fun fs hfs => by rw [hfs]; rfl) c c' h trivial
  | @assign t e ht he =>
    refine forms_takes_one (assignForm_rereads ht he hn) fun c c' h => ?_
    have hkind : c.current.kind = .identifier := by
      cases ht with
      | var line hx => exact h.kind.trans hx.2
      | element line ha hne hi => exact h.kind.trans ha.2
    rw [forms_eq, hkind]
  | output hne he =>
    exact forms_takes_keyword (outputForm_rereads hne he hn) rfl fun c hc => by rw [forms_eq, hc]
  | input ht =>
    exact forms_takes_keyword (inputForm_rereads ht hn) rfl fun c hc => by rw [forms_eq, hc]
  | ifThen hc hb hac hab ho =>
    exact forms_takes_keyword (ifForm_rereads hstmt hc hb hac hab ho hn) rfl fun c hc => by
      rw [forms_eq, hc]
  | whileDo hc hb =>
    exact forms_takes_keyword (whileForm_rereads hstmt hb hc hn) rfl fun c hc => by
      rw [forms_eq, hc]
  | repeatUntil hc hb =>
    exact forms_takes_keyword (repeatForm_rereads hstmt hb hc hn) rfl fun c hc => by
      rw [forms_eq, hc]
  | forTo hx h1 h2 h3 hb =>
    exact forms_takes_keyword (forForm_rereads hstmt hb hx h1 h2 h3 hn) rfl fun c hc => by
      rw [forms_eq, hc]
  | caseOf he hl hopen hb ho =>
    exact forms_takes_keyword (caseForm_rereads hstmt he hl hopen hb ho hn) rfl fun c hc => by
      rw [forms_eq, hc]
  | procedure hname hp hb =>
    exact forms_takes_keyword (procedureForm_rereads hstmt hb hname hp hn) rfl fun c hc => by
      rw [forms_eq, hc]
  | function hname hp ht hb =>
    exact forms_takes_keyword (functionForm_rereads hstmt hb hname hp ht hn) rfl fun c hc => by
      rw [forms_eq, hc]
  | call hname ha =>
    exact forms_takes_keyword (callForm_rereads hname ha hn) rfl fun c hc => by rw [forms_eq, hc]
  | returnValue he =>
    exact forms_takes_keyword (returnForm_rereads he hn) rfl fun c hc => by rw [forms_eq, hc]
  | fileOpen he hk =>
    exact forms_takes_keyword (fileOpenForm_rereads he hk hn) rfl fun c hc => by rw [forms_eq, hc]
  | fileClose he =>
    exact forms_takes_keyword (fileCloseForm_rereads he hn) rfl fun c hc => by rw [forms_eq, hc]
  | fileRead he ht =>
    exact forms_takes_keyword (fileReadForm_rereads he ht hn) rfl fun c hc => by rw [forms_eq, hc]
  | fileWrite he hd =>
    exact forms_takes_keyword (fileWriteForm_rereads he hd hn) rfl fun c hc => by rw [forms_eq, hc]

/-- **A written statement is read back** where it stands, up to its lines, and reading stops at the
end of its last line. -/
theorem statement_rereads (n : Nat) : RereadsStatements s n (statement n) := by
  induction n with
  | zero =>
    intro form _ hn
    cases hn
  | succ n ih =>
    intro form h hn c c' hread hc'
    obtain ⟨fs, hfs, heq⟩ := forms_takes ih h (Nat.le_of_lt_succ hn) c c' hread hc'
    refine ⟨fs.map (Stmt.mk c.current.line), ?_, ?_⟩
    · rw [statement, bind_ok (current_ok c), bind_ok hfs]
      rfl
    · obtain ⟨f, rfl⟩ : ∃ f, fs = [f] := List.map_eq_singleton_iff.mp heq |>.imp fun f hf => hf.1
      simp only [List.map_cons, List.map_nil, Block.unlined, Stmt.unlined]
      rw [List.singleton_inj.mp heq]

/-! ## Programs -/

/-- **A written program is read back**, up to its lines. -/
theorem parseSource_source (s : Spelling) {program : Block} (hw : ∀ t ∈ program, t.form.Writable) :
    ∃ q, parseSource (s.source program) = .ok q ∧ Block.unlined q = Block.unlined program := by
  have hsound : ∀ x ∈ writeBlock s program, x.Sound :=
    sound_writeBlock s fun t ht => (hw t ht).sound s
  obtain ⟨ts, line, column, hscan, hbears⟩ := scanFrom_layout hsound {}
  have htokens : tokenize (s.source program) = .ok (ts ++ [Token.eofAt line column]) := by
    rw [tokenize, Spelling.source, String.toList_ofList, hscan]
  have hstart : (Cursor.start (ts ++ [Token.eofAt line column])).current ::
      (Cursor.start (ts ++ [Token.eofAt line column])).rest = ts ++ [Token.eofAt line column] := by
    cases ts <;> rfl
  have hread := reads_of_bears hbears hstart
  have hstop : EndsBlock (stopsAt []) := endsBlock_stopsAt (by simp)
  have hbound : (writeBlock s program).length < stepBound (ts ++ [Token.eofAt line column]) := by
    rw [stepBound, List.length_append, ← hbears.length_eq]
    omega
  obtain ⟨q, hq, heq⟩ := blockUntil_reads hstop (statement_rereads _) hw hbound.le
    ((length_le_writeBlock program).trans_lt hbound)
    ((skipNewlines_of_reads_block hstop hw hread rfl).symm ▸ hread) rfl
  refine ⟨q, ?_, heq⟩
  rw [parseSource, htokens]
  dsimp only
  rw [parseTokens, runOn, Parse.program, block_eq, hq]

end Reading

end Pseudocode
