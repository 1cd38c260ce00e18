import Pseudocode.Proofs.Scanning

/-!
# Programs that can be written

A tree can be written when its names are names, its literals are literals, its operators have a
meaning, and its types, file modes and lists are what the grammar has. In a CASE every label but the
first must open with a literal or a negative number, since nothing else ends the branch before it.

Result: `Form.Writable.sound`, every lexeme of a writable program is one that the scanner finds.
-/

namespace Pseudocode

/-! ## Writable trees -/

/-- The values that a literal can have. -/
def Value.IsLiteral : Value → Prop
  | .int n => 0 ≤ n ∧ n.natAbs < Number.writeLimit
  | .real x => Number.IsMagnitude x
  | .text t => IsQuotable t
  | .bool _ => True
  | .absent => False

/-- The keywords that name a type. -/
def typeWords : List Keyword := [.integerKw, .realKw, .stringKw, .charKw, .booleanKw]

def IsTypeName (name : String) : Prop := ∃ k ∈ typeWords, name = k.word

/-- What can be called: a name, or a type that is a conversion function. -/
def IsCallee (f : String) : Prop :=
  IsName f ∨ ∃ k : Keyword, TokenKind.keyword k ∈ Parse.conversionWords ∧ f = k.word

inductive Expr.Writable : Expr → Prop
  | literal (line : Int) {v : Value} (hv : v.IsLiteral) : Writable (.literal line v)
  | var (line : Int) {x : String} (hx : IsName x) : Writable (.var line x)
  | element (line : Int) {a : String} {indices : List Expr} (ha : IsName a) (hne : indices ≠ [])
    (hi : ∀ e ∈ indices, Writable e) : Writable (.element line a indices)
  | binary (line : Int) {l : Expr} {op : BinaryOp} {r : Expr} (hop : op ∈ BinaryOp.known)
    (hl : Writable l) (hr : Writable r) : Writable (.binary line l op r)
  | not (line : Int) {e : Expr} (he : Writable e) : Writable (.unary line .not e)
  | neg (line : Int) {e : Expr} (he : Writable e) : Writable (.unary line .neg e)
  | call (line : Int) {f : String} {arguments : List Expr} (hf : IsCallee f)
    (ha : ∀ e ∈ arguments, Writable e) : Writable (.call line f arguments)

inductive Target.Writable : Target → Prop
  | var (line : Int) {x : String} (hx : IsName x) : Writable (.var line x)
  | element (line : Int) {a : String} {indices : List Expr} (ha : IsName a) (hne : indices ≠ [])
    (hi : ∀ e ∈ indices, e.Writable) : Writable (.element line a indices)

inductive CaseLabel.Writable : CaseLabel → Prop
  | value {e : Expr} (he : e.Writable) : Writable (.value e)
  | range (line : Int) {low high : Expr} (hl : low.Writable) (hh : high.Writable) :
    Writable (.range line low high)

/-- The expression that a label begins with. -/
def CaseLabel.first : CaseLabel → Expr
  | .value e => e
  | .range _ low _ => low

def Value.isNumber : Value → Bool
  | .int _ | .real _ => true
  | _ => false

/-- Whether an expression is written with a literal or a negative number in front. -/
def Expr.opensLabel : Expr → Bool
  | .literal .. => true
  | .unary _ .neg (.literal _ v) => v.isNumber
  | .binary _ l op _ => l.opensLabel && !needsParens op.leftPower op.power l
  | _ => false

inductive Shape.Writable : Shape → Prop
  | scalar : Writable .scalar
  | array {bounds : List (Int × Int)} (hne : bounds ≠ [])
    (hb : ∀ b ∈ bounds, b.1.natAbs < Number.writeLimit ∧ b.2.natAbs < Number.writeLimit) :
    Writable (.array bounds)

inductive Param.Writable : Param → Prop
  | scalar {name type : String} (mode : PassMode) (hn : IsName name) (ht : IsTypeName type) :
    Writable ⟨name, type, mode, none⟩
  | array {name type : String} (mode : PassMode) (hn : IsName name) (ht : IsTypeName type) :
    Writable ⟨name, "ARRAY", mode, some type⟩

/-- The keywords that name a file mode. -/
def modeWords : List Keyword := [.readKw, .writeKw, .appendKw]

inductive Form.Writable : Form → Prop
  | declare {name type : String} {shape : Shape} (hn : IsName name) (ht : IsTypeName type)
    (hs : shape.Writable) : Writable (.declare name type shape)
  | assign {t : Target} {e : Expr} (ht : t.Writable) (he : e.Writable) : Writable (.assign t e)
  | output {es : List Expr} (hne : es ≠ []) (he : ∀ e ∈ es, e.Writable) : Writable (.output es)
  | input {t : Target} (ht : t.Writable) : Writable (.input t)
  | ifThen {c : Expr} {body : List Stmt} {arms : List Arm} {otherwise : Option (List Stmt)}
    (hc : c.Writable) (hb : ∀ s ∈ body, Writable s.form) (hac : ∀ a ∈ arms, a.condition.Writable)
    (hab : ∀ a ∈ arms, ∀ s ∈ a.body, Writable s.form)
    (ho : ∀ b ∈ otherwise, ∀ s ∈ b, Writable s.form) : Writable (.ifThen c body arms otherwise)
  | whileDo {c : Expr} {body : List Stmt} (hc : c.Writable) (hb : ∀ s ∈ body, Writable s.form) :
    Writable (.whileDo c body)
  | repeatUntil {c : Expr} {body : List Stmt} (hc : c.Writable) (hb : ∀ s ∈ body, Writable s.form) :
    Writable (.repeatUntil body c)
  | forTo {name : String} {start stop step : Expr} {body : List Stmt} (hn : IsName name)
    (h1 : start.Writable) (h2 : stop.Writable) (h3 : step.Writable)
    (hb : ∀ s ∈ body, Writable s.form) : Writable (.forTo name start stop step body)
  | caseOf {e : Expr} {branches : List Branch} {otherwise : Option (List Stmt)} (he : e.Writable)
    (hl : ∀ b ∈ branches, b.label.Writable)
    -- nothing but its successor's label ends a branch
    (hopen : ∀ b ∈ branches.tail, b.label.first.opensLabel = true)
    (hb : ∀ b ∈ branches, ∀ s ∈ b.body, Writable s.form)
    (ho : ∀ b ∈ otherwise, ∀ s ∈ b, Writable s.form) : Writable (.caseOf e branches otherwise)
  | procedure {name : String} {params : List Param} {body : List Stmt} (hn : IsName name)
    (hp : ∀ p ∈ params, p.Writable) (hb : ∀ s ∈ body, Writable s.form) :
    Writable (.procedure name params body)
  | function {name returns : String} {params : List Param} {body : List Stmt} (hn : IsName name)
    (hp : ∀ p ∈ params, p.Writable) (ht : IsTypeName returns) (hb : ∀ s ∈ body, Writable s.form) :
    Writable (.function name params returns body)
  | call {name : String} {arguments : List Expr} (hn : IsName name)
    (ha : ∀ e ∈ arguments, e.Writable) : Writable (.call name arguments)
  | returnValue {e : Expr} (he : e.Writable) : Writable (.returnValue e)
  | fileOpen {e : Expr} {k : Keyword} (he : e.Writable) (hk : k ∈ modeWords) :
    Writable (.fileOpen e k.word)
  | fileClose {e : Expr} (he : e.Writable) : Writable (.fileClose e)
  | fileRead {e : Expr} {t : Target} (he : e.Writable) (ht : t.Writable) : Writable (.fileRead e t)
  | fileWrite {e d : Expr} (he : e.Writable) (hd : d.Writable) : Writable (.fileWrite e d)

/-! ## Their lexemes -/

theorem Keyword.mem_all (k : Keyword) : k ∈ Keyword.all := by
  cases k <;> decide

/-- A keyword is a word that stands for itself. -/
theorem Keyword.lexeme (k : Keyword) : IsWord k.word.toList ∧
    (Lexeme.keyword k).kind = .keyword k ∧ (Lexeme.keyword k).value = .text k.word := by
  have hall : ∀ k ∈ Keyword.all, IsWord k.word.toList ∧
      (Lexeme.keyword k).kind = .keyword k ∧ (Lexeme.keyword k).value = .text k.word := by
    decide +kernel
  exact hall k k.mem_all

@[simp] theorem Lexeme.keyword_kind (k : Keyword) : (Lexeme.keyword k).kind = .keyword k :=
  k.lexeme.2.1

theorem sound_keyword (k : Keyword) : (Lexeme.keyword k).Sound := .word k.lexeme.1

theorem IsTypeName.sound {name : String} (h : IsTypeName name) : (Lexeme.word name).Sound := by
  obtain ⟨k, -, rfl⟩ := h
  exact sound_keyword k

theorem IsCallee.sound {f : String} (h : IsCallee f) : (Lexeme.word f).Sound := by
  rcases h with h | ⟨k, -, rfl⟩
  · exact .word h.1
  · exact sound_keyword k

theorem sound_operator {op : BinaryOp} (h : op ∈ BinaryOp.known) : op.lexeme.Sound := by
  have hop : (∃ s, op.lexeme = .symbol s) ∨ ∃ k, op.lexeme = .keyword k := by
    cases op with
    | add => exact .inl ⟨.plus, rfl⟩
    | sub => exact .inl ⟨.minus, rfl⟩
    | mul => exact .inl ⟨.multiply, rfl⟩
    | div => exact .inl ⟨.divide, rfl⟩
    | floorDiv => exact .inr ⟨.divKw, by decide +kernel⟩
    | mod => exact .inr ⟨.modKw, by decide +kernel⟩
    | pow => exact .inl ⟨.power, rfl⟩
    | concat => exact .inl ⟨.amper, rfl⟩
    | eq => exact .inl ⟨.eq, rfl⟩
    | ne => exact .inl ⟨.ne, rfl⟩
    | lt => exact .inl ⟨.lt, rfl⟩
    | gt => exact .inl ⟨.gt, rfl⟩
    | le => exact .inl ⟨.le, rfl⟩
    | ge => exact .inl ⟨.ge, rfl⟩
    | and => exact .inr ⟨.andKw, by decide +kernel⟩
    | or => exact .inr ⟨.orKw, by decide +kernel⟩
    | other t => simp [BinaryOp.known] at h
  rcases hop with ⟨s, hs⟩ | ⟨k, hk⟩
  · exact hs ▸ .symbol s
  · exact hk ▸ sound_keyword k

section Lexemes

variable (s : Spelling) (parens : ParenRule)

theorem Number.IsDecimal.isNumeral {cs : List Char} (h : Number.IsDecimal cs) : IsNumeral cs := by
  obtain ⟨whole, fraction, hne, -, hw, hf, rfl⟩ := h
  exact ⟨whole, hne, hw, .inr ⟨fraction, hf, rfl⟩⟩

theorem isNumeral_toDigits (n : Nat) : IsNumeral (Nat.toDigits 10 n) :=
  ⟨_, Nat.toDigits_ne_nil, Number.isDigits_toDigits n, .inl rfl⟩

theorem Value.IsLiteral.sound {v : Value} (hv : v.IsLiteral) : (s.literal v).Sound := by
  cases v with
  | absent => exact hv.elim
  | bool b => cases b <;> exact .word (by decide +kernel)
  | int n => exact .number (isNumeral_toDigits _)
  | real x => exact .number (s.real_isDecimal x hv).isNumeral
  | text t => exact .quoted (s.quote_mem t) (s.quote_fits t hv) hv.1

theorem sound_placed {inside : Bool} {follow : Int} {content : Int → List Lexeme}
    (h : ∀ f, ∀ x ∈ content f, x.Sound) : ∀ x ∈ placed inside follow content, x.Sound := by
  unfold placed
  split
  · simp only [List.forall_mem_cons, List.forall_mem_append]
    exact ⟨.symbol _, h _, .symbol _, by simp⟩
  · exact h _

theorem sound_writeMoreExprs {es : List Expr}
    (h : ∀ e ∈ es, ∀ f, ∀ x ∈ e.bare s parens f, x.Sound) :
    ∀ x ∈ writeMoreExprs s parens es, x.Sound := by
  induction es with
  | nil => simp [writeMoreExprs]
  | cons e es ih =>
    simp only [writeMoreExprs, List.forall_mem_cons, List.forall_mem_append] at h ⊢
    exact ⟨.symbol _, sound_placed h.1, ih h.2⟩

theorem sound_writeExprs {es : List Expr} (h : ∀ e ∈ es, ∀ f, ∀ x ∈ e.bare s parens f, x.Sound) :
    ∀ x ∈ writeExprs s parens es, x.Sound := by
  cases es with
  | nil => simp [writeExprs]
  | cons e es =>
    simp only [writeExprs, List.forall_mem_cons, List.forall_mem_append] at h ⊢
    exact ⟨sound_placed h.1, sound_writeMoreExprs s parens h.2⟩

/-- Every lexeme of a writable expression is one that the scanner finds. -/
theorem Expr.Writable.sound {e : Expr} (he : e.Writable) (follow : Int) :
    ∀ x ∈ e.bare s parens follow, x.Sound := by
  induction he generalizing follow with
    simp only [Expr.bare, List.forall_mem_cons, List.forall_mem_append]
  | literal line hv => exact ⟨hv.sound s, by simp⟩
  | var line hx => exact ⟨.word hx.1, by simp⟩
  | element line ha hne hi ih =>
    exact ⟨.word ha.1, .symbol _, sound_writeExprs s parens ih, .symbol _, by simp⟩
  | binary line hop hl hr ihl ihr => exact ⟨sound_placed ihl, sound_operator hop, sound_placed ihr⟩
  | not line he ih => exact ⟨sound_keyword _, sound_placed ih⟩
  | neg line he ih => exact ⟨.symbol _, sound_placed ih⟩
  | call line hf ha ih =>
    exact ⟨hf.sound, .symbol _, sound_writeExprs s parens ih, .symbol _, by simp⟩

theorem Expr.Writable.sound_expr {e : Expr} (he : e.Writable) : ∀ x ∈ s.expr e, x.Sound :=
  sound_placed (he.sound s needsParens)

theorem sound_exprs {es : List Expr} (h : ∀ e ∈ es, e.Writable) : ∀ x ∈ s.exprs es, x.Sound :=
  sound_writeExprs s needsParens fun e he => (h e he).sound s needsParens

theorem Target.Writable.sound {t : Target} (ht : t.Writable) : ∀ x ∈ t.write s, x.Sound := by
  cases ht with
  | var line hx => simpa [Target.write] using Lexeme.Sound.word hx.1
  | element line ha hne hi =>
    simp only [Target.write, List.forall_mem_cons, List.forall_mem_append]
    exact ⟨.word ha.1, .symbol _, sound_exprs s hi, .symbol _, by simp⟩

theorem CaseLabel.Writable.sound {l : CaseLabel} (hl : l.Writable) : ∀ x ∈ l.write s, x.Sound := by
  cases hl with
  | value he => exact he.sound_expr s
  | range line hl hh =>
    simp only [CaseLabel.write, List.forall_mem_cons, List.forall_mem_append]
    exact ⟨hl.sound_expr s, sound_keyword _, hh.sound_expr s⟩

theorem sound_writeItems {α : Type} {write : α → List Lexeme} {items : List α}
    (h : ∀ a ∈ items, ∀ x ∈ write a, x.Sound) : ∀ x ∈ writeItems write items, x.Sound := by
  cases items with
  | nil => simp [writeItems]
  | cons a items =>
    simp only [writeItems, List.forall_mem_append, List.forall_mem_flatMap,
      List.forall_mem_cons] at h ⊢
    exact ⟨h.1, fun b hb => ⟨.symbol _, h.2 b hb⟩⟩

theorem sound_writeDimension (d : Int × Int) : ∀ x ∈ writeDimension s d, x.Sound := by
  have hbound : ∀ n, ∀ x ∈ writeBound s n, x.Sound := by
    intro n
    have hn : ∀ n : Int, (s.literal (.int n)).Sound := fun n => .number (isNumeral_toDigits _)
    unfold writeBound
    split
    · simpa using ⟨.symbol _, hn (-n)⟩
    · simpa using hn n
  simp only [writeDimension, List.forall_mem_append, List.forall_mem_cons]
  exact ⟨hbound _, .symbol _, hbound _⟩

theorem sound_shape {typeName : String} (ht : IsTypeName typeName) (shape : Shape) :
    ∀ x ∈ shape.write s typeName, x.Sound := by
  cases shape with
  | array bounds =>
    simp only [Shape.write, List.forall_mem_cons, List.forall_mem_append]
    exact ⟨sound_keyword _, .symbol _, sound_writeItems fun d _ =>
      sound_writeDimension s d, .symbol _, sound_keyword _, ht.sound, by simp⟩
  | scalar => simpa [Shape.write] using ht.sound
  | unbounded => simpa [Shape.write] using ht.sound

theorem sound_params {ps : List Param} (h : ∀ p ∈ ps, p.Writable) :
    ∀ x ∈ writeParams ps, x.Sound := by
  have hparam : ∀ p ∈ ps, ∀ x ∈ p.write, x.Sound := by
    intro p hp
    cases h p hp with
    | scalar mode hn ht =>
      simp only [Param.write, List.forall_mem_cons]
      exact ⟨sound_keyword _, .word hn.1, .symbol _, ht.sound, by simp⟩
    | array mode hn ht =>
      simp only [Param.write, List.forall_mem_cons]
      exact ⟨sound_keyword _, .word hn.1, .symbol _, sound_keyword _, sound_keyword _, ht.sound,
        by simp⟩
  simp only [writeParams, List.forall_mem_cons, List.forall_mem_append]
  exact ⟨.symbol _, sound_writeItems hparam, .symbol _, by simp⟩

theorem sound_writeBlock {body : List Stmt} (h : ∀ t ∈ body, ∀ x ∈ t.form.write s, x.Sound) :
    ∀ x ∈ writeBlock s body, x.Sound := by
  induction body with
  | nil => simp [writeBlock]
  | cons t body ih =>
    obtain ⟨line, form⟩ := t
    simp only [writeBlock, Stmt.write, List.forall_mem_append,
      List.forall_mem_cons, Stmt.form] at h ⊢
    exact ⟨h.1, .lineEnd, ih h.2⟩

theorem sound_writeArms {arms : List Arm} (hc : ∀ a ∈ arms, a.condition.Writable)
    (hb : ∀ a ∈ arms, ∀ t ∈ a.body, ∀ x ∈ t.form.write s, x.Sound) :
    ∀ x ∈ writeArms s arms, x.Sound := by
  induction arms with
  | nil => simp [writeArms]
  | cons a arms ih =>
    obtain ⟨condition, body⟩ := a
    simp only [List.forall_mem_cons, Arm.condition, Arm.body] at hc hb
    simp only [writeArms, Arm.write, List.forall_mem_append, List.forall_mem_cons]
    exact ⟨⟨sound_keyword _, sound_keyword _, hc.1.sound_expr s, sound_keyword _, .lineEnd,
      sound_writeBlock s hb.1⟩, ih hc.2 hb.2⟩

theorem sound_writeBranches {branches : List Branch} (hl : ∀ b ∈ branches, b.label.Writable)
    (hb : ∀ b ∈ branches, ∀ t ∈ b.body, ∀ x ∈ t.form.write s, x.Sound) :
    ∀ x ∈ writeBranches s branches, x.Sound := by
  induction branches with
  | nil => simp [writeBranches]
  | cons b branches ih =>
    obtain ⟨label, body⟩ := b
    simp only [List.forall_mem_cons, Branch.label, Branch.body] at hl hb
    simp only [writeBranches, Branch.write, List.forall_mem_append, List.forall_mem_cons]
    exact ⟨⟨hl.1.sound s, .symbol _, .lineEnd, sound_writeBlock s hb.1⟩, ih hl.2 hb.2⟩

theorem sound_otherwise {otherwise : Option (List Stmt)}
    (h : ∀ b ∈ otherwise, ∀ t ∈ b, ∀ x ∈ t.form.write s, x.Sound) :
    (∀ x ∈ writeElse s otherwise, x.Sound) ∧ ∀ x ∈ writeOtherwise s otherwise, x.Sound := by
  cases otherwise with
  | none => simp [writeElse, writeOtherwise]
  | some body =>
    have hbody := sound_writeBlock s (h body rfl)
    simp only [writeElse, writeOtherwise, List.forall_mem_cons]
    exact ⟨⟨sound_keyword _, .lineEnd, hbody⟩, sound_keyword _, .symbol _, .lineEnd, hbody⟩

/-- **Every lexeme of a writable statement is one that the scanner finds.** -/
theorem Form.Writable.sound {form : Form} (h : form.Writable) : ∀ x ∈ form.write s, x.Sound := by
  induction h with simp only [Form.write, List.forall_mem_cons, List.forall_mem_append]
  | declare hn ht hs => exact ⟨sound_keyword _, .word hn.1, .symbol _, sound_shape s ht _⟩
  | assign ht he => exact ⟨ht.sound s, .symbol _, he.sound_expr s⟩
  | output hne he => exact ⟨sound_keyword _, sound_exprs s he⟩
  | input ht => exact ⟨sound_keyword _, ht.sound s⟩
  | ifThen hc hb hac hab ho ihb iha iho =>
    exact ⟨sound_keyword _, hc.sound_expr s, sound_keyword _, .lineEnd, sound_writeBlock s ihb,
      sound_writeArms s hac iha, (sound_otherwise s iho).1, sound_keyword _, by simp⟩
  | whileDo hc hb ih =>
    exact ⟨sound_keyword _, hc.sound_expr s, sound_keyword _, .lineEnd, sound_writeBlock s ih,
      sound_keyword _, by simp⟩
  | repeatUntil hc hb ih =>
    exact ⟨sound_keyword _, .lineEnd, sound_writeBlock s ih, sound_keyword _, hc.sound_expr s⟩
  | forTo hn h1 h2 h3 hb ih =>
    exact ⟨sound_keyword _, .word hn.1, .symbol _, h1.sound_expr s, sound_keyword _,
      h2.sound_expr s, sound_keyword _, h3.sound_expr s, .lineEnd, sound_writeBlock s ih,
      sound_keyword _, .word hn.1, by simp⟩
  | caseOf he hl hopen hb ho ihb iho =>
    exact ⟨sound_keyword _, sound_keyword _, he.sound_expr s, .lineEnd,
      sound_writeBranches s hl ihb, (sound_otherwise s iho).2, sound_keyword _, by simp⟩
  | procedure hn hp hb ih =>
    exact ⟨sound_keyword _, .word hn.1, sound_params hp, .lineEnd, sound_writeBlock s ih,
      sound_keyword _, by simp⟩
  | function hn hp ht hb ih =>
    exact ⟨sound_keyword _, .word hn.1, sound_params hp, sound_keyword _, ht.sound, .lineEnd,
      sound_writeBlock s ih, sound_keyword _, by simp⟩
  | call hn ha =>
    exact ⟨sound_keyword _, .word hn.1, .symbol _, sound_exprs s ha, .symbol _, by simp⟩
  | returnValue he => exact ⟨sound_keyword _, he.sound_expr s⟩
  | fileOpen he hk =>
    exact ⟨sound_keyword _, he.sound_expr s, sound_keyword _, sound_keyword _, by simp⟩
  | fileClose he => exact ⟨sound_keyword _, he.sound_expr s⟩
  | fileRead he ht => exact ⟨sound_keyword _, he.sound_expr s, .symbol _, ht.sound s⟩
  | fileWrite he hd => exact ⟨sound_keyword _, he.sound_expr s, .symbol _, hd.sound_expr s⟩

end Lexemes

end Pseudocode
