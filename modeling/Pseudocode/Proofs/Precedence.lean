import Pseudocode.Proofs.Climbing

/-!
# Parentheses and precedence

An expression is plainly written when parentheses stand just where a reader puts them. An operand of
a binary operator stands in parentheses if it is a NOT, or binds more loosely than the operator, or
binds as tightly and stands on the side to which the operator does not associate. The operand of NOT
stands in parentheses if it is an AND or an OR, that of a minus sign if it is a binary expression or
a NOT. Nothing else does.

This is enough for `Expr.Written`: a NOT that is an operand is always enclosed, so what is not
enclosed nowhere takes in what follows it. Hence precedence climbing reads exactly what is plainly
written.

Result: `precedence_climbing_is_exact`.
-/

namespace Pseudocode

open Parse

/-! ## Plain writing -/

/-- Lexemes in parentheses, or as they are. -/
def enclosed (inside : Bool) (xs : List Lexeme) : List Lexeme :=
  if inside then .symbol .lparen :: (xs ++ [.symbol .rparen]) else xs

/-- Whether an operator encloses an operand. `near` is the side to which the operator associates. -/
def BinaryOp.encloses (op : BinaryOp) (near : Bool) : Expr → Bool
  | .unary _ .not _ => true
  | .binary _ _ inner _ => inner.power < op.power || (inner.power = op.power && !near)
  | _ => false

/-- Whether NOT encloses its operand. -/
def enclosedByNot : Expr → Bool
  | .binary _ _ op _ => op = .and || op = .or
  | _ => false

/-- The lexemes write an expression with no parentheses but those that precedence calls for. Only
`^` associates to the right. -/
inductive Expr.PlainlyWritten : Expr → List Lexeme → Prop
  | literal {line : Int} {v : Value} {x : Lexeme} (hx : x.Denotes v) :
      PlainlyWritten (.literal line v) [x]
  | var {line : Int} {name : String} {x : Lexeme} (hx : x.Names name) :
      PlainlyWritten (.var line name) [x]
  | element {line : Int} {a : String} {x : Lexeme} {items : List (Expr × List Lexeme)}
      (hx : x.Names a) (hne : items ≠ []) (h : ∀ i ∈ items, PlainlyWritten i.1 i.2) :
    PlainlyWritten (.element line a (items.map (·.1)))
      (x :: .symbol .lbracket :: (writeItems (·.2) items ++ [.symbol .rbracket]))
  | call {line : Int} {f : String} {x : Lexeme} {items : List (Expr × List Lexeme)} (hx : x.Calls f)
    (h : ∀ i ∈ items, PlainlyWritten i.1 i.2) :
    PlainlyWritten (.call line f (items.map (·.1)))
      (x :: .symbol .lparen :: (writeItems (·.2) items ++ [.symbol .rparen]))
  | neg {line : Int} {e : Expr} {xs : List Lexeme} (h : PlainlyWritten e xs) :
    PlainlyWritten (.unary line .neg e) (.symbol .minus :: enclosed (!e.isTight) xs)
  | not {line : Int} {e : Expr} {xs : List Lexeme} (h : PlainlyWritten e xs) :
    PlainlyWritten (.unary line .not e) (.keyword .notKw :: enclosed (enclosedByNot e) xs)
  | binary {line : Int} {l r : Expr} {op : BinaryOp} {xs ys : List Lexeme}
      (hop : op ∈ BinaryOp.known) (hl : PlainlyWritten l xs) (hr : PlainlyWritten r ys) :
    PlainlyWritten (.binary line l op r)
      (enclosed (op.encloses (op ≠ .pow) l) xs ++
        op.lexeme :: enclosed (op.encloses (op = .pow) r) ys)

namespace Expr.PlainlyWritten

variable {e : Expr} {xs : List Lexeme}

theorem known (h : e.PlainlyWritten xs) (line : Int) (l : Expr) (op : BinaryOp) (r : Expr)
    (heq : e = .binary line l op r) : op ∈ BinaryOp.known := by
  subst heq
  cases h with
  | binary hop => exact hop

/-- An enclosed operand is written, and so is one that needs no parentheses. -/
theorem written_enclosed (h : e.PlainlyWritten xs)
    (hbare : ∀ power follow, needsParens power follow e = false → e.Written power follow xs)
    {power follow : Int} {inside : Bool}
    (hin : inside = false → needsParens power follow e = false) :
    e.Written power follow (enclosed inside xs) := by
  cases inside with
  | true => exact .parens (hbare 0 (-1) (needsParens_whole h.known))
  | false => exact hbare power follow (hin rfl)

end Expr.PlainlyWritten

/-! ## Operands that are not enclosed need no parentheses -/

theorem needsParens_operand {op : BinaryOp} {near : Bool} {e : Expr}
    (hin : op.encloses near e = false) {power : Int}
    (hpower : power = if near then op.power else op.power + 1) (follow : Int) :
    needsParens power follow e = false := by
  cases e with
  | binary line l inner r =>
    simp only [BinaryOp.encloses, Bool.or_eq_false_iff, decide_eq_false_iff_not,
      Bool.and_eq_false_iff] at hin
    simp only [needsParens, decide_eq_false_iff_not]
    cases near with
    | true =>
      rw [if_pos rfl] at hpower
      omega
    | false =>
      have hne : inner.power ≠ op.power := hin.2.resolve_right (by simp)
      rw [if_neg (by decide)] at hpower
      omega
  | unary line op e =>
    cases op with
    | not => cases hin
    | _ => rfl
  | _ => rfl

theorem BinaryOp.rightPower_eq {op : BinaryOp} (h : op ∈ known) :
    op.rightPower = if op = .pow then op.power else op.power + 1 := by
  have hall : ∀ op ∈ known, op.rightPower = if op = .pow then op.power
    else op.power + 1 := by decide
  exact hall op h

theorem needsParens_underNot {e : Expr}
    (hknown : ∀ line l op r, e = .binary line l op r → op ∈ BinaryOp.known)
    (hin : enclosedByNot e = false) {follow : Int} (hfollow : follow < notPower) :
    needsParens notPower follow e = false := by
  cases e with
  | binary line l op r =>
    have hall : ∀ op ∈ BinaryOp.known, (op = .and || op = .or) = false →
      ¬ op.power < notPower := by decide
    simpa [needsParens] using hall op (hknown _ _ _ _ rfl) hin
  | unary line op e =>
    cases op with
    | not =>
      have : notPower < tightest := by decide
      simp only [needsParens, Bool.or_eq_false_iff, decide_eq_false_iff_not]
      omega
    | _ => rfl
  | _ => rfl

theorem needsParens_tight {e : Expr} (h : e.isTight = true) (power follow : Int) :
    needsParens power follow e = false := by
  cases e with
  | binary => cases h
  | unary line op e =>
    cases op with
    | not => cases h
    | _ => rfl
  | _ => rfl

/-! ## Reading what is plainly written -/

/-- What is plainly written is written, in every place where it needs no parentheses itself. -/
theorem Expr.PlainlyWritten.written {e : Expr} {xs : List Lexeme} (h : e.PlainlyWritten xs)
    (power follow : Int) (hbare : needsParens power follow e = false) :
    e.Written power follow xs := by
  induction h generalizing power follow with
  | literal hx => exact .literal hx
  | var hx => exact .var hx
  | element hx hne hi ih =>
    exact .element hx hne fun i hmem => ih i hmem 0 (-1) (needsParens_whole (hi i hmem).known)
  | call hx hi ih =>
    exact .call hx fun i hmem => ih i hmem 0 (-1) (needsParens_whole (hi i hmem).known)
  | neg h ih =>
    exact .neg (h.written_enclosed ih fun hin => needsParens_tight (by simpa using hin) _ _)
  | not h ih =>
    have hplace : power < tightest ∧ follow < notPower := by simpa [needsParens] using hbare
    exact .not hplace.1 hplace.2 (h.written_enclosed ih fun hin =>
      needsParens_underNot h.known hin hplace.2)
  | @binary line l r op xs ys hop hl hr ihl ihr =>
    have hpower : power ≤ op.power := by simpa [needsParens] using hbare
    refine .binary hop hpower (hl.written_enclosed ihl fun hin => needsParens_operand hin ?_ _)
      (hr.written_enclosed ihr fun hin => needsParens_operand hin ?_ _)
    · by_cases hpow : op = .pow <;> simp [BinaryOp.leftPower, hpow]
    · simp only [BinaryOp.rightPower_eq hop, decide_eq_true_eq]

/-- Every writable expression can be plainly written. -/
theorem Expr.Writable.plainlyWritten {e : Expr} (he : e.Writable) : ∃ xs, e.PlainlyWritten xs := by
  have hlist : ∀ {es : List Expr}, (∀ e ∈ es, ∃ xs, e.PlainlyWritten xs) →
      ∃ items : List (Expr × List Lexeme), items.map (·.1) = es ∧
        ∀ i ∈ items, i.1.PlainlyWritten i.2 := by
    intro es h
    induction es with
    | nil => exact ⟨[], rfl, by simp⟩
    | cons e es ih =>
      rw [List.forall_mem_cons] at h
      obtain ⟨xs, hxs⟩ := h.1
      obtain ⟨items, rfl, hitems⟩ := ih h.2
      exact ⟨(e, xs) :: items, rfl, List.forall_mem_cons.mpr ⟨hxs, hitems⟩⟩
  induction he with
  | literal line hv => exact ⟨_, .literal (hv.denoted (s := .exact))⟩
  | var line hx => exact ⟨_, .var hx.named⟩
  | element line ha hne hi ih =>
    obtain ⟨items, rfl, hitems⟩ := hlist ih
    exact ⟨_, .element ha.named (by simpa using hne) hitems⟩
  | binary line hop hl hr ihl ihr =>
    obtain ⟨xs, hxs⟩ := ihl
    obtain ⟨ys, hys⟩ := ihr
    exact ⟨_, .binary hop hxs hys⟩
  | not line he ih =>
    obtain ⟨xs, hxs⟩ := ih
    exact ⟨_, .not hxs⟩
  | neg line he ih =>
    obtain ⟨xs, hxs⟩ := ih
    exact ⟨_, .neg hxs⟩
  | call line hf ha ih =>
    obtain ⟨items, rfl, hitems⟩ := hlist ih
    exact ⟨_, .call hf.called hitems⟩

/-- A token that is no binary operator does not bind. -/
theorem bindingPower_eq_neg_one {kind : TokenKind} (h : ∀ op ∈ BinaryOp.known, kind ≠ op.kind) :
    bindingPower kind = -1 := by
  cases kind with
  | symbol s => revert h; cases s <;> decide
  | keyword k => revert h; cases k <;> decide
  | _ => rfl

/-- **Precedence climbing is exact.** Every writable expression can be plainly written. And where
tokens stand that write an expression plainly, in front of a token that is neither a binary operator
nor an opening bracket, the parser of expressions, with more steps allowed than there are tokens,
reads exactly that expression, up to its lines, and stops in front of the token that follows. -/
theorem precedence_climbing_is_exact :
    (∀ e : Expr, e.Writable → ∃ xs, e.PlainlyWritten xs) ∧
    ∀ (e : Expr) (xs : List Lexeme) (ts : List Token) (next : Token) (rest : List Token)
      (c : Cursor) (n : Nat), e.PlainlyWritten xs → List.Forall₂ Token.Bears ts xs →
      (∀ op ∈ BinaryOp.known, next.kind ≠ op.kind) →
      next.kind ≠ .symbol .lparen → next.kind ≠ .symbol .lbracket →
      c.current :: c.rest = ts ++ next :: rest → ts.length < n →
      ∃ e', expression n 0 c = .ok e' ⟨c.position + ts.length, next, rest⟩ ∧
        e'.unlined = e.unlined := by
  refine ⟨fun e he => he.plainlyWritten, ?_⟩
  intro e xs ts next rest c n he hbears hop hparen hbracket hc hn
  have hwritten : e.Written 0 (-1) xs := he.written 0 (-1) (needsParens_whole he.known)
  exact expression_rereads n e 0 (-1) xs hwritten (by decide) (hbears.length_eq ▸ hn) c _
    (reads_of_bears hbears hc) ⟨bindingPower_eq_neg_one hop, hbracket, hparen⟩

/-- The tokens of `(NOT a) AND b ^ c ^ d`. -/
def conjunction : List Token :=
  [⟨.symbol .lparen, .text "(", 1, 1⟩, ⟨.keyword .notKw, .text "NOT", 1, 2⟩,
    ⟨.identifier, .text "a", 1, 6⟩, ⟨.symbol .rparen, .text ")", 1, 7⟩,
    ⟨.keyword .andKw, .text "AND", 1, 9⟩, ⟨.identifier, .text "b", 1, 13⟩,
    ⟨.symbol .power, .text "^", 1, 15⟩, ⟨.identifier, .text "c", 1, 17⟩,
    ⟨.symbol .power, .text "^", 1, 19⟩, ⟨.identifier, .text "d", 1, 21⟩]

/-- At the end of the input, the NOT does not take in the AND, and the powers associate to the
right. -/
theorem conjunction_is_read :
    ∃ e,
      expression 11 0 (Cursor.start (conjunction ++ [.eofAt 1 22])) = .ok e ⟨10, .eofAt 1 22, []⟩ ∧
      e.unlined = .binary 0 (.unary 0 .not (.var 0 "a")) .and
        (.binary 0 (.var 0 "b") .pow (.binary 0 (.var 0 "c") .pow (.var 0 "d"))) := by
  have hvar : ∀ name, (Expr.var 0 name).PlainlyWritten [⟨[], .identifier, .text name⟩] :=
    fun name => .var ⟨rfl, rfl⟩
  have hplain : Expr.PlainlyWritten (.binary 0 (.unary 0 .not (.var 0 "a")) .and
      (.binary 0 (.var 0 "b") .pow (.binary 0 (.var 0 "c") .pow (.var 0 "d")))) _ :=
    .binary (by decide) (.not (hvar "a"))
      (.binary (by decide) (hvar "b") (.binary (by decide) (hvar "c") (hvar "d")))
  have hnot := (Keyword.notKw).lexeme.2
  refine precedence_climbing_is_exact.2 _ _ conjunction (.eofAt 1 22) [] _ 11 hplain ?_ (by decide)
    (by decide) (by decide) rfl (by decide)
  exact .cons ⟨rfl, rfl⟩
    (.cons ⟨hnot.1.symm, hnot.2.symm⟩ (.cons ⟨rfl, rfl⟩ (.cons ⟨rfl, rfl⟩ (.cons ⟨rfl, rfl⟩ (.cons
    ⟨rfl, rfl⟩ (.cons ⟨rfl, rfl⟩ (.cons ⟨rfl, rfl⟩ (.cons ⟨rfl, rfl⟩ (.cons ⟨rfl, rfl⟩ .nil)))))))))

end Pseudocode
