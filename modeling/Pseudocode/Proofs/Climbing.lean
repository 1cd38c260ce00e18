import Pseudocode.Proofs.Rules
import Pseudocode.Proofs.Writable

/-!
# Reading written expressions

`Cursor.Reads` says that the tokens from a place on are those of given lexemes. `Expr.Written` says
which lexemes write an expression: parentheses may stand around any part of it, and they stand where
precedence calls for them. From a place where an expression is written, precedence climbing reads
that expression, up to its lines, and stops behind it.

The argument follows the parser. An expression is read as an operand and operators behind it: the
operand is the leftmost expression that is no unparenthesised binary one, and climbing puts the
operators of the left spine back on it, from the innermost outwards (`climb_reads`). A right operand
is read by a shorter run of the whole parser, since its operators bind more tightly than what
follows it. All this is relative to a bound on the number of steps, which is larger than the number
of lexemes.

Results: `expression_rereads`, and `Expr.Writable.written`: what is written for a writable
expression writes it.
-/

namespace Pseudocode

open Parse Pseudocode.Parser

/-! ## Places and lexemes -/

/-- From `c` on stand tokens of the given lexemes, and `c'` is the place behind them. -/
def Cursor.Reads : Cursor → List Lexeme → Cursor → Prop
  | c, [], c' => c = c'
  | c, x :: xs, c' => c.current.Bears x ∧ c.rest ≠ [] ∧ c.advance.Reads xs c'

theorem Cursor.reads_append {c c' : Cursor} {xs ys : List Lexeme} :
    c.Reads (xs ++ ys) c' ↔ ∃ m, c.Reads xs m ∧ m.Reads ys c' := by
  induction xs generalizing c with
  | nil => simp [Cursor.Reads]
  | cons x xs ih =>
    simp only [List.cons_append, Cursor.Reads, ih]
    constructor
    · rintro ⟨hx, hne, m, hxs, hys⟩
      exact ⟨m, ⟨hx, hne, hxs⟩, hys⟩
    · rintro ⟨m, ⟨hx, hne, hxs⟩, hys⟩
      exact ⟨hx, hne, m, hxs, hys⟩

theorem Cursor.Reads.kind {c c' : Cursor} {x : Lexeme} {xs : List Lexeme}
    (h : c.Reads (x :: xs) c') : c.current.kind = x.kind :=
  h.1.1

theorem Cursor.Reads.text {c c' : Cursor} {x : Lexeme} {xs : List Lexeme} {t : String}
    (h : c.Reads (x :: xs) c') (hx : x.value = .text t) : c.current.text = t := by
  rw [Token.text, h.1.2, hx]
  rfl

/-- The token after the first lexeme is that of the second one. -/
theorem Cursor.Reads.ahead {c c' : Cursor} {x y : Lexeme} {xs : List Lexeme}
    (h : c.Reads (x :: y :: xs) c') : c.ahead.kind = y.kind := by
  obtain ⟨-, hne, hy, -⟩ := h
  rw [← hy.1]
  unfold Cursor.ahead Cursor.advance
  cases hrest : c.rest with
  | nil => exact absurd hrest hne
  | cons t rest => rfl

/-- Tokens that bear lexemes are read as these. -/
theorem reads_of_bears {ts : List Token} {xs : List Lexeme} (h : List.Forall₂ Token.Bears ts xs)
    {next : Token} {rest : List Token} {c : Cursor}
    (hc : c.current :: c.rest = ts ++ next :: rest) :
    c.Reads xs ⟨c.position + ts.length, next, rest⟩ := by
  induction h generalizing c with
  | nil =>
    obtain ⟨position, current, more⟩ := c
    cases hc
    rfl
  | @cons t x ts xs ht _ ih =>
    obtain ⟨position, current, more⟩ := c
    obtain ⟨rfl, rfl⟩ := List.cons.inj hc
    have hne : ts ++ next :: rest ≠ [] := by simp
    obtain ⟨u, us, hu⟩ := List.exists_cons_of_ne_nil hne
    have hadvance :
        Cursor.advance ⟨position, current, ts ++ next :: rest⟩ = ⟨position + 1, u, us⟩ := by
      rw [Cursor.advance, hu]
    refine ⟨ht, hne, ?_⟩
    have hread := ih (c := ⟨position + 1, u, us⟩) hu.symm
    rw [List.append_eq, hadvance, List.length_cons, ← Nat.add_assoc, Nat.add_right_comm]
    exact hread

namespace Parser

variable {α β : Type}

/-- Where the given lexemes stand and what follows them is as `next` says, `p` reads just them, with
a result as `good` says. -/
def Takes (p : Parser α) (xs : List Lexeme) (next : Cursor → Prop) (good : α → Prop) : Prop :=
  ∀ c c', c.Reads xs c' → next c' → ∃ a, p c = .ok a c' ∧ good a

namespace Takes

variable {p : Parser α} {f : α → Parser β} {xs ys : List Lexeme} {next mid : Cursor → Prop}
  {good : α → Prop} {fine : β → Prop}

theorem pure {a : α} (h : good a) : (Pure.pure a : Parser α).Takes [] next good := by
  rintro c c' rfl -
  exact ⟨a, rfl, h⟩

theorem bind (hp : p.Takes xs mid good) (hmid : ∀ c c', c.Reads ys c' → next c' → mid c)
    (hf : ∀ a, good a → (f a).Takes ys next fine) : (p >>= f).Takes (xs ++ ys) next fine := by
  intro c c' h hc'
  obtain ⟨m, hm, hys⟩ := Cursor.reads_append.mp h
  obtain ⟨a, ha, hgood⟩ := hp c m hm (hmid m c' hys hc')
  obtain ⟨b, hb, hfine⟩ := hf a hgood m c' hys hc'
  exact ⟨b, (bind_ok ha).trans hb, hfine⟩

theorem of_next (hp : p.Takes xs mid good) (h : ∀ c, next c → mid c) : p.Takes xs next good :=
  fun c c' hread hc' => hp c c' hread (h c' hc')

theorem imp {better : α → Prop} (hp : p.Takes xs next good) (h : ∀ a, good a → better a) :
    p.Takes xs next better := by
  intro c c' hread hc'
  obtain ⟨a, ha, hgood⟩ := hp c c' hread hc'
  exact ⟨a, ha, h a hgood⟩

/-- The rule for a part that does not look at what follows it. -/
theorem before (hp : p.Takes xs (fun _ => True) good)
    (hf : ∀ a, good a → (f a).Takes ys next fine) : (p >>= f).Takes (xs ++ ys) next fine :=
  hp.bind (fun _ _ _ _ => trivial) hf

/-- The rule for a part of one lexeme. -/
theorem first {x : Lexeme} (hp : p.Takes [x] (fun _ => True) good)
    (hf : ∀ a, good a → (f a).Takes ys next fine) : (p >>= f).Takes (x :: ys) next fine :=
  hp.before hf

/-- The rule for a part before a known lexeme. -/
theorem upTo {y : Lexeme} (hp : p.Takes xs mid good) (hmid : ∀ c, c.current.kind = y.kind → mid c)
    (hf : ∀ a, good a → (f a).Takes (y :: ys) next fine) :
    (p >>= f).Takes (xs ++ y :: ys) next fine :=
  hp.bind (fun c _ h _ => hmid c h.kind) hf

/-- The rule for a part that only looks at a known lexeme. -/
theorem peek {y : Lexeme} (hp : p.Takes [] mid good) (hmid : ∀ c, c.current.kind = y.kind → mid c)
    (hf : ∀ a, good a → (f a).Takes (y :: ys) next fine) : (p >>= f).Takes (y :: ys) next fine :=
  hp.upTo hmid hf

/-- The rule for a part that only looks at what follows. -/
theorem peekEnd (hp : p.Takes [] mid good) (hmid : ∀ c, next c → mid c)
    (hf : ∀ a, good a → (f a).Takes [] next fine) : (p >>= f).Takes [] next fine :=
  hp.bind (fun c c' h hc' => hmid c ((show c = c' from h) ▸ hc')) hf

/-- The rule for the last part. -/
theorem last {g : α → β} (hp : p.Takes xs next good) (hg : ∀ a, good a → fine (g a)) :
    (do return g (← p) : Parser β).Takes xs next fine := by
  intro c c' h hc'
  obtain ⟨a, ha, hgood⟩ := hp c c' h hc'
  exact ⟨g a, bind_ok ha, hg a hgood⟩

theorem expect {kind : TokenKind} {x : Lexeme} (h : x.kind = kind) (cause : SyntaxCause) :
    (expect kind cause).Takes [x] next (·.Bears x) := by
  rintro c c' ⟨hx, -, rfl⟩ -
  exact ⟨c.current, expect_ok (hx.1.trans h) cause, hx⟩

theorem expectKeyword (k : Keyword) :
    (expectKeyword k).Takes [.keyword k] next (·.Bears (.keyword k)) := by
  rintro c c' ⟨hx, -, rfl⟩ -
  exact ⟨c.current, expectKeyword_ok (hx.1.trans (Lexeme.keyword_kind k)), hx⟩

theorem accept {kind : TokenKind} {x : Lexeme} (h : x.kind = kind) :
    (accept kind).Takes [x] next (· = true) := by
  rintro c c' ⟨hx, -, rfl⟩ -
  exact ⟨true, accept_ok (hx.1.trans h), rfl⟩

theorem accept_none (kind : TokenKind) :
    (Parser.accept kind).Takes [] (·.current.kind ≠ kind) (· = false) := by
  rintro c c' rfl hc
  exact ⟨false, accept_other hc, rfl⟩

theorem name {x : String} (hx : IsName x) (cause : SyntaxCause) :
    (Parser.expect .identifier cause).Takes [.word x] next (·.text = x) := by
  refine (expect hx.2 cause).imp fun t ht => ?_
  rw [Token.text, ht.2, hx.value]
  rfl

end Takes

end Parser

/-! ## Operators -/

theorem BinaryOp.ofSymbol_symbol {op : BinaryOp} (h : op ∈ BinaryOp.known) :
    BinaryOp.ofSymbol op.symbol = op := by
  have hall : ∀ op ∈ BinaryOp.known, BinaryOp.ofSymbol op.symbol = op := by decide
  exact hall op h

/-- How the powers of an operator lie to each other. -/
theorem BinaryOp.powers {op : BinaryOp} (h : op ∈ BinaryOp.known) :
    0 < op.power ∧ op.power < tightest ∧ op.power ≤ op.rightPower ∧ op.power ≤ op.leftPower := by
  have hall : ∀ op ∈ BinaryOp.known, 0 < op.power ∧ op.power < tightest ∧ op.power ≤ op.rightPower ∧
      op.power ≤ op.leftPower := by decide
  exact hall op h

/-- In a place for operators that bind at least as tightly as `power`, none of them has a right
operand that takes in a token which binds as tightly as `follow`. -/
def Admits (power follow : Int) : Prop :=
  ∀ op ∈ BinaryOp.known, power ≤ op.power → follow < op.rightPower

theorem admits_of_lt {power follow : Int} (h : follow < power) : Admits power follow := by
  intro op hop hle
  have := (BinaryOp.powers hop).2.2.1
  omega

/-- Operators associate to one side: in the place of a left operand none takes in the operator
behind it. -/
theorem admits_left {op : BinaryOp} (h : op ∈ BinaryOp.known) : Admits op.leftPower op.power := by
  have hall : ∀ op ∈ BinaryOp.known, ∀ op' ∈ BinaryOp.known, op.leftPower ≤ op'.power →
      op.power < op'.rightPower := by decide
  exact hall op h

/-! ## Expressions and lexemes -/

/-- A lexeme that is read as a literal: a numeral, a text or a truth value. -/
inductive Lexeme.Denotes : Lexeme → Value → Prop
  | numeral {x : Lexeme} {t : String} {v : Value} (hkind : x.kind = .number)
      (hvalue : x.value = .text t) (h : numeralValue? t = some v) : Denotes x v
  | text {x : Lexeme} {t : String} (hkind : x.kind = .string) (hvalue : x.value = .text t) :
      Denotes x (.text t)
  | truth {x : Lexeme} {b : Bool} (hkind : x.kind = .boolean) (hvalue : x.value = .bool b) :
      Denotes x (.bool b)

/-- A lexeme that is read as a name. -/
def Lexeme.Names (x : Lexeme) (name : String) : Prop :=
  x.kind = .identifier ∧ x.value = .text name

/-- A lexeme that is read as what is called: a name, or a type that is a conversion function. -/
def Lexeme.Calls (x : Lexeme) (f : String) : Prop :=
  x.kind ∈ .identifier :: conversionWords ∧ x.value = .text f

/-- The lexemes write an expression in a place where operators must bind at least as tightly as
`power` and the token behind binds as tightly as `follow`. Any part may stand in parentheses. -/
inductive Expr.Written : Int → Int → Expr → List Lexeme → Prop
  | parens {power follow : Int} {e : Expr} {xs : List Lexeme} (h : Written 0 (-1) e xs) :
    Written power follow e (.symbol .lparen :: (xs ++ [.symbol .rparen]))
  | literal {power follow line : Int} {v : Value} {x : Lexeme} (hx : x.Denotes v) :
    Written power follow (.literal line v) [x]
  | var {power follow line : Int} {name : String} {x : Lexeme} (hx : x.Names name) :
    Written power follow (.var line name) [x]
  | element {power follow line : Int} {a : String} {x : Lexeme} {items : List (Expr × List Lexeme)}
      (hx : x.Names a) (hne : items ≠ []) (h : ∀ i ∈ items, Written 0 (-1) i.1 i.2) :
    Written power follow (.element line a (items.map (·.1)))
      (x :: .symbol .lbracket :: (writeItems (·.2) items ++ [.symbol .rbracket]))
  | call {power follow line : Int} {f : String} {x : Lexeme} {items : List (Expr × List Lexeme)}
      (hx : x.Calls f) (h : ∀ i ∈ items, Written 0 (-1) i.1 i.2) :
    Written power follow (.call line f (items.map (·.1)))
      (x :: .symbol .lparen :: (writeItems (·.2) items ++ [.symbol .rparen]))
  | neg {power follow line : Int} {e : Expr} {xs : List Lexeme} (h : Written tightest follow e xs) :
    Written power follow (.unary line .neg e) (.symbol .minus :: xs)
  | not {power follow line : Int} {e : Expr} {xs : List Lexeme} (hpower : power < tightest)
    (hfollow : follow < notPower) (h : Written notPower follow e xs) :
    Written power follow (.unary line .not e) (.keyword .notKw :: xs)
  | binary {power follow line : Int} {l r : Expr} {op : BinaryOp} {xs ys : List Lexeme}
      (hop : op ∈ BinaryOp.known) (hpower : power ≤ op.power)
      (hl : Written op.leftPower op.power l xs) (hr : Written op.rightPower follow r ys) :
    Written power follow (.binary line l op r) (xs ++ op.lexeme :: ys)

/-- Lexemes that write expressions separated by commas. -/
def WrittenList (es : List Expr) (xs : List Lexeme) : Prop :=
  ∃ items : List (Expr × List Lexeme), (∀ i ∈ items, i.1.Written 0 (-1) i.2) ∧
    items.map (·.1) = es ∧
    writeItems (·.2) items = xs

/-- The kinds of token that an expression can begin with. -/
def exprStarts : List TokenKind :=
  [.symbol .lparen, .number, .string, .boolean, .identifier, .symbol .minus, .keyword .notKw] ++
    conversionWords

theorem Lexeme.Denotes.kind {x : Lexeme} {v : Value} (h : x.Denotes v) :
    x.kind ∈ [.number, .string, .boolean] := by
  cases h with
  | numeral hkind | text hkind | truth hkind => rw [hkind]; decide

/-- An expression starts with one of its kinds of token; with NOT only where that may stand. -/
theorem Expr.Written.starts {power follow : Int} {e : Expr} {xs : List Lexeme}
    (h : e.Written power follow xs) :
    ∃ x rest, xs = x :: rest ∧ x.kind ∈ exprStarts ∧
      (x.kind = .keyword .notKw → power < tightest) := by
  have hother :
      ∀ {x : Lexeme} {kind : TokenKind} {rest : List Lexeme} {power : Int}, x.kind = kind →
      kind ∈ exprStarts → kind ≠ .keyword .notKw → ∃ y more, x :: rest = y :: more ∧
        y.kind ∈ exprStarts ∧
        (y.kind = .keyword .notKw → power < tightest) := by
    rintro x _ rest power rfl hstarts hne
    exact ⟨x, rest, rfl, hstarts, fun hnot => absurd hnot hne⟩
  induction h with
  | parens => exact hother rfl (by decide) (by decide)
  | literal hx =>
    have hall : ∀ kind ∈ [TokenKind.number, .string, .boolean], kind ∈ exprStarts ∧
      kind ≠ .keyword .notKw := by decide
    exact hother rfl (hall _ hx.kind).1 (hall _ hx.kind).2
  | var hx => exact hother hx.1 (by decide) (by decide)
  | element hx => exact hother hx.1 (by decide) (by decide)
  | call hx =>
    have hall : ∀ kind ∈ TokenKind.identifier :: conversionWords, kind ∈ exprStarts ∧
        kind ≠ .keyword .notKw := by
      decide
    exact hother rfl (hall _ hx.1).1 (hall _ hx.1).2
  | neg => exact hother rfl (by decide) (by decide)
  | not hpower => exact ⟨_, _, rfl, by rw [Lexeme.keyword_kind]; decide, fun _ => hpower⟩
  | binary hop hpower _ _ ihl =>
    obtain ⟨x, rest, rfl, hstarts, -⟩ := ihl
    have := (BinaryOp.powers hop).2.1
    exact ⟨x, _, rfl, hstarts, fun _ => by omega⟩

theorem Expr.Written.starts_of_reads {power follow : Int} {e : Expr} {xs : List Lexeme}
    (h : e.Written power follow xs) {c c' : Cursor} (hread : c.Reads xs c') :
    c.current.kind ∈ exprStarts := by
  obtain ⟨x, rest, rfl, hkind, -⟩ := h.starts
  exact hread.kind ▸ hkind

section Reading

/-! ## Lists and primary expressions -/

/-- The token that follows an expression: it binds as tightly as `follow`, and it opens no index and
no argument list. -/
structure Cursor.Follows (c : Cursor) (follow : Int) : Prop where
  power : bindingPower c.current.kind = follow
  noIndex : c.current.kind ≠ .symbol .lbracket
  noCall : c.current.kind ≠ .symbol .lparen

/-- The token that follows a list. -/
structure Cursor.FollowsList (c : Cursor) : Prop where
  follows : c.Follows (-1)
  noComma : c.current.kind ≠ .symbol .comma

theorem Cursor.FollowsList.of_kind {c : Cursor} {kind : TokenKind} (hc : c.current.kind = kind)
    (h : bindingPower kind = -1 ∧ kind ≠ .symbol .lbracket ∧ kind ≠ .symbol .lparen ∧
      kind ≠ .symbol .comma) : c.FollowsList := by
  subst hc
  exact ⟨⟨h.1, h.2.1, h.2.2.1⟩, h.2.2.2⟩

theorem Cursor.Follows.of_comma {c : Cursor} (hc : c.current.kind = .symbol .comma) :
    c.Follows (-1) := by
  constructor <;> rw [hc] <;> decide

section Items

variable {ι α : Type} {item : Parser α} {write : ι → List Lexeme}
  {good : ι → α → Prop} {xs : List ι}

theorem moreItems_takes (hitem : ∀ x ∈ xs, item.Takes (write x) (·.Follows (-1)) (good x)) {k : Nat}
    (hk : xs.length < k) :
    (moreItems item k).Takes (xs.flatMap fun x => .symbol .comma :: write x) Cursor.FollowsList
      (List.Forall₂ good xs) := by
  induction xs generalizing k with
  | nil =>
    obtain ⟨k, rfl⟩ := Nat.exists_eq_succ_of_ne_zero (Nat.ne_of_gt hk)
    rintro c c' rfl hc'
    refine ⟨[], ?_, .nil⟩
    rw [moreItems, bind_ok (accept_other hc'.noComma)]
    rfl
  | cons x xs ih =>
    obtain ⟨k, rfl⟩ := Nat.exists_eq_succ_of_ne_zero (Nat.ne_of_gt (Nat.zero_lt_of_lt hk))
    simp only [List.forall_mem_cons] at hitem
    intro c c' h hc'
    have hkind : c.current.kind = .symbol .comma := h.kind
    obtain ⟨m, hm, hmore⟩ := Cursor.reads_append.mp h.2.2
    have hfollows : m.Follows (-1) := by
      cases xs with
      | nil => exact (show m = c' from hmore) ▸ hc'.follows
      | cons y ys => exact .of_comma hmore.kind
    obtain ⟨y, hy, hgood⟩ := hitem.1 _ _ hm hfollows
    obtain ⟨ys, hys, hgoods⟩ := ih hitem.2 (Nat.lt_of_succ_lt_succ hk) _ _ hmore hc'
    refine ⟨y :: ys, ?_, .cons hgood hgoods⟩
    rw [moreItems, bind_ok (accept_ok hkind), if_pos rfl, bind_ok hy, bind_ok hys]
    rfl

/-- Items separated by commas are read one by one. -/
theorem items_takes (hne : xs ≠ [])
    (hitem : ∀ x ∈ xs, item.Takes (write x) (·.Follows (-1)) (good x)) {k : Nat}
    (hk : xs.length ≤ k) :
    (items item k).Takes (writeItems write xs) Cursor.FollowsList (List.Forall₂ good xs) := by
  obtain ⟨x, xs, rfl⟩ := List.exists_cons_of_ne_nil hne
  simp only [List.forall_mem_cons] at hitem
  refine hitem.1.bind (fun c c' h hc' => ?_) fun y hy => ?_
  · cases xs with
    | nil => exact (show c = c' from h) ▸ hc'.follows
    | cons z zs => exact .of_comma h.kind
  · exact (moreItems_takes hitem.2 hk).last fun ys hys => .cons hy hys

theorem length_le_writeItems (h : ∀ x ∈ xs, write x ≠ []) :
    xs.length ≤ (writeItems write xs).length := by
  cases xs with
  | nil => exact Nat.zero_le _
  | cons x xs =>
    have hx : 0 < (write x).length := List.length_pos_iff.mpr (h x (by simp))
    have hxs : xs.length ≤ (xs.flatMap fun z => Lexeme.symbol .comma :: write z).length := by
      clear h
      induction xs with
      | nil => exact Nat.zero_le _
      | cons z zs ih =>
        simp only [List.flatMap_cons, List.cons_append, List.length_cons, List.length_append]
        omega
    simp only [writeItems, List.length_append, List.length_cons]
    omega

theorem length_write_le {x : ι} (h : x ∈ xs) : (write x).length ≤ (writeItems write xs).length := by
  cases xs with
  | nil => cases h
  | cons y ys =>
    rw [writeItems, List.length_append]
    rcases List.mem_cons.mp h with rfl | h
    · exact Nat.le_add_right _ _
    · have hmem : (Lexeme.symbol .comma :: write x) ∈ ys.map fun z =>
          Lexeme.symbol .comma :: write z :=
        List.mem_map.mpr ⟨x, h, rfl⟩
      have hle := (List.sublist_flatten_of_mem hmem).length_le
      rw [List.length_cons, ← List.flatMap_def] at hle
      omega

end Items

theorem eq_of_items {α : Type} {xs ys : List α} (h : List.Forall₂ (fun x y => y = x) xs ys) :
    ys = xs := by
  induction h with
  | nil => rfl
  | cons hx _ ih => rw [hx, ih]

theorem exprsUnlined_eq {items : List (Expr × List Lexeme)} {es : List Expr}
    (h : List.Forall₂ (fun i e => e.unlined = i.1.unlined) items es) :
    exprsUnlined es = exprsUnlined (items.map (·.1)) := by
  induction h with
  | nil => rfl
  | cons he _ ih => rw [List.map_cons, exprsUnlined, exprsUnlined, he, ih]

/-- A parser that reads expressions of fewer than `n` lexemes where they are written. -/
def Rereads (n : Nat) (expr : Int → Parser Expr) : Prop :=
  ∀ (e : Expr) (power follow : Int) (xs : List Lexeme), e.Written power follow xs → follow < power →
    xs.length < n → (expr power).Takes xs (·.Follows follow) (·.unlined = e.unlined)

variable {n : Nat} {expr : Int → Parser Expr} (hexpr : Rereads n expr) {e : Expr} {es : List Expr}
  {xs : List Lexeme} {follow : Int}
include hexpr

theorem exprs_takes (hne : es ≠ []) (h : WrittenList es xs) (hn : xs.length < n) :
    (items (expr 0) n).Takes xs Cursor.FollowsList (exprsUnlined · = exprsUnlined es) := by
  obtain ⟨items, hitems, rfl, rfl⟩ := h
  have hitem : ∀ i ∈ items, (expr 0).Takes i.2 (·.Follows (-1)) (·.unlined = i.1.unlined) :=
    fun i hi => hexpr i.1 0 (-1) i.2 (hitems i hi) (by decide) ((length_write_le hi).trans_lt hn)
  have hlength : items.length ≤ n := by
    refine (length_le_writeItems fun i hi => ?_).trans hn.le
    obtain ⟨x, rest, hx, -⟩ := (hitems i hi).starts
    rw [hx]
    exact List.cons_ne_nil x rest
  have hne' : items ≠ [] := fun hnil => hne (by rw [hnil]; rfl)
  exact (items_takes hne' hitem hlength).imp fun es' => exprsUnlined_eq

theorem indexList_takes (hne : es ≠ []) (h : WrittenList es xs) (hn : xs.length < n) :
    (indexList (expr 0) n).Takes (xs ++ [.symbol .rbracket]) (fun _ => True)
      (exprsUnlined · = exprsUnlined es) := by
  refine (exprs_takes hexpr hne h hn).upTo (fun c hc => .of_kind hc (by decide)) fun es' hes' => ?_
  exact (Takes.expect rfl _).last fun _ _ => hes'

theorem argumentList_takes (h : WrittenList es xs) (hn : xs.length < n) :
    (argumentList (expr 0) n).Takes (xs ++ [.symbol .rparen]) (fun _ => True)
      (exprsUnlined · = exprsUnlined es) := by
  have hclose : ∀ es', exprsUnlined es' = exprsUnlined es →
      (do let _ ← expect (.symbol .rparen) .parenAfterArguments; return es' :
        Parser (List Expr)).Takes [.symbol .rparen] (fun _ =>
          True) (exprsUnlined · = exprsUnlined es) :=
    fun es' hes' => (Takes.expect rfl _).last fun _ _ => hes'
  have hlist := h
  intro c c' hread hc'
  unfold argumentList
  rw [bind_ok (check_ok _ c)]
  obtain ⟨items, hitems, rfl, rfl⟩ := h
  cases items with
  | nil =>
    have hkind : c.current.kind = .symbol .rparen := hread.kind
    rw [if_pos (by rw [hkind]; decide)]
    exact hclose [] rfl c c' hread hc'
  | cons i items =>
    obtain ⟨m, hm, -⟩ := Cursor.reads_append.mp hread
    obtain ⟨m', hm', -⟩ := Cursor.reads_append.mp hm
    have hstart : c.current.kind ≠ .symbol .rparen := by
      intro hparen
      have hstarts := (hitems i (by simp)).starts_of_reads hm'
      rw [hparen] at hstarts
      exact absurd hstarts (by decide)
    rw [if_neg (by simpa using hstart)]
    exact (exprs_takes hexpr (by simp) hlist hn).upTo (fun c hc =>
      .of_kind hc (by decide)) hclose c c' hread hc'

omit hexpr in
theorem primary_literal (bound : Nat) (inner : Parser Expr) {v : Value} {x : Lexeme}
    (hx : x.Denotes v) {c c' : Cursor} (h : c.Reads [x] c') :
    primary inner bound c = .ok (.literal c.current.line v) c' := by
  have hend : c.advance = c' := h.2.2
  unfold primary
  rw [bind_ok (current_ok c)]
  cases hx with
  | numeral hkind hvalue hv =>
    rw [h.kind.trans hkind]
    dsimp only
    rw [bind_ok (advance_ok c), hend, numberLiteral_ok (h.1.2.trans hvalue) hv]
  | text hkind hvalue | truth hkind hvalue =>
    rw [h.kind.trans hkind, h.1.2.trans hvalue, ← hend]
    rfl

omit hexpr in
theorem primary_var (inner : Parser Expr) (bound : Nat) {name : String} {x : Lexeme}
    (hx : x.Names name) {c c' : Cursor} (h : c.Reads [x] c') (hc' : c'.Follows follow) :
    primary inner bound c = .ok (.var c.current.line name) c' := by
  have hkind : c.current.kind = .identifier := h.kind.trans hx.1
  have htext : c.current.text = name := h.text hx.2
  have hend : c.advance = c' := h.2.2
  unfold primary
  rw [bind_ok (current_ok c), hkind]
  dsimp only
  rw [bind_ok (advance_ok c), hend, bind_ok (accept_other hc'.noIndex),
    if_neg (by decide), bind_ok (accept_other hc'.noCall), if_neg (by decide), htext]
  rfl

theorem primary_element {a : String} {x : Lexeme} (hx : x.Names a) (hne : es ≠ [])
    (hes : WrittenList es xs) {c c' : Cursor}
    (h : c.Reads (x :: .symbol .lbracket :: (xs ++ [.symbol .rbracket])) c') (hn : xs.length < n) :
    ∃ es', primary (expr 0) n c = .ok (.element c.current.line a es') c' ∧
      exprsUnlined es' = exprsUnlined es := by
  have hkind : c.current.kind = .identifier := h.kind.trans hx.1
  have htext : c.current.text = a := h.text hx.2
  have hopen : c.advance.current.kind = .symbol .lbracket := h.2.2.kind
  obtain ⟨es', hes', heq⟩ := indexList_takes hexpr hne hes hn _ _ h.2.2.2.2 trivial
  refine ⟨es', ?_, heq⟩
  unfold primary
  rw [bind_ok (current_ok c), hkind]
  dsimp only
  rw [bind_ok (advance_ok c), bind_ok (accept_ok hopen), if_pos rfl, bind_ok hes', htext]
  rfl

theorem primary_call {f : String} {x : Lexeme} (hx : x.Calls f) (hes : WrittenList es xs)
    {c c' : Cursor} (h : c.Reads (x :: .symbol .lparen :: (xs ++ [.symbol .rparen])) c')
    (hn : xs.length < n) :
    ∃ es', primary (expr 0) n c = .ok (.call c.current.line f es') c' ∧
      exprsUnlined es' = exprsUnlined es := by
  have htext : c.current.text = f := h.text hx.2
  have hopen : c.advance.current.kind = .symbol .lparen := h.2.2.kind
  have hahead : c.ahead.kind = .symbol .lparen := h.ahead
  have hkind : c.current.kind ∈ TokenKind.identifier :: conversionWords := h.kind ▸ hx.1
  obtain ⟨es', hes', heq⟩ := argumentList_takes hexpr hes hn _ _ h.2.2.2.2 trivial
  refine ⟨es', ?_, heq⟩
  unfold primary
  rw [bind_ok (current_ok c)]
  simp only [conversionWords, List.mem_cons, List.not_mem_nil, or_false] at hkind
  rcases hkind with hname | hword
  · rw [hname]
    dsimp only
    rw [bind_ok (advance_ok c), bind_ok (accept_other (by rw [hopen]; decide)),
      if_neg (by decide), bind_ok (accept_ok hopen), if_pos rfl, bind_ok hes', htext]
    rfl
  · rcases hword with hword | hword | hword <;> rw [hword] <;> dsimp only <;>
      rw [bind_ok (get_ok c), hahead, if_pos (by decide), bind_ok (advance_ok c),
        bind_ok (advance_ok _), bind_ok hes', htext] <;> rfl

theorem primary_parens (he : e.Written 0 (-1) xs) {c c' : Cursor}
    (h : c.Reads (.symbol .lparen :: (xs ++ [.symbol .rparen])) c') (hn : xs.length < n) :
    ∃ e', primary (expr 0) n c = .ok e' c' ∧ e'.unlined = e.unlined := by
  have hkind : c.current.kind = .symbol .lparen := h.kind
  obtain ⟨m, hm, hclose⟩ := Cursor.reads_append.mp h.2.2
  have hparen : m.current.kind = .symbol .rparen := hclose.kind
  have hend : m.advance = c' := hclose.2.2
  obtain ⟨e', he', heq⟩ := hexpr e 0 (-1) xs he (by decide) hn _ m hm
    (Cursor.FollowsList.of_kind hparen (by decide)).follows
  refine ⟨e', ?_, heq⟩
  unfold primary
  rw [bind_ok (current_ok c), hkind]
  dsimp only
  rw [bind_ok (advance_ok c), bind_ok he', bind_ok (expect_ok hparen _), hend]
  rfl

/-! ## Operands -/

omit hexpr in
theorem unary_of_primary {inner : Parser Expr} {bound k : Nat} {c c' : Cursor}
    (hminus : c.current.kind ≠ .symbol .minus) (h : primary inner bound c = .ok e c') (hk : 0 < k) :
    unary inner bound k c = .ok e c' := by
  obtain ⟨k, rfl⟩ := Nat.exists_eq_succ_of_ne_zero (Nat.ne_of_gt hk)
  rw [unary, bind_ok (check_ok _ c), if_neg (by simpa using hminus), h]

/-- In the tightest place there are only minus signs and primary expressions. -/
theorem unary_reads {power : Int} (he : e.Written power follow xs) (htight : power = tightest)
    {c c' : Cursor} (h : c.Reads xs c') (hc' : c'.Follows follow) (hn : xs.length ≤ n) {k : Nat}
    (hk : xs.length ≤ k) : ∃ e', unary (expr 0) n k c = .ok e' c' ∧ e'.unlined = e.unlined := by
  induction he generalizing c k with
  | parens he =>
    simp only [List.length_cons, List.length_append, List.length_nil] at hn hk
    obtain ⟨e', he', heq⟩ := primary_parens hexpr he h (by omega)
    have hkind : c.current.kind = .symbol .lparen := h.kind
    exact ⟨e', unary_of_primary (by rw [hkind]; decide) he' (by omega), heq⟩
  | literal hx =>
    have hkind : c.current.kind ≠ .symbol .minus := by
      intro hminus
      exact absurd (hminus ▸ h.kind ▸ hx.kind) (by decide)
    exact ⟨_, unary_of_primary hkind (primary_literal n _ hx h) hk, rfl⟩
  | var hx =>
    exact ⟨_,
      unary_of_primary (by rw [h.kind.trans hx.1]; decide) (primary_var _ n hx h hc') hk, rfl⟩
  | element hx hne hi =>
    simp only [List.length_cons, List.length_append, List.length_nil] at hn hk
    obtain ⟨es', hes', heq⟩ :=
      primary_element hexpr hx (by simpa using hne) ⟨_, hi, rfl, rfl⟩ h (by omega)
    exact ⟨_, unary_of_primary (by rw [h.kind.trans hx.1]; decide) hes' (by omega),
      by rw [Expr.unlined, Expr.unlined, heq]⟩
  | call hx hi =>
    simp only [List.length_cons, List.length_append, List.length_nil] at hn hk
    have hkind : c.current.kind ≠ .symbol .minus := by
      intro hminus
      exact absurd (hminus ▸ h.kind ▸ hx.1) (by decide)
    obtain ⟨es', hes', heq⟩ := primary_call hexpr hx ⟨_, hi, rfl, rfl⟩ h (by omega)
    exact ⟨_, unary_of_primary hkind hes' (by omega), by rw [Expr.unlined, Expr.unlined, heq]⟩
  | neg he ih =>
    have hkind : c.current.kind = .symbol .minus := h.kind
    rw [List.length_cons] at hn hk
    obtain ⟨k, rfl⟩ := Nat.exists_eq_succ_of_ne_zero (by omega : k ≠ 0)
    obtain ⟨e', he', heq⟩ := ih rfl h.2.2 hc' (by omega) (Nat.le_of_succ_le_succ hk)
    refine ⟨.unary c.current.line .neg e', ?_, by rw [Expr.unlined, Expr.unlined, heq]⟩
    rw [unary, bind_ok (check_ok _ c), if_pos (by rw [hkind]; decide),
      bind_ok (advance_ok c), bind_ok he']
    rfl
  | not hpower => omega
  | binary hop hpower =>
    have := (BinaryOp.powers hop).2.1
    omega

/-- What can stand in the tightest place is an operand. -/
theorem operand_tight (he : e.Written tightest follow xs) {c c' : Cursor} (h : c.Reads xs c')
    (hc' : c'.Follows follow) (hn : xs.length ≤ n) :
    ∃ e', operand expr n c = .ok e' c' ∧ e'.unlined = e.unlined := by
  obtain ⟨e', he', heq⟩ := unary_reads hexpr he rfl h hc' hn hn
  have hnot : c.current.kind ≠ .keyword .notKw := by
    obtain ⟨x, rest, rfl, -, hx⟩ := he.starts
    exact fun hnot => absurd (hx (h.kind ▸ hnot)) (Int.lt_irrefl _)
  refine ⟨e', ?_, heq⟩
  rw [operand, bind_ok (check_ok _ c), if_neg (by simpa using hnot), he']

theorem operand_not (line : Int) (he : e.Written notPower follow xs) (hfollow : follow < notPower)
    {c c' : Cursor} (h : c.Reads (.keyword .notKw :: xs) c') (hc' : c'.Follows follow)
    (hn : xs.length < n) :
    ∃ e', operand expr n c = .ok e' c' ∧ e'.unlined = (Expr.unary line .not e).unlined := by
  have hkind : c.current.kind = .keyword .notKw := h.kind.trans (Lexeme.keyword_kind _)
  obtain ⟨e', he', heq⟩ := hexpr e notPower follow xs he hfollow hn _ c' h.2.2 hc'
  refine ⟨.unary c.current.line .not e', ?_, by rw [Expr.unlined, Expr.unlined, heq]⟩
  rw [operand, bind_ok (check_ok _ c), if_pos (by rw [hkind]; decide),
    bind_ok (advance_ok c), bind_ok he']
  rfl

/-! ## Operators -/

omit hexpr in
theorem follows_operator {op : BinaryOp} (hop : op ∈ BinaryOp.known) {c c' : Cursor}
    (h : c.Reads (op.lexeme :: xs) c') : c.Follows op.power := by
  have hkind : c.current.kind = op.kind := h.kind
  have hall : ∀ op ∈ BinaryOp.known, op.kind ≠ .symbol .lbracket ∧
    op.kind ≠ .symbol .lparen := by decide
  exact ⟨by rw [hkind]; rfl, hkind ▸ (hall op hop).1, hkind ▸ (hall op hop).2⟩

/-- Climbing from the operand in front of an expression puts the operators of its left spine back
on. -/
theorem climb_reads {q power : Int} (he : e.Written power follow xs) (hq : q ≤ power)
    (hadmits : Admits power follow) {c c' : Cursor} (h : c.Reads xs c') (hc' : c'.Follows follow)
    (hn : xs.length ≤ n) :
    ∃ e' j, e'.unlined = e.unlined ∧ j < xs.length ∧
      ∀ k, (operand expr n >>= climb expr q (j + k)) c = climb expr q k e' c' := by
  -- an operand is read before any climbing
  have hoperand : ∀ {e : Expr} {xs : List Lexeme} {c c' : Cursor}, xs ≠ [] →
      (∃ e', operand expr n c = .ok e' c' ∧ e'.unlined = e.unlined) →
      ∃ e' j, e'.unlined = e.unlined ∧ j < xs.length ∧
        ∀ k, (operand expr n >>= climb expr q (j + k)) c = climb expr q k e' c' := by
    rintro e xs c c' hne ⟨e', he', heq⟩
    refine ⟨e', 0, heq, List.length_pos_iff.mpr hne, fun k => ?_⟩
    rw [bind_ok he', Nat.zero_add]
  induction he generalizing c c' with
  | parens he => exact hoperand (by simp) (operand_tight hexpr (.parens he) h hc' hn)
  | literal hx => exact hoperand (by simp) (operand_tight hexpr (.literal hx) h hc' hn)
  | var hx => exact hoperand (by simp) (operand_tight hexpr (.var hx) h hc' hn)
  | element hx hne hi =>
    exact hoperand (by simp) (operand_tight hexpr (.element hx hne hi) h hc' hn)
  | call hx hi => exact hoperand (by simp) (operand_tight hexpr (.call hx hi) h hc' hn)
  | neg he => exact hoperand (by simp) (operand_tight hexpr (.neg he) h hc' hn)
  | not _ hfollow he => exact hoperand (by simp) (operand_not hexpr _ he hfollow h hc' hn)
  | @binary power follow line l r op xs ys hop hpower hl hr ihl ihr =>
    have hpowers := BinaryOp.powers hop
    rw [List.length_append, List.length_cons] at hn ⊢
    obtain ⟨m, hm, hop'⟩ := Cursor.reads_append.mp h
    -- the left operand leaves the operator to the climb that reads its own spine
    obtain ⟨l', j, hleq, hj, hclimb⟩ :=
      ihl (by omega) (admits_left hop) hm (follows_operator hop hop') (by omega)
    obtain ⟨r', hr', hreq⟩ := hexpr r op.rightPower follow ys hr (hadmits op hop hpower) (by omega)
      m.advance c' hop'.2.2 hc'
    refine ⟨.binary m.current.line l' op r',
      j + 1, by simp only [Expr.unlined, hleq, hreq], by omega, fun k => ?_⟩
    have hkind : m.current.kind = op.kind := hop'.kind
    have htext : m.current.text = op.symbol := hop'.text rfl
    rw [Nat.add_assoc, Nat.add_comm 1, hclimb, climb, bind_ok (current_ok m),
      if_neg (by rw [hkind]; exact not_lt.mpr (hq.trans hpower)), bind_ok (advance_ok m),
      hkind, ← BinaryOp.rightPower, bind_ok hr', htext, BinaryOp.ofSymbol_symbol hop]

omit hexpr

/-- **A written expression is read back** where it stands, up to its lines, and reading stops behind
it. -/
theorem expression_rereads (n : Nat) : Rereads n (expression n) := by
  induction n with
  | zero =>
    intro e power follow xs he hlt hn
    cases hn
  | succ n ih =>
    intro e power follow xs he hlt hn c c' h hc'
    obtain ⟨e', j, heq, hj, hclimb⟩ := climb_reads ih he le_rfl (admits_of_lt hlt) h hc'
      (Nat.le_of_lt_succ hn)
    refine ⟨e', ?_, heq⟩
    -- one step is left for the climb that meets the token behind the expression
    obtain ⟨k, rfl⟩ := Nat.exists_eq_add_of_lt (hj.trans_le (Nat.le_of_lt_succ hn))
    rw [expression]
    exact (hclimb (k + 1)).trans (by
      rw [climb, bind_ok (current_ok c'), if_pos (by rw [hc'.power]; exact hlt)]
      rfl)

end Reading

/-! ## Writable expressions -/

/-- Whether no binary operator and no NOT stands at the root of an expression. -/
def Expr.isTight : Expr → Bool
  | .binary .. | .unary _ .not _ => false
  | _ => true

theorem contains_point_digits {cs : List Char} (h : Number.IsDigits cs) :
    (String.ofList cs).toList.contains '.' = false := by
  rw [String.toList_ofList, ← Bool.not_eq_true, List.contains_iff_mem]
  intro hmem
  exact absurd (h _ hmem) (by decide)

theorem contains_point_decimal (whole fraction : List Char) :
    (String.ofList (whole ++ '.' :: fraction)).toList.contains '.' = true := by
  rw [String.toList_ofList, List.contains_iff_mem]
  simp

section Writable

variable {s : Spelling}

theorem Value.IsLiteral.denoted {v : Value} (hv : v.IsLiteral) : (s.literal v).Denotes v := by
  cases v with
  | int n =>
    refine .numeral rfl rfl ?_
    have hpoint := contains_point_digits (Number.isDigits_toDigits n.natAbs)
    have hshort : ¬ Number.digitLimit < (Nat.toDigits 10 n.natAbs).length :=
      Nat.not_lt.mpr (Number.lt_writeLimit_iff.mp hv.2)
    rw [numeralValue?, hpoint, if_neg (by decide),
      Number.liberalWhole?_digits Nat.toDigits_ne_nil (Number.isDigits_toDigits _), if_neg hshort,
      Number.digitsValue_toDigits, Int.natAbs_of_nonneg hv.1]
    rfl
  | real x =>
    refine .numeral rfl rfl ?_
    have hpoint : (String.ofList (s.real x)).toList.contains '.' = true := by
      obtain ⟨whole, fraction, -, -, -, -, heq⟩ := s.real_isDecimal x hv
      rw [heq, contains_point_decimal]
    rw [numeralValue?, hpoint, if_pos rfl, s.real_reads x hv]
    rfl
  | text t => exact .text rfl rfl
  | bool b =>
    have htruth : (Lexeme.word (if b then "TRUE" else "FALSE")).kind = .boolean ∧
        (Lexeme.word (if b then "TRUE" else "FALSE")).value = .bool b := by
      cases b <;> decide +kernel
    exact .truth htruth.1 htruth.2
  | absent => exact hv.elim

theorem IsName.named {x : String} (hx : IsName x) : (Lexeme.word x).Names x :=
  ⟨hx.2, hx.value⟩

theorem IsCallee.called {f : String} (h : IsCallee f) : (Lexeme.word f).Calls f := by
  rcases h with h | ⟨k, hk, rfl⟩
  · exact ⟨by rw [h.2]; exact List.mem_cons_self, h.value⟩
  · exact ⟨List.mem_cons_of_mem _ (k.lexeme.2.1 ▸ hk), k.lexeme.2.2⟩

/-- A whole expression needs no parentheses. -/
theorem needsParens_whole {e : Expr}
    (h : ∀ line l op r, e = .binary line l op r → op ∈ BinaryOp.known) :
    needsParens 0 (-1) e = false := by
  cases e with
  | binary line l op r =>
    have := (BinaryOp.powers (h _ _ _ _ rfl)).1
    simp only [needsParens, decide_eq_false_iff_not]
    omega
  | unary line op e => cases op <;> rfl
  | _ => rfl

theorem Expr.Writable.known {e : Expr} (he : e.Writable) (line : Int) (l : Expr) (op : BinaryOp)
    (r : Expr) (heq : e = .binary line l op r) : op ∈ BinaryOp.known := by
  subst heq
  cases he with
  | binary _ hop => exact hop

theorem write_of_bare {power follow : Int} {e : Expr} (h : needsParens power follow e = false) :
    e.write s needsParens power follow = e.bare s needsParens follow := by
  rw [Expr.write, placed, h]
  rfl

/-- What is written for an expression writes it, if this is so where it needs no parentheses. -/
theorem Expr.Writable.written_of_bare {e : Expr} (he : e.Writable)
    (h : ∀ power follow, needsParens power follow e = false →
      e.Written power follow (e.bare s needsParens follow)) (power follow : Int) :
    e.Written power follow (e.write s needsParens power follow) := by
  cases hin : needsParens power follow e with
  | false =>
    rw [write_of_bare hin]
    exact h power follow hin
  | true =>
    rw [Expr.write, placed, hin]
    exact .parens (h 0 (-1) (needsParens_whole he.known))

theorem writtenList_writeExprs {es : List Expr}
    (h : ∀ e ∈ es, e.Written 0 (-1) (e.write s needsParens 0 (-1))) :
    WrittenList es (writeExprs s needsParens es) := by
  have hmore : ∀ es : List Expr, writeMoreExprs s needsParens es =
      (es.map fun e => (e, e.write s needsParens 0 (-1))).flatMap fun i =>
        .symbol .comma :: i.2 := by
    intro es
    induction es with
    | nil => rfl
    | cons e es ih =>
      rw [writeMoreExprs, ih]
      rfl
  refine ⟨es.map fun e => (e, e.write s needsParens 0 (-1)), ?_, ?_, ?_⟩
  · rintro i hi
    obtain ⟨e, he, rfl⟩ := List.mem_map.mp hi
    exact h e he
  · rw [List.map_map]
    exact List.map_id _
  · cases es with
    | nil => rfl
    | cons e es =>
      rw [writeExprs, hmore]
      rfl

theorem Expr.Writable.bare_written {e : Expr} (he : e.Writable) (power follow : Int)
    (hbare : needsParens power follow e = false) :
    e.Written power follow (e.bare s needsParens follow) := by
  induction he generalizing power follow with
  | literal line hv => exact .literal hv.denoted
  | var line hx => exact .var hx.named
  | element line ha hne hi ih =>
    obtain ⟨items, hitems, rfl, hwrite⟩ := writtenList_writeExprs fun e he =>
      (hi e he).written_of_bare (ih e he) 0 (-1)
    rw [Expr.bare, ← hwrite]
    exact .element ha.named (by simpa using hne) hitems
  | @binary line l op r hop hl hr ihl ihr =>
    have hpower : power ≤ op.power := by simpa [needsParens] using hbare
    exact .binary hop hpower (hl.written_of_bare ihl _ _) (hr.written_of_bare ihr _ _)
  | not line he ih =>
    have hplace : power < tightest ∧ follow < notPower := by simpa [needsParens] using hbare
    exact .not hplace.1 hplace.2 (he.written_of_bare ih _ _)
  | neg line he ih => exact .neg (he.written_of_bare ih _ _)
  | call line hf ha ih =>
    obtain ⟨items, hitems, rfl, hwrite⟩ := writtenList_writeExprs fun e he =>
      (ha e he).written_of_bare (ih e he) 0 (-1)
    rw [Expr.bare, ← hwrite]
    exact .call hf.called hitems

/-- **What is written for a writable expression writes it**, in every place. -/
theorem Expr.Writable.written {e : Expr} (he : e.Writable) (power follow : Int) :
    e.Written power follow (e.write s needsParens power follow) :=
  he.written_of_bare he.bare_written power follow

theorem Spelling.exprs_written {es : List Expr} (h : ∀ e ∈ es, e.Writable) :
    WrittenList es (s.exprs es) :=
  writtenList_writeExprs fun e he => (h e he).written 0 (-1)

end Writable

end Pseudocode
