import Pseudocode.Proofs.Rules
import Mathlib.Data.List.Basic

/-!
# The logic of a parser that moves forward

On a token list that ends with the end of the input a parser moves forward or stays. The bound on
the number of steps is never met by one that is given more steps than tokens are left. A parser that
stops blames a token of the list: a syntax error has the line of one, and a number that cannot be
read is the text of one. The last token is never read: with further tokens behind it the outcome is
the same.

`Parser.Proceeds` is the logic of these facts, for success and failure at once. In a chain of parts
it adds up how far the place has moved, and it carries along what is known of the results.
-/

namespace Pseudocode

open Parse

/-! ## The logic -/

/-- A failure whose cause is in a token list: a syntax error has the line of a token, and numbers
fail because of their text. The bound on the number of steps is no cause. -/
def ParseFailure.FoundIn (tokens : List Token) : ParseFailure → Prop
  | .rejected e => ∃ t ∈ tokens, e.line = t.line
  | .unreadableNumber => ∃ t ∈ tokens, t.kind = .number ∧ ∃ s, t.value = .text s ∧
    numeralValue? s = none
  | .numberWithoutText => ∃ t ∈ tokens, t.kind = .number ∧ ∀ s, t.value ≠ .text s
  | .exhausted => False

/-- The number of tokens after the current one. -/
def Cursor.left (c : Cursor) : Nat :=
  c.rest.length

/-- A place in a token list that ends with the end of the input. -/
structure Cursor.In (tokens : List Token) (c : Cursor) : Prop where
  ended : ∃ before last, tokens = before ++ [last] ∧ last.kind = .eof
  here : tokens.drop c.position = c.current :: c.rest

namespace Cursor.In

variable {tokens : List Token} {c : Cursor}

theorem current_mem (h : c.In tokens) : c.current ∈ tokens := by
  have hmem : c.current ∈ tokens.drop c.position := by
    rw [h.here]
    exact List.mem_cons_self
  exact List.mem_of_mem_drop hmem

/-- How far on a place is, and how many tokens are left there. -/
theorem position_add_left (h : c.In tokens) : c.position + c.left + 1 = tokens.length := by
  have hlength := congrArg List.length h.here
  rw [List.length_drop, List.length_cons] at hlength
  unfold Cursor.left
  omega

/-- Only the end of the input has no token after it. -/
theorem kind_of_left (h : c.In tokens) (hleft : c.left = 0) : c.current.kind = .eof := by
  obtain ⟨before, last, rfl, hlast⟩ := h.ended
  have hhere := h.here
  rw [List.eq_nil_of_length_eq_zero hleft] at hhere
  have hsuffix : [c.current] <:+ before ++ [last] := hhere ▸ List.drop_suffix _ _
  obtain ⟨front, hfront⟩ := hsuffix
  obtain ⟨-, hcurrent⟩ := List.append_inj' hfront rfl
  cases hcurrent
  exact hlast

theorem step {t : Token} {rest : List Token} (h : c.In tokens) (hrest : c.rest = t :: rest) :
    Cursor.In tokens ⟨c.position + 1, t, rest⟩ where
  ended := h.ended
  here := by
    rw [← List.drop_drop, h.here, hrest]
    rfl

theorem advance (h : c.In tokens) : c.advance.In tokens := by
  unfold Cursor.advance
  split
  · exact h
  · next hrest => exact h.step hrest

theorem left_advance (h : c.In tokens) (hkind : c.current.kind ≠ .eof) :
    c.advance.left < c.left := by
  have hpos : c.left ≠ 0 := fun hleft => hkind (h.kind_of_left hleft)
  unfold Cursor.advance Cursor.left at *
  cases hrest : c.rest with
  | nil => exact absurd (by rw [hrest]; rfl) hpos
  | cons t rest => exact Nat.lt_succ_self _

end Cursor.In

theorem Cursor.left_advance_le (c : Cursor) : c.advance.left ≤ c.left := by
  unfold Cursor.advance
  split
  · exact Nat.le_refl _
  · next t rest hrest =>
    have hleft : c.left = rest.length + 1 := by rw [Cursor.left, hrest, List.length_cons]
    exact hleft ▸ Nat.le_succ _

/-- The same place in a token list that goes on with further tokens. -/
def Cursor.followedBy (more : List Token) (c : Cursor) : Cursor :=
  { c with rest := c.rest ++ more }

namespace Cursor.In

variable {tokens : List Token} {c : Cursor}

/-- Before the end of the input, the next place is the same in a longer list. -/
theorem advance_followedBy (h : c.In tokens) (hkind : c.current.kind ≠ .eof) (more : List Token) :
    (c.followedBy more).advance = c.advance.followedBy more := by
  cases hrest : c.rest with
  | nil => exact absurd (h.kind_of_left (by rw [Cursor.left, hrest]; rfl)) hkind
  | cons t rest => simp only [Cursor.advance, Cursor.followedBy, hrest, List.cons_append]

theorem ahead_followedBy (h : c.In tokens) (hkind : c.current.kind ≠ .eof) (more : List Token) :
    (c.followedBy more).ahead = c.ahead := by
  rw [Cursor.ahead_eq, Cursor.ahead_eq, h.advance_followedBy hkind]
  rfl

/-- A test of the next token that is made only before the end of the input has the same outcome in a
longer list. -/
theorem test_followedBy (h : c.In tokens) {b : Bool} (hb : c.current.kind = .eof → b = false)
    (kind : TokenKind) (more : List Token) :
    (b && (c.followedBy more).ahead.kind = kind) = (b && c.ahead.kind = kind) := by
  by_cases heof : c.current.kind = .eof
  · rw [hb heof, Bool.false_and, Bool.false_and]
  · rw [h.ahead_followedBy heof]

theorem skipNewlines_followedBy (h : c.In tokens) (more : List Token) :
    (c.followedBy more).skipNewlines = c.skipNewlines.followedBy more := by
  obtain ⟨position, current, rest⟩ := c
  unfold Cursor.skipNewlines Cursor.followedBy
  dsimp only
  induction rest generalizing position current with
  | nil =>
    have heof : current.kind = .eof := h.kind_of_left rfl
    cases more with
    | nil => rfl
    | cons t more => simp [Cursor.pastNewlines, heof]
  | cons t rest ih =>
    rw [List.cons_append, Cursor.pastNewlines, Cursor.pastNewlines]
    split
    · exact ih _ _ (h.step rfl)
    · rfl

end Cursor.In

/-- Moving past line ends leads to a later place of the list. -/
theorem Cursor.In.skipNewlines {tokens : List Token} {c : Cursor} (h : c.In tokens) :
    c.skipNewlines.In tokens ∧ c.skipNewlines.left ≤ c.left := by
  obtain ⟨position, current, rest⟩ := c
  unfold Cursor.skipNewlines
  dsimp only
  induction rest generalizing position current with
  | nil => exact ⟨h, Nat.le_refl _⟩
  | cons t rest ih =>
    unfold Cursor.pastNewlines
    split
    · obtain ⟨hin, hleft⟩ := ih (position + 1) t (h.step rfl)
      exact ⟨hin, Nat.le_trans hleft (Nat.le_succ _)⟩
    · exact ⟨h, Nat.le_refl _⟩

theorem Cursor.In.skipNewlines_kind {tokens : List Token} {c : Cursor} (h : c.In tokens) :
    c.skipNewlines.current.kind ≠ .newline := by
  obtain ⟨position, current, rest⟩ := c
  unfold Cursor.skipNewlines
  dsimp only
  induction rest generalizing position current with
  | nil =>
    intro hnewline
    have heof : current.kind = .eof := h.kind_of_left rfl
    rw [Cursor.pastNewlines, heof] at hnewline
    cases hnewline
  | cons t rest ih =>
    unfold Cursor.pastNewlines
    split
    · exact ih _ _ (h.step rfl)
    · next hkind => exact hkind

theorem Cursor.start_in {tokens : List Token}
    (hended : ∃ before last, tokens = before ++ [last] ∧ last.kind = .eof) :
    (Cursor.start tokens).In tokens ∧ (Cursor.start tokens).left < tokens.length := by
  cases tokens with
  | nil =>
    obtain ⟨before, last, hnil, -⟩ := hended
    exact absurd hnil.symm (by simp)
  | cons t tokens => exact ⟨⟨hended, rfl⟩, Nat.lt_succ_self _⟩

namespace Parser

variable {α β : Type} {tokens : List Token}

/-- What comes out of a parser that started at `c`: a place further on as `post` says, or a token to
blame. -/
def Outcome (tokens : List Token) (c : Cursor) (post : α → Cursor → Prop) :
    EStateM.Result ParseFailure Cursor α → Prop
  | .ok a c' => c'.In tokens ∧ c'.left ≤ c.left ∧ post a c'
  | .error failure c' => c'.In tokens ∧ c'.left ≤ c.left ∧ failure.FoundIn tokens

/-- The same outcome in a token list that goes on with further tokens. -/
def resultBefore (more : List Token) :
    EStateM.Result ParseFailure Cursor α → EStateM.Result ParseFailure Cursor α
  | .ok a c => .ok a (c.followedBy more)
  | .error failure c => .error failure (c.followedBy more)

/-- What follows the end of the input makes no difference to a parser that is run at `c`: it does
not read that end. -/
def StopsShort (p : Parser α) (c : Cursor) : Prop :=
  ∀ more, p (c.followedBy more) = resultBefore more (p c)

/-- Run at `c`, a parser moves on to a place as `post` says, or stops because of a token. Either way
it has not read the end of the input. -/
def Proceeds (tokens : List Token) (p : Parser α) (c : Cursor) (post : α → Cursor → Prop) : Prop :=
  c.In tokens → Outcome tokens c post (p c) ∧ p.StopsShort c

namespace Proceeds

variable {p q : Parser α} {f : α → Parser β} {c : Cursor} {mid post : α → Cursor → Prop}
  {goal : β → Cursor → Prop}

/-- The rule for a parser of which it is known how it runs. -/
theorem of_ok {a : α} {c' : Cursor} (h : p c = .ok a c')
    (hmore : c.In tokens → ∀ more, p (c.followedBy more) = .ok a (c'.followedBy more))
    (hpost : c.In tokens → c'.In tokens ∧ c'.left ≤ c.left ∧ post a c') :
    p.Proceeds tokens c post := by
  intro hc
  unfold StopsShort
  rw [h]
  exact ⟨hpost hc, hmore hc⟩

theorem pure {a : α} (h : post a c) : (Pure.pure a : Parser α).Proceeds tokens c post :=
  of_ok rfl (fun _ _ => rfl) fun hc => ⟨hc, Nat.le_refl _, h⟩

theorem throw {failure : ParseFailure} (h : c.In tokens → failure.FoundIn tokens) :
    (MonadExcept.throw failure : Parser α).Proceeds tokens c post :=
  fun hc => ⟨⟨hc, Nat.le_refl _, h hc⟩, fun _ => rfl⟩

theorem bind (hp : p.Proceeds tokens c mid)
    (hf : ∀ a m, m.left ≤ c.left → mid a m → (f a).Proceeds tokens m goal) :
    (p >>= f).Proceeds tokens c goal := by
  intro hc
  obtain ⟨hrun, hmore⟩ := hp hc
  unfold StopsShort at hmore ⊢
  change Outcome tokens c goal (EStateM.bind p f c) ∧
    ∀ more, EStateM.bind p f (c.followedBy more) = resultBefore more (EStateM.bind p f c)
  unfold EStateM.bind
  cases hpc : p c with
  | error failure m =>
    rw [hpc] at hrun hmore
    refine ⟨hrun, fun more => ?_⟩
    rw [hmore]
    rfl
  | ok a m =>
    rw [hpc] at hrun hmore
    obtain ⟨hm, hleft, hmid⟩ := hrun
    obtain ⟨hrest, hmore'⟩ := hf a m hleft hmid hm
    dsimp only
    constructor
    · cases hfm : f a m with
      | error failure m' =>
        rw [hfm] at hrest
        exact ⟨hrest.1, Nat.le_trans hrest.2.1 hleft, hrest.2.2⟩
      | ok b m' =>
        rw [hfm] at hrest
        exact ⟨hrest.1, Nat.le_trans hrest.2.1 hleft, hrest.2.2⟩
    · intro more
      rw [hmore]
      exact hmore' more

theorem imp (hp : p.Proceeds tokens c mid) (h : ∀ a c', c'.left ≤ c.left → mid a c' → post a c') :
    p.Proceeds tokens c post := by
  intro hc
  obtain ⟨hrun, hmore⟩ := hp hc
  refine ⟨?_, hmore⟩
  cases hpc : p c with
  | error failure m =>
    rw [hpc] at hrun
    exact hrun
  | ok a m =>
    rw [hpc] at hrun
    exact ⟨hrun.1, hrun.2.1, h a m hrun.2.1 hrun.2.2⟩

theorem ite {b : Prop} [Decidable b] (hp : b → p.Proceeds tokens c post)
    (hq : ¬ b → q.Proceeds tokens c post) : (if b then p else q).Proceeds tokens c post := by
  split
  · next hb => exact hp hb
  · next hb => exact hq hb

theorem current :
    Parser.current.Proceeds tokens c fun t c' => c' = c ∧ t = c.current ∧ t ∈ tokens :=
  of_ok (current_ok c) (fun _ _ => rfl) fun hc => ⟨hc, Nat.le_refl _, rfl, rfl, hc.current_mem⟩

/-- A parser may look at its whole place if what it does then does not depend on what follows the
input. -/
theorem get {f : Cursor → Parser β} (hmore : c.In tokens → ∀ more, f (c.followedBy more) = f c)
    (hf : (f c).Proceeds tokens c goal) :
    (MonadState.get >>= f : Parser β).Proceeds tokens c goal := by
  intro hc
  obtain ⟨hrun, hmore'⟩ := hf hc
  refine ⟨hrun, fun more => ?_⟩
  exact (congrFun (hmore hc more) _).trans (hmore' more)

theorem check (kinds : List TokenKind) :
    (Parser.check kinds).Proceeds tokens c fun b c' => c' = c ∧ b = kinds.contains c.current.kind :=
  of_ok (check_ok kinds c) (fun _ _ => rfl) fun hc => ⟨hc, Nat.le_refl _, rfl, rfl⟩

theorem skipNewlines : Parser.skipNewlines.Proceeds tokens c fun _ c' => c' = c.skipNewlines := by
  refine of_ok (skipNewlines_ok c) (fun hc more => ?_) fun hc =>
    ⟨hc.skipNewlines.1, hc.skipNewlines.2, rfl⟩
  rw [skipNewlines_ok, hc.skipNewlines_followedBy]

/-- Reading a token that is not the end of the input moves on. -/
theorem advance (hkind : c.current.kind ≠ .eof) :
    Parser.advance.Proceeds tokens c fun t c' => c'.left < c.left ∧ c' = c.advance ∧
      t = c.current ∧ t ∈ tokens := by
  refine of_ok (advance_ok c) (fun hc more => ?_) fun hc =>
    ⟨hc.advance, c.left_advance_le, hc.left_advance hkind, rfl, rfl, hc.current_mem⟩
  rw [advance_ok, hc.advance_followedBy hkind]
  rfl

theorem rejectAt {t : Token} (ht : t ∈ tokens) (cause : SyntaxCause) :
    (Parser.rejectAt t cause : Parser α).Proceeds tokens c post :=
  throw fun _ => ⟨t, ht, rfl⟩

theorem reject (cause : SyntaxCause) : (Parser.reject cause : Parser α).Proceeds tokens c post :=
  current.bind fun _ _ _ ht => rejectAt ht.2.2 cause

theorem expect {kind : TokenKind} (hkind : kind ≠ .eof) (cause : SyntaxCause) :
    (Parser.expect kind cause).Proceeds tokens c fun t c' => c'.left < c.left ∧
      t.kind = kind ∧ t ∈ tokens := by
  refine current.bind ?_
  rintro t m - ⟨rfl, rfl, -⟩
  refine ite (fun heq => (advance (heq ▸ hkind)).imp ?_) fun _ => reject cause
  rintro t c' - ⟨hleft, -, rfl, ht⟩
  exact ⟨hleft, heq, ht⟩

theorem expectKeyword (k : Keyword) :
    (Parser.expectKeyword k).Proceeds tokens c fun _ c' => c'.left < c.left := by
  refine current.bind ?_
  rintro t m - ⟨rfl, rfl, -⟩
  exact (expect (by simp) _).imp fun _ _ _ h => h.1

/-- Behind an expected token what follows is read at a later place. -/
theorem past {kind : TokenKind} (hkind : kind ≠ .eof) {cause : SyntaxCause} {f : Token → Parser β}
    (hf : ∀ t m, m.left < c.left → (f t).Proceeds tokens m goal) :
    (Parser.expect kind cause >>= f).Proceeds tokens c goal :=
  (expect hkind cause).bind fun t m _ h => hf t m h.1

theorem pastKeyword {k : Keyword} {f : Token → Parser β}
    (hf : ∀ t m, m.left < c.left → (f t).Proceeds tokens m goal) :
    (Parser.expectKeyword k >>= f).Proceeds tokens c goal :=
  (expectKeyword k).bind fun t m _ h => hf t m h

theorem accept {kind : TokenKind} (hkind : kind ≠ .eof) :
    (Parser.accept kind).Proceeds tokens c fun b c' =>
      (b = true → c'.left < c.left) ∧ (b = false → c.current.kind ≠ kind ∧ c' = c) := by
  refine current.bind ?_
  rintro t m - ⟨rfl, rfl, -⟩
  refine ite (fun heq => (advance (heq ▸ hkind)).bind fun _ _ _ h => ?_) fun hne => ?_
  · exact pure ⟨fun _ => h.1, fun h => by cases h⟩
  · exact pure ⟨fun h => (by cases h), fun _ => ⟨hne, rfl⟩⟩

end Proceeds

end Parser

end Pseudocode
