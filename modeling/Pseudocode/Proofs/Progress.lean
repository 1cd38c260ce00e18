import Pseudocode.Proofs.Diagnosis
import Pseudocode.Proofs.Recording

/-!
# Parsing ends and goes forward

On every token list that ends with the end of the input, well-formed or not, parsing ends: with a
program, or with a failure that a token of the list accounts for. From every place of the list, what
reads a statement, a CASE branch or an expression goes forward by at least one token if it succeeds,
and if it fails it stands no further back than where it started. It never reads the last end of the
input: whatever tokens follow it, the outcome and the place are the same (`Parser.StopsShort`).

The steps are those of `Image`; here they are put together for whole token lists. How deep the rules
call each other is not limited here. A host whose stack is too small for the nesting of a program
gives up on it, and that is no outcome of parsing.

Result: `parsing_ends_and_goes_forward`.
-/

namespace Pseudocode

open Parse

/-- A number token whose text is no number: it is no numeral, or a whole one with too many
digits. -/
def Token.IsUnreadable (t : Token) : Prop :=
  t.kind = .number ∧ ∃ s, t.value = .text s ∧ (IsNumeral s.toList →
    Number.IsDigits s.toList ∧ Number.digitLimit < s.toList.length)

/-- **A failure is accounted for.** A syntax error has the line of a token; a number is unreadable
because a token is; and a number without a text is a number token that carries none. -/
theorem ParseFailure.FoundIn.cases {tokens : List Token} {failure : ParseFailure}
    (h : failure.FoundIn tokens) :
    (∃ e, failure = .rejected e ∧ ∃ t ∈ tokens, e.line = t.line) ∨
      (failure = .unreadableNumber ∧ ∃ t ∈ tokens, t.IsUnreadable) ∨
      (failure = .numberWithoutText ∧ ∃ t ∈ tokens, t.kind = .number ∧ ∀ s, t.value ≠ .text s) := by
  cases failure with
  | rejected e => exact .inl ⟨e, rfl, h⟩
  | unreadableNumber =>
    obtain ⟨t, ht, hkind, s, hvalue, hnone⟩ := h
    refine .inr (.inl ⟨rfl, t, ht, hkind, s, hvalue, fun hnumeral => ?_⟩)
    exact numeralValue?_eq_none hnumeral (String.ofList_toList ▸ hnone)
  | numberWithoutText => exact .inr (.inr ⟨rfl, h⟩)
  | exhausted => exact h.elim

namespace Parser

variable {α : Type} {tokens : List Token}

/-- From `c` a parser goes forward in a token list: if it succeeds by at least one token, and if it
fails not back. It stays on the tokens of the list and does not read the last of them. -/
structure GoesForward (tokens : List Token) (p : Parser α) (c : Cursor) : Prop where
  success : ∀ a c', p c = .ok a c' → c'.In tokens ∧ c.position < c'.position
  failure : ∀ failure c', p c = .error failure c' →
    c'.In tokens ∧ c.position ≤ c'.position ∧ failure.FoundIn tokens
  short : p.StopsShort c

theorem Moves.goesForward {p : Parser α} {n : Nat} (h : p.Moves tokens n) {c : Cursor}
    (hc : c.In tokens) (hn : c.left + 2 ≤ n) : p.GoesForward tokens c := by
  obtain ⟨hrun, hshort⟩ := h c hn hc
  have hplace := hc.position_add_left
  refine ⟨fun a c' hok => ?_, fun failure c' hfailed => ?_, hshort⟩
  · rw [hok] at hrun
    obtain ⟨hc', -, hleft⟩ := hrun
    have hplace' := hc'.position_add_left
    exact ⟨hc', by omega⟩
  · rw [hfailed] at hrun
    obtain ⟨hc', hleft, hfound⟩ := hrun
    have hplace' := hc'.position_add_left
    exact ⟨hc', by omega, hfound⟩

end Parser

/-- **Parsing ends and goes forward.** For every token list that ends with the end of the input:
parsing ends at a place of the list, with a program and at an end of the input, or with a syntax
error on the line of a token, or at a number token whose text is no number, which for a numeral
means a whole number with too many digits, or at a number token that carries no text. It never ends
for want of steps. What follows the list makes no difference, so its last token is not read. And
wherever a statement, a CASE branch or an expression is read, with more steps allowed than tokens
are left, reading goes forward. -/
theorem parsing_ends_and_goes_forward (tokens : List Token)
    (hended : ∃ before last, tokens = before ++ [last] ∧ last.kind = .eof) :
    ((∃ b c, Parser.runOn program tokens = .ok b c ∧ c.In tokens ∧ c.current.kind = .eof) ∨
      ∃ failure c, Parser.runOn program tokens = .error failure c ∧ c.In tokens ∧
        ((∃ e, failure = .rejected e ∧ ∃ t ∈ tokens, e.line = t.line) ∨
          (failure = .unreadableNumber ∧ ∃ t ∈ tokens, t.IsUnreadable) ∨
          (failure = .numberWithoutText ∧
            ∃ t ∈ tokens, t.kind = .number ∧ ∀ s, t.value ≠ .text s))) ∧
    (program (stepBound tokens)).StopsShort (Cursor.start tokens) ∧
    ∀ c n, c.In tokens → c.left + 2 ≤ n →
      (statement n).GoesForward tokens c ∧ (caseBranch (statement n) n).GoesForward tokens c ∧
      ∀ power, 0 ≤ power → (expression n power).GoesForward tokens c := by
  obtain ⟨hrun, hshort⟩ := program_proceeds hended
  refine ⟨?_, hshort, fun c n hc hn => ⟨(statement_moves tokens n).goesForward hc hn,
    (caseBranch_moves (statement_yields tokens n)).goesForward hc hn,
    fun power hpower => (expression_moves tokens n hpower).goesForward hc hn⟩⟩
  cases hparse : Parser.runOn program tokens with
  | ok b c =>
    rw [hparse] at hrun
    exact .inl ⟨b, c, rfl, hrun.1, eof_of_runOn hparse⟩
  | error failure c =>
    rw [hparse] at hrun
    exact .inr ⟨failure, c, rfl, hrun.1, hrun.2.2.cases⟩

/-- A condition that is cut off by an end of the input in the middle of a token list. -/
def cutCondition : List Token :=
  [⟨.keyword .ifKw, .text "IF", 1, 1⟩, ⟨.identifier, .text "x", 1, 4⟩, .eofAt 2 1,
    ⟨.keyword .thenKw, .text "THEN", 3, 1⟩, .eofAt 4 1]

/-- The cut condition is no program, the failure is accounted for, and its expression is read
forward. -/
theorem cutCondition_is_accounted_for :
    (∃ e c, Parser.runOn program cutCondition = .error (.rejected e) c ∧ c.In cutCondition ∧
      ∃ t ∈ cutCondition, e.line = t.line) ∧
    (expression 6 0).GoesForward cutCondition (Cursor.start cutCondition).advance := by
  have hended : ∃ before last, cutCondition = before ++ [last] ∧ last.kind = .eof :=
    ⟨cutCondition.dropLast, .eofAt 4 1, rfl, rfl⟩
  obtain ⟨hends, -, hforward⟩ := parsing_ends_and_goes_forward cutCondition hended
  refine ⟨?_, (hforward _ 6 ⟨hended, rfl⟩ (by decide)).2.2 0 (by decide)⟩
  have hfails : ∃ e c, Parser.runOn program cutCondition = .error (.rejected e) c := ⟨_, _, rfl⟩
  obtain ⟨e, c, hfails⟩ := hfails
  rw [hfails] at hends
  rcases hends with ⟨b, c', hok, -⟩ | ⟨failure, c', herror, hc, hcause⟩
  · cases hok
  · cases herror
    rcases hcause with ⟨e', he, hline⟩ | ⟨hother, -⟩ | ⟨hother, -⟩
    · cases he
      exact ⟨e, c, hfails, hc, hline⟩
    · cases hother
    · cases hother

end Pseudocode
