import Pseudocode.Diagnostics
import Pseudocode.Proofs.Canonical

/-!
# Diagnosing a source

A source is diagnosed without complaint exactly if it is a program, with one exception. A source of
nothing but white space is never complained about, but the scanner knows only four of the characters
that are white space: a form feed or a no-break space is an unexpected character to it. Otherwise a
source that is no program has one diagnostic, with the line and the message of the error at which
scanning or parsing stops. It is the error's own line, since lines are counted from one and every
error has the line of a character or a token.

Result: `diagnose_agrees_with_parseSource`.
-/

namespace Pseudocode

open LexemeRule

/-! ## Lines of tokens and errors -/

theorem line_of_scanFrom_error {p : Position} {cs : List Char} {e : LexicalError}
    (h : scanFrom p cs = .error e) : p.line ≤ e.position.line := by
  fun_induction scanFrom p cs generalizing e with
  | case1 => cases h
  | case2 =>
    cases h
    exact Int.le_refl _
  | case3 =>
    cases h
    exact Int.le_refl _
  | case4 p c rest kind n hnext lexeme tokens htokens e' he' =>
    rename_i ih
    cases h
    exact Int.le_trans (p.line_after lexeme) (ih he')
  | case5 => cases h

/-! ## White space -/

/-- The white space that the scanner knows. -/
def isLayout (c : Char) : Bool :=
  isSpacing c || c == '\n'

/-- A source of white space only, some of which the scanner does not know. -/
def OddlyBlank (source : String) : Prop :=
  (∀ c ∈ source.toList, Text.isBlank c = true) ∧ ∃ c ∈ source.toList, isLayout c = false

theorem trimChars_eq_nil {cs : List Char} :
    Text.trimChars cs = [] ↔ ∀ c ∈ cs, Text.isBlank c = true := by
  rw [Text.trimChars, List.reverse_eq_nil_iff, List.dropWhile_eq_nil_iff]
  simp only [List.mem_reverse]
  constructor
  · intro h c hc
    rw [← List.takeWhile_append_dropWhile (p := Text.isBlank) (l := cs)] at hc
    exact (List.mem_append.mp hc).elim mem_takeWhile (h c)
  · intro h c hc
    exact h c ((List.dropWhile_sublist _).mem hc)

/-- The codes of white space. -/
def blankCodes : List Nat :=
  [0x09, 0x0A, 0x0B, 0x0C, 0x0D, 0x1C, 0x1D, 0x1E, 0x1F, 0x20, 0x85, 0xA0, 0x1680, 0x2000, 0x2001,
    0x2002, 0x2003,
    0x2004, 0x2005, 0x2006, 0x2007, 0x2008, 0x2009, 0x200A, 0x2028, 0x2029, 0x202F, 0x205F, 0x3000]

theorem mem_blankCodes {c : Char} (h : Text.isBlank c = true) : c.toNat ∈ blankCodes := by
  simp only [Text.isBlank, Bool.or_eq_true, Bool.and_eq_true, decide_eq_true_eq, beq_iff_eq] at h
  simp only [blankCodes, List.mem_cons, List.not_mem_nil, or_false]
  omega

/-- White space that the scanner does not know begins no lexeme. -/
theorem nextLexeme?_oddBlank {c : Char} (h : Text.isBlank c = true) (hodd : isLayout c = false)
    (rest : List Char) : nextLexeme? (c :: rest) = none := by
  have hall : blankCodes.all (fun n => isLayout (Char.ofNat n) ||
      !markStarts.contains (Char.ofNat n) && !(Char.ofNat n).isDigit && Char.ofNat n != '"' &&
        Char.ofNat n != '\'' && !Text.isWordStart (Char.ofNat n)) = true := by decide +kernel
  have hc := List.all_eq_true.mp hall _ (mem_blankCodes h)
  rw [Char.ofNat_toNat, hodd] at hc
  simp only [Bool.false_or, Bool.and_eq_true, Bool.not_eq_true', bne_iff_ne, ne_eq] at hc
  obtain ⟨⟨⟨⟨hmark, hdigit⟩, hquote⟩, hprime⟩, hword⟩ := hc
  have hnumber : numberLength (c :: rest) = 0 := by simp [numberLength, run, hdigit]
  have hwordLength : wordLength (c :: rest) = 0 := by simp [wordLength, hword]
  rw [nextLexeme?_text (by simpa using hmark), textRules, firstMatch_cons_zero hnumber,
    firstMatch_cons_zero (closedLength_of_ne hquote rest),
    firstMatch_cons_zero (closedLength_of_ne hprime rest),
    firstMatch_cons_zero (openLength_of_ne hquote rest),
    firstMatch_cons_zero (openLength_of_ne hprime rest), firstMatch_cons_zero hwordLength]
  rfl

theorem scanFrom_oddBlank {c : Char} (h : Text.isBlank c = true) (hodd : isLayout c = false)
    (rest : List Char) (p : Position) : scanFrom p (c :: rest) = .error ⟨.unexpected c, p⟩ := by
  rw [scanFrom]
  split
  · rfl
  · next hnext =>
    rw [nextLexeme?_oddBlank h hodd] at hnext
    cases hnext

/-- White space that the scanner knows is scanned into line ends. -/
theorem scanFrom_layoutStart {c : Char} (h : isLayout c = true) (rest : List Char) (p : Position) :
    ∃ xs more ts, c :: rest = xs ++ more ∧ xs ≠ [] ∧ (∀ d ∈ xs, isLayout d = true) ∧
      (∀ t ∈ ts, t.kind = .newline) ∧
        scanFrom p (c :: rest) = (scanFrom (p.after xs) more).map (ts ++ ·) := by
  rw [isLayout, Bool.or_eq_true, beq_iff_eq] at h
  by_cases hspacing : isSpacing c = true
  · have hsplit := List.takeWhile_append_dropWhile (p := isSpacing) (l := c :: rest)
    have hne : (c :: rest).takeWhile isSpacing ≠ [] := by simp [hspacing]
    refine ⟨(c :: rest).takeWhile isSpacing, (c :: rest).dropWhile isSpacing, [], hsplit.symm, hne,
      fun d hd => ?_, by simp, ?_⟩
    · rw [isLayout, mem_takeWhile hd, Bool.true_or]
    · have hnext :
          nextLexeme? (c :: rest) = some (.blank, ((c :: rest).takeWhile isSpacing).length) :=
        @firstMatch_cons_pos (c :: rest) .blank
          (run isSpacing) _ rfl (List.length_pos_iff.mpr hne) _
      have hscan := @scanFrom_append .blank _ ((c :: rest).dropWhile isSpacing) p [] hne
        (by rw [hsplit]; exact hnext) rfl
      rw [hsplit] at hscan
      exact hscan
  · obtain rfl := h.resolve_left hspacing
    refine ⟨['\n'], rest, [⟨.newline, .text "\n", p.line, p.column⟩],
      rfl, by simp, by simp [isLayout], by simp, ?_⟩
    exact @scanFrom_append .newline ['\n'] rest p _ (by simp) (nextLexeme?_lineEnd rest) rfl

/-- **Scanning white space**: if the scanner knows all of it there is nothing but line ends, else
scanning stops at a character that it does not know. -/
theorem scanFrom_blank {p : Position} {cs : List Char} (hcs : ∀ c ∈ cs, Text.isBlank c = true) :
    ((∀ c ∈ cs, isLayout c = true) ∧
        ∃ ts, scanFrom p cs = .ok ts ∧ ∀ t ∈ ts, t.kind = .newline ∨ t.kind = .eof) ∨
      ∃ c ∈ cs, isLayout c = false ∧
        ∃ position, scanFrom p cs = .error ⟨.unexpected c, position⟩ := by
  induction hlen : cs.length using Nat.strong_induction_on generalizing p cs with
  | _ len ih =>
    cases cs with
    | nil => exact Or.inl ⟨by simp, _, by rw [scanFrom], by simp [Token.eofAt]⟩
    | cons c rest =>
      cases hlayout : isLayout c with
      | false =>
        exact Or.inr ⟨c, by simp, hlayout, p, scanFrom_oddBlank (hcs c (by simp)) hlayout rest p⟩
      | true =>
        obtain ⟨xs, more, ts, hsplit, hne, hxs, hts, hscan⟩ := scanFrom_layoutStart hlayout rest p
        rw [hscan, hsplit]
        rw [hsplit] at hcs hlen
        have hshorter : more.length < len := by
          have := List.length_pos_iff.mpr hne
          rw [List.length_append] at hlen
          omega
        have hmore : ∀ d ∈ more, Text.isBlank d = true :=
          fun d hd => hcs d (List.mem_append_right _ hd)
        obtain ⟨hall, ts', hok, hts'⟩ | ⟨d, hd, hodd, position, herror⟩ :=
          ih more.length hshorter (p := p.after xs) hmore rfl
        · refine Or.inl ⟨List.forall_mem_append.mpr ⟨hxs, hall⟩, ts ++ ts', by rw [hok]; rfl, ?_⟩
          exact List.forall_mem_append.mpr ⟨fun t ht => Or.inl (hts t ht), hts'⟩
        · exact Or.inr ⟨d, List.mem_append_right _ hd, hodd, position, by rw [herror]; rfl⟩

/-! ## Sources without statements -/

/-- Line ends alone are the empty program. -/
theorem parseTokens_lineEnds {tokens : List Token}
    (hended : ∃ before last, tokens = before ++ [last] ∧ last.kind = .eof)
    (hkinds : ∀ t ∈ tokens, t.kind = .newline ∨ t.kind = .eof) : parseTokens tokens = .ok [] := by
  have hin := (Cursor.start_in hended).1
  have heof : (Cursor.start tokens).skipNewlines.current.kind = .eof :=
    (hkinds _ hin.skipNewlines.1.current_mem).resolve_left hin.skipNewlines_kind
  have hrun : Parse.program (Parse.stepBound tokens) (Cursor.start tokens) =
      .ok [] (Cursor.start tokens).skipNewlines := by
    rw [Parse.program, Parse.stepBound, Parse.block, Parser.bind_ok (Parser.skipNewlines_ok _),
      Parser.bind_ok (Parser.check_ok _ _), heof]
    rfl
  rw [parseTokens, Parser.runOn, hrun]

/-! ## Errors of a source -/

/-- A number that the scanner finds can be read unless it is whole and has too many digits. -/
theorem numeralValue?_eq_none {cs : List Char} (hcs : IsNumeral cs)
    (h : numeralValue? (String.ofList cs) = none) :
    Number.IsDigits cs ∧ Number.digitLimit < cs.length := by
  unfold numeralValue? at h
  obtain ⟨whole, hne, hw, rfl | ⟨fraction, hf, rfl⟩⟩ := hcs
  · rw [contains_point_digits hw, if_neg (by decide), Number.liberalWhole?_digits hne hw] at h
    split at h
    · next hlong => exact ⟨hw, hlong⟩
    · cases h
  · rw [contains_point_decimal, if_pos rfl, Number.liberalReal?_decimal hne hw hf] at h
    cases h

/-- **What can be wrong with a source**: it has an error with a line, or a whole number with too
many digits. -/
theorem parseSource_error {source : String} {e : SourceError} (h : parseSource source = .error e) :
    1 ≤ e.line ∨ e = .unreadableNumber ∧ ∃ tokens, tokenize source = .ok tokens ∧
      ∃ t ∈ tokens, t.kind = .number ∧ ∃ digits, t.value = .text (String.ofList digits) ∧
        Number.IsDigits digits ∧ Number.digitLimit < digits.length := by
  unfold parseSource at h
  split at h
  · next e' he' =>
    cases h
    exact Or.inl (line_of_scanFrom_error he')
  · next tokens htokens =>
    obtain ⟨hlines, hended, -⟩ := tokens_of_scanFrom htokens
    have hproper : ∀ t ∈ tokens, t.Proper := proper_of_scanFrom htokens
    unfold parseTokens at h
    split at h
    · cases h
    · next failure c hrun =>
      cases h
      obtain ⟨-, -, hfound⟩ : Parser.Outcome tokens _ _ (.error _ _) :=
        hrun ▸ (program_proceeds hended).1
      cases failure with
      | rejected e =>
        obtain ⟨t, ht, hline⟩ := hfound
        refine Or.inl ?_
        rw [show (SourceError.ofFailure (.rejected e)).line = t.line from hline]
        exact hlines t ht
      | unreadableNumber =>
        obtain ⟨t, ht, hkind, s, hvalue, hnone⟩ := hfound
        obtain ⟨digits, hdigits, hnumeral⟩ : ∃ cs, t.value = .text (String.ofList cs) ∧
            IsNumeral cs := by
          have hp := hproper t ht
          rw [Token.Proper, hkind] at hp
          exact hp
        rw [hdigits] at hvalue
        cases hvalue
        exact Or.inr ⟨rfl, tokens, htokens, t, ht, hkind, digits, hdigits,
          numeralValue?_eq_none hnumeral hnone⟩
      | numberWithoutText =>
        obtain ⟨t, ht, hkind, hnone⟩ := hfound
        have hp := hproper t ht
        rw [Token.Proper, hkind] at hp
        obtain ⟨cs, hvalue, -⟩ := hp
        exact absurd hvalue (hnone _)
      | exhausted => exact hfound.elim

theorem diagnose_of_blank {filename source : String}
    (h : ∀ c ∈ source.toList, Text.isBlank c = true) : diagnose filename source = .ok [] := by
  rw [diagnose, trimChars_eq_nil.mpr h]
  rfl

theorem diagnose_of_ok {filename source : String} {program : Block}
    (h : parseSource source = .ok program) : diagnose filename source = .ok [] := by
  rw [diagnose, h]
  split <;> rfl

theorem isEmpty_trimChars {source : String} (h : ¬ ∀ c ∈ source.toList, Text.isBlank c = true) :
    (Text.trimChars source.toList).isEmpty = false := by
  rw [Bool.eq_false_iff, ne_eq, List.isEmpty_iff, trimChars_eq_nil]
  exact h

/-- An error with a line is the one diagnostic of a source that is not blank. -/
theorem diagnose_of_line {filename source : String} {e : SourceError}
    (h : parseSource source = .error e) (hline : 1 ≤ e.line)
    (hblank : ¬ ∀ c ∈ source.toList, Text.isBlank c = true) :
    diagnose filename source = .ok [⟨e.line, e.message filename source⟩] := by
  have hreported : ∀ message, reportedLine e.line message = .ok e.line := fun message =>
    if_pos fun hzero => by omega
  rw [diagnose, isEmpty_trimChars hblank, if_neg (by decide), h]
  cases e with
  | lexical e =>
    have hown : reportedLine e.position.line (e.message filename source) = .ok e.position.line :=
      hreported _
    dsimp only
    rw [hown]
    rfl
  | syntactic e =>
    have hown : reportedLine e.line e.message = .ok e.line := hreported _
    dsimp only
    rw [hown]
    rfl
  | _ => exact absurd hline (by decide)

/-- A blank source is the empty program, or the scanner stops in it. -/
theorem parseSource_blank {source : String} (h : ∀ c ∈ source.toList, Text.isBlank c = true) :
    (¬ OddlyBlank source ∧ parseSource source = .ok []) ∨
      OddlyBlank source ∧
        ∃ c position, parseSource source = .error (.lexical ⟨.unexpected c, position⟩) := by
  obtain ⟨hall, ts, hok, hkinds⟩ | ⟨c, hc, hodd, position, herror⟩ := @scanFrom_blank {} _ h
  · refine Or.inl ⟨?_, ?_⟩
    · rintro ⟨-, c, hc, hodd⟩
      rw [hall c hc] at hodd
      cases hodd
    · have htokens : tokenize source = .ok ts := hok
      rw [parseSource, htokens]
      exact parseTokens_lineEnds (tokens_of_scanFrom hok).2.1 hkinds
  · refine Or.inr ⟨⟨h, c, hc, hodd⟩, c, position, ?_⟩
    have htokens : tokenize source = .error ⟨.unexpected c, position⟩ := herror
    rw [parseSource, htokens]

theorem not_blank_of_error {source : String} {e : SourceError} (h : parseSource source = .error e)
    (hodd : ¬ OddlyBlank source) : ¬ ∀ c ∈ source.toList, Text.isBlank c = true := by
  intro hblank
  obtain ⟨-, hok⟩ | ⟨hodd', -⟩ := parseSource_blank hblank
  · rw [hok] at h
    cases h
  · exact hodd hodd'

/-- A number that cannot be read is passed on. -/
theorem diagnose_of_unreadable {filename source : String}
    (h : parseSource source = .error .unreadableNumber) :
    diagnose filename source = .error .unreadableNumber := by
  have hblank : ¬ ∀ c ∈ source.toList, Text.isBlank c = true := by
    intro hblank
    obtain ⟨-, hok⟩ | ⟨-, c, position, herror⟩ := parseSource_blank hblank
    · rw [hok] at h
      cases h
    · rw [herror] at h
      cases h
  rw [diagnose, isEmpty_trimChars hblank, if_neg (by decide), h]

/-- **Diagnosing a source agrees with parsing it**, but for sources of white space that the scanner
does not know. There is nothing to complain about exactly if the source is a program or such white
space. Else there is one diagnostic, with the line and the message of the error that parsing stops
with, except that a whole number with too many digits is passed on as it is. White space that the
scanner does not know is no program. -/
theorem diagnose_agrees_with_parseSource (filename source : String) :
    (diagnose filename source = .ok [] ↔
      (∃ program, parseSource source = .ok program) ∨ OddlyBlank source) ∧
    (∀ e, parseSource source = .error e → ¬ OddlyBlank source → e ≠ .unreadableNumber →
      diagnose filename source = .ok [⟨e.line, e.message filename source⟩]) ∧
    (parseSource source = .error .unreadableNumber →
      diagnose filename source = .error .unreadableNumber ∧
      ∃ tokens, tokenize source = .ok tokens ∧ ∃ t ∈ tokens, t.kind = .number ∧
        ∃ digits, t.value = .text (String.ofList digits) ∧ Number.IsDigits digits ∧
          Number.digitLimit < digits.length) ∧
    (OddlyBlank source →
      ∃ c position, parseSource source = .error (.lexical ⟨.unexpected c, position⟩)) := by
  refine ⟨⟨fun hnone => ?_, ?_⟩, fun e he hodd hne => ?_, fun he => ?_, fun hodd => ?_⟩
  · cases hparse : parseSource source with
    | ok program => exact Or.inl ⟨program, rfl⟩
    | error e =>
      by_contra hneither
      have hodd : ¬ OddlyBlank source := fun hodd => hneither (Or.inr hodd)
      obtain hline | ⟨rfl, -⟩ := parseSource_error hparse
      · rw [diagnose_of_line hparse hline (not_blank_of_error hparse hodd)] at hnone
        cases hnone
      · rw [diagnose_of_unreadable hparse] at hnone
        cases hnone
  · rintro (⟨program, hok⟩ | hodd)
    · exact diagnose_of_ok hok
    · exact diagnose_of_blank hodd.1
  · have hline := (parseSource_error he).resolve_right fun h => hne h.1
    exact diagnose_of_line he hline (not_blank_of_error he hodd)
  · obtain hline | ⟨-, hlong⟩ := parseSource_error he
    · exact absurd hline (by decide)
    · exact ⟨diagnose_of_unreadable he, hlong⟩
  · obtain ⟨hnot, -⟩ | ⟨-, hstop⟩ := parseSource_blank hodd.1
    · exact absurd hodd hnot
    · exact hstop

/-- An IF without a condition has one diagnostic. -/
theorem lone_if_is_diagnosed :
    parseSource "IF" = .error (.syntactic ⟨.unexpectedInExpression "end of input", 1⟩) ∧
      diagnose "<editor>" "IF" =
        .ok [⟨1, "Unexpected 'end of input' in expression at line 1"⟩] := by
  have hparse :
      parseSource "IF" = .error (.syntactic ⟨.unexpectedInExpression "end of input", 1⟩) := by
    have hscan : tokenize "IF" = .ok [⟨.keyword .ifKw, .text "IF", 1, 1⟩, .eofAt 1 3] := by
      decide +kernel
    rw [parseSource, hscan]
    rfl
  have hodd : ¬ OddlyBlank "IF" := fun h => absurd (h.1 'I' (by decide)) (by decide)
  exact ⟨hparse, (diagnose_agrees_with_parseSource "<editor>" "IF").2.1 _ hparse hodd (by decide)⟩

/-- A form feed is blank to the diagnosis and an unexpected character to the scanner. -/
theorem form_feed_is_diagnosed_as_blank :
    diagnose "<editor>" "\x0c" = .ok [] ∧
      parseSource "\x0c" = .error (.lexical ⟨.unexpected '\x0c', {}⟩) := by
  have hscan : tokenize "\x0c" = .error ⟨.unexpected '\x0c', {}⟩ :=
    scanFrom_oddBlank (by decide) (by decide) [] {}
  have hblank : ∀ c ∈ ['\x0c'], Text.isBlank c = true := List.forall_mem_singleton.mpr (by decide)
  refine ⟨diagnose_of_blank hblank, ?_⟩
  rw [parseSource, hscan]

end Pseudocode
