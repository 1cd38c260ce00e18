import Pseudocode.Proofs.Scanning

/-!
# Scanning line by line

No rule of the scanner looks past the end of a line: in front of a line break a rule finds what it
finds at the end of the input (`LexemeRule.LineBound`), and only the rule for line breaks takes one.
So a source is scanned line by line. The lines in front of a line break are scanned as if nothing
followed, and the lines after it as if nothing came before, but for the numbers of the lines.

Results:
* `nextLexeme?_beforeBreak`: the lexeme in front of a line break does not depend on what follows.
* `scanFrom_break`: a line break divides what is scanned.
* `scanFrom_moved`: the line at which scanning starts is added to every line.
* `message_beforeBreak`: the message of an error shows the line of the error and no other.
* `tokenize_line_by_line`: all of this for whole sources.
-/

namespace Pseudocode

open LexemeRule

/-! ## Rules in front of a line break -/

/-- A rule that finds the same in front of a line break as at the end of the input, and never more
than there is. -/
structure LexemeRule.LineBound (r : LexemeRule) : Prop where
  length_le : ∀ cs, r.length cs ≤ cs.length
  length_break : ∀ cs rest, cs ≠ [] → r.length (cs ++ '\n' :: rest) = r.length cs

namespace LexemeRule

variable {p : Char → Bool} {cs : List Char} (rest : List Char) {b : Char}

theorem run_le (p : Char → Bool) (cs : List Char) : run p cs ≤ cs.length :=
  (List.takeWhile_prefix p).length_le

theorem run_break (hp : p b = false) (cs : List Char) : run p (cs ++ b :: rest) = run p cs := by
  unfold run
  induction cs with
  | nil => simp [hp]
  | cons c cs ih =>
    by_cases hc : p c = true
    · simp [hc, ih]
    · simp [hc]

theorem isPrefixOf_break {text : List Char} (htext : b ∉ text) (cs : List Char) :
    text.isPrefixOf (cs ++ b :: rest) = text.isPrefixOf cs := by
  induction text generalizing cs with
  | nil => simp
  | cons t text ih =>
    rw [List.mem_cons, not_or] at htext
    cases cs with
    | nil => simp [List.isPrefixOf, Ne.symm htext.1]
    | cons c cs => simp only [List.cons_append, List.isPrefixOf, ih htext.2]

theorem fixed_le (kind : LexemeKind) (text : String) (cs : List Char) :
    (fixed kind text).length cs ≤ cs.length := by
  unfold fixed
  dsimp only
  split
  · next h => exact (List.isPrefixOf_iff_prefix.mp h).length_le
  · exact Nat.zero_le _

theorem fixed_break (kind : LexemeKind) {text : String} (htext : b ∉ text.toList) (cs : List Char) :
    (fixed kind text).length (cs ++ b :: rest) = (fixed kind text).length cs := by
  simp only [fixed, isPrefixOf_break rest htext cs]

theorem lineBound_fixed (kind : LexemeKind) {text : String} (htext : '\n' ∉ text.toList) :
    (fixed kind text).LineBound where
  length_le := fixed_le kind text
  length_break cs rest _ := fixed_break rest kind htext cs

/-- The rule for line breaks has nothing to find before the next one, unless it stands there
already. -/
theorem lineBound_newline : (fixed .newline "\n").LineBound where
  length_le := fixed_le .newline "\n"
  length_break cs rest hcs := by
    obtain ⟨c, cs, rfl⟩ := List.exists_cons_of_ne_nil hcs
    simp [fixed]

theorem lineBound_run (kind : LexemeKind) (hp : p '\n' = false) : LineBound ⟨kind, run p⟩ where
  length_le := run_le p
  length_break cs rest _ := run_break rest hp cs

theorem lineBound_comment : LineBound ⟨.comment, commentLength⟩ where
  length_le cs := by
    dsimp only
    unfold commentLength
    split
    · next tail =>
      have := run_le (· != '\n') tail
      simp only [List.length_cons]
      omega
    · exact Nat.zero_le _
  length_break cs rest hcs := by
    dsimp only
    obtain ⟨c, cs, rfl⟩ := List.exists_cons_of_ne_nil hcs
    cases cs with
    | nil => simp [commentLength]
    | cons d cs =>
      by_cases hc : c = '/'
      · by_cases hd : d = '/'
        · subst hc hd
          simp only [List.cons_append, commentLength,
            run_break rest (b := '\n') (p := (· != '\n')) (by decide)]
        · simp [commentLength, hd]
      · simp [commentLength, hc]

theorem wordLength_break (hb : Text.isWord b = false) (hcs : cs ≠ []) :
    wordLength (cs ++ b :: rest) = wordLength cs := by
  obtain ⟨c, cs, rfl⟩ := List.exists_cons_of_ne_nil hcs
  simp only [List.cons_append, wordLength, run_break rest hb]

theorem lineBound_word : LineBound ⟨.word, wordLength⟩ where
  length_le cs := by
    cases cs with
    | nil => exact Nat.le_refl 0
    | cons c cs =>
      have := run_le Text.isWord cs
      simp only [wordLength, List.length_cons]
      split <;> omega
  length_break _ rest hcs := wordLength_break rest (by decide +kernel) hcs

theorem numberLength_break (hb : b.isDigit = false) (hpoint : b ≠ '.') (cs : List Char) :
    numberLength (cs ++ b :: rest) = numberLength cs := by
  have hdigits : ∀ cs, run Char.isDigit (cs ++ b :: rest) = run Char.isDigit cs := run_break rest hb
  dsimp only [numberLength]
  rw [hdigits, List.drop_append_of_le_length (run_le Char.isDigit cs)]
  cases hdrop : cs.drop (run Char.isDigit cs) with
  | nil => simp [hpoint]
  | cons d tail =>
    by_cases hd : d = '.'
    · simp [hd, hdigits]
    · simp [hd]

theorem lineBound_number : LineBound ⟨.number, numberLength⟩ where
  length_le cs := by
    have hwhole := run_le Char.isDigit cs
    dsimp only [numberLength]
    split
    · exact Nat.zero_le _
    · split
      · next tail htail =>
        have hlength := congrArg List.length htail
        have := run_le Char.isDigit tail
        simp only [List.length_drop, List.length_cons] at hlength
        omega
      · exact hwhole
  length_break cs rest _ := numberLength_break rest (by decide) (by decide) cs

section Quotes

variable {q : Char} (hq : q ≠ '\n')

theorem openLength_le (q : Char) (cs : List Char) : openLength q cs ≤ cs.length := by
  cases cs with
  | nil => exact Nat.le_refl 0
  | cons c cs =>
    have := run_le (fun c => c != q && c != '\n') cs
    simp only [openLength, List.length_cons]
    split <;> omega

theorem openLength_break (hcs : cs ≠ []) : openLength q (cs ++ '\n' :: rest) = openLength q cs := by
  obtain ⟨c, cs, rfl⟩ := List.exists_cons_of_ne_nil hcs
  have hrun := run_break (b := '\n') (p := fun c => c != q && c != '\n') rest (by simp) cs
  simp only [List.cons_append, openLength, hrun]

theorem lineBound_open (kind : LexemeKind) (q : Char) : LineBound ⟨kind, openLength q⟩ where
  length_le := openLength_le q
  length_break _ rest hcs := openLength_break rest hcs

include hq in
/-- A literal that is not closed before the line break is not closed at all. -/
theorem lineBound_closed (kind : LexemeKind) : LineBound ⟨kind, closedLength q⟩ where
  length_le cs := by
    have hopen := openLength_le q cs
    dsimp only [closedLength]
    split
    · exact Nat.zero_le _
    · split
      · next hclose =>
        obtain ⟨tail, htail⟩ := List.head?_eq_some_iff.mp hclose
        have hlength := congrArg List.length htail
        simp only [List.length_drop, List.length_cons] at hlength
        omega
      · exact Nat.zero_le _
  length_break cs rest hcs := by
    dsimp only [closedLength]
    rw [openLength_break rest hcs, List.drop_append_of_le_length (openLength_le q cs)]
    cases cs.drop (openLength q cs) with
    | nil => simp [Ne.symm hq]
    | cons d tail => simp

end Quotes

end LexemeRule

theorem lineBound_layoutRules : ∀ r ∈ layoutRules, r.LineBound := by
  simp only [layoutRules, List.forall_mem_cons]
  exact ⟨lineBound_run .blank (by decide), lineBound_newline, lineBound_comment, by simp⟩

theorem lineBound_symbolRules : ∀ r ∈ symbolRules, r.LineBound := by
  have htexts : ∀ p ∈ symbolTexts, '\n' ∉ p.2.toList := by decide
  intro r hr
  obtain ⟨p, hp, rfl⟩ := List.mem_map.mp hr
  exact lineBound_fixed _ (htexts p hp)

theorem lineBound_textRules : ∀ r ∈ textRules, r.LineBound := by
  simp only [textRules, List.forall_mem_cons]
  exact ⟨lineBound_number, lineBound_closed (by decide) .literal,
    lineBound_closed (by decide) .literal,
    lineBound_open .openString '"', lineBound_open .openChar '\'', lineBound_word, by simp⟩

/-- **No rule looks past the end of a line.** -/
theorem lineBound_lexemeRules : ∀ r ∈ lexemeRules, r.LineBound := by
  intro r hr
  rw [lexemeRules_eq, List.mem_append, List.mem_append] at hr
  rcases hr with (hr | hr) | hr
  · exact lineBound_layoutRules r hr
  · exact lineBound_symbolRules r hr
  · exact lineBound_textRules r hr

/-! ## Lexemes and line breaks -/

theorem firstMatch_break {rules : List LexemeRule} (hrules : ∀ r ∈ rules, r.LineBound)
    {cs : List Char} (hcs : cs ≠ []) (rest : List Char) :
    firstMatch (cs ++ '\n' :: rest) rules = firstMatch cs rules := by
  induction rules with
  | nil => rfl
  | cons r rules ih =>
    have hr := (hrules r List.mem_cons_self).length_break cs rest hcs
    rw [firstMatch, firstMatch, hr, ih fun r hr => hrules r (List.mem_cons_of_mem _ hr)]

/-- **The lexeme in front of a line break** does not depend on what follows. -/
theorem nextLexeme?_beforeBreak {cs : List Char} (hcs : cs ≠ []) (rest : List Char) :
    nextLexeme? (cs ++ '\n' :: rest) = nextLexeme? cs :=
  firstMatch_break lineBound_lexemeRules hcs rest

theorem nextLexeme?_le {cs : List Char} {kind : LexemeKind} {n : Nat}
    (h : nextLexeme? cs = some (kind, n)) : n ≤ cs.length := by
  obtain ⟨r, hr, -, rfl, -⟩ := exists_rule_of_firstMatch h
  exact (lineBound_lexemeRules r hr).length_le cs

/-- **A line break is a lexeme of its own**, and no other lexeme has one in it. -/
theorem lexeme_within_line {cs : List Char} {kind : LexemeKind} {n : Nat}
    (h : nextLexeme? cs = some (kind, n)) :
    kind = .newline ∧ cs.take n = ['\n'] ∨ '\n' ∉ cs.take n := by
  by_cases hbreak : '\n' ∈ cs
  · obtain ⟨line, rest, rfl, hline⟩ := List.eq_append_cons_of_mem hbreak
    cases line with
    | nil =>
      rw [List.nil_append, nextLexeme?_lineEnd] at h
      obtain ⟨rfl, rfl⟩ := Prod.mk.inj (Option.some.inj h)
      exact Or.inl ⟨rfl, rfl⟩
    | cons c line =>
      rw [nextLexeme?_beforeBreak (List.cons_ne_nil c line)] at h
      rw [List.take_append_of_le_length (nextLexeme?_le h)]
      exact Or.inr fun hmem => hline (List.mem_of_mem_take hmem)
  · exact Or.inr fun hmem => hbreak (List.mem_of_mem_take hmem)

/-! ## Scanning up to a line break and from it -/

section Scanning

variable {p : Position} {cs : List Char} {kind : LexemeKind} {n : Nat}

theorem scanFrom_nil (p : Position) : scanFrom p [] = .ok [.eofAt p.line p.column] := by
  rw [scanFrom]

theorem scanFrom_unexpected {c : Char} (h : nextLexeme? (c :: cs) = none) (p : Position) :
    scanFrom p (c :: cs) = .error ⟨.unexpected c, p⟩ := by
  rw [scanFrom]
  split
  · rfl
  · next hnext => simp [h] at hnext

/-- One step of the scanner. -/
theorem scanFrom_lexeme (hcs : cs ≠ []) (h : nextLexeme? cs = some (kind, n)) (p : Position) :
    scanFrom p cs =
      match lexemeTokens kind (cs.take n) p with
      | .error cause => .error ⟨cause, p⟩
      | .ok tokens => (scanFrom (p.after (cs.take n)) (cs.drop n)).map (tokens ++ ·) := by
  obtain ⟨c, cs, rfl⟩ := List.exists_cons_of_ne_nil hcs
  rw [scanFrom]
  split
  · next hnext => simp [h] at hnext
  · next kind' n' hnext =>
    rw [h] at hnext
    obtain ⟨rfl, rfl⟩ := Prod.mk.inj (Option.some.inj hnext)
    dsimp only
    cases lexemeTokens kind ((c :: cs).take n) p with
    | error cause => rfl
    | ok tokens =>
      dsimp only
      cases scanFrom (p.after ((c :: cs).take n)) ((c :: cs).drop n) <;> rfl

/-- One step of the scanner, with a text behind that does not change what comes first. -/
theorem scanFrom_lexeme_append (hcs : cs ≠ []) (h : nextLexeme? cs = some (kind, n))
    {more : List Char} (hsame : nextLexeme? (cs ++ more) = nextLexeme? cs) (p : Position) :
    scanFrom p (cs ++ more) =
      match lexemeTokens kind (cs.take n) p with
      | .error cause => .error ⟨cause, p⟩
      | .ok tokens => (scanFrom (p.after (cs.take n)) (cs.drop n ++ more)).map (tokens ++ ·) := by
  have hle := nextLexeme?_le h
  rw [scanFrom_lexeme (List.append_ne_nil_of_left_ne_nil hcs more) (hsame.trans h),
    List.take_append_of_le_length hle, List.drop_append_of_le_length hle]

theorem Position.after_append (p : Position) (cs more : List Char) :
    p.after (cs ++ more) = (p.after cs).after more :=
  List.foldl_append

/-- The token of a line break. -/
def Token.newlineAt (p : Position) : Token :=
  ⟨.newline, .text "\n", p.line, p.column⟩

/-- The first place of the next line. -/
def Position.nextLine (p : Position) : Position :=
  ⟨p.line + 1, 1⟩

theorem scanFrom_lineEnd (p : Position) (rest : List Char) :
    scanFrom p ('\n' :: rest) = (scanFrom p.nextLine rest).map (.newlineAt p :: ·) := by
  rw [scanFrom_lexeme (List.cons_ne_nil _ _) (nextLexeme?_lineEnd rest)]
  rfl

theorem scanFrom_ne_nil {ts : List Token} (h : scanFrom p cs = .ok ts) : ts ≠ [] := by
  fun_induction scanFrom p cs generalizing ts with
  | case1 => cases h; simp
  | case5 p c rest kind n hnext lexeme tokens htokens more hmore =>
    rename_i ih
    cases h
    simp [ih hmore]
  | _ => cases h

/-- The last token marks the end of the input at its place. -/
theorem scanFrom_eof {ts : List Token} (h : scanFrom p cs = .ok ts) :
    ts = ts.dropLast ++ [.eofAt (p.after cs).line (p.after cs).column] := by
  fun_induction scanFrom p cs generalizing ts with
  | case1 => cases h; rfl
  | case5 p c rest kind n hnext lexeme tokens htokens more hmore =>
    rename_i ih
    cases h
    rw [← Position.after_append, List.take_append_drop] at ih
    rw [List.dropLast_append_of_ne_nil (scanFrom_ne_nil hmore), List.append_assoc, ← ih hmore]
  | _ => cases h

/-- **A line break divides what is scanned**: what precedes it is scanned as if nothing followed,
and what follows it is scanned from the beginning of the next line. -/
theorem scanFrom_break (p : Position) (cs rest : List Char) :
    scanFrom p (cs ++ '\n' :: rest) = (do
      let before ← scanFrom p cs
      let after ← scanFrom (p.after cs).nextLine rest
      return before.dropLast ++ .newlineAt (p.after cs) :: after) := by
  fun_induction scanFrom p cs with
  | case1 p => exact scanFrom_lineEnd p rest
  | case2 p c tail hnone =>
    rw [← nextLexeme?_beforeBreak (List.cons_ne_nil c tail) rest] at hnone
    exact scanFrom_unexpected hnone p
  | case3 p c tail kind n hnext lexeme cause hcause =>
    have hne := List.cons_ne_nil c tail
    rw [scanFrom_lexeme_append hne hnext (nextLexeme?_beforeBreak hne rest), hcause]
    rfl
  | case4 p c tail kind n hnext lexeme tokens htokens e he ih =>
    have hne := List.cons_ne_nil c tail
    rw [scanFrom_lexeme_append hne hnext (nextLexeme?_beforeBreak hne rest), htokens]
    dsimp only
    rw [ih, he]
    rfl
  | case5 p c tail kind n hnext lexeme tokens htokens more hmore ih =>
    have hne := List.cons_ne_nil c tail
    rw [scanFrom_lexeme_append hne hnext (nextLexeme?_beforeBreak hne rest), htokens]
    dsimp only
    rw [ih, hmore, ← Position.after_append, List.take_append_drop]
    cases scanFrom (p.after (c :: tail)).nextLine rest with
    | error e => rfl
    | ok after =>
      show Except.ok (tokens ++ (more.dropLast ++ _ :: after)) =
        Except.ok ((tokens ++ more).dropLast ++ _ :: after)
      rw [List.dropLast_append_of_ne_nil (scanFrom_ne_nil hmore), List.append_assoc]

end Scanning

/-! ## Scanning from another line -/

/-- The same column, a number of lines further on. -/
def Position.moved (p : Position) (lines : Int) : Position :=
  ⟨p.line + lines, p.column⟩

/-- The same token, a number of lines further on. -/
def Token.moved (t : Token) (lines : Int) : Token :=
  { t with line := t.line + lines }

/-- The same error, a number of lines further on. -/
def LexicalError.moved (e : LexicalError) (lines : Int) : LexicalError :=
  ⟨e.cause, e.position.moved lines⟩

section Moving

variable (p : Position) (lines : Int)

theorem Position.after_moved (cs : List Char) :
    (p.moved lines).after cs = (p.after cs).moved lines := by
  induction cs generalizing p with
  | nil => rfl
  | cons c cs ih =>
    have hnext : (p.moved lines).next c = (p.next c).moved lines := by
      unfold Position.next Position.moved
      split
      · simp only [Position.mk.injEq, and_true]
        omega
      · rfl
    show ((p.moved lines).next c).after cs = _
    rw [hnext, ih]
    rfl

theorem wordToken_moved (w : String) :
    wordToken w (p.moved lines) = (wordToken w p).moved lines := by
  unfold wordToken
  dsimp only
  split
  · rfl
  · split
    · rfl
    · split <;> rfl

theorem lexemeTokens_moved (kind : LexemeKind) (lexeme : List Char) :
    lexemeTokens kind lexeme (p.moved lines) =
      (lexemeTokens kind lexeme p).map (List.map (·.moved lines)) := by
  cases kind with
  | word =>
    show Except.ok [wordToken _ _] = Except.ok [(wordToken _ _).moved lines]
    rw [wordToken_moved]
  | _ => rfl

/-- **The line at which scanning starts is added to every line.** -/
theorem scanFrom_moved (cs : List Char) :
    scanFrom (p.moved lines) cs =
      match scanFrom p cs with
      | .error e => .error (e.moved lines)
      | .ok ts => .ok (ts.map (·.moved lines)) := by
  fun_induction scanFrom p cs with
  | case1 p => exact scanFrom_nil _
  | case2 p c rest hnone => exact scanFrom_unexpected hnone _
  | case3 p c rest kind n hnext lexeme cause hcause =>
    rw [scanFrom_lexeme (List.cons_ne_nil c rest) hnext, lexemeTokens_moved, hcause]
    rfl
  | case4 p c rest kind n hnext lexeme tokens htokens e he ih =>
    rw [scanFrom_lexeme (List.cons_ne_nil c rest) hnext, lexemeTokens_moved, htokens,
      Position.after_moved]
    show (scanFrom ((p.after lexeme).moved lines) _).map _ = _
    rw [ih, he]
    rfl
  | case5 p c rest kind n hnext lexeme tokens htokens more hmore ih =>
    rw [scanFrom_lexeme (List.cons_ne_nil c rest) hnext, lexemeTokens_moved, htokens,
      Position.after_moved]
    show (scanFrom ((p.after lexeme).moved lines) _).map _ = _
    rw [ih, hmore]
    show Except.ok (tokens.map _ ++ more.map _) = Except.ok ((tokens ++ more).map _)
    rw [List.map_append]

end Moving

/-! ## Messages -/

theorem Position.line_after_eq (p : Position) (cs : List Char) :
    (p.after cs).line = p.line + (cs.count '\n' : Nat) := by
  induction cs generalizing p with
  | nil => simp [Position.after]
  | cons c cs ih =>
    show ((p.next c).after cs).line = _
    rw [ih]
    unfold Position.next
    by_cases hc : c = '\n'
    · simp only [hc, if_true, List.count_cons_self]
      omega
    · simp [hc]

/-- Scanning stops inside the source, at the place of what has been scanned before. -/
theorem position_of_scanFrom_error {p : Position} {cs : List Char} {e : LexicalError}
    (h : scanFrom p cs = .error e) : ∃ before, before <+: cs ∧ e.position = p.after before := by
  fun_induction scanFrom p cs generalizing e with
  | case2 p c rest =>
    cases h
    exact ⟨[], List.nil_prefix, rfl⟩
  | case3 p c rest =>
    cases h
    exact ⟨[], List.nil_prefix, rfl⟩
  | case4 p c rest kind n hnext lexeme tokens htokens e' he' =>
    rename_i ih
    cases h
    obtain ⟨before, ⟨after, hafter⟩, hposition⟩ := ih he'
    refine ⟨lexeme ++ before, ⟨after, ?_⟩, ?_⟩
    · rw [List.append_assoc, hafter, List.take_append_drop]
    · rw [hposition, Position.after_append]
  | _ => cases h

theorem length_cutAt (c : Char) (cs : List Char) : (Text.cutAt c cs).length = cs.count c + 1 := by
  induction cs with
  | nil => rfl
  | cons x cs ih =>
    rw [Text.cutAt]
    by_cases hx : x = c
    · simp [hx, ih]
    · cases hcut : Text.cutAt c cs with
      | nil => simp [hcut] at ih
      | cons piece pieces => simp_all

theorem cutAt_break (c : Char) (xs ys : List Char) :
    Text.cutAt c (xs ++ c :: ys) = Text.cutAt c xs ++ Text.cutAt c ys := by
  induction xs with
  | nil => simp [Text.cutAt]
  | cons x xs ih =>
    rw [List.cons_append, Text.cutAt, Text.cutAt, ih]
    split
    · rfl
    · cases hcut : Text.cutAt c xs with
      | nil => simpa [hcut] using length_cutAt c xs
      | cons piece pieces => rfl

theorem rows_break (a b : String) : Text.rows (a ++ "\n" ++ b) = Text.rows a ++ Text.rows b := by
  unfold Text.rows
  have hjoined : (a ++ "\n" ++ b).toList = a.toList ++ '\n' :: b.toList := by simp
  rw [hjoined, cutAt_break, List.map_append]

/-- **The message of an error shows the line of the error and no other.** -/
theorem message_beforeBreak {a : String} {e : LexicalError} (h : tokenize a = .error e)
    (filename b : String) : e.message filename (a ++ "\n" ++ b) = e.message filename a := by
  obtain ⟨before, hbefore, hposition⟩ := position_of_scanFrom_error h
  have hline : e.position.line = 1 + (before.count '\n' : Nat) := by
    rw [hposition, Position.line_after_eq]
  have hcount : before.count '\n' < (Text.rows a).length := by
    rw [Text.rows, List.length_map, length_cutAt]
    exact Nat.lt_succ_of_le (hbefore.sublist.count_le _)
  have hrow : rowAt? (Text.rows (a ++ "\n" ++ b)) e.position.line =
      rowAt? (Text.rows a) e.position.line := by
    unfold rowAt?
    rw [rows_break, if_pos (by omega), if_pos (by omega), List.getElem?_append_left (by omega)]
  unfold LexicalError.message complain excerpt
  rw [hrow]

/-! ## Sources -/

/-- **Sources are scanned line by line.** If a text is scanned, to tokens and the end of the input
at some place, then with a line break and a further text after it: if that text is scanned, the
whole gives the tokens of the first, a token for the line break at that place, and the tokens of the
second with the line of that place added to theirs; if it is not, the whole fails for the same
reason in the same column, with that line added. If the first text is not scanned, the whole fails
in the same place and with the same message. No lexeme but a line break has a line break in it. -/
theorem tokenize_line_by_line (a b : String) :
    (∀ tokens, tokenize a = .ok tokens → ∃ ta line column, tokens = ta ++ [.eofAt line column] ∧
      (∀ tb, tokenize b = .ok tb →
        tokenize (a ++ "\n" ++ b) =
          .ok (ta ++ .newlineAt ⟨line, column⟩ :: tb.map (·.moved line))) ∧
      ∀ e, tokenize b = .error e → tokenize (a ++ "\n" ++ b) = .error (e.moved line)) ∧
    (∀ e, tokenize a = .error e → tokenize (a ++ "\n" ++ b) = .error e ∧
      ∀ filename, e.message filename (a ++ "\n" ++ b) = e.message filename a) ∧
    ∀ cs kind n, nextLexeme? cs = some (kind, n) → kind = .newline ∧ cs.take n = ['\n'] ∨
      '\n' ∉ cs.take n := by
  have hjoined :
    tokenize (a ++ "\n" ++ b) = scanFrom {} (a.toList ++ '\n' :: b.toList) := by simp [tokenize]
  rw [hjoined, scanFrom_break]
  refine ⟨fun tokens htokens => ?_, fun e he =>
    ⟨?_, fun filename => message_beforeBreak he filename b⟩, fun cs kind n => lexeme_within_line⟩
  · have hscan : scanFrom {} a.toList = .ok tokens := htokens
    -- the next line starts where the whole would start, as many lines further on as the first text
    -- has
    have hnext : (Position.after {} a.toList).nextLine =
        Position.moved {} (Position.after {} a.toList).line := by
      simp only [Position.nextLine, Position.moved, Position.mk.injEq, and_true]
      omega
    rw [hscan, hnext, scanFrom_moved]
    refine ⟨_, _, _, scanFrom_eof hscan, fun tb htb => ?_, fun e he => ?_⟩
    · have htb : scanFrom {} b.toList = .ok tb := htb
      rw [htb]
      rfl
    · have he : scanFrom {} b.toList = .error e := he
      rw [he]
      rfl
  · have he : scanFrom {} a.toList = .error e := he
    rw [he]
    rfl

/-- A literal that is left open is reported on its own line, after whatever is scanned before. -/
theorem open_literal_is_reported_on_its_line :
    tokenize "OUTPUT // \"a" = .ok [⟨.keyword .outputKw, .text "OUTPUT", 1, 1⟩, .eofAt 1 13] ∧
      tokenize "'b" = .error ⟨.openChar, 1, 1⟩ ∧
      tokenize ("OUTPUT // \"a" ++ "\n" ++ "'b") = .error ⟨.openChar, 2, 1⟩ := by
  have hfirst :
      tokenize "OUTPUT // \"a" = .ok [⟨.keyword .outputKw, .text "OUTPUT", 1, 1⟩, .eofAt 1 13] := by
    decide +kernel
  have hsecond : tokenize "'b" = .error ⟨.openChar, 1, 1⟩ := by decide +kernel
  obtain ⟨ta, line, column, htokens, -, hfails⟩ :=
    (tokenize_line_by_line "OUTPUT // \"a" "'b").1 _ hfirst
  have hline : line = 1 := by
    have hlast := congrArg List.getLast? htokens
    simp only [List.getLast?_append, List.getLast?_cons_cons, List.getLast?_singleton,
      Option.some_or, Option.some.injEq] at hlast
    exact (congrArg Token.line hlast).symm
  subst hline
  exact ⟨hfirst, hsecond, hfails _ hsecond⟩

end Pseudocode
