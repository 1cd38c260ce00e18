import Pseudocode.Proofs.Writing

/-!
# Scanning lexemes

The rules of the scanner fall into three groups: those for blanks, line ends and comments, those for
symbols, and those for numbers, literals and words. No text begins in a way that suits rules of two
groups, apart from the two slashes of a comment, so each kind of lexeme is found by its own rule
when something that ends it follows (`nextLexeme?_word`, `nextLexeme?_number`, …).

Results:
* `scanFrom_layout`: what is laid out from well-formed lexemes is scanned back into them.
* `proper_of_scanFrom`: every token of a source is well-formed.
-/

namespace Pseudocode

open LexemeRule

/-! ## The rules in groups -/

/-- Blanks, line ends and comments. -/
def layoutRules : List LexemeRule :=
  [⟨.blank, run isSpacing⟩, fixed .newline "\n", ⟨.comment, commentLength⟩]

/-- The symbols with their texts, longer ones before their beginnings. -/
def symbolTexts : List (Symbol × String) :=
  [(.assign, "←"), (.assign, "<--"), (.assign, "<-"), (.ne, "<>"), (.le, "<="), (.ge, ">="),
    (.eq, "="), (.lt, "<"), (.gt, ">"), (.plus, "+"), (.minus, "-"), (.multiply, "*"),
    (.divide, "/"), (.power, "^"), (.amper, "&"), (.lparen, "("), (.rparen, ")"), (.lbracket, "["),
    (.rbracket, "]"), (.colon, ":"), (.comma, ",")]

def symbolRules : List LexemeRule :=
  symbolTexts.map fun p => fixed (.symbol p.1) p.2

/-- Numbers, literals and words. -/
def textRules : List LexemeRule :=
  [⟨.number, numberLength⟩, ⟨.literal, closedLength '"'⟩, ⟨.literal, closedLength '\''⟩,
    ⟨.openString, openLength '"'⟩, ⟨.openChar, openLength '\''⟩, ⟨.word, wordLength⟩]

theorem lexemeRules_eq : lexemeRules = layoutRules ++ symbolRules ++ textRules := rfl

theorem firstMatch_append {cs : List Char} {before : List LexemeRule}
    (h : ∀ r ∈ before, r.length cs = 0) (rules : List LexemeRule) :
    firstMatch cs (before ++ rules) = firstMatch cs rules := by
  induction before with
  | nil => rfl
  | cons r before ih =>
    have hr := h r (by simp)
    rw [List.cons_append, firstMatch, if_neg (by omega)]
    exact ih fun r' hr' => h r' (by simp [hr'])

theorem firstMatch_cons_pos {cs : List Char} {kind : LexemeKind} {f : List Char → Nat} {n : Nat}
    (h : f cs = n) (hn : 0 < n) (rules : List LexemeRule) :
    firstMatch cs (⟨kind, f⟩ :: rules) = some (kind, n) := by
  subst h
  rw [firstMatch, if_pos hn]

theorem firstMatch_cons_zero {cs : List Char} {kind : LexemeKind} {f : List Char → Nat}
    (h : f cs = 0) (rules : List LexemeRule) :
    firstMatch cs (⟨kind, f⟩ :: rules) = firstMatch cs rules := by
  rw [firstMatch, if_neg (Nat.not_lt.mpr (Nat.le_of_eq h))]

/-- The characters that layout and symbols begin with. -/
def markStarts : List Char :=
  [' ', '\t', '\r', '\n', '/', '←', '<', '>', '=', '+', '-', '*', '^', '&', '(',
    ')', '[', ']', ':', ',']

theorem layoutRules_eq_zero {c : Char} (hc : c ∉ markStarts) (cs : List Char) :
    ∀ r ∈ layoutRules, r.length (c :: cs) = 0 := by
  have hne : ∀ d ∈ markStarts, c ≠ d := fun d hd h => hc (h ▸ hd)
  have hspacing : isSpacing c = false := by
    simp [isSpacing, hne ' ' (by decide), hne '\t' (by decide), hne '\r' (by decide)]
  have hcomment : commentLength (c :: cs) = 0 := by
    unfold commentLength
    split
    · next h => exact absurd (List.cons.inj h).1 (hne '/' (by decide))
    · rfl
  simp only [layoutRules, List.forall_mem_cons]
  refine ⟨by simp [run, hspacing], ?_, hcomment, by simp⟩
  simp [fixed, (hne '\n' (by decide)).symm]

theorem symbolRules_eq_zero {c : Char} (hc : c ∉ markStarts) (cs : List Char) :
    ∀ r ∈ symbolRules, r.length (c :: cs) = 0 := by
  have hstart : ∀ p ∈ symbolTexts, ∃ d ∈ markStarts, ∃ ds, p.2.toList = d :: ds := by
    intro p hp
    have hhead : ∀ p ∈ symbolTexts, markStarts.any (p.2.toList.head? == some ·) = true := by decide
    obtain ⟨d, hd, hh⟩ := List.any_eq_true.mp (hhead p hp)
    exact ⟨d, hd, List.head?_eq_some_iff.mp (beq_iff_eq.mp hh)⟩
  intro r hr
  obtain ⟨p, hp, rfl⟩ := List.mem_map.mp hr
  obtain ⟨d, hd, ds, htext⟩ := hstart p hp
  have hdc : d ≠ c := fun h => hc (h ▸ hd)
  simp [fixed, htext, hdc]

/-- A character that begins no layout and no symbol begins a number, a literal or a word. -/
theorem nextLexeme?_text {c : Char} (hc : c ∉ markStarts) (cs : List Char) :
    nextLexeme? (c :: cs) = firstMatch (c :: cs) textRules := by
  rw [nextLexeme?, lexemeRules_eq, firstMatch_append]
  intro r hr
  exact (List.mem_append.mp hr).elim (layoutRules_eq_zero hc cs r) (symbolRules_eq_zero hc cs r)

/-! ## Lexemes in front of a text -/

/-- What ends a lexeme: a blank, a line end or nothing. -/
def Delimited (rest : List Char) : Prop :=
  ∀ c ∈ rest.head?, isSpacing c = true ∨ c = '\n'

theorem Delimited.mem {rest : List Char} (h : Delimited rest) :
    ∀ c ∈ rest.head?, c ∈ [' ', '\t', '\r', '\n'] := by
  intro c hc
  have := h c hc
  simp only [isSpacing, Bool.or_eq_true, beq_iff_eq] at this
  grind

theorem run_append {p : Char → Bool} {xs rest : List Char} (hxs : ∀ c ∈ xs, p c = true)
    (hrest : ∀ c ∈ rest.head?, p c = false) : run p (xs ++ rest) = xs.length := by
  unfold run
  rw [List.takeWhile_append_of_pos hxs]
  cases rest with
  | nil => simp
  | cons c rest => rw [List.takeWhile_cons_of_neg (by simp [hrest c rfl])]; simp

/-- Nothing that ends a lexeme belongs to the given class of characters. -/
theorem Delimited.stops {rest : List Char} (h : Delimited rest) {p : Char → Bool}
    (hp : ∀ c ∈ [' ', '\t', '\r', '\n'], p c = false) : ∀ c ∈ rest.head?, p c = false :=
  fun c hc => hp c (h.mem c hc)

/-- A name, a keyword or a truth value. -/
def IsWord (cs : List Char) : Prop :=
  ∃ c rest, cs = c :: rest ∧ Text.isWordStart c = true ∧ ∀ d ∈ rest, Text.isWord d = true

theorem isWord_cons {c : Char} {rest : List Char} :
    IsWord (c :: rest) ↔ Text.isWordStart c = true ∧ ∀ d ∈ rest, Text.isWord d = true := by
  constructor
  · rintro ⟨_, _, heq, hc, hrest⟩
    obtain ⟨rfl, rfl⟩ := List.cons.inj heq
    exact ⟨hc, hrest⟩
  · rintro ⟨hc, hrest⟩
    exact ⟨c, rest, rfl, hc, hrest⟩

instance : DecidablePred IsWord
  | [] => isFalse fun h => by simp [IsWord] at h
  | c :: rest => decidable_of_iff (Text.isWordStart c = true ∧ rest.all Text.isWord = true)
    (by rw [isWord_cons, List.all_eq_true])

theorem not_mem_markStarts_of_wordStart {c : Char} (h : Text.isWordStart c = true) :
    c ∉ markStarts := by
  have hstarts : ∀ d ∈ markStarts, Text.isWordStart d = false :=
    List.forall_iff_forall_mem.mp (by decide +kernel)
  intro hc
  rw [hstarts c hc] at h
  cases h

theorem not_isDigit_of_wordStart {c : Char} (h : Text.isWordStart c = true) :
    c.isDigit = false := by
  have hdigits : ∀ d ∈ "0123456789".toList, Text.isWordStart d = false :=
    List.forall_iff_forall_mem.mp (by decide +kernel)
  by_contra hc
  rw [hdigits c (Number.mem_digits (by simpa using hc))] at h
  cases h

theorem openLength_of_ne {c q : Char} (h : c ≠ q) (cs : List Char) : openLength q (c :: cs) = 0 :=
  if_neg h

theorem closedLength_of_ne {c q : Char} (h : c ≠ q) (cs : List Char) :
    closedLength q (c :: cs) = 0 := by
  rw [closedLength, openLength_of_ne h]
  rfl

theorem nextLexeme?_word {w rest : List Char} (hw : IsWord w) (hrest : Delimited rest) :
    nextLexeme? (w ++ rest) = some (.word, w.length) := by
  obtain ⟨c, cs, rfl, hc, hcs⟩ := hw
  have hquote : ∀ q ∈ ['"', '\''], c ≠ q := by
    have hall : ∀ q ∈ ['"', '\''], Text.isWordStart q = false :=
      List.forall_iff_forall_mem.mp (by decide +kernel)
    rintro q hq rfl
    rw [hall c hq] at hc
    cases hc
  have hdouble := hquote '"' (by simp)
  have hsingle := hquote '\'' (by simp)
  have hnumber : numberLength (c :: (cs ++ rest)) = 0 := by
    simp [numberLength, run, not_isDigit_of_wordStart hc]
  have hword : wordLength (c :: (cs ++ rest)) = cs.length + 1 := by
    change (if Text.isWordStart c = true then 1 + run Text.isWord (cs ++ rest) else 0) = _
    rw [if_pos hc, run_append hcs (hrest.stops (List.forall_iff_forall_mem.mp (by decide +kernel))),
      Nat.add_comm]
  rw [List.cons_append, nextLexeme?_text (not_mem_markStarts_of_wordStart hc), textRules,
    firstMatch_cons_zero hnumber, firstMatch_cons_zero (closedLength_of_ne hdouble _),
    firstMatch_cons_zero (closedLength_of_ne hsingle _),
    firstMatch_cons_zero (openLength_of_ne hdouble _),
    firstMatch_cons_zero (openLength_of_ne hsingle _),
    firstMatch_cons_pos hword (Nat.succ_pos _), List.length_cons]

/-- Digits, perhaps with a point behind them and further digits. -/
def IsNumeral (cs : List Char) : Prop :=
  ∃ whole, whole ≠ [] ∧ Number.IsDigits whole ∧
    (cs = whole ∨ ∃ fraction, Number.IsDigits fraction ∧ cs = whole ++ '.' :: fraction)

theorem digit_not_mem_markStarts {c : Char} (h : c.isDigit = true) : c ∉ markStarts := by
  have hdigits : ∀ d ∈ "0123456789".toList, d ∉ markStarts :=
    List.forall_iff_forall_mem.mp (by decide)
  exact hdigits c (Number.mem_digits h)

theorem numberLength_numeral {cs rest : List Char} (h : IsNumeral cs) (hrest : Delimited rest) :
    numberLength (cs ++ rest) = cs.length := by
  obtain ⟨whole, hne, hw, rfl | ⟨fraction, hf, rfl⟩⟩ := h
  · have hrun := run_append hw (hrest.stops (List.forall_iff_forall_mem.mp (by decide)))
    have hpos : cs.length ≠ 0 := by simpa using hne
    unfold numberLength
    simp only [hrun, if_neg hpos, List.drop_left]
    cases rest with
    | nil => rfl
    | cons c rest =>
      have hc := hrest.mem c rfl
      split
      · next h =>
        obtain ⟨rfl, -⟩ := List.cons.inj h
        exact absurd hc (by decide)
      · rfl
  · have hrun : run Char.isDigit (whole ++ '.' :: (fraction ++ rest)) = whole.length :=
      run_append hw (by simp)
    have hfrac :=
      run_append hf (hrest.stops (p := Char.isDigit) (List.forall_iff_forall_mem.mp (by decide)))
    have hpos : whole.length ≠ 0 := by simpa using hne
    unfold numberLength
    simp only [List.append_assoc, List.cons_append, hrun, if_neg hpos, List.drop_left, hfrac,
      List.length_append, List.length_cons]
    omega

theorem nextLexeme?_number {cs rest : List Char} (h : IsNumeral cs) (hrest : Delimited rest) :
    nextLexeme? (cs ++ rest) = some (.number, cs.length) := by
  have hlength := numberLength_numeral h hrest
  obtain ⟨whole, hne, hw, hcs⟩ := h
  obtain ⟨c, ds, rfl⟩ := List.exists_cons_of_ne_nil hne
  obtain ⟨tail, rfl⟩ : ∃ tail, cs = c :: tail := by
    rcases hcs with rfl | ⟨fraction, -, rfl⟩
    · exact ⟨ds, rfl⟩
    · exact ⟨_, rfl⟩
  rw [List.cons_append] at hlength ⊢
  rw [nextLexeme?_text (digit_not_mem_markStarts (hw c (by simp))), textRules,
    firstMatch_cons_pos hlength (Nat.succ_pos _)]

theorem openLength_quoted {q : Char} {cs : List Char} (hq : q ∉ cs) (hline : '\n' ∉ cs)
    (rest : List Char) : openLength q (q :: (cs ++ q :: rest)) = cs.length + 1 := by
  have hrun : run (fun c => c != q && c != '\n') (cs ++ q :: rest) = cs.length := by
    refine run_append (fun c hc => ?_) (by simp)
    have hcq : c ≠ q := fun h => hq (h ▸ hc)
    have hcn : c ≠ '\n' := fun h => hline (h ▸ hc)
    simp [hcq, hcn]
  change (if q = q then 1 + run _ (cs ++ q :: rest) else 0) = _
  rw [if_pos rfl, hrun, Nat.add_comm]

theorem nextLexeme?_quoted {q : Char} {cs : List Char} (hquote : q ∈ ['"', '\'']) (hq : q ∉ cs)
    (hline : '\n' ∉ cs) (rest : List Char) :
    nextLexeme? (q :: (cs ++ [q]) ++ rest) = some (.literal, (q :: (cs ++ [q])).length) := by
  have hclosed : closedLength q (q :: (cs ++ q :: rest)) = (q :: (cs ++ [q])).length := by
    unfold closedLength
    simp only [openLength_quoted hq hline]
    simp
  have hmark : q ∉ markStarts := by
    have hall : ∀ q ∈ ['"', '\''], q ∉ markStarts :=
      List.forall_iff_forall_mem.mp (by decide)
    exact hall q hquote
  have hnumber : numberLength (q :: (cs ++ q :: rest)) = 0 := by
    have hall : ∀ q ∈ ['"', '\''], q.isDigit = false :=
      List.forall_iff_forall_mem.mp (by decide)
    simp [numberLength, run, hall q hquote]
  have hpos : 0 < (q :: (cs ++ [q])).length := Nat.succ_pos _
  rw [List.cons_append, List.append_assoc, List.singleton_append, nextLexeme?_text hmark, textRules,
    firstMatch_cons_zero hnumber]
  simp only [List.mem_cons, List.not_mem_nil, or_false] at hquote
  rcases hquote with rfl | rfl
  · rw [firstMatch_cons_pos hclosed hpos]
  · rw [firstMatch_cons_zero (closedLength_of_ne (by decide) _), firstMatch_cons_pos hclosed hpos]

/-- A symbol is found by its own rule, however it is written: nothing that ends a lexeme makes a
longer symbol of it. -/
theorem nextLexeme?_symbolText {s : Symbol} {text : String} (h : (s, text) ∈ symbolTexts)
    {rest : List Char} (hrest : Delimited rest) :
    nextLexeme? (text.toList ++ rest) = some (.symbol s, text.toList.length) := by
  have hall : ∀ p ∈ symbolTexts,
      nextLexeme? (p.2.toList ++ rest) = some (.symbol p.1, p.2.toList.length) := by
    simp only [symbolTexts, List.forall_mem_cons, List.not_mem_nil, false_implies,
      implies_true, and_true]
    cases rest with
    | nil => and_intros <;> rfl
    | cons c rest =>
      have hc := hrest.mem c rfl
      simp only [List.mem_cons, List.not_mem_nil, or_false] at hc
      rcases hc with rfl | rfl | rfl | rfl <;> and_intros <;> rfl
  exact hall (s, text) h

theorem Symbol.mem_symbolTexts (s : Symbol) : (s, s.text) ∈ symbolTexts := by
  cases s <;> decide

theorem nextLexeme?_symbol (s : Symbol) {rest : List Char} (hrest : Delimited rest) :
    nextLexeme? (s.text.toList ++ rest) = some (.symbol s, s.text.toList.length) :=
  nextLexeme?_symbolText s.mem_symbolTexts hrest

theorem nextLexeme?_lineEnd (rest : List Char) :
    nextLexeme? ('\n' :: rest) = some (.newline, 1) := rfl

theorem nextLexeme?_blanks {cs rest : List Char} (hne : cs ≠ [])
    (hcs : ∀ c ∈ cs, isSpacing c = true) (hrest : ∀ c ∈ rest.head?, isSpacing c = false) :
    nextLexeme? (cs ++ rest) = some (.blank, cs.length) :=
  firstMatch_cons_pos (run_append hcs hrest) (List.length_pos_iff.mpr hne) _

theorem nextLexeme?_blank {rest : List Char} (hrest : ∀ c ∈ rest.head?, isSpacing c = false) :
    nextLexeme? (' ' :: rest) = some (.blank, 1) :=
  nextLexeme?_blanks (List.cons_ne_nil ' ' []) (List.forall_iff_forall_mem.mp (by decide)) hrest

/-! ## Scanning a layout -/

/-- A text that begins with a lexeme is scanned by scanning what follows the lexeme. -/
theorem scanFrom_append {kind : LexemeKind} {xs rest : List Char} {p : Position} {ts : List Token}
    (hne : xs ≠ []) (hnext : nextLexeme? (xs ++ rest) = some (kind, xs.length))
    (htokens : lexemeTokens kind xs p = .ok ts) :
    scanFrom p (xs ++ rest) = (scanFrom (p.after xs) rest).map (ts ++ ·) := by
  obtain ⟨c, cs, rfl⟩ := List.exists_cons_of_ne_nil hne
  rw [List.cons_append] at hnext ⊢
  rw [scanFrom]
  have htake : (c :: (cs ++ rest)).take (c :: cs).length = c :: cs := by
    rw [← List.cons_append, List.take_left]
  have hdrop : (c :: (cs ++ rest)).drop (c :: cs).length = rest := by
    rw [← List.cons_append, List.drop_left]
  split
  · next h => simp [hnext] at h
  · next kind' n h =>
    rw [hnext] at h
    obtain ⟨rfl, rfl⟩ := Prod.mk.inj (Option.some.inj h)
    simp only [htake, hdrop, htokens]
    cases scanFrom (p.after (c :: cs)) rest <;> rfl

/-- The lexemes that the scanner finds. -/
inductive Lexeme.Sound : Lexeme → Prop
  | word {w : String} (h : IsWord w.toList) : Sound (.word w)
  | symbol (s : Symbol) : Sound (.symbol s)
  | number {cs : List Char} (h : IsNumeral cs) : Sound (.number cs)
  | quoted {q : Char} {s : String} (hquote : q ∈ ['"', '\'']) (hq : q ∉ s.toList)
    (hline : '\n' ∉ s.toList) : Sound (.quoted q s)
  | lineEnd : Sound .lineEnd

/-- A token of a lexeme. -/
def Token.Bears (t : Token) (x : Lexeme) : Prop :=
  t.kind = x.kind ∧ t.value = x.value

/-- What a word stands for does not depend on its place, and it is no line end. -/
theorem wordToken_eq (w : String) (p : Position) :
    wordToken w p = ⟨(wordToken w {}).kind, (wordToken w {}).value, p.line, p.column⟩ ∧
      (wordToken w p).kind ≠ .newline := by
  unfold wordToken
  dsimp only
  split
  · exact ⟨rfl, by simp⟩
  · split
    · exact ⟨rfl, by simp⟩
    · split
      · exact ⟨rfl, by simp⟩
      · exact ⟨rfl, by simp⟩

/-- A lexeme is cut off by its rule, which makes one token of it. -/
theorem Lexeme.Sound.next {x : Lexeme} (hx : x.Sound) {rest : List Char}
    (hrest : x.kind = .newline ∨ Delimited rest) (p : Position) :
    x.text ≠ [] ∧ ∃ kind, nextLexeme? (x.text ++ rest) = some (kind, x.text.length) ∧
      lexemeTokens kind x.text p = .ok [⟨x.kind, x.value, p.line, p.column⟩] := by
  cases hx with
  | @word w h =>
    have hdelim := hrest.resolve_left (wordToken_eq w {}).2
    refine ⟨?_, _, nextLexeme?_word h hdelim, ?_⟩
    · obtain ⟨c, cs, hw, -⟩ := h
      rw [show (Lexeme.word w).text = c :: cs from hw]
      exact List.cons_ne_nil c cs
    · change Except.ok [wordToken (String.ofList w.toList) p] = _
      rw [String.ofList_toList, (wordToken_eq w p).1]
      rfl
  | symbol s =>
    have hdelim : Delimited rest := hrest.resolve_left (by simp [Lexeme.symbol])
    refine ⟨?_, _, nextLexeme?_symbol s hdelim, ?_⟩
    · cases s <;> decide
    · simp [lexemeTokens, Lexeme.symbol]
  | number h =>
    have hdelim : Delimited rest := hrest.resolve_left (by simp [Lexeme.number])
    refine ⟨?_, _, nextLexeme?_number h hdelim, rfl⟩
    obtain ⟨whole, hne, -, rfl | ⟨fraction, -, rfl⟩⟩ := h
    · exact hne
    · simp [Lexeme.number]
  | quoted hquote hq hline =>
    refine ⟨List.cons_ne_nil _ _, _, nextLexeme?_quoted hquote hq hline rest, ?_⟩
    simp [lexemeTokens, Lexeme.quoted]
  | lineEnd => exact ⟨List.cons_ne_nil _ _, _, nextLexeme?_lineEnd rest, rfl⟩

/-- No lexeme begins with a blank, and only the line end ends a line. -/
theorem Lexeme.Sound.head {x : Lexeme} (hx : x.Sound) :
    ∃ c cs, x.text = c :: cs ∧ isSpacing c = false ∧ (x.kind = .newline → c = '\n') := by
  cases hx with
  | @word w h =>
    obtain ⟨c, cs, hw, hc, -⟩ := h
    have hmark := not_mem_markStarts_of_wordStart hc
    refine ⟨c, cs, hw, ?_, fun hk => absurd hk (wordToken_eq w {}).2⟩
    simp only [markStarts, List.mem_cons, not_or] at hmark
    simp [isSpacing, hmark.1, hmark.2.1, hmark.2.2.1]
  | symbol s => cases s <;> exact ⟨_, _, rfl, by decide, by decide⟩
  | number h =>
    obtain ⟨whole, hne, hw, hcs⟩ := h
    obtain ⟨c, ds, rfl⟩ := List.exists_cons_of_ne_nil hne
    have hdigits : ∀ d ∈ "0123456789".toList, isSpacing d = false :=
      List.forall_iff_forall_mem.mp (by decide)
    have hc := hdigits c (Number.mem_digits (hw c (by simp)))
    rcases hcs with rfl | ⟨fraction, -, rfl⟩
    · exact ⟨c, ds, rfl, hc, by simp [Lexeme.number]⟩
    · exact ⟨c, _, rfl, hc, by simp [Lexeme.number]⟩
  | quoted hquote hq hline =>
    have hquotes : ∀ q ∈ ['"', '\''], isSpacing q = false :=
      List.forall_iff_forall_mem.mp (by decide)
    exact ⟨_, _, rfl, hquotes _ hquote, by simp [Lexeme.quoted]⟩
  | lineEnd => exact ⟨_, _, rfl, by decide, fun _ => rfl⟩

theorem layout_head {x : Lexeme} (hx : x.Sound) (xs : List Lexeme) :
    ∃ c cs, layout (x :: xs) = c :: cs ∧ isSpacing c = false ∧ (x.kind = .newline → c = '\n') := by
  obtain ⟨c, cs, htext, hc⟩ := hx.head
  cases xs with
  | nil => exact ⟨c, cs, by rw [layout, htext], hc⟩
  | cons y ys => exact ⟨c, _, by rw [layout, htext]; rfl, hc⟩

/-- What is laid out behind a lexeme ends it, and scanning goes on behind the blank. -/
theorem layout_cons {x : Lexeme} {xs : List Lexeme} (h : ∀ y ∈ xs, y.Sound) :
    ∃ rest, layout (x :: xs) = x.text ++ rest ∧ (x.kind = .newline ∨ Delimited rest) ∧
      ∀ p, ∃ p', scanFrom p rest = scanFrom p' (layout xs) := by
  cases xs with
  | nil => exact ⟨[], by simp [layout], .inr (by simp [Delimited]), fun p => ⟨p, rfl⟩⟩
  | cons y ys =>
    obtain ⟨c, cs, hl, hc, hend⟩ := layout_head (h y (by simp)) ys
    by_cases hline : x.kind = .newline ∨ y.kind = .newline
    · refine ⟨layout (y :: ys), by rw [layout, if_pos hline, List.append_nil],
        ?_, fun p => ⟨p, rfl⟩⟩
      refine hline.imp_right fun hy => ?_
      rw [hl, hend hy]
      simp [Delimited]
    · refine ⟨' ' :: layout (y :: ys), by rw [layout, if_neg hline]; simp, .inr ?_, fun p => ?_⟩
      · simp [Delimited, isSpacing]
      · have hblank : nextLexeme? (' ' :: layout (y :: ys)) = some (.blank, 1) :=
          nextLexeme?_blank (by rw [hl]; simpa using hc)
        have hstep : scanFrom p ([' '] ++ layout (y :: ys)) =
            (scanFrom (p.after [' ']) (layout (y :: ys))).map ([] ++ ·) :=
          scanFrom_append (List.cons_ne_nil _ _) hblank rfl
        refine ⟨p.after [' '], ?_⟩
        rw [← List.singleton_append, hstep]
        cases scanFrom (p.after [' ']) (layout (y :: ys)) <;> rfl

/-- **Scanning a layout** gives back its lexemes, one token each. -/
theorem scanFrom_layout {xs : List Lexeme} (h : ∀ x ∈ xs, x.Sound) (p : Position) :
    ∃ ts line column, scanFrom p (layout xs) = .ok (ts ++ [Token.eofAt line column]) ∧
      List.Forall₂ Token.Bears ts xs := by
  induction xs generalizing p with
  | nil => exact ⟨[], p.line, p.column, by rw [layout, scanFrom]; rfl, .nil⟩
  | cons x xs ih =>
    have hxs : ∀ y ∈ xs, y.Sound := fun y hy => h y (by simp [hy])
    obtain ⟨rest, hlayout, hrest, hgoes⟩ := layout_cons (x := x) hxs
    obtain ⟨hne, kind, hnext, htokens⟩ := (h x (by simp)).next hrest p
    obtain ⟨p', hp'⟩ := hgoes (p.after x.text)
    obtain ⟨ts, line, column, hscan, hbears⟩ := ih hxs p'
    refine ⟨⟨x.kind, x.value, p.line, p.column⟩ :: ts, line, column, ?_, .cons ⟨rfl, rfl⟩ hbears⟩
    rw [hlayout, scanFrom_append hne hnext htokens, hp', hscan]
    rfl

/-! ## The tokens of a source -/

/-- A word that is neither a keyword nor a truth value. -/
def IsName (w : String) : Prop :=
  IsWord w.toList ∧ (Lexeme.word w).kind = .identifier

instance : DecidablePred IsName :=
  fun w => inferInstanceAs (Decidable (IsWord w.toList ∧ (Lexeme.word w).kind = .identifier))

/-- A name carries itself. -/
theorem IsName.value {w : String} (h : IsName w) : (Lexeme.word w).value = .text w := by
  have hkind : (wordToken w {}).kind = .identifier := h.2
  change (wordToken w {}).value = .text w
  generalize ht : wordToken w {} = t at hkind ⊢
  unfold wordToken at ht
  dsimp only at ht
  split at ht
  · subst ht
    cases hkind
  · split at ht
    · subst ht
      cases hkind
    · split at ht
      · subst ht
        cases hkind
      · subst ht
        rfl

/-- What the scanner knows of the value of a token. -/
def Token.Proper (t : Token) : Prop :=
  match t.kind with
  | .number => ∃ cs, t.value = .text (String.ofList cs) ∧ IsNumeral cs
  | .string => ∃ s, t.value = .text s ∧ IsQuotable s
  | .boolean => ∃ b, t.value = .bool b
  | .identifier => ∃ w, t.value = .text w ∧ IsName w
  | .keyword k => t.value = .text k.word
  | .symbol s => ∃ text, t.value = .text text ∧ (s, text) ∈ symbolTexts
  | .newline | .eof => True

/-- The lexeme that is found was found by one of the rules. -/
theorem exists_rule_of_firstMatch {cs : List Char} {rules : List LexemeRule} {kind : LexemeKind}
    {n : Nat} (h : firstMatch cs rules = some (kind, n)) :
    ∃ r ∈ rules, r.kind = kind ∧ r.length cs = n ∧ 0 < n := by
  induction rules with
  | nil => cases h
  | cons r rules ih =>
    rw [firstMatch] at h
    split at h
    · next hpos =>
      obtain ⟨rfl, rfl⟩ := Prod.mk.inj (Option.some.inj h)
      exact ⟨r, by simp, rfl, rfl, hpos⟩
    · obtain ⟨r', hr', hrest⟩ := ih h
      exact ⟨r', by simp [hr'], hrest⟩

theorem take_run (p : Char → Bool) (cs : List Char) : cs.take (run p cs) = cs.takeWhile p :=
  (List.prefix_iff_eq_take.mp (List.takeWhile_prefix p)).symm

theorem mem_takeWhile {p : Char → Bool} {cs : List Char} {c : Char} (h : c ∈ cs.takeWhile p) :
    p c = true :=
  List.all_eq_true.mp (List.all_takeWhile) c h

theorem isNumeral_take {cs : List Char} (h : 0 < numberLength cs) :
    IsNumeral (cs.take (numberLength cs)) := by
  have hwhole : run Char.isDigit cs ≠ 0 := fun h0 => by simp [numberLength, h0] at h
  have hne : cs.takeWhile Char.isDigit ≠ [] := fun h0 => hwhole (by rw [run, h0]; rfl)
  refine ⟨cs.takeWhile Char.isDigit, hne, fun c hc => mem_takeWhile hc, ?_⟩
  unfold numberLength
  dsimp only
  rw [if_neg hwhole]
  split
  · next rest hdrop =>
    right
    refine ⟨rest.takeWhile Char.isDigit, fun c hc => mem_takeWhile hc, ?_⟩
    rw [Nat.add_assoc, List.take_add, take_run, hdrop, Nat.add_comm, List.take_succ_cons, take_run]
  · exact .inl (take_run _ _)

theorem isWord_take {cs : List Char} (h : 0 < wordLength cs) :
    IsWord (cs.take (wordLength cs)) := by
  cases cs with
  | nil => cases h
  | cons c rest =>
    have hc : Text.isWordStart c = true := by
      by_contra hc
      rw [wordLength, if_neg hc] at h
      cases h
    refine ⟨c, rest.takeWhile Text.isWord, ?_, hc, fun d hd => mem_takeWhile hd⟩
    rw [wordLength, if_pos hc, Nat.add_comm, List.take_succ_cons, take_run]

/-- A closed literal is a quote, the characters up to the next one, and that one. -/
theorem take_closedLength {q : Char} {cs : List Char} (h : 0 < closedLength q cs) :
    ∃ rest : List Char, cs.take (closedLength q cs) =
      q :: (rest.takeWhile (fun d => d != q && d != '\n') ++ [q]) := by
  cases cs with
  | nil => cases h
  | cons c rest =>
    obtain rfl : c = q := by
      by_contra hc
      rw [closedLength_of_ne hc] at h
      cases h
    have hopen : openLength c (c :: rest) = run (fun d => d != c && d != '\n') rest + 1 := by
      rw [openLength, if_pos rfl, Nat.add_comm]
    unfold closedLength at h ⊢
    simp only [hopen, if_neg (Nat.succ_ne_zero _), List.drop_succ_cons] at h ⊢
    split at h
    · next hend =>
      refine ⟨rest, ?_⟩
      obtain ⟨tail, htail⟩ := List.head?_eq_some_iff.mp hend
      rw [if_pos hend, List.take_succ_cons, List.take_add, take_run, htail]
      rfl
    · cases h

theorem isQuotable_take {q : Char} (hq : q ∈ ['"', '\'']) {cs : List Char}
    (h : 0 < closedLength q cs) :
    IsQuotable (String.ofList ((cs.take (closedLength q cs)).drop 1).dropLast) := by
  obtain ⟨rest, htake⟩ := take_closedLength h
  have hout : ∀ d ∈ rest.takeWhile (fun d => d != q && d != '\n'), d ≠ q ∧ d ≠ '\n' := by
    intro d hd
    simpa using mem_takeWhile hd
  rw [htake, IsQuotable, String.toList_ofList, List.drop_one, List.tail_cons, List.dropLast_concat]
  refine ⟨fun hn => (hout _ hn).2 rfl, ?_⟩
  simp only [List.mem_cons, List.not_mem_nil, or_false] at hq
  rcases hq with rfl | rfl
  · exact .inl fun hn => (hout _ hn).1 rfl
  · exact .inr fun hn => (hout _ hn).1 rfl

theorem wordToken_proper {w : String} (h : IsWord w.toList) (p : Position) :
    (wordToken w p).Proper := by
  have hkind : (Lexeme.word w).kind = (wordToken w p).kind := by
    rw [(wordToken_eq w p).1]
    rfl
  generalize ht : wordToken w p = t at hkind ⊢
  unfold wordToken at ht
  dsimp only at ht
  split at ht
  · subst ht
    exact ⟨_, rfl⟩
  · split at ht
    · subst ht
      exact ⟨_, rfl⟩
    · split at ht
      · next k hk =>
        subst ht
        have hword : k.word = Text.upper w := by simpa using List.find?_some hk
        exact congrArg Value.text hword.symm
      · subst ht
        exact ⟨w, rfl, h, hkind⟩

/-- The tokens of a lexeme are well-formed. -/
theorem lexemeTokens_proper {cs : List Char} {kind : LexemeKind} {n : Nat} {p : Position}
    {ts : List Token} (hnext : nextLexeme? cs = some (kind, n))
    (h : lexemeTokens kind (cs.take n) p = .ok ts) : ∀ t ∈ ts, t.Proper := by
  obtain ⟨r, hr, rfl, rfl, hpos⟩ := exists_rule_of_firstMatch hnext
  rw [lexemeRules_eq, List.append_assoc, List.mem_append, List.mem_append] at hr
  rcases hr with hr | hr | hr
  · simp only [layoutRules, List.mem_cons, List.not_mem_nil, or_false] at hr
    rcases hr with rfl | rfl | rfl <;> cases h <;> simp [Token.Proper]
  · obtain ⟨⟨s, text⟩, hs, rfl⟩ := List.mem_map.mp hr
    cases h
    simp only [fixed] at hpos ⊢
    split at hpos
    · next hprefix =>
      have htext := List.prefix_iff_eq_take.mp (List.isPrefixOf_iff_prefix.mp hprefix)
      simp only [List.mem_singleton, forall_eq]
      refine ⟨text, ?_, hs⟩
      rw [if_pos hprefix, ← htext, String.ofList_toList]
    · cases hpos
  · simp only [textRules, List.mem_cons, List.not_mem_nil, or_false] at hr
    rcases hr with rfl | rfl | rfl | rfl | rfl | rfl <;> cases h <;>
      simp only [List.mem_singleton, forall_eq]
    · exact ⟨_, rfl, isNumeral_take hpos⟩
    · exact ⟨_, rfl, isQuotable_take (by simp) hpos⟩
    · exact ⟨_, rfl, isQuotable_take (by simp) hpos⟩
    · exact wordToken_proper (by rw [String.toList_ofList]; exact isWord_take hpos) p

/-- **Every token of a source is well-formed.** -/
theorem proper_of_scanFrom {p : Position} {cs : List Char} {ts : List Token}
    (h : scanFrom p cs = .ok ts) : ∀ t ∈ ts, t.Proper := by
  fun_induction scanFrom p cs generalizing ts with
  | case1 p =>
    cases h
    simp [Token.Proper, Token.eofAt]
  | case2 => cases h
  | case3 => cases h
  | case4 => cases h
  | case5 p c rest kind n hnext lexeme tokens htokens more hmore =>
    rename_i ih
    cases h
    intro t ht
    rcases List.mem_append.mp ht with ht | ht
    · exact lexemeTokens_proper hnext htokens t ht
    · exact ih hmore t ht

theorem Position.line_after (p : Position) (cs : List Char) : p.line ≤ (p.after cs).line := by
  induction cs generalizing p with
  | nil => exact Int.le_refl _
  | cons c cs ih =>
    have hnext : p.line ≤ (p.next c).line := by
      unfold Position.next
      split
      · exact Int.le_of_lt (Int.lt_succ _)
      · exact Int.le_refl _
    exact Int.le_trans hnext (ih (p.next c))

/-- The tokens of a lexeme have the line of its place, and none of them is the end of the input. -/
theorem lexemeTokens_at {kind : LexemeKind} {lexeme : List Char} {p : Position} {ts : List Token}
    (h : lexemeTokens kind lexeme p = .ok ts) : ∀ t ∈ ts, t.line = p.line ∧ t.kind ≠ .eof := by
  have hword : ∀ w, (wordToken w p).line = p.line ∧ (wordToken w p).kind ≠ .eof := by
    intro w
    unfold wordToken
    dsimp only
    split
    · simp
    · split
      · simp
      · split <;> simp
  cases kind <;> cases h <;> simp [hword]

/-- What is scanned from a place on has lines from there on, and the end of the input behind it and
nowhere else. -/
theorem tokens_of_scanFrom {p : Position} {cs : List Char} {ts : List Token}
    (h : scanFrom p cs = .ok ts) :
    (∀ t ∈ ts, p.line ≤ t.line) ∧ (∃ before last, ts = before ++ [last] ∧ last.kind = .eof) ∧
      ∀ t ∈ ts.dropLast, t.kind ≠ .eof := by
  fun_induction scanFrom p cs generalizing ts with
  | case1 p =>
    cases h
    exact ⟨by simp [Token.eofAt], ⟨[], _, rfl, rfl⟩, by simp⟩
  | case2 => cases h
  | case3 => cases h
  | case4 => cases h
  | case5 p c rest kind n hnext lexeme tokens htokens more hmore =>
    rename_i ih
    cases h
    obtain ⟨hlines, ⟨before, last, rfl, hlast⟩, hkinds⟩ := ih hmore
    have htoken := lexemeTokens_at htokens
    refine ⟨fun t ht => ?_, ⟨tokens ++ before, last, by simp, hlast⟩, fun t ht => ?_⟩
    · rcases List.mem_append.mp ht with ht | ht
      · exact Int.le_of_eq (htoken t ht).1.symm
      · exact Int.le_trans (p.line_after lexeme) (hlines t ht)
    · rw [List.dropLast_append_of_ne_nil (by simp), List.mem_append] at ht
      rcases ht with ht | ht
      · exact (htoken t ht).2
      · exact hkinds t ht

end Pseudocode
