import Pseudocode.Proofs.Tiling

/-!
# Scanning undoes rendering

A text renders a list of tokens if it holds a spelling of each, in order, with gaps between them
(`Renders`). A symbol is spelled by one of its texts, a keyword or a truth value by a word in any
letter case, a text by itself between quotes that it does not hold. A gap is a run of blanks, which
may be missing at both ends of a line, and at the end of a line a comment may follow the blanks
(`Gap`). Many a spelling is the beginning of another, but no gap continues a spelling: what follows
a token begins with a blank or a line break (`Renders.delimited`), so that the scanner cuts there.

A carriage return is a blank. At the end of a line it makes a blank, a comment or an open literal
longer by one character and makes no difference to any other lexeme (`LexemeRule.ReturnBlind`), so
line ends may be written either way.

Results:
* `scanFrom_renders`: a rendering is scanned to its tokens.
* `scanFrom_return`: a carriage return at the end moves the end of the input and nothing else.
* `scanFrom_withReturns`: carriage returns in front of the line breaks change no kind, no value and
  no line.
* `tokenizing_undoes_rendering`: both for whole sources.
-/

namespace Pseudocode

open LexemeRule

/-! ## Renderings -/

/-- What may stand between two tokens of the given kinds. The beginning of a source is like that of
any other line, and its end like that of a line. -/
inductive Gap (before next : TokenKind) : List Char → Prop
  /-- Nothing, at an end of a line. -/
  | nothing (h : before = .newline ∨ next = .newline ∨ next = .eof) : Gap before next []
  | blanks {cs : List Char} (hne : cs ≠ []) (hcs : ∀ c ∈ cs, c ∈ [' ', '\t', '\r']) :
      Gap before next cs
  /-- A comment at the end of a line, behind blanks unless it stands alone. -/
  | comment {cs text : List Char} (hcs : ∀ c ∈ cs, c ∈ [' ', '\t', '\r'])
      (hapart : before = .newline ∨ cs ≠ []) (hnext : next = .newline ∨ next = .eof)
      (hline : '\n' ∉ text) : Gap before next (cs ++ '/' :: '/' :: text)

/-- A text renders tokens, given by their kinds and values, behind a token of the kind `before`. -/
inductive Renders : (before : TokenKind) → List (TokenKind × Value) → List Char → Prop
  | nil {before : TokenKind} {gap : List Char} (hgap : Gap before .eof gap) : Renders before [] gap
  | cons {before kind : TokenKind} {value : Value} {tokens : List (TokenKind × Value)}
      {gap rest : List Char} {piece : Piece} (hgap : Gap before kind gap)
      (hpiece : piece.Becomes kind value) (h : Renders kind tokens rest) :
      Renders before ((kind, value) :: tokens) (gap ++ (piece.text ++ rest))

/-- What a token is, wherever it stands. -/
def Token.meaning (t : Token) : TokenKind × Value :=
  (t.kind, t.value)

/-! ## Spellings -/

section Words

variable {w : String}

theorem Keyword.word_ne_truth (k : Keyword) : k.word ≠ "TRUE" ∧ k.word ≠ "FALSE" := by
  cases k <;> decide

theorem Keyword.ofWord?_word (k : Keyword) : Keyword.ofWord? k.word = some k := by
  cases k <;> decide

/-- What a word becomes is the token that is made of it. -/
theorem wordToken_of_becomes {kind : TokenKind} {value : Value}
    (h : Piece.Becomes ⟨.word, w.toList⟩ kind value) (p : Position) :
    wordToken w p = ⟨kind, value, p.line, p.column⟩ := by
  generalize hpiece : (⟨.word, w.toList⟩ : Piece) = piece at h
  cases h with
  | @truth word b _ hupper =>
    obtain rfl : w = word := String.toList_inj.mp (Piece.mk.inj hpiece).2
    cases b with
    | true => simp [wordToken, hupper]
    | false => simp [wordToken, hupper]
  | @keyword word k _ hupper =>
    obtain rfl : w = word := String.toList_inj.mp (Piece.mk.inj hpiece).2
    simp [wordToken, hupper, k.word_ne_truth, k.ofWord?_word]
  | @name word _ htruth hkeyword =>
    obtain rfl : w = word := String.toList_inj.mp (Piece.mk.inj hpiece).2
    have hnone : Keyword.ofWord? (Text.upper w) = none := by
      rw [Keyword.ofWord?, List.find?_eq_none]
      intro k _ hk
      exact hkeyword k (beq_iff_eq.mp hk).symm
    simp only [List.mem_cons, List.not_mem_nil, or_false, not_or] at htruth
    simp [wordToken, htruth, hnone]
  | _ => cases hpiece

/-- The letters that keywords and truth values are made of, in both cases. -/
def plainLetters : List Char :=
  "ABCDEFGHIJKLMNOPQRSTUVWXYZabcdefghijklmnopqrstuvwxyz".toList

theorem mem_plainLetters_of_toUpper {c : Char} (h : c.toUpper ∈ plainLetters) :
    c ∈ plainLetters := by
  by_cases hlower : 97 ≤ c.toNat ∧ c.toNat ≤ 122
  · rw [← Char.ofNat_toNat c]
    obtain ⟨hfrom, hto⟩ := hlower
    generalize c.toNat = n at hfrom hto
    interval_cases n <;> decide
  · have hsame : c.toUpper = c := by
      unfold Char.toUpper
      exact dif_neg hlower
    rwa [hsame] at h

/-- **A word in any letter case** is a word, and its upper-case form is that of its letters. -/
theorem letterCase {upper : String} (hne : upper ≠ "")
    (hletters : ∀ c ∈ upper.toList, c ∈ plainLetters)
    (h : w.toList.map Char.toUpper = upper.toList) : IsWord w.toList ∧ Text.upper w = upper := by
  have hplain : ∀ c ∈ w.toList, c ∈ plainLetters := by
    intro c hc
    refine mem_plainLetters_of_toUpper (hletters _ ?_)
    rw [← h]
    exact List.mem_map_of_mem hc
  have hword : ∀ c ∈ plainLetters, Text.isWordStart c = true ∧ Text.isWord c = true ∧
      Text.upperChar c = [c.toUpper] :=
    List.forall_iff_forall_mem.mp (by decide +kernel)
  constructor
  · cases hw : w.toList with
    | nil => exact absurd (String.toList_inj.mp (by simpa [hw] using h.symm)) hne
    | cons c cs =>
      rw [hw, List.forall_mem_cons] at hplain
      exact isWord_cons.mpr ⟨(hword c hplain.1).1, fun d hd => (hword d (hplain.2 d hd)).2.1⟩
  · have hupper : w.toList.flatMap Text.upperChar = w.toList.map Char.toUpper := by
      rw [List.map_eq_flatMap]
      exact List.flatMap_congr fun c hc => (hword c (hplain c hc)).2.2
    rw [Text.upper, hupper, h, String.ofList_toList]

theorem Keyword.word_letters (k : Keyword) :
    k.word ≠ "" ∧ ∀ c ∈ k.word.toList, c ∈ plainLetters := by
  refine ⟨?_, List.forall_iff_forall_mem.mp ?_⟩
  · cases k <;> decide
  · cases k <;> decide

/-- **A keyword in any letter case** is a spelling of it. -/
theorem becomes_keyword {k : Keyword} (h : w.toList.map Char.toUpper = k.word.toList) :
    Piece.Becomes ⟨.word, w.toList⟩ (.keyword k) (.text k.word) := by
  obtain ⟨hword, hupper⟩ := letterCase k.word_letters.1 k.word_letters.2 h
  have hbecomes := Piece.Becomes.keyword hword hupper
  rwa [hupper] at hbecomes

/-- **A truth value in any letter case** is a spelling of it. -/
theorem becomes_truth {b : Bool}
    (h : w.toList.map Char.toUpper = (if b then "TRUE" else "FALSE").toList) :
    Piece.Becomes ⟨.word, w.toList⟩ .boolean (.bool b) := by
  have hletters : (if b then "TRUE" else "FALSE") ≠ "" ∧
      ∀ c ∈ (if b then "TRUE" else "FALSE").toList, c ∈ plainLetters := by
    refine ⟨?_, List.forall_iff_forall_mem.mp ?_⟩
    · cases b <;> decide
    · cases b <;> decide
  obtain ⟨hword, hupper⟩ := letterCase hletters.1 hletters.2 h
  exact .truth hword hupper

end Words

theorem symbolTexts_head :
    ∀ p ∈ symbolTexts, ∃ c cs, p.2.toList = c :: cs ∧ isSpacing c = false := by
  have hall : ∀ p ∈ symbolTexts, p.2.toList.head?.any (fun c => !isSpacing c) = true := by decide
  intro p hp
  have hhead := hall p hp
  cases htext : p.2.toList with
  | nil => simp [htext] at hhead
  | cons c cs => exact ⟨c, cs, rfl, by simpa [htext] using hhead⟩

namespace Piece.Becomes

variable {piece : Piece} {kind : TokenKind} {value : Value}

/-- No spelling begins with a blank, and a line break is spelled by itself. -/
theorem head (h : piece.Becomes kind value) :
    ∃ c cs, piece.text = c :: cs ∧ isSpacing c = false ∧ (kind = .newline → c = '\n') := by
  have hword : ∀ {w : String}, IsWord w.toList → ∃ c cs, w.toList = c :: cs ∧
      isSpacing c = false := by
    intro w hw
    obtain ⟨c, cs, htext, hc, -⟩ := (Lexeme.Sound.word hw).head
    exact ⟨c, cs, htext, hc⟩
  cases h with
  | lineBreak => exact ⟨'\n', [], rfl, by decide, fun _ => rfl⟩
  | symbol hs =>
    obtain ⟨c, cs, htext, hc⟩ := symbolTexts_head _ hs
    exact ⟨c, cs, htext, hc, by simp⟩
  | number hn => exact (Lexeme.Sound.number hn).head
  | literal hquote hend hline => exact (Lexeme.Sound.quoted hquote hend hline).head
  | truth hw hupper =>
    obtain ⟨c, cs, htext, hc⟩ := hword hw
    exact ⟨c, cs, htext, hc, by simp⟩
  | keyword hw hupper =>
    obtain ⟨c, cs, htext, hc⟩ := hword hw
    exact ⟨c, cs, htext, hc, by simp⟩
  | name hw htruth hkeyword =>
    obtain ⟨c, cs, htext, hc⟩ := hword hw
    exact ⟨c, cs, htext, hc, by simp⟩

/-- **A spelling is cut off by its rule** when a blank, a line break or nothing follows, and one
token is made of it. -/
theorem next (h : piece.Becomes kind value) {rest : List Char}
    (hrest : kind = .newline ∨ Delimited rest) (p : Position) :
    nextLexeme? (piece.text ++ rest) = some (piece.kind, piece.text.length) ∧
      lexemeTokens piece.kind piece.text p = .ok [⟨kind, value, p.line, p.column⟩] := by
  have hword : ∀ {w : String}, Piece.Becomes ⟨.word, w.toList⟩ kind value →
      IsWord w.toList → Delimited rest →
      nextLexeme? (w.toList ++ rest) = some (.word, w.toList.length) ∧
        lexemeTokens .word w.toList p = .ok [⟨kind, value, p.line, p.column⟩] := by
    intro w hbecomes hw hdelim
    refine ⟨nextLexeme?_word hw hdelim, ?_⟩
    change Except.ok [wordToken (String.ofList w.toList) p] = _
    rw [String.ofList_toList, wordToken_of_becomes hbecomes]
  have hbecomes := h
  cases h with
  | lineBreak => exact ⟨nextLexeme?_lineEnd rest, rfl⟩
  | symbol hs =>
    refine ⟨nextLexeme?_symbolText hs (hrest.resolve_left (by simp)), ?_⟩
    simp [lexemeTokens]
  | number hn =>
    refine ⟨nextLexeme?_number hn (hrest.resolve_left (by simp)), ?_⟩
    simp [lexemeTokens]
  | literal hquote hend hline =>
    refine ⟨nextLexeme?_quoted hquote hend hline rest, ?_⟩
    simp [lexemeTokens]
  | truth hw hupper => exact hword hbecomes hw (hrest.resolve_left (by simp))
  | keyword hw hupper => exact hword hbecomes hw (hrest.resolve_left (by simp))
  | name hw htruth hkeyword => exact hword hbecomes hw (hrest.resolve_left (by simp))

theorem ne_eof (h : piece.Becomes kind value) : kind ≠ .eof := by
  cases h <;> simp

end Piece.Becomes

/-! ## Gaps -/

theorem nextLexeme?_comment {text rest : List Char} (htext : '\n' ∉ text)
    (hrest : ∀ c ∈ rest.head?, c = '\n') :
    nextLexeme? ('/' :: '/' :: text ++ rest) = some (.comment, ('/' :: '/' :: text).length) := by
  have hrun : run (· != '\n') (text ++ rest) = text.length := by
    refine run_append (fun c hc => ?_) fun c hc => ?_
    · have hne : c ≠ '\n' := fun heq => htext (heq ▸ hc)
      simpa using hne
    · simp [hrest c hc]
  have hcomment : commentLength ('/' :: '/' :: (text ++ rest)) = ('/' :: '/' :: text).length := by
    rw [commentLength, hrun, List.length_cons, List.length_cons, Nat.add_comm]
  rw [List.cons_append, List.cons_append, nextLexeme?, lexemeRules, firstMatch_cons_zero rfl, fixed,
    firstMatch_cons_zero rfl, firstMatch_cons_pos hcomment (Nat.succ_pos _)]

/-- Blanks and comments make no token. -/
theorem scanFrom_dropped {kind : LexemeKind} (hkind : kind = .blank ∨ kind = .comment)
    {xs rest : List Char} (hne : xs ≠ [])
    (hnext : nextLexeme? (xs ++ rest) = some (kind, xs.length)) (p : Position) :
    scanFrom p (xs ++ rest) = scanFrom (p.after xs) rest := by
  have hnone : lexemeTokens kind xs p = .ok [] := by
    rcases hkind with rfl | rfl <;> rfl
  rw [scanFrom_append hne hnext hnone]
  cases scanFrom (p.after xs) rest <;> rfl

/-- What a gap in front of a token of the given kind runs into: no blank, and where a line ends
nothing but its end. -/
structure Gap.Ends (next : TokenKind) (rest : List Char) : Prop where
  noBlank : ∀ c ∈ rest.head?, isSpacing c = false
  lineEnd : next = .newline ∨ next = .eof → ∀ c ∈ rest.head?, c = '\n'

theorem Gap.ends_nil (next : TokenKind) : Gap.Ends next [] where
  noBlank := by simp
  lineEnd := by simp

theorem Piece.Becomes.ends {piece : Piece} {kind : TokenKind} {value : Value}
    (h : piece.Becomes kind value) (rest : List Char) : Gap.Ends kind (piece.text ++ rest) := by
  obtain ⟨c, cs, htext, hc, hline⟩ := h.head
  rw [htext]
  refine ⟨by simpa using hc, fun hkind => ?_⟩
  simpa using hline (hkind.resolve_right h.ne_eof)

theorem isSpacing_of_mem {c : Char} (h : c ∈ [' ', '\t', '\r']) : isSpacing c = true := by
  have hall : ∀ c ∈ [' ', '\t', '\r'], isSpacing c = true :=
    List.forall_iff_forall_mem.mp (by decide)
  exact hall c h

/-- **The scanner goes through a gap** and makes nothing of it. -/
theorem scanFrom_gap {before next : TokenKind} {gap rest : List Char} (hgap : Gap before next gap)
    (hrest : Gap.Ends next rest) (p : Position) :
    scanFrom p (gap ++ rest) = scanFrom (p.after gap) rest := by
  cases hgap with
  | nothing => rfl
  | blanks hne hcs =>
    exact scanFrom_dropped (.inl rfl) hne
      (nextLexeme?_blanks hne (fun c hc => isSpacing_of_mem (hcs c hc)) hrest.noBlank) p
  | @comment cs text hcs _ hnext hline =>
    have hcomment : ∀ p,
        scanFrom p ('/' :: '/' :: text ++ rest) = scanFrom (p.after ('/' :: '/' :: text)) rest :=
      scanFrom_dropped (.inr rfl) (List.cons_ne_nil _ _)
        (nextLexeme?_comment hline (hrest.lineEnd hnext))
    by_cases hne : cs = []
    · subst hne
      exact hcomment p
    · rw [List.append_assoc, scanFrom_dropped (.inl rfl) hne
        (nextLexeme?_blanks hne (fun c hc => isSpacing_of_mem (hcs c hc)) (by simp [isSpacing])),
          hcomment]
      simp [Position.after]

/-- **A gap behind a token ends it.** -/
theorem Gap.delimited {before next : TokenKind} {gap rest : List Char} (hgap : Gap before next gap)
    (hbefore : before ≠ .newline) (hrest : Gap.Ends next rest) : Delimited (gap ++ rest) := by
  have hblanks : ∀ {cs : List Char}, cs ≠ [] → (∀ c ∈ cs, c ∈ [' ', '\t', '\r']) →
      ∀ more, Delimited (cs ++ more) := by
    intro cs hne hcs more
    obtain ⟨c, cs, rfl⟩ := List.exists_cons_of_ne_nil hne
    simpa [Delimited] using Or.inl (isSpacing_of_mem (hcs c (by simp)))
  cases hgap with
  | nothing h => exact fun c hc => .inr (hrest.lineEnd (h.resolve_left hbefore) c hc)
  | blanks hne hcs => exact hblanks hne hcs rest
  | comment hcs hapart =>
    rw [List.append_assoc]
    exact hblanks (hapart.resolve_left hbefore) hcs _

/-! ## Scanning a rendering -/

theorem Renders.delimited {before : TokenKind} {tokens : List (TokenKind × Value)}
    {text : List Char} (h : Renders before tokens text) (hbefore : before ≠ .newline) :
    Delimited text := by
  cases h with
  | nil hgap => simpa using hgap.delimited hbefore (Gap.ends_nil .eof)
  | cons hgap hpiece => exact hgap.delimited hbefore (hpiece.ends _)

/-- **A rendering is scanned to its tokens.** -/
theorem scanFrom_renders {before : TokenKind} {tokens : List (TokenKind × Value)} {text : List Char}
    (h : Renders before tokens text) (p : Position) :
    ∃ ts, scanFrom p text = .ok ts ∧ ts.map Token.meaning = tokens ++ [(.eof, .absent)] := by
  induction h generalizing p with
  | @nil before gap hgap =>
    have hscan := scanFrom_gap hgap (Gap.ends_nil .eof) p
    rw [List.append_nil, scanFrom_nil] at hscan
    exact ⟨_, hscan, rfl⟩
  | @cons before kind value tokens gap rest piece hgap hpiece h ih =>
    obtain ⟨ts, hscan, hmeaning⟩ := ih (((p.after gap).after piece.text))
    have hrest : kind = .newline ∨ Delimited rest := by
      by_cases hkind : kind = .newline
      · exact .inl hkind
      · exact .inr (h.delimited hkind)
    obtain ⟨hnext, htokens⟩ := hpiece.next hrest (p.after gap)
    have hne : piece.text ≠ [] := by
      obtain ⟨c, cs, htext, -⟩ := hpiece.head
      simp [htext]
    refine ⟨⟨kind, value, (p.after gap).line, (p.after gap).column⟩ :: ts, ?_,
      congrArg ((kind, value) :: ·) hmeaning⟩
    rw [scanFrom_gap hgap (hpiece.ends rest), scanFrom_append hne hnext htokens, hscan]
    rfl

/-! ## Carriage returns -/

/-- A carriage return at the end of a text is no part of what a rule finds, unless the rule has
found all of the text; then what it finds may be longer by one character, if it is of a kind whose
characters do not matter. -/
def LexemeRule.ReturnBlind (r : LexemeRule) : Prop :=
  ∀ cs, cs ≠ [] → r.length (cs ++ ['\r']) = r.length cs ∨
    r.kind ∈ [.blank, .comment, .openString, .openChar] ∧ r.length cs = cs.length ∧
      r.length (cs ++ ['\r']) = cs.length + 1

theorem run_return (p : Char → Bool) (cs : List Char) :
    run p (cs ++ ['\r']) = run p cs ∨
      run p cs = cs.length ∧ run p (cs ++ ['\r']) = cs.length + 1 := by
  unfold run
  induction cs with
  | nil => by_cases hreturn : p '\r' = true <;> simp [hreturn]
  | cons c cs ih =>
    by_cases hc : p c = true
    · simpa [hc] using ih
    · simp [hc]

namespace LexemeRule

theorem returnBlind_blank : ReturnBlind ⟨.blank, run isSpacing⟩ :=
  fun cs _ => (run_return isSpacing cs).imp_right fun h => ⟨by simp, h⟩

theorem returnBlind_fixed (kind : LexemeKind) {text : String} (htext : '\r' ∉ text.toList) :
    (fixed kind text).ReturnBlind :=
  fun cs _ => .inl (fixed_break [] kind htext cs)

theorem returnBlind_comment : ReturnBlind ⟨.comment, commentLength⟩ := by
  intro cs hcs
  obtain ⟨c, cs, rfl⟩ := List.exists_cons_of_ne_nil hcs
  cases cs with
  | nil => simp [commentLength]
  | cons d cs =>
    by_cases hc : c = '/'
    · by_cases hd : d = '/'
      · subst hc hd
        rcases run_return (· != '\n') cs with hsame | ⟨hall, hlonger⟩
        · exact .inl (congrArg (2 + ·) hsame)
        · right
          simp only [List.cons_append, commentLength, List.length_cons, hall, hlonger]
          simp [Nat.add_comm 2]
      · simp [commentLength, hd]
    · simp [commentLength, hc]

theorem openLength_return (q : Char) {cs : List Char} (hcs : cs ≠ []) :
    openLength q (cs ++ ['\r']) = openLength q cs ∨
      openLength q cs = cs.length ∧ openLength q (cs ++ ['\r']) = cs.length + 1 := by
  obtain ⟨c, cs, rfl⟩ := List.exists_cons_of_ne_nil hcs
  by_cases hc : c = q
  · have hrun := run_return (fun d => d != q && d != '\n') cs
    simp only [List.cons_append, openLength, if_pos hc, List.length_cons]
    omega
  · exact .inl (by rw [List.cons_append, openLength_of_ne hc, openLength_of_ne hc])

theorem returnBlind_open {kind : LexemeKind} (hkind : kind ∈ [.openString, .openChar]) (q : Char) :
    ReturnBlind ⟨kind, openLength q⟩ :=
  fun _ hcs => (openLength_return q hcs).imp_right fun h => ⟨by simp_all, h⟩

/-- A literal that is not closed in front of the carriage return is not closed by it. -/
theorem returnBlind_closed (kind : LexemeKind) {q : Char} (hq : q ≠ '\r') :
    ReturnBlind ⟨kind, closedLength q⟩ := by
  intro cs hcs
  left
  have hle := openLength_le q cs
  dsimp only [closedLength]
  rcases openLength_return q hcs with hsame | ⟨hall, hlonger⟩
  · rw [hsame, List.drop_append_of_le_length hle]
    cases cs.drop (openLength q cs) with
    | nil => simp [Ne.symm hq]
    | cons d tail => simp
  · rw [hlonger, hall, List.drop_eq_nil_of_le (Nat.le_refl _), List.drop_eq_nil_of_le (by simp)]
    simp

theorem returnBlind_lexemeRules : ∀ r ∈ lexemeRules, r.ReturnBlind := by
  intro r hr
  rw [lexemeRules_eq, List.mem_append, List.mem_append] at hr
  rcases hr with (hr | hr) | hr
  · simp only [layoutRules, List.mem_cons, List.not_mem_nil, or_false] at hr
    rcases hr with rfl | rfl | rfl
    · exact returnBlind_blank
    · exact returnBlind_fixed .newline (by decide)
    · exact returnBlind_comment
  · have htexts : ∀ p ∈ symbolTexts, '\r' ∉ p.2.toList := by decide
    obtain ⟨p, hp, rfl⟩ := List.mem_map.mp hr
    exact returnBlind_fixed _ (htexts p hp)
  · simp only [textRules, List.mem_cons, List.not_mem_nil, or_false] at hr
    rcases hr with rfl | rfl | rfl | rfl | rfl | rfl
    · exact fun cs _ => .inl (numberLength_break [] (by decide) (by decide) cs)
    · exact returnBlind_closed .literal (by decide)
    · exact returnBlind_closed .literal (by decide)
    · exact returnBlind_open (by simp) '"'
    · exact returnBlind_open (by simp) '\''
    · exact fun cs hcs => .inl (wordLength_break [] (by decide +kernel) hcs)

end LexemeRule

theorem firstMatch_return {rules : List LexemeRule} (hrules : ∀ r ∈ rules, r.ReturnBlind)
    {cs : List Char} (hcs : cs ≠ []) :
    firstMatch (cs ++ ['\r']) rules = firstMatch cs rules ∨
      ∃ kind ∈ [.blank, .comment, .openString, .openChar],
      firstMatch cs rules = some (kind, cs.length) ∧
      firstMatch (cs ++ ['\r']) rules = some (kind, cs.length + 1) := by
  induction rules with
  | nil => exact .inl rfl
  | cons r rules ih =>
    rw [List.forall_mem_cons] at hrules
    rcases hrules.1 cs hcs with hsame | ⟨hkind, hall, hlonger⟩
    · rw [firstMatch, firstMatch, hsame]
      by_cases hr : 0 < r.length cs
      · exact .inl (by rw [if_pos hr, if_pos hr])
      · rw [if_neg hr, if_neg hr]
        exact ih hrules.2
    · have hpos : 0 < cs.length := List.length_pos_iff.mpr hcs
      exact .inr ⟨r.kind, hkind, firstMatch_cons_pos hall hpos rules,
        firstMatch_cons_pos hlonger (Nat.succ_pos _) rules⟩

theorem nextLexeme?_return {cs : List Char} (hcs : cs ≠ []) :
    nextLexeme? (cs ++ ['\r']) = nextLexeme? cs ∨
      ∃ kind ∈ [.blank, .comment, .openString, .openChar], nextLexeme? cs = some (kind, cs.length) ∧
      nextLexeme? (cs ++ ['\r']) = some (kind, cs.length + 1) :=
  firstMatch_return returnBlind_lexemeRules hcs

/-- **A carriage return at the end** moves the end of the input and nothing else. -/
theorem scanFrom_return (p : Position) (cs : List Char) :
    scanFrom p (cs ++ ['\r']) = (scanFrom p cs).map fun ts =>
      ts.dropLast ++ [.eofAt (p.after (cs ++ ['\r'])).line (p.after (cs ++ ['\r'])).column] := by
  fun_induction scanFrom p cs with
  | case1 p =>
    have hnext : nextLexeme? ['\r'] = some (.blank, 1) := by decide
    rw [List.nil_append, scanFrom_lexeme (List.cons_ne_nil _ _) hnext]
    exact congrArg (Except.map _) (scanFrom_nil _)
  | case2 p c tail hnone =>
    rcases nextLexeme?_return (List.cons_ne_nil c tail) with hsame | ⟨kind, -, hfound, -⟩
    · exact scanFrom_unexpected (hsame.trans hnone) p
    · cases hnone.symm.trans hfound
  | case3 p c tail kind n hnext lexeme cause hcause =>
    -- a literal is open, however long it is
    have hopen : ∀ text, lexemeTokens kind text p = .error cause := by
      cases kind with
      | openString => exact fun _ => hcause
      | openChar => exact fun _ => hcause
      | _ => cases hcause
    obtain ⟨n', hnext'⟩ : ∃ n', nextLexeme? (c :: tail ++ ['\r']) = some (kind, n') := by
      rcases nextLexeme?_return (List.cons_ne_nil c tail) with hsame | ⟨kind', -, hfound, hlonger⟩
      · exact ⟨n, hsame.trans hnext⟩
      · obtain ⟨rfl, -⟩ := Prod.mk.inj (Option.some.inj (hnext.symm.trans hfound))
        exact ⟨_, hlonger⟩
    rw [scanFrom_lexeme (by simp) hnext', hopen]
    rfl
  | case4 p c tail kind n hnext lexeme tokens htokens e he ih =>
    rcases nextLexeme?_return (List.cons_ne_nil c tail) with hsame | ⟨kind', -, hfound, -⟩
    · rw [scanFrom_lexeme_append (List.cons_ne_nil c tail) hnext hsame, htokens]
      dsimp only
      rw [ih, he]
      rfl
    · obtain ⟨-, rfl⟩ := Prod.mk.inj (Option.some.inj (hnext.symm.trans hfound))
      rw [List.drop_length, scanFrom_nil] at he
      cases he
  | case5 p c tail kind n hnext lexeme tokens htokens more hmore ih =>
    rcases nextLexeme?_return (List.cons_ne_nil c tail) with hsame | ⟨kind', hkind, hfound, hlonger⟩
    · rw [scanFrom_lexeme_append (List.cons_ne_nil c tail) hnext hsame, htokens]
      dsimp only
      rw [ih, hmore, ← Position.after_append, ← List.append_assoc, List.take_append_drop]
      show Except.ok (tokens ++ (more.dropLast ++ _)) = Except.ok ((tokens ++ more).dropLast ++ _)
      rw [List.dropLast_append_of_ne_nil (scanFrom_ne_nil hmore), List.append_assoc]
    · -- what is found goes to the end, and no token is made of it
      obtain ⟨rfl, rfl⟩ := Prod.mk.inj (Option.some.inj (hnext.symm.trans hfound))
      have hdropped : kind = .blank ∨ kind = .comment := by
        simp only [List.mem_cons, List.not_mem_nil, or_false] at hkind
        rcases hkind with rfl | rfl | rfl | rfl
        · exact .inl rfl
        · exact .inr rfl
        · cases htokens
        · cases htokens
      have htokens : tokens = [] := by
        rcases hdropped with rfl | rfl <;> cases htokens <;> rfl
      rw [List.drop_length, scanFrom_nil] at hmore
      have hscan :
          scanFrom p (c :: tail ++ ['\r'] ++ []) = scanFrom (p.after (c :: tail ++ ['\r'])) [] :=
        scanFrom_dropped hdropped (by simp) (by simpa using hlonger) p
      rw [List.append_nil, scanFrom_nil] at hscan
      rw [hscan, htokens, ← Except.ok.inj hmore]
      rfl

/-- A text with a carriage return in front of every line break. -/
def withReturns (cs : List Char) : List Char :=
  cs.flatMap fun c => if c = '\n' then ['\r', '\n'] else [c]

/-- What a token is, and the line on which it stands. -/
def Token.onLine (t : Token) : TokenKind × Value × Int :=
  (t.kind, t.value, t.line)

theorem onLine_return (p : Position) (cs : List Char) :
    (scanFrom p (cs ++ ['\r'])).map (List.map Token.onLine) =
      (scanFrom p cs).map (List.map Token.onLine) := by
  rw [scanFrom_return]
  cases hscan : scanFrom p cs with
  | error e => rfl
  | ok ts =>
    have hline : (p.after (cs ++ ['\r'])).line = (p.after cs).line := by
      simp [Position.line_after_eq]
    have heof := congrArg (List.map Token.onLine) (scanFrom_eof hscan)
    rw [List.map_append] at heof
    show Except.ok (List.map Token.onLine (ts.dropLast ++ _)) = Except.ok (ts.map Token.onLine)
    rw [heof, List.map_append, hline]
    rfl

/-- A line break divides what is scanned, also where columns are left out. -/
theorem onLine_break (p : Position) (cs rest : List Char) :
    (scanFrom p (cs ++ '\n' :: rest)).map (List.map Token.onLine) = (do
      let before ← (scanFrom p cs).map (List.map Token.onLine)
      let after ← (scanFrom (p.after cs).nextLine rest).map (List.map Token.onLine)
      return before.dropLast ++ (.newline, .text "\n", (p.after cs).line) :: after) := by
  rw [scanFrom_break]
  cases scanFrom p cs with
  | error e => rfl
  | ok before =>
    cases scanFrom (p.after cs).nextLine rest with
    | error e => rfl
    | ok after =>
      show Except.ok (List.map Token.onLine (before.dropLast ++ _ :: after)) = Except.ok _
      rw [List.map_append, List.map_dropLast]
      rfl

/-- **Carriage returns in front of line breaks** change no kind, no value and no line, and no
error. -/
theorem scanFrom_withReturns (p : Position) (front cs : List Char) :
    (scanFrom p (front ++ withReturns cs)).map (List.map Token.onLine) =
      (scanFrom p (front ++ cs)).map (List.map Token.onLine) := by
  -- the line that has been begun is `front`
  induction cs generalizing p front with
  | nil => rfl
  | cons c cs ih =>
    by_cases hc : c = '\n'
    · subst hc
      have hsplit : front ++ withReturns ('\n' :: cs) = front ++ ['\r'] ++
          '\n' :: withReturns cs := by
        simp [withReturns]
      have hline : (p.after (front ++ ['\r'])).line = (p.after front).line := by
        simp [Position.line_after_eq]
      have hnext : (p.after (front ++ ['\r'])).nextLine = (p.after front).nextLine := by
        simp [Position.nextLine, hline]
      rw [hsplit, onLine_break, onLine_break, onLine_return, hline, hnext,
        ← List.nil_append (withReturns cs), ih, List.nil_append]
    · have hsplit : front ++ withReturns (c :: cs) = front ++ [c] ++ withReturns cs := by
        simp [withReturns, hc]
      rw [hsplit, ih, List.append_assoc, List.singleton_append]

/-! ## Sources -/

/-- **Tokenizing undoes rendering.** A text that renders tokens, in any spellings and with any gaps,
is scanned to tokens of the same kinds and values and the end of the input; keywords and truth
values may be spelled in any letter case. Whatever a source is, with a carriage return in front of
every line break it is scanned to tokens of the same kinds and values on the same lines, or fails
with the same error. -/
theorem tokenizing_undoes_rendering :
    (∀ tokens text, Renders .newline tokens text → ∃ ts, tokenize (String.ofList text) = .ok ts ∧
      ts.map Token.meaning = tokens ++ [(.eof, .absent)]) ∧
    (∀ (w : String) (k : Keyword), w.toList.map Char.toUpper = k.word.toList →
      Piece.Becomes ⟨.word, w.toList⟩ (.keyword k) (.text k.word)) ∧
    (∀ (w : String) (b : Bool), w.toList.map Char.toUpper = (if b then "TRUE" else "FALSE").toList →
      Piece.Becomes ⟨.word, w.toList⟩ .boolean (.bool b)) ∧
    ∀ source : String, (tokenize (String.ofList (withReturns source.toList))).map
      (List.map Token.onLine) = (tokenize source).map (List.map Token.onLine) := by
  refine ⟨fun tokens text h => ?_, fun w k => becomes_keyword, fun w b =>
    becomes_truth, fun source => ?_⟩
  · obtain ⟨ts, hscan, hmeaning⟩ := scanFrom_renders h {}
    exact ⟨ts, by rw [tokenize, String.toList_ofList, hscan], hmeaning⟩
  · rw [tokenize, tokenize, String.toList_ofList]
    exact scanFrom_withReturns {} [] source.toList

/-- A keyword and a truth value in mixed case, a text with one quote in it and a comment with the
other, and a line that ends in a carriage return. -/
theorem mixed_spellings_are_undone :
    Renders .newline [(.keyword .ifKw, .text "IF"), (.string, .text "a\"b"), (.newline, .text "\n"),
        (.symbol .assign, .text "<--"),
          (.boolean, .bool true)] "If\t'a\"b' // it's\r\n<--\r tRUE".toList ∧
      ∃ ts, tokenize "If\t'a\"b' // it's\r\n<--\r tRUE" = .ok ts ∧ ts.map Token.meaning =
        [(.keyword .ifKw, .text "IF"), (.string, .text "a\"b"), (.newline, .text "\n"),
          (.symbol .assign, .text "<--"), (.boolean, .bool true), (.eof, .absent)] := by
  obtain ⟨hundone, hkeyword, htruth, -⟩ := tokenizing_undoes_rendering
  have htrue : Renders (.symbol .assign) _ ("\r ".toList ++ ("tRUE".toList ++ [])) :=
    .cons (.blanks (by decide) (List.forall_iff_forall_mem.mp (by decide)))
      (htruth "tRUE" true (by decide)) (.nil (.nothing (by simp)))
  have hstart : ∀ next, Gap .newline next [] := fun _ => .nothing (.inl rfl)
  have hassign := Renders.cons (hstart _) (@Piece.Becomes.symbol .assign "<--" (by decide)) htrue
  have hcomment : Gap .string .newline ([' '] ++ '/' :: '/' :: " it's\r".toList) :=
    .comment (List.forall_iff_forall_mem.mp (by decide)) (by simp) (by simp) (by decide)
  have hliteral :
      Renders (.keyword .ifKw) _ ("\t".toList ++ ('\'' :: ("a\"b".toList ++ ['\'']) ++ _)) :=
    .cons (.blanks (by decide) (List.forall_iff_forall_mem.mp (by decide)))
      (.literal (by decide) (by decide) (by decide)) (.cons hcomment .lineBreak hassign)
  have hrenders := Renders.cons (hstart _) (hkeyword "If" .ifKw (by decide)) hliteral
  have htext : "If\t'a\"b' // it's\r\n<--\r tRUE".toList =
      [] ++ ("If".toList ++ ("\t".toList ++
        ('\'' :: ("a\"b".toList ++ ['\'']) ++ ([' '] ++ '/' :: '/' :: " it's\r".toList ++
        (['\n'] ++
          ([] ++ ("<--".toList ++ ("\r ".toList ++ ("tRUE".toList ++ []))))))))) := by decide
  rw [← htext] at hrenders
  obtain ⟨ts, hscan, hmeaning⟩ := hundone _ _ hrenders
  exact ⟨hrenders, ts, by rwa [String.ofList_toList] at hscan, hmeaning⟩

end Pseudocode
