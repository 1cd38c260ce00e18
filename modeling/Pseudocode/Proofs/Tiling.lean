import Pseudocode.Proofs.LineScanning
import Pseudocode.Proofs.Writable

/-!
# Tokens tile the source

A source is cut into pieces from its front. Each piece is what the first rule finds that finds
anything where the piece starts (`Piece.Leads`), and the cut is the only one: two cuts of a text
agree as far as the shorter one goes (`Cuts.isPrefix`). A piece that is neither blank nor a comment
becomes one token (`Piece.Becomes`), which carries the place of its first character. The place of a
character can be read off the text in front of it (`Position.behind`): the number of line breaks
there, and the number of characters since the last one.

A cut that cannot be continued to the end of the source stops in front of a text at which no rule
finds anything or where a literal starts that has no end on its line (`Halts`). That is the place of
the error, and the error shows the line around it.

Results:
* `cuts_of_scanFrom`, `halts_of_scanFrom`: what scanning from any place on does, as a cut.
* `excerpt_behind`: the line that an error shows is the one around its place.
* `tokens_tile_the_source`: all of this for whole sources.
-/

namespace Pseudocode

open LexemeRule

/-! ## Cutting a text -/

/-- A lexeme in a source: its kind and its text. -/
structure Piece where
  kind : LexemeKind
  text : List Char
  deriving DecidableEq

namespace Piece

/-- A piece is what the first rule finds that finds anything at the front of a text. -/
def Leads (piece : Piece) (cs : List Char) : Prop :=
  ∃ earlier rule later, lexemeRules = earlier ++ rule :: later ∧ (∀ r ∈ earlier, r.length cs = 0) ∧
    0 < rule.length cs ∧ piece = ⟨rule.kind, cs.take (rule.length cs)⟩

/-- A literal without an end on its line. -/
def isOpen (piece : Piece) : Bool :=
  piece.kind = .openString || piece.kind = .openChar

/-- A piece that no token is made of. -/
def isDropped (piece : Piece) : Bool :=
  piece.kind = .blank || piece.kind = .comment

/-- The kind and the value of the token that a piece becomes. -/
inductive Becomes : Piece → TokenKind → Value → Prop
  | lineBreak : Becomes ⟨.newline, ['\n']⟩ .newline (.text "\n")
  | symbol {s : Symbol} {text : String} (h : (s, text) ∈ symbolTexts) :
    Becomes ⟨.symbol s, text.toList⟩ (.symbol s) (.text text)
  | number {numeral : String} (h : IsNumeral numeral.toList) :
      Becomes ⟨.number, numeral.toList⟩ .number (.text numeral)
  /-- The text of a literal is what stands between its quotes. -/
  | literal {quote : Char} {text : String} (hquote : quote ∈ ['"', '\''])
      (hend : quote ∉ text.toList) (hline : '\n' ∉ text.toList) :
      Becomes ⟨.literal, quote :: (text.toList ++ [quote])⟩ .string (.text text)
  | truth {word : String} {b : Bool} (h : IsWord word.toList)
      (hupper : Text.upper word = if b then "TRUE" else "FALSE") :
    Becomes ⟨.word, word.toList⟩ .boolean (.bool b)
  /-- A keyword in any letter case is kept in upper case. -/
  | keyword {word : String} {k : Keyword} (h : IsWord word.toList)
      (hupper : Text.upper word = k.word) :
    Becomes ⟨.word, word.toList⟩ (.keyword k) (.text (Text.upper word))
  /-- Any other name is kept as it stands. -/
  | name {word : String} (h : IsWord word.toList) (htruth : Text.upper word ∉ ["TRUE", "FALSE"])
      (hkeyword : ∀ k : Keyword, Text.upper word ≠ k.word) :
      Becomes ⟨.word, word.toList⟩ .identifier (.text word)

end Piece

/-- Pieces cut off from the front of a text one after another, and what is left of it. None of them
is empty, and none is an open literal. -/
inductive Cuts : List Piece → List Char → List Char → Prop
  | nil (cs : List Char) : Cuts [] cs cs
  | cons {piece : Piece} {pieces : List Piece} {more rest : List Char} (hne : piece.text ≠ [])
      (hopen : piece.isOpen = false) (hlead : piece.Leads (piece.text ++ more))
      (h : Cuts pieces more rest) :
    Cuts (piece :: pieces) (piece.text ++ more) rest

/-- No piece can be cut off: no rule finds anything, or what the first one finds is an open
literal. -/
inductive Halts : List Char → LexicalCause → Prop
  | unexpected {c : Char} {cs : List Char} (h : ∀ r ∈ lexemeRules, r.length (c :: cs) = 0) :
    Halts (c :: cs) (.unexpected c)
  | openString {text cs : List Char} (h : Piece.Leads ⟨.openString, text⟩ cs) : Halts cs .openString
  | openChar {text cs : List Char} (h : Piece.Leads ⟨.openChar, text⟩ cs) : Halts cs .openChar

theorem firstMatch_eq_none_iff {cs : List Char} {rules : List LexemeRule} :
    firstMatch cs rules = none ↔ ∀ r ∈ rules, r.length cs = 0 := by
  induction rules with
  | nil => simp [firstMatch]
  | cons r rules ih =>
    rw [firstMatch, List.forall_mem_cons, ← ih]
    by_cases hr : 0 < r.length cs
    · simp [hr, Nat.ne_of_gt hr]
    · simp [Nat.eq_zero_of_not_pos hr]

/-- The rule that decides is the first one that finds anything. -/
theorem firstMatch_eq_some_iff {cs : List Char} {rules : List LexemeRule}
    {kind : LexemeKind} {n : Nat} :
    firstMatch cs rules = some (kind, n) ↔ ∃ earlier rule later, rules = earlier ++ rule :: later ∧
      (∀ r ∈ earlier, r.length cs = 0) ∧ 0 < rule.length cs ∧ rule.kind = kind ∧
        rule.length cs = n := by
  constructor
  · intro h
    induction rules with
    | nil => cases h
    | cons r rules ih =>
      rw [firstMatch] at h
      by_cases hr : 0 < r.length cs
      · rw [if_pos hr] at h
        obtain ⟨hkind, hn⟩ := Prod.mk.inj (Option.some.inj h)
        exact ⟨[], r, rules, rfl, by simp, hr, hkind, hn⟩
      · rw [if_neg hr] at h
        obtain ⟨earlier, rule, later, rfl, hearlier, hrule⟩ := ih h
        refine ⟨r :: earlier, rule, later, rfl, ?_, hrule⟩
        exact List.forall_mem_cons.mpr ⟨Nat.eq_zero_of_not_pos hr, hearlier⟩
  · rintro ⟨earlier, rule, later, rfl, hearlier, hpos, rfl, rfl⟩
    rw [firstMatch_append hearlier, firstMatch, if_pos hpos]

theorem Piece.leads_iff {piece : Piece} {cs : List Char} :
    piece.Leads cs ↔ ∃ n, nextLexeme? cs = some (piece.kind, n) ∧ piece.text = cs.take n := by
  constructor
  · rintro ⟨earlier, rule, later, hrules, hearlier, hpos, rfl⟩
    exact ⟨rule.length cs,
      firstMatch_eq_some_iff.mpr ⟨earlier, rule, later, hrules, hearlier, hpos, rfl, rfl⟩, rfl⟩
  · rintro ⟨n, hnext, htext⟩
    obtain ⟨earlier, rule, later, hrules, hearlier, hpos, hkind, rfl⟩ :=
      firstMatch_eq_some_iff.mp hnext
    exact ⟨earlier, rule, later, hrules, hearlier, hpos, by rw [hkind, ← htext]⟩

theorem Piece.Leads.unique {piece piece' : Piece} {cs : List Char} (h : piece.Leads cs)
    (h' : piece'.Leads cs) : piece' = piece := by
  obtain ⟨n, hnext, htext⟩ := Piece.leads_iff.mp h
  obtain ⟨n', hnext', htext'⟩ := Piece.leads_iff.mp h'
  obtain ⟨hkind, rfl⟩ := Prod.mk.inj (Option.some.inj (hnext.symm.trans hnext'))
  cases piece
  cases piece'
  simp_all

/-- Where a cut halts, no piece but an open literal leads. -/
theorem Halts.isOpen_of_leads {cs : List Char} {cause : LexicalCause} (h : Halts cs cause)
    {piece : Piece} (hlead : piece.Leads cs) : piece.isOpen = true := by
  cases h with
  | unexpected hnone =>
    obtain ⟨n, hnext, -⟩ := Piece.leads_iff.mp hlead
    rw [nextLexeme?, firstMatch_eq_none_iff.mpr hnone] at hnext
    cases hnext
  | openString h => rw [h.unique hlead]; rfl
  | openChar h => rw [h.unique hlead]; rfl

namespace Cuts

variable {pieces : List Piece} {cs rest : List Char}

/-- What is cut off and what is left make up the text. -/
theorem text_append (h : Cuts pieces cs rest) : cs = pieces.flatMap Piece.text ++ rest := by
  induction h with
  | nil cs => rfl
  | cons _ _ _ _ ih => rw [List.flatMap_cons, List.append_assoc, ← ih]

/-- **There is one way to cut a text**: a cut that has come to its end goes on from every other
one. -/
theorem isPrefix (h : Cuts pieces cs rest) (hend : rest = [] ∨ ∃ cause, Halts rest cause)
    {pieces' : List Piece} {rest' : List Char} (h' : Cuts pieces' cs rest') :
    pieces' <+: pieces := by
  induction h' generalizing pieces with
  | nil => exact List.nil_prefix
  | @cons piece' pieces' more' rest' hne hopen hlead h' ih =>
    generalize hcs : piece'.text ++ more' = cs at h hlead
    cases h with
    | nil =>
      rcases hend with rfl | ⟨cause, hhalts⟩
      · exact absurd (List.append_eq_nil_iff.mp hcs).1 hne
      · rw [hhalts.isOpen_of_leads hlead] at hopen
        cases hopen
    | cons hne' hopen' hlead' h =>
      obtain rfl := hlead'.unique hlead
      obtain rfl := List.append_cancel_left hcs
      exact List.cons_prefix_cons.mpr ⟨rfl, ih h⟩

end Cuts

/-! ## Places -/

/-- The place behind a text: one more than the number of its line breaks, and one more than the
number of characters since the last of them. -/
def Position.behind (before : List Char) : Position where
  line := 1 + (before.count '\n' : Nat)
  column := 1 + ((before.reverse.takeWhile (· != '\n')).length : Nat)

theorem Position.next_behind (before : List Char) (c : Char) :
    (Position.behind before).next c = Position.behind (before ++ [c]) := by
  unfold Position.next Position.behind
  by_cases hc : c = '\n'
  · subst hc
    simp [Int.add_assoc]
  · simp [hc, Int.add_assoc]

theorem Position.after_behind (before cs : List Char) :
    (Position.behind before).after cs = Position.behind (before ++ cs) := by
  induction cs generalizing before with
  | nil => rw [List.append_nil]; rfl
  | cons c cs ih =>
    show ((Position.behind before).next c).after cs = _
    rw [Position.next_behind, ih, List.append_assoc, List.singleton_append]

/-! ## Tokens of pieces -/

/-- Pieces with the text in front of each, where the first stands behind `before`. -/
def withFronts : List Char → List Piece → List (List Char × Piece)
  | _, [] => []
  | before, piece :: pieces => (before, piece) :: withFronts (before ++ piece.text) pieces

/-- A token carries what a piece becomes, and the place behind the text in front of the piece. -/
structure Token.Records (t : Token) (front : List Char) (piece : Piece) : Prop where
  becomes : piece.Becomes t.kind t.value
  line : t.line = (Position.behind front).line
  column : t.column = (Position.behind front).column

/-- Tokens go one by one with the pieces that are not dropped. -/
def Records (before : List Char) (pieces : List Piece) (tokens : List Token) : Prop :=
  List.Forall₂ (fun t place => t.Records place.1 place.2) tokens
    ((withFronts before pieces).filter fun place => !place.2.isDropped)

theorem wordToken_becomes {w : String} (h : IsWord w.toList) (p : Position) :
    ∃ kind value, wordToken w p = ⟨kind, value, p.line, p.column⟩ ∧
      Piece.Becomes ⟨.word, w.toList⟩ kind value := by
  unfold wordToken
  dsimp only
  split
  · next htrue => exact ⟨_, _, rfl, .truth h htrue⟩
  · next htrue =>
    split
    · next hfalse => exact ⟨_, _, rfl, .truth h hfalse⟩
    · next hfalse =>
      split
      · next k hk =>
        have hword : k.word = Text.upper w := by simpa using List.find?_some hk
        exact ⟨_, _, rfl, .keyword h hword.symm⟩
      · next hnone =>
        refine ⟨_, _, rfl, .name h (by simp [htrue, hfalse]) fun k hk => ?_⟩
        have hother := List.find?_eq_none.mp hnone k k.mem_all
        simp [hk] at hother

theorem literal_becomes {q : Char} (hq : q ∈ ['"', '\'']) {cs : List Char}
    (h : 0 < closedLength q cs) :
    Piece.Becomes ⟨.literal, cs.take (closedLength q cs)⟩ .string
      (.text (String.ofList ((cs.take (closedLength q cs)).drop 1).dropLast)) := by
  obtain ⟨rest, htake⟩ := take_closedLength h
  have hout : ∀ d ∈ rest.takeWhile (fun d => d != q && d != '\n'), d ≠ q ∧ d ≠ '\n' := by
    intro d hd
    simpa using mem_takeWhile hd
  rw [htake, List.drop_one, List.tail_cons, List.dropLast_concat]
  have hbecomes : Piece.Becomes
      ⟨.literal, q :: ((String.ofList (rest.takeWhile fun d => d != q && d != '\n')).toList ++
      [q])⟩ .string (.text (String.ofList (rest.takeWhile fun d => d != q && d != '\n'))) := by
    refine .literal hq (fun hmem => ?_) fun hmem => ?_
    · rw [String.toList_ofList] at hmem
      exact (hout _ hmem).1 rfl
    · rw [String.toList_ofList] at hmem
      exact (hout _ hmem).2 rfl
  rwa [String.toList_ofList] at hbecomes

theorem fixed_take {kind : LexemeKind} {text : String} {cs : List Char}
    (h : 0 < (fixed kind text).length cs) :
    cs.take ((fixed kind text).length cs) = text.toList := by
  unfold fixed at h ⊢
  dsimp only at h ⊢
  by_cases hprefix : text.toList.isPrefixOf cs = true
  · rw [if_pos hprefix]
    exact (List.prefix_iff_eq_take.mp (List.isPrefixOf_iff_prefix.mp hprefix)).symm
  · rw [if_neg hprefix] at h
    cases h

/-- What a rule finds is dropped, or it becomes one token. -/
theorem becomes_of_rule {r : LexemeRule} (hr : r ∈ lexemeRules) {cs : List Char}
    (hpos : 0 < r.length cs) {p : Position} {ts : List Token}
    (h : lexemeTokens r.kind (cs.take (r.length cs)) p = .ok ts) :
    Piece.isDropped ⟨r.kind, cs.take (r.length cs)⟩ = true ∧ ts = [] ∨
      Piece.isDropped ⟨r.kind, cs.take (r.length cs)⟩ = false ∧
        ∃ kind value, ts = [⟨kind, value, p.line, p.column⟩] ∧
        Piece.Becomes ⟨r.kind, cs.take (r.length cs)⟩ kind value := by
  rw [lexemeRules_eq, List.append_assoc, List.mem_append, List.mem_append] at hr
  rcases hr with hr | hr | hr
  · simp only [layoutRules, List.mem_cons, List.not_mem_nil, or_false] at hr
    rcases hr with rfl | rfl | rfl
    · cases h
      exact .inl ⟨rfl, rfl⟩
    · cases h
      rw [fixed_take hpos]
      exact .inr ⟨rfl, _, _, rfl, .lineBreak⟩
    · cases h
      exact .inl ⟨rfl, rfl⟩
  · obtain ⟨⟨s, text⟩, hs, rfl⟩ := List.mem_map.mp hr
    cases h
    rw [fixed_take hpos]
    exact .inr ⟨rfl, _, _, rfl, by rw [String.ofList_toList]; exact .symbol hs⟩
  · simp only [textRules, List.mem_cons, List.not_mem_nil, or_false] at hr
    rcases hr with rfl | rfl | rfl | rfl | rfl | rfl
    · cases h
      refine .inr ⟨rfl, _, _, rfl, ?_⟩
      have hnumber : IsNumeral (String.ofList (cs.take (numberLength cs))).toList := by
        rw [String.toList_ofList]
        exact isNumeral_take hpos
      have hbecomes := Piece.Becomes.number hnumber
      rwa [String.toList_ofList] at hbecomes
    · cases h
      exact .inr ⟨rfl, _, _, rfl, literal_becomes (by simp) hpos⟩
    · cases h
      exact .inr ⟨rfl, _, _, rfl, literal_becomes (by simp) hpos⟩
    · cases h
    · cases h
    · cases h
      obtain ⟨kind, value, hword, hbecomes⟩ :=
        wordToken_becomes (w := String.ofList (cs.take (wordLength cs)))
        (by rw [String.toList_ofList]; exact isWord_take hpos) p
      rw [String.toList_ofList] at hbecomes
      exact .inr ⟨rfl, kind, value, by rw [← hword], hbecomes⟩

/-- One step of the scanner cuts off a piece and records it. -/
theorem cuts_step {before : List Char} {c : Char} {cs : List Char} {kind : LexemeKind} {n : Nat}
    (hnext : nextLexeme? (c :: cs) = some (kind, n)) {ts : List Token}
    (htokens : lexemeTokens kind ((c :: cs).take n) (.behind before) = .ok ts) :
    (∀ {pieces : List Piece} {rest : List Char}, Cuts pieces ((c :: cs).drop n) rest →
      Cuts (⟨kind, (c :: cs).take n⟩ :: pieces) (c :: cs) rest) ∧
    ∀ {pieces : List Piece} {tokens : List Token},
      Records (before ++ (c :: cs).take n) pieces tokens →
      Records before (⟨kind, (c :: cs).take n⟩ :: pieces) (ts ++ tokens) := by
  obtain ⟨r, hr, rfl, rfl, hpos⟩ := exists_rule_of_firstMatch hnext
  constructor
  · intro pieces rest h
    have hlead : Piece.Leads ⟨r.kind, (c :: cs).take (r.length (c :: cs))⟩
        ((c :: cs).take (r.length (c :: cs)) ++ (c :: cs).drop (r.length (c :: cs))) := by
      rw [List.take_append_drop]
      exact Piece.leads_iff.mpr ⟨_, hnext, rfl⟩
    have hne : (c :: cs).take (r.length (c :: cs)) ≠ [] := by
      obtain ⟨n, hn⟩ := Nat.exists_eq_succ_of_ne_zero (Nat.ne_of_gt hpos)
      rw [hn, List.take_succ_cons]
      exact List.cons_ne_nil _ _
    have hopen : Piece.isOpen ⟨r.kind, (c :: cs).take (r.length (c :: cs))⟩ = false := by
      unfold Piece.isOpen
      dsimp only
      cases hkind : r.kind with
      | openString => rw [hkind] at htokens; cases htokens
      | openChar => rw [hkind] at htokens; cases htokens
      | _ => rfl
    have hcuts := Cuts.cons hne hopen hlead h
    dsimp only at hcuts
    rwa [List.take_append_drop] at hcuts
  · intro pieces tokens h
    unfold Records at h ⊢
    rcases becomes_of_rule hr hpos htokens with ⟨hdropped, rfl⟩ | ⟨hkept, kind,
      value, rfl, hbecomes⟩
    · rw [withFronts, List.filter_cons_of_neg (by simp [hdropped])]
      exact h
    · rw [withFronts, List.filter_cons_of_pos (by simp [hkept])]
      exact .cons ⟨hbecomes, rfl, rfl⟩ h

/-! ## Scanning as cutting -/

/-- **A text that is scanned is cut to its end**, and its tokens record the pieces. -/
theorem cuts_of_scanFrom {before cs : List Char} {ts : List Token}
    (h : scanFrom (.behind before) cs = .ok ts) :
    ∃ pieces tokens, Cuts pieces cs [] ∧ Records before pieces tokens ∧
      ts = tokens ++
        [.eofAt (Position.behind (before ++ cs)).line (Position.behind (before ++ cs)).column] := by
  generalize hp : Position.behind before = p at h
  fun_induction scanFrom p cs generalizing before ts with
  | case1 p =>
    cases h
    subst hp
    exact ⟨[], [], .nil [], .nil, by rw [List.append_nil, List.nil_append]⟩
  | case2 => cases h
  | case3 => cases h
  | case4 => cases h
  | case5 p c cs kind n hnext lexeme tokens htokens more hmore =>
    rename_i ih
    cases h
    subst hp
    obtain ⟨hcut, hrecord⟩ := cuts_step hnext htokens
    obtain ⟨pieces, later, hpieces, hlater, rfl⟩ :=
      ih (Position.after_behind before lexeme).symm hmore
    refine ⟨_, tokens ++ later, hcut hpieces, hrecord hlater, ?_⟩
    rw [List.append_assoc, List.append_assoc, List.take_append_drop]

/-- **A text that is not scanned is cut up to where the cut halts**, for the reason that is
given. -/
theorem halts_of_scanFrom {before cs : List Char} {e : LexicalError}
    (h : scanFrom (.behind before) cs = .error e) :
    ∃ pieces rest, Cuts pieces cs rest ∧ Halts rest e.cause ∧
      e.position = .behind (before ++ pieces.flatMap Piece.text) := by
  generalize hp : Position.behind before = p at h
  fun_induction scanFrom p cs generalizing before e with
  | case1 => cases h
  | case2 p c cs hnone =>
    cases h
    subst hp
    exact ⟨[], c :: cs, .nil _, .unexpected (firstMatch_eq_none_iff.mp hnone), by simp⟩
  | case3 p c cs kind n hnext lexeme cause =>
    rename_i hcause
    cases h
    subst hp
    have hlead : Piece.Leads ⟨kind, lexeme⟩ (c :: cs) := Piece.leads_iff.mpr ⟨n, hnext, rfl⟩
    refine ⟨[], c :: cs, .nil _, ?_, by simp⟩
    cases kind with
    | openString => cases hcause; exact .openString hlead
    | openChar => cases hcause; exact .openChar hlead
    | _ => cases hcause
  | case4 p c cs kind n hnext lexeme tokens htokens e' he' =>
    rename_i ih
    cases h
    subst hp
    obtain ⟨hcut, -⟩ := cuts_step hnext htokens
    obtain ⟨pieces, rest, hpieces, hhalts, hposition⟩ :=
      ih (Position.after_behind before lexeme).symm he'
    refine ⟨_, rest, hcut hpieces, hhalts, ?_⟩
    rw [hposition, List.flatMap_cons, List.append_assoc]
  | case5 => cases h

/-! ## The line around a place -/

/-- The line around a place: back to the last line break in front of it and on to the next one
behind it. -/
def lineAround (before rest : List Char) : List Char :=
  (before.reverse.takeWhile (· != '\n')).reverse ++ rest.takeWhile (· != '\n')

theorem cutAt_ne_nil (c : Char) (cs : List Char) : Text.cutAt c cs ≠ [] := by
  intro hnil
  simpa [hnil] using length_cutAt c cs

theorem head?_cutAt (rest : List Char) :
    (Text.cutAt '\n' rest).head? = some (rest.takeWhile (· != '\n')) := by
  induction rest with
  | nil => rfl
  | cons c rest ih =>
    rw [Text.cutAt]
    by_cases hc : c = '\n'
    · simp [hc]
    · obtain ⟨piece, pieces, hcut⟩ := List.exists_cons_of_ne_nil (cutAt_ne_nil '\n' rest)
      rw [hcut, List.head?_cons, Option.some.injEq] at ih
      simp [hc, hcut, ih]

theorem takeWhile_beforeBreak {xs : List Char} (h : '\n' ∉ xs) (ys : List Char) :
    (xs ++ ys).takeWhile (· != '\n') = xs ++ ys.takeWhile (· != '\n') := by
  refine List.takeWhile_append_of_pos fun c hc => ?_
  have hne : c ≠ '\n' := fun heq => h (heq ▸ hc)
  simpa using hne

/-- The rows of a text are numbered by the line breaks in front of them. -/
theorem getElem?_cutAt (before rest : List Char) :
    (Text.cutAt '\n' (before ++ rest))[before.count '\n']? = some (lineAround before rest) := by
  by_cases hbreak : '\n' ∈ before.reverse
  · -- the last line break in front is the first one on the way back
    obtain ⟨last, front, hback, hlast⟩ := List.eq_append_cons_of_mem hbreak
    have hbefore : before = front.reverse ++ '\n' :: last.reverse := by
      rw [← List.reverse_reverse before, hback]
      simp
    have haround : lineAround before rest = (last.reverse ++ rest).takeWhile (· != '\n') := by
      unfold lineAround
      rw [hback, takeWhile_beforeBreak hlast, takeWhile_beforeBreak (by simpa using hlast)]
      simp
    have hcount : before.count '\n' = (Text.cutAt '\n' front.reverse).length := by
      have hnone : last.reverse.count '\n' = 0 :=
        List.count_eq_zero_of_not_mem (by simpa using hlast)
      rw [length_cutAt, hbefore, List.count_append, List.count_cons_self, hnone]
    rw [haround, hcount, hbefore, List.append_assoc, List.cons_append, cutAt_break,
      List.getElem?_append_right (Nat.le_refl _), Nat.sub_self,
        ← List.head?_eq_getElem?, head?_cutAt]
  · rw [List.mem_reverse] at hbreak
    have haround : lineAround before rest = (before ++ rest).takeWhile (· != '\n') := by
      unfold lineAround
      have hreverse : '\n' ∉ before.reverse := by simpa using hbreak
      have hback := takeWhile_beforeBreak hreverse []
      rw [List.append_nil] at hback
      rw [hback, takeWhile_beforeBreak hbreak]
      simp
    rw [haround, List.count_eq_zero_of_not_mem hbreak, ← List.head?_eq_getElem?, head?_cutAt]

/-- **What an error shows**: the line around a place, and a caret under its column. -/
theorem excerpt_behind {source : String} {before rest : List Char}
    (h : source.toList = before ++ rest) :
    excerpt source (.behind before) =
      "\n  " ++ String.ofList (lineAround before rest) ++ "\n  " ++
        String.ofList (List.replicate ((Position.behind before).column - 1).toNat ' ') ++ "^" := by
  have hrow : rowAt? (Text.rows source) (Position.behind before).line =
      some (String.ofList (lineAround before rest)) := by
    have hline : ((Position.behind before).line - 1).toNat = before.count '\n' := by
      simp [Position.behind]
    have hpos : 0 < (Position.behind before).line := by
      simp only [Position.behind]
      omega
    rw [rowAt?, if_pos hpos, hline, Text.rows, List.getElem?_map, h,
      getElem?_cutAt, Option.map_some]
  rw [excerpt, hrow]

/-! ## Sources -/

/-- **Tokens tile the source, and positions are exact.** A source that is scanned is cut to its end
into pieces, each of which is what the first rule finds that finds anything where the piece starts.
Without the blanks and comments, the pieces go one by one with the tokens in front of the end of the
input; a token has the place of its piece, and the end of the input the place behind the source. A
source that is not scanned is cut in the same way up to the first place where no rule finds anything
or an open literal starts; the error has this place, and its message shows the line around it with a
caret under its column. In both cases there is no other way to cut the source. -/
theorem tokens_tile_the_source (source : String) :
    (∀ tokens, tokenize source = .ok tokens → ∃ pieces recorded,
      Cuts pieces source.toList [] ∧ pieces.flatMap Piece.text = source.toList ∧
      Records [] pieces recorded ∧
      tokens = recorded ++
        [.eofAt (Position.behind source.toList).line (Position.behind source.toList).column] ∧
      ∀ pieces' rest', Cuts pieces' source.toList rest' → pieces' <+: pieces) ∧
    ∀ e, tokenize source = .error e → ∃ pieces rest,
      Cuts pieces source.toList rest ∧ source.toList = pieces.flatMap Piece.text ++ rest ∧
      Halts rest e.cause ∧ e.position = .behind (pieces.flatMap Piece.text) ∧
      (∀ pieces' rest', Cuts pieces' source.toList rest' → pieces' <+: pieces) ∧
      ∀ filename, e.message filename source =
        s!"{filename}:{e.position.line}:{e.position.column}: {e.cause.message}" ++
          ("\n  " ++ String.ofList (lineAround (pieces.flatMap Piece.text) rest) ++ "\n  " ++
            String.ofList (List.replicate (e.position.column - 1).toNat ' ') ++ "^") := by
  constructor
  · intro tokens h
    change scanFrom (.behind []) source.toList = .ok tokens at h
    obtain ⟨pieces, recorded, hcuts, hrecords, htokens⟩ := cuts_of_scanFrom h
    refine ⟨pieces, recorded, hcuts, ?_, hrecords, htokens, fun _ _ => hcuts.isPrefix (.inl rfl)⟩
    rw [← List.append_nil (pieces.flatMap Piece.text), ← hcuts.text_append]
  · intro e h
    change scanFrom (.behind []) source.toList = .error e at h
    obtain ⟨pieces, rest, hcuts, hhalts, hposition⟩ := halts_of_scanFrom h
    rw [List.nil_append] at hposition
    refine ⟨pieces, rest, hcuts, hcuts.text_append, hhalts, hposition, fun _ _ =>
      hcuts.isPrefix (.inr ⟨_, hhalts⟩), fun filename => ?_⟩
    rw [LexicalError.message, complain, hposition, excerpt_behind hcuts.text_append]
    rfl

/-- A keyword and a name have the places of their pieces, and so has a literal that is left open
behind a comment. -/
theorem open_literal_has_the_place_of_its_piece :
    (∃ pieces, Cuts pieces "If x".toList [] ∧
      Records [] pieces [⟨.keyword .ifKw, .text "IF", 1, 1⟩, ⟨.identifier, .text "x", 1, 4⟩]) ∧
    ∃ pieces rest, Cuts pieces "x // y\n  'ab".toList rest ∧ Halts rest .openChar ∧
      Position.behind (pieces.flatMap Piece.text) = ⟨2, 3⟩ := by
  have hwords : tokenize "If x" =
      .ok ([⟨.keyword .ifKw, .text "IF", 1, 1⟩, ⟨.identifier, .text "x", 1, 4⟩] ++
        [.eofAt 1 5]) := by decide +kernel
  have hopen : tokenize "x // y\n  'ab" = .error ⟨.openChar, 2, 3⟩ := by decide +kernel
  constructor
  · obtain ⟨pieces, recorded, hcuts, -, hrecords, htokens, -⟩ :=
      (tokens_tile_the_source "If x").1 _ hwords
    obtain ⟨rfl, -⟩ := List.append_inj' htokens rfl
    exact ⟨pieces, hcuts, hrecords⟩
  · obtain ⟨pieces, rest, hcuts, -, hhalts, hposition, -⟩ :=
      (tokens_tile_the_source "x // y\n  'ab").2 _ hopen
    exact ⟨pieces, rest, hcuts, hhalts, hposition.symm⟩

end Pseudocode
