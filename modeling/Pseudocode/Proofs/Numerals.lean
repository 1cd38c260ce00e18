import Mathlib.Data.List.TakeWhile
import Mathlib.Data.Nat.Prime.Basic
import Pseudocode.Proofs.Unpacking

/-!
# Numerals

A numeral in a program is digits, perhaps with a point among them. The grammar that reads numbers is
wider than that; on plain numerals it comes down to the value of the digits (`liberalWhole?_digits`)
and to the double closest to that value, shifted by the point (`liberalReal?_decimal`).

Every double that is not negative has a numeral. Its denominator is a power of two, so its decimal
expansion ends (`expansion_spec`), and an expansion is read as the double it came from, since
rounding is exact on doubles.

Results:
* `liberalWhole?_digits`, `liberalReal?_decimal`: what plain numerals are read as.
* `isMagnitude_ofDecimal`: numerals are read as doubles that are not negative.
* `liberalReal?_exactDecimal`: exact decimals read back.
-/

namespace Pseudocode.Number

/-! ## Digits -/

/-- A text of decimal digits. -/
def IsDigits (cs : List Char) : Prop := ∀ c ∈ cs, c.isDigit = true

instance (cs : List Char) : Decidable (IsDigits cs) :=
  decidable_of_iff (cs.all Char.isDigit = true) List.all_eq_true

theorem mem_digits {c : Char} (h : c.isDigit = true) : c ∈ "0123456789".toList := by
  simp only [Char.isDigit, ge_iff_le, Bool.and_eq_true, decide_eq_true_eq] at h
  have h1 : 48 ≤ c.toNat := h.1
  have h2 : c.toNat ≤ 57 := h.2
  have hc : c = Char.ofNat c.toNat := (Char.ofNat_toNat c).symm
  rw [hc]
  generalize c.toNat = n at h1 h2
  interval_cases n <;> decide

theorem digitsValue_append (xs ys : List Char) :
    digitsValue (xs ++ ys) = Nat.pow 10 ys.length * digitsValue xs + digitsValue ys := by
  change Nat.ofDigitChars 10 (xs ++ ys) 0 = _
  rw [Nat.ofDigitChars_append, Nat.ofDigitChars_eq_ofDigitChars_zero]
  rfl

theorem digitsValue_cons (c : Char) (cs : List Char) :
    digitsValue (c :: cs) = Nat.pow 10 cs.length * (c.toNat - 48) + digitsValue cs := by
  change Nat.ofDigitChars 10 (c :: cs) 0 = _
  rw [Nat.ofDigitChars_cons, Nat.ofDigitChars_eq_ofDigitChars_zero, Nat.mul_zero, Nat.zero_add]
  rfl

theorem digitsValue_toDigits (n : Nat) : digitsValue (Nat.toDigits 10 n) = n :=
  Nat.ofDigitChars_ten_toDigits

theorem isDigits_toDigits (n : Nat) : IsDigits (Nat.toDigits 10 n) :=
  fun _ hc => Nat.isDigit_of_mem_toDigits (by decide) (by decide) hc

/-- The limit on the numbers that are written is one on their digits. -/
theorem lt_writeLimit_iff {n : Nat} : n < writeLimit ↔ (Nat.toDigits 10 n).length ≤ digitLimit := by
  have hpos : 0 < digitLimit := by decide
  unfold writeLimit
  generalize digitLimit = k at hpos ⊢
  exact (Nat.length_toDigits_le_iff (by decide) hpos).symm

theorem digitsValue_zeros (k : Nat) : digitsValue (List.replicate k '0') = 0 := by
  change Nat.ofDigitChars 10 _ 0 = _
  rw [Nat.ofDigitChars_replicate_zero, Nat.mul_zero]

theorem digitsValue_lt {ds : List Char} (h : IsDigits ds) : digitsValue ds < 10 ^ ds.length := by
  induction ds with
  | nil => decide
  | cons c cs ih =>
    have hc : c.toNat - 48 ≤ 9 := by
      have : ∀ c ∈ "0123456789".toList, c.toNat - 48 ≤ 9 :=
        List.forall_iff_forall_mem.mp (by decide)
      exact this c (mem_digits (h c (by simp)))
    have hcs := ih fun d hd => h d (by simp [hd])
    rw [digitsValue_cons, List.length_cons, pow_succ, Nat.pow_eq]
    nlinarith

theorem digitsValue_lt_writeLimit {ds : List Char} (h : IsDigits ds)
    (hlength : ds.length ≤ digitLimit) : digitsValue ds < writeLimit := by
  unfold writeLimit
  generalize digitLimit = k at hlength
  exact (digitsValue_lt h).trans_le (Nat.pow_le_pow_right (by decide) hlength)

theorem le_digitsValue {c : Char} {cs : List Char} (hc : c.isDigit = true) (h0 : c ≠ '0') :
    10 ^ cs.length ≤ digitsValue (c :: cs) := by
  have : ∀ c ∈ "0123456789".toList, c ≠ '0' → 1 ≤ c.toNat - 48 :=
    List.forall_iff_forall_mem.mp (by decide)
  have h1 := this c (mem_digits hc) h0
  rw [digitsValue_cons, Nat.pow_eq]
  nlinarith [Nat.one_le_pow cs.length 10 (by decide)]

/-- Zeros in front do not count, and without them the value of digits has as many digits. -/
theorem digitsValue_dropZeros {ds : List Char} (h : IsDigits ds) :
    digitsValue (ds.dropWhile (· == '0')) = digitsValue ds ∧
      ∀ c cs, ds.dropWhile (· == '0') = c :: cs →
        10 ^ cs.length ≤ digitsValue ds ∧ digitsValue ds < 10 ^ (cs.length + 1) := by
  have hvalue : digitsValue (ds.dropWhile (· == '0')) = digitsValue ds := by
    clear h
    induction ds with
    | nil => rfl
    | cons c cs ih =>
      rw [List.dropWhile_cons]
      split
      · next hc =>
        rw [ih, digitsValue_cons, beq_iff_eq.mp hc]
        simp
      · rfl
  refine ⟨hvalue, fun c cs hs => ?_⟩
  have hdigits : IsDigits (c :: cs) := fun d hd => h d (List.dropWhile_subset _ (hs ▸ hd))
  have hhead := List.head?_dropWhile_not (· == '0') ds
  rw [hs] at hhead hvalue
  rw [← hvalue]
  exact ⟨le_digitsValue (hdigits c (by simp)) (by simpa using hhead), digitsValue_lt hdigits⟩

/-! ## Plain numerals -/

/-- The characters of a plain numeral: digits and the point. -/
def IsPlain (cs : List Char) : Prop := ∀ c ∈ cs, c ∈ "0123456789.".toList

theorem IsDigits.isPlain {cs : List Char} (h : IsDigits cs) : IsPlain cs := fun c hc => by
  have hsub : ∀ d ∈ "0123456789".toList, d ∈ "0123456789.".toList :=
    List.forall_iff_forall_mem.mp (by decide)
  exact hsub c (mem_digits (h c hc))

theorem isPlain_decimal {whole fraction : List Char} (hw : IsDigits whole)
    (hf : IsDigits fraction) : IsPlain (whole ++ '.' :: fraction) := by
  intro c hc
  simp only [List.mem_append, List.mem_cons] at hc
  rcases hc with hc | rfl | hc
  · exact hw.isPlain c hc
  · decide
  · exact hf.isPlain c hc

theorem dropMargin_eq_self {cs : List Char} (h : ∀ c ∈ cs, isMargin c = false) :
    cs.dropWhile isMargin = cs := by
  cases cs with
  | nil => rfl
  | cons c cs => rw [List.dropWhile_cons_of_neg]; simp [h c (by simp)]

theorem ungroup?_eq_self (previous : Char) {cs : List Char} (h : '_' ∉ cs) :
    ungroup? previous cs = some cs := by
  induction cs generalizing previous with
  | nil => rfl
  | cons c cs ih =>
    have hc : c ≠ '_' := fun hc => h (hc ▸ List.mem_cons_self)
    rw [ungroup?, ih c fun hd => h (List.mem_cons_of_mem c hd)]
    · rfl
    · exact fun _ _ hu => absurd hu hc
    · exact fun hu => absurd hu hc

/-- Characters that have nothing liberal about them are read as they stand. -/
theorem plainNumber?_eq_self {cs : List Char} (hm : ∀ c ∈ cs, isMargin c = false)
    (hd : ∀ c ∈ cs, plainDigit c = c) (hu : '_' ∉ cs) :
    plainNumber? (String.ofList cs) = some cs := by
  have hmargins : withinMargins (String.ofList cs) = cs := by
    unfold withinMargins
    rw [String.toList_ofList, dropMargin_eq_self hm, dropMargin_eq_self, List.reverse_reverse]
    exact fun c hc => hm c (List.mem_reverse.mp hc)
  have hdigits : cs.map plainDigit = cs := by
    calc cs.map plainDigit = cs.map id := List.map_congr_left hd
      _ = cs := List.map_id cs
  rw [plainNumber?, hmargins, hdigits, ungroup?_eq_self _ hu]

theorem not_liberal :
    ∀ c ∈ "-.0123456789".toList, isMargin c = false ∧ plainDigit c = c ∧ c ≠ '_' :=
  List.forall_iff_forall_mem.mp (by decide)

/-- A plain numeral is read as it stands, and so is one with a minus sign. -/
theorem plainNumber?_plain {cs : List Char} (h : IsPlain cs) :
    plainNumber? (String.ofList cs) = some cs ∧
      plainNumber? (String.ofList ('-' :: cs)) = some ('-' :: cs) := by
  have hsub : ∀ d ∈ "0123456789.".toList, d ∈ "-.0123456789".toList :=
    List.forall_iff_forall_mem.mp (by decide)
  have hread : ∀ {ds : List Char}, (∀ c ∈ ds, c ∈ "-.0123456789".toList) →
      plainNumber? (String.ofList ds) = some ds := fun hds =>
    plainNumber?_eq_self (fun c hc => (not_liberal c (hds c hc)).1) (fun c hc =>
      (not_liberal c (hds c hc)).2.1) fun hu => (not_liberal '_' (hds '_' hu)).2.2 rfl
  refine ⟨hread fun c hc => hsub c (h c hc), hread fun c hc => ?_⟩
  rcases List.mem_cons.mp hc with rfl | hc
  · decide
  · exact hsub c (h c hc)

theorem splitSign_digit {c : Char} (hc : c.isDigit = true) (cs : List Char) :
    splitSign (c :: cs) = (false, c :: cs) := by
  have hsign : ∀ d ∈ "0123456789".toList, d ≠ '-' ∧ d ≠ '+' :=
    List.forall_iff_forall_mem.mp (by decide)
  obtain ⟨hminus, hplus⟩ := hsign c (mem_digits hc)
  unfold splitSign
  split <;> simp_all

/-- A text that begins with a digit is no number word. -/
theorem namedReal?_digit {c : Char} (hc : c.isDigit = true) (cs : List Char) :
    namedReal? (c :: cs) = none := by
  have hlow : ∀ d ∈ "0123456789".toList, d.toLower ≠ 'i' ∧ d.toLower ≠ 'n' :=
    List.forall_iff_forall_mem.mp (by decide)
  obtain ⟨hi, hn⟩ := hlow c (mem_digits hc)
  have hword : ∀ (d : Char) (ds : List Char), c.toLower ≠ d →
      String.ofList ((c :: cs).map Char.toLower) ≠ String.ofList (d :: ds) := by
    intro d ds hd h
    have := congrArg String.toList h
    simp only [String.toList_ofList, List.map_cons, List.cons.injEq] at this
    exact hd this.1
  have hinf := hword 'i' ['n', 'f'] hi
  have hinfinity := hword 'i' ['n', 'f', 'i', 'n', 'i', 't', 'y'] hi
  have hnan := hword 'n' ['a', 'n'] hn
  unfold namedReal?
  simp only [beq_eq_false_iff_ne.mpr hinf, beq_eq_false_iff_ne.mpr hinfinity,
    beq_eq_false_iff_ne.mpr hnan]
  rfl

/-- **Reading digits**: a whole number is read unless it has too many digits. -/
theorem liberalWhole?_digits {ds : List Char} (hne : ds ≠ []) (h : IsDigits ds) :
    liberalWhole? (String.ofList ds) =
      if digitLimit < ds.length then none else some (digitsValue ds : Int) := by
  obtain ⟨c, cs, rfl⟩ := List.exists_cons_of_ne_nil hne
  have hall : (c :: cs).all Char.isDigit = true := List.all_eq_true.mpr h
  simp only [liberalWhole?, (plainNumber?_plain h.isPlain).1, Option.bind_eq_bind, Option.bind_some,
    splitSign_digit (h c (by simp)), List.isEmpty_cons, hall, Bool.not_true, Bool.or_false,
    Bool.false_eq_true, if_false, wholeOfDigits]
  by_cases hlong : digitLimit < (c :: cs).length
  · rw [if_pos hlong, if_pos hlong]
  · rw [if_neg hlong, if_neg hlong]

/-- A whole number in decimal: its digits, after a minus sign if it is negative. -/
theorem toString_int (n : Int) :
    toString n = String.ofList
      (if n < 0 then '-' :: Nat.toDigits 10 n.natAbs else Nat.toDigits 10 n.natAbs) := by
  cases n with
  | ofNat k => exact (congrArg String.ofList (if_neg (by simp))).symm
  | negSucc k =>
    rw [if_pos (Int.negSucc_lt_zero k)]
    show "-" ++ Nat.repr (k + 1) = _
    rw [← String.toList_inj, String.toList_append, String.toList_ofList]
    simp [Nat.repr]

/-- A whole number that can be written is read back. -/
theorem liberalWhole?_toString {n : Int} (h : n.natAbs < writeLimit) :
    liberalWhole? (toString n) = some n := by
  have hdigits := isDigits_toDigits n.natAbs
  have hne : Nat.toDigits 10 n.natAbs ≠ [] := Nat.toDigits_ne_nil
  have hlength : ¬ digitLimit < (Nat.toDigits 10 n.natAbs).length :=
    Nat.not_lt.mpr (lt_writeLimit_iff.mp h)
  have hvalue := digitsValue_toDigits n.natAbs
  rw [toString_int]
  by_cases hn : n < 0
  · have hall : (Nat.toDigits 10 n.natAbs).all Char.isDigit = true := List.all_eq_true.mpr hdigits
    rw [if_pos hn]
    simp only [liberalWhole?, (plainNumber?_plain hdigits.isPlain).2, Option.bind_eq_bind,
      Option.bind_some, splitSign, List.isEmpty_eq_false_iff.mpr hne, hall, Bool.not_true,
      Bool.or_false, Bool.false_eq_true, if_false, wholeOfDigits, if_neg hlength, hvalue, if_true]
    exact congrArg some (by omega)
  · rw [if_neg hn, liberalWhole?_digits hne hdigits, if_neg hlength, hvalue]
    exact congrArg some (by omega)

theorem takeWhile_digits {whole : List Char} (hw : IsDigits whole) (rest : List Char) :
    (whole ++ '.' :: rest).takeWhile Char.isDigit = whole ∧
      (whole ++ '.' :: rest).dropWhile Char.isDigit = '.' :: rest := by
  rw [List.takeWhile_append_of_pos hw, List.dropWhile_append_of_pos hw]
  exact ⟨by simp, by simp⟩

theorem readUnsigned_decimal {whole fraction : List Char} (hne : whole ≠ []) (hw : IsDigits whole)
    (hf : IsDigits fraction) :
    readUnsigned (whole ++ '.' :: fraction) =
      some (ofDecimal (whole ++ fraction) (0 - fraction.length)) := by
  obtain ⟨htake, hdrop⟩ := takeWhile_digits hw fraction
  have hftake : fraction.takeWhile Char.isDigit = fraction := List.takeWhile_eq_self_iff.mpr hf
  have hfdrop : fraction.dropWhile Char.isDigit = [] := List.dropWhile_eq_nil_iff.mpr hf
  simp only [readUnsigned, htake, hdrop, hftake, hfdrop, List.isEmpty_eq_false_iff.mpr hne,
    Bool.false_and, Bool.false_eq_true, if_false, readExponent, Option.map_some]

/-- **Reading decimals**: a decimal is read as the double closest to its digits, shifted. -/
theorem liberalReal?_decimal {whole fraction : List Char} (hne : whole ≠ []) (hw : IsDigits whole)
    (hf : IsDigits fraction) :
    liberalReal? (String.ofList (whole ++ '.' :: fraction)) =
      some (ofDecimal (whole ++ fraction) (0 - fraction.length)) := by
  obtain ⟨c, cs, rfl⟩ := List.exists_cons_of_ne_nil hne
  have hc := hw c (by simp)
  have hread := readUnsigned_decimal hne hw hf
  have hplain := (plainNumber?_plain (isPlain_decimal hw hf)).1
  simp only [List.cons_append] at hread hplain ⊢
  simp only [liberalReal?, hplain, Option.bind_eq_bind, Option.bind_some, splitSign_digit hc,
    namedReal?_digit hc, hread]
  rfl


/-- Numerals are read as doubles that are not negative. -/
theorem isMagnitude_ofDecimal (ds : List Char) (e : Int) : IsMagnitude (ofDecimal ds e) := by
  unfold ofDecimal
  dsimp only
  split
  · exact isMagnitude_nearest 0 1
  · split
    · exact isMagnitude_infinity
    · split <;> exact isMagnitude_nearest _ _

/-! ## Exact decimals -/

/-- The decimal expansion of `n / d`, where `d` is a power of two. -/
def expansion (n d : Nat) : List Char :=
  let common := Nat.gcd n d
  let num := n / common
  let den := d / common
  let places := max 1 den.log2
  let fraction := Nat.toDigits 10 (num % den * (Nat.pow 10 places / den))
  Nat.toDigits 10 (num / den) ++ '.' :: (List.replicate (places - fraction.length) '0' ++ fraction)

/-- The decimal expansion of a double that is not negative. An infinite one is written as a number
past the largest double. -/
def exactDecimal (x : Float) : List Char :=
  match parts? x with
  | some p => expansion (scaled p.mantissa 1 p.exponent).1 (scaled p.mantissa 1 p.exponent).2
  | none => '1' :: (List.replicate 310 '0' ++ ['.', '0'])

/-- Digits, a point, and digits. -/
def IsDecimal (cs : List Char) : Prop :=
  ∃ whole fraction, whole ≠ [] ∧ fraction ≠ [] ∧ IsDigits whole ∧ IsDigits fraction ∧
    cs = whole ++ '.' :: fraction


theorem reduced_pos {n d : Nat} (hd : 0 < d) : 0 < d / Nat.gcd n d :=
  Nat.div_pos (Nat.le_of_dvd hd (Nat.gcd_dvd_right n d)) (Nat.gcd_pos_of_pos_right n hd)

/-- Enough decimal places for a fraction whose denominator is a power of two. -/
theorem dvd_pow_places {n k : Nat} :
    2 ^ k / Nat.gcd n (2 ^ k) ∣ 10 ^ max 1 (2 ^ k / Nat.gcd n (2 ^ k)).log2 := by
  obtain ⟨j, -, hj⟩ := (Nat.dvd_prime_pow Nat.prime_two).mp
    (Nat.div_dvd_of_dvd (Nat.gcd_dvd_right n (2 ^ k)))
  rw [hj, Nat.log2_two_pow]
  calc 2 ^ j ∣ 2 ^ max 1 j := pow_dvd_pow 2 (le_max_right 1 j)
    _ ∣ 10 ^ max 1 j := pow_dvd_pow_of_dvd (by decide) _

/-- Digits with zeros in front to a given length. -/
theorem padded_spec {places value : Nat} (hplaces : 0 < places) (hlt : value < 10 ^ places) :
    let padded :=
      List.replicate (places - (Nat.toDigits 10 value).length) '0' ++ Nat.toDigits 10 value
    IsDigits padded ∧ padded.length = places ∧ digitsValue padded = value := by
  have hlen := (Nat.length_toDigits_le_iff (b := 10) (by decide) hplaces).mpr hlt
  refine ⟨fun c hc => ?_, by simp; omega, ?_⟩
  · rcases List.mem_append.mp hc with hc | hc
    · rw [List.eq_of_mem_replicate hc]
      rfl
    · exact isDigits_toDigits value c hc
  · rw [digitsValue_append, digitsValue_zeros, digitsValue_toDigits, Nat.mul_zero, Nat.zero_add]

/-- **An expansion is exact**: it is a decimal with the value of the quotient. -/
theorem expansion_spec (n k : Nat) :
    ∃ whole fraction, expansion n (2 ^ k) = whole ++ '.' :: fraction ∧ whole ≠ [] ∧ fraction ≠ [] ∧
      IsDigits whole ∧ IsDigits fraction ∧
      digitsValue (whole ++ fraction) * 2 ^ k = n * 10 ^ fraction.length := by
  have hpos : 0 < 2 ^ k / Nat.gcd n (2 ^ k) := reduced_pos (by positivity)
  obtain ⟨unit, hunit⟩ := dvd_pow_places (n := n) (k := k)
  have hn := Nat.div_mul_cancel (Nat.gcd_dvd_left n (2 ^ k))
  have hd := Nat.div_mul_cancel (Nat.gcd_dvd_right n (2 ^ k))
  unfold expansion
  dsimp only
  generalize Nat.gcd n (2 ^ k) = common at *
  generalize n / common = num at *
  generalize 2 ^ k / common = den at *
  obtain ⟨places, hplaces⟩ : ∃ places, max 1 den.log2 = places := ⟨_, rfl⟩
  rw [hplaces] at hunit ⊢
  have hscale : Nat.pow 10 places / den = unit := Nat.div_eq_of_eq_mul_right hpos hunit
  have hlt : num % den * unit < 10 ^ places := by
    have hupos : 0 < unit := Nat.pos_of_ne_zero fun h => by simp [h] at hunit
    rw [hunit]
    exact Nat.mul_lt_mul_of_pos_right (Nat.mod_lt _ hpos) hupos
  obtain ⟨hdigits, hlen, hvalue⟩ := padded_spec (by omega) hlt
  rw [hscale]
  refine ⟨_, _, rfl, Nat.toDigits_ne_nil, ?_, isDigits_toDigits _, hdigits, ?_⟩
  · exact List.ne_nil_of_length_pos (by omega)
  · rw [digitsValue_append, hlen, hvalue, digitsValue_toDigits, Nat.pow_eq, ← hn, ← hd]
    calc (10 ^ places * (num / den) + num % den * unit) * (den * common)
        = (den * (num / den) + num % den) * 10 ^ places * common := by rw [hunit]; ring
      _ = num * common * 10 ^ places := by rw [Nat.div_add_mod]; ring

/-! ## Reading exact decimals back -/

/-- Digits with a point among them are read as the double closest to their value, if that is in the
range in which powers of ten are computed. -/
theorem ofDecimal_eq_nearest {ds : List Char} (h : IsDigits ds) {places : Nat} (hp : 0 < places)
    (hlow : 10 ^ places ≤ digitsValue ds * 10 ^ 330)
    (hhigh : digitsValue ds < 10 ^ (places + 310)) :
    ofDecimal ds (0 - places) = nearest (digitsValue ds) (10 ^ places) := by
  obtain ⟨hvalue, hbounds⟩ := digitsValue_dropZeros h
  unfold ofDecimal
  dsimp only
  rw [hvalue]
  cases hs : ds.dropWhile (· == '0') with
  | nil =>
    rw [← hvalue, hs, show digitsValue [] = 0 from rfl, Nat.zero_mul] at hlow
    exact absurd hlow (not_le.mpr (by positivity))
  | cons c cs =>
    obtain ⟨hdown, hup⟩ := hbounds c cs hs
    have hmin : places < cs.length + 1 + 330 := by
      apply (Nat.pow_lt_pow_iff_right (a := 10) (by decide)).mp
      rw [pow_add _ _ 330]
      exact hlow.trans_lt (Nat.mul_lt_mul_of_pos_right hup (by positivity))
    have hmax : cs.length < places + 310 :=
      (Nat.pow_lt_pow_iff_right (a := 10) (by decide)).mp (hdown.trans_lt hhigh)
    simp only [List.isEmpty_cons, Bool.false_or, decide_eq_true_eq, List.length_cons]
    rw [if_neg (by omega), if_neg (by omega), if_neg (by omega)]
    simp

theorem scaled_bounds {m : Nat} {e : Int} (h : Canonical m e) :
    (∃ j ≤ 1024, (scaled m 1 e).1 < 2 ^ j) ∧ ∃ k ≤ 1074, (scaled m 1 e).2 = 2 ^ k := by
  obtain ⟨hm, hlow, hhigh, -⟩ := h
  unfold scaled
  split
  · next h =>
    refine ⟨⟨53 + e.toNat, by omega, ?_⟩, 0, by omega, rfl⟩
    dsimp only
    rw [pow_add]
    exact Nat.mul_lt_mul_of_pos_right hm (Nat.pow_pos (by decide))
  · next h => exact ⟨⟨53, by omega, hm⟩, (-e).toNat, by omega, one_mul _⟩

/-- The powers of ten that are computed cover the range of doubles. -/
theorem two_pow_le_ten_pow : (∀ k ≤ 1074, 2 ^ k ≤ 10 ^ 330) ∧ ∀ j ≤ 1024, 2 ^ j ≤ 10 ^ 310 := by
  have hlow : 2 ^ 1074 ≤ 10 ^ 330 := by decide +kernel
  have hhigh : 2 ^ 1024 ≤ 10 ^ 310 := by decide +kernel
  exact ⟨fun k hk => (pow_le_pow_right₀ one_le_two hk).trans hlow,
    fun j hj => (pow_le_pow_right₀ one_le_two hj).trans hhigh⟩

theorem ofDecimal_zero {ds : List Char} (h : IsDigits ds) (h0 : digitsValue ds = 0) (e : Int) :
    ofDecimal ds e = 0 := by
  cases hs : ds.dropWhile (· == '0') with
  | nil =>
    rw [ofDecimal, hs]
    rfl
  | cons c cs =>
    obtain ⟨hdown, -⟩ := (digitsValue_dropZeros h).2 c cs hs
    exact absurd (h0 ▸ hdown) (not_le.mpr (by positivity))

/-- Digits with a point among them that have the value of a double are read as that double. -/
theorem ofDecimal_parts {x : Float} (hx : IsMagnitude x) {p : Parts} (hp : parts? x = some p)
    {ds : List Char} (h : IsDigits ds) {places : Nat} (hplaces : 0 < places)
    (hvalue : digitsValue ds * (scaled p.mantissa 1 p.exponent).2 =
      (scaled p.mantissa 1 p.exponent).1 * 10 ^ places) : ofDecimal ds (0 - places) = x := by
  obtain ⟨⟨j, hj, hnum⟩, k, hk, hden⟩ := scaled_bounds (canonical_parts hp)
  have hpos := scaled_pos p.mantissa one_pos p.exponent
  have hratio := scaled_ratio p.mantissa 1 p.exponent
  have htens : 0 < 10 ^ places := by positivity
  have hval : (digitsValue ds / (10 ^ places : Nat) : ℚ) = p.mantissa * 2 ^ p.exponent := by
    rw [Nat.cast_one, div_one] at hratio
    rw [← hratio, div_eq_div_iff (by positivity) (by positivity)]
    exact_mod_cast hvalue
  rw [← nearest_parts hx hp htens hval]
  generalize (scaled p.mantissa 1 p.exponent).1 = num at *
  generalize (scaled p.mantissa 1 p.exponent).2 = den at *
  rcases Nat.eq_zero_or_pos (digitsValue ds) with hzero | hsome
  · rw [ofDecimal_zero h hzero, hzero, nearest, if_pos rfl]
  · have hnumpos : 0 < num := by
      apply Nat.pos_of_ne_zero
      rintro rfl
      rw [Nat.zero_mul] at hvalue
      exact absurd hvalue (Nat.mul_pos hsome hpos).ne'
    refine ofDecimal_eq_nearest h hplaces ?_ ?_
    · calc 10 ^ places ≤ num * 10 ^ places := Nat.le_mul_of_pos_left _ hnumpos
        _ = digitsValue ds * 2 ^ k := by rw [← hvalue, hden]
        _ ≤ digitsValue ds * 10 ^ 330 := Nat.mul_le_mul_left _ (two_pow_le_ten_pow.1 k hk)
    · calc digitsValue ds ≤ digitsValue ds * den := Nat.le_mul_of_pos_right _ hpos
        _ = num * 10 ^ places := hvalue
        _ < 2 ^ j * 10 ^ places := Nat.mul_lt_mul_of_pos_right hnum htens
        _ ≤ 10 ^ 310 * 10 ^ places := Nat.mul_le_mul_right _ (two_pow_le_ten_pow.2 j hj)
        _ = 10 ^ (places + 310) := by rw [← pow_add, add_comm]

/-- A one with 310 zeros is read as infinity. -/
theorem ofDecimal_huge :
    ofDecimal (('1' :: List.replicate 310 '0') ++ ['0']) (0 - (1 : Nat)) = infinity := by
  decide +kernel

/-- **Exact decimals read back**: the decimal of a double that is not negative is digits, a point
and digits, and it is read as that double. -/
theorem liberalReal?_exactDecimal {x : Float} (hx : IsMagnitude x) :
    IsDecimal (exactDecimal x) ∧ liberalReal? (String.ofList (exactDecimal x)) = some x := by
  unfold exactDecimal
  rcases parts?_cases hx with rfl | ⟨p, hp⟩
  · rw [parts?_infinity]
    have hw : IsDigits ('1' :: List.replicate 310 '0') := by
      intro c hc
      rcases List.mem_cons.mp hc with rfl | hc
      · rfl
      · rw [List.eq_of_mem_replicate hc]
        rfl
    have hf : IsDigits ['0'] := by decide
    refine ⟨⟨_, ['0'], List.cons_ne_nil _ _, List.cons_ne_nil _ _, hw, hf, rfl⟩, ?_⟩
    exact (liberalReal?_decimal (List.cons_ne_nil _ _) hw hf).trans (congrArg some ofDecimal_huge)
  · rw [hp]
    dsimp only
    obtain ⟨-, k, hk, hden⟩ := scaled_bounds (canonical_parts hp)
    obtain ⟨whole, fraction, heq, hwne, hfne, hw, hf, hvalue⟩ :=
      expansion_spec (scaled p.mantissa 1 p.exponent).1 k
    rw [hden, heq]
    refine ⟨⟨whole, fraction, hwne, hfne, hw, hf, rfl⟩, ?_⟩
    rw [liberalReal?_decimal hwne hw hf]
    have hall : IsDigits (whole ++ fraction) := fun c hc =>
      (List.mem_append.mp hc).elim (hw c) (hf c)
    exact congrArg some (ofDecimal_parts hx hp hall (List.length_pos_iff.mpr hfne) (hden ▸ hvalue))

end Pseudocode.Number
