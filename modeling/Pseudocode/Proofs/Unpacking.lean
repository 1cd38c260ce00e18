import Pseudocode.Proofs.Rounding

/-!
# Doubles and their values

Comparing and negating doubles is defined on unpacked doubles: a sign, a mantissa and an exponent,
or one of the special values. Unpacking finds the parts of a double (`parts?_eq`), and packing parts
that a double can have loses nothing (`parts?_pack`), so what is done to doubles is done to their
exact values.

Results:
* `le_iff`, `lt_iff`, `beq_iff`: finite doubles are ordered as their values are.
* `worth?_neg`, `worth?_ofInt`: negation is exact, and whole numbers are rounded to the nearest
  double.
* `nearest_parts`: a quotient that has the value of a double is rounded to that double.
-/

namespace Pseudocode.Number

/-! ## Unpacked doubles -/

section Unpacked

open Float.Model (UnpackedFloat Format)
open Float.Model.UnpackedFloat

/-- The parts of an unpacked double that is finite. -/
def partsOf : UnpackedFloat → Option Parts
  | .zero s => some ⟨s == .negative, 0, -1074⟩
  | .finite s m e _ => some ⟨s == .negative, m, e⟩
  | _ => none

theorem signBit_eq_unpackSign (x : Float) :
    signBit x = (Sign.ofBitVec (@unpackSign Format.binary64 x.toBits.toBitVec) == .negative) := by
  have htoNat : (@unpackSign Format.binary64 x.toBits.toBitVec).toNat = x.toBits.toNat / 2 ^ 63 :=
    toNat_unpackSign _
  have hlt : x.toBits.toNat < 2 ^ 64 := x.toBits.toNat_lt
  generalize @unpackSign Format.binary64 x.toBits.toBitVec = s at *
  have hbit : ∀ s : BitVec 1, (Sign.ofBitVec s == .negative) = decide (s.toNat = 1) := by decide
  rw [signBit_eq, hbit, htoNat, decide_eq_decide]
  omega

/-- Taking a double apart by its bits is unpacking it. -/
theorem parts?_eq (x : Float) : parts? x = partsOf x.toModel.unpack := by
  have hexp : (@unpackExponent Format.binary64 x.toBits.toBitVec).toNat =
      x.toBits.toNat / 2 ^ 52 % 2 ^ 11 :=
    toNat_unpackExponent _
  have hman : (@unpackMantissa Format.binary64 x.toBits.toBitVec).toNat = x.toBits.toNat % 2 ^ 52 :=
    toNat_unpackMantissa _
  change _ = partsOf (UnpackedFloat.unpack Format.binary64 x.toBits.toBitVec)
  unfold parts?
  simp only [Nat.pow_eq, signBit_eq_unpackSign, ← hexp, ← hman]
  unfold UnpackedFloat.unpack
  generalize @unpackExponent Format.binary64 x.toBits.toBitVec = e at *
  by_cases hall : e = -1#11
  · rw [if_pos (by rw [hall]; rfl), if_pos hall]
    split <;> rfl
  · have hfield : e.toNat ≠ 2047 := fun h => hall (BitVec.eq_of_toNat_eq h)
    rw [if_neg hfield, if_neg hall]
    by_cases hzero : e = 0#11
    · rw [if_pos (by rw [hzero]; rfl), if_pos hzero]
      by_cases hm : @unpackMantissa Format.binary64 x.toBits.toBitVec = 0#52
      · rw [dif_pos hm, hm]
        rfl
      · rw [dif_neg hm, hzero]
        rfl
    · have hpos : e.toNat ≠ 0 := fun h => hzero (BitVec.eq_of_toNat_eq h)
      rw [if_neg hpos, if_neg hzero, Nat.add_comm]
      dsimp only [partsOf]
      rw [toNat_one_append]
      rfl

theorem parts?_pack (s : Sign) {m : Nat} {e : Int} (hpos : 0 < m) (h : Canonical m e) :
    parts? (Float.ofModel (Float.Model.pack (.finite s m e hpos))) =
      some ⟨s == .negative, m, e⟩ := by
  obtain ⟨hlt, hleast, hgreatest, hnormal⟩ := h
  refine parts?_iff.mpr ⟨⟨hlt, hleast, hgreatest, hnormal⟩, ?_⟩
  change (UnpackedFloat.pack Format.binary64 (.finite s m e hpos)).toNat = _
  have hbias : ((Format.binary64.exponentBias : Nat) : Int) = 1023 := rfl
  have hfield : ¬ 2 ^ 11 ≤ (e + Format.binary64.exponentBias + (52 : Nat)).toNat + 1 := by omega
  unfold UnpackedFloat.pack magnitudeBits
  dsimp only
  rw [if_neg hfield]
  by_cases hsmall : m < 2 ^ 52
  · have hlog := (Nat.log2_lt hpos.ne').mpr hsmall
    have hbits : m.log2 + 1 ≠ Format.binary64.mantissaBits := by change _ ≠ 53; omega
    rw [if_neg hbits, if_pos hsmall]
    refine (toNat_packComponents s _ _).trans ?_
    rw [BitVec.toNat_ofNat, BitVec.toNat_ofNat, Nat.mod_eq_of_lt hsmall]
    omega
  · have hbits : m.log2 + 1 = Format.binary64.mantissaBits := by
      change _ = 53
      have hlow := (Nat.le_log2 hpos.ne').mpr (not_lt.mp hsmall)
      have hhigh := (Nat.log2_lt hpos.ne').mpr hlt
      omega
    rw [if_pos hbits, if_neg hsmall]
    refine (toNat_packComponents s _ _).trans ?_
    rw [BitVec.toNat_ofNat, BitVec.toNat_ofNat]
    omega

/-- The values of unpacked doubles that are finite. -/
inductive Valued : UnpackedFloat → ℚ → Prop
  | zero (s : Sign) : Valued (.zero s) 0
  | finite (s : Sign) {m : Nat} {e : Int} (hm : 0 < m) (h : Canonical m e) :
      Valued (.finite s m e hm) ((s.apply m : Int) * 2 ^ e)

theorem Parts.worth_positive (m : Nat) (e : Int) : Parts.worth ⟨false, m, e⟩ = m * 2 ^ e :=
  one_mul _

theorem Parts.worth_negative (m : Nat) (e : Int) : Parts.worth ⟨true, m, e⟩ = -(m * 2 ^ e) :=
  neg_one_mul _

theorem Parts.worth_apply (s : Sign) (m : Nat) (e : Int) :
    Parts.worth ⟨s == .negative, m, e⟩ = (s.apply m : Int) * 2 ^ e := by
  cases s
  · exact (worth_negative m e).trans (by simp [Sign.apply])
  · exact (worth_positive m e).trans (by simp [Sign.apply])

theorem valued_unpack {x : Float} {p : ℚ} (hx : worth? x = some p) : Valued x.toModel.unpack p := by
  obtain ⟨r, hr, rfl⟩ := Option.map_eq_some_iff.mp hx
  have hcanonical := canonical_parts hr
  rw [parts?_eq] at hr
  generalize x.toModel.unpack = u at *
  cases u with
  | infinity | notANumber => cases hr
  | zero s =>
    cases hr
    simpa [Parts.worth] using Valued.zero s
  | finite s m e hm =>
    cases hr
    rw [Parts.worth_apply]
    exact .finite s hm hcanonical

theorem Valued.worth?_pack {u : UnpackedFloat} {p : ℚ} (h : Valued u p) :
    worth? (.ofModel (.pack u)) = some p := by
  rw [worth?]
  cases h with
  | zero s =>
    have hzero : parts? (.ofModel (.pack (.zero s))) = some ⟨s == .negative, 0, -1074⟩ := by
      cases s <;> decide +kernel
    simp [hzero, Parts.worth]
  | finite s hm h =>
    rw [parts?_pack s hm h]
    exact congrArg some (Parts.worth_apply s _ _)

theorem apply_neg (s : Sign) (n : Int) : (-s).apply n = -s.apply n := by
  cases s
  · exact (neg_neg n).symm
  · rfl

theorem Valued.neg {u : UnpackedFloat} {p : ℚ} (h : Valued u p) : Valued u.neg (-p) := by
  cases h with
  | zero s => exact neg_zero (G := ℚ) ▸ .zero _
  | finite s hm h =>
    rw [← neg_mul, ← Int.cast_neg, ← apply_neg]
    exact .finite _ hm h

theorem abs_apply (s : Sign) (m : Nat) : |s.apply (m : Int)| = m := by
  cases s <;> simp [Sign.apply]

theorem Valued.fits {u : UnpackedFloat} {p : ℚ} (h : Valued u p) : Fits p := by
  cases h with
  | zero => exact fits_intCast (n := 0) (by decide)
  | @finite s m e _ h =>
    exact ⟨_, e, by rw [abs_apply]; exact_mod_cast h.lt.le, h.least, rfl⟩

/-- Negation is exact. -/
theorem worth?_neg (x : Float) : worth? (-x) = (worth? x).map Neg.neg := by
  cases hx : worth? x with
  | some p => exact (valued_unpack hx).neg.worth?_pack
  | none =>
    have hnone := Option.map_eq_none_iff.mp hx
    have hneg : -x = Float.ofModel (Float.Model.pack x.toModel.unpack.neg) := rfl
    rw [parts?_eq] at hnone
    rw [hneg]
    generalize x.toModel.unpack = u at *
    cases u with
    | infinity s => cases s <;> decide +kernel
    | notANumber => decide +kernel
    | zero | finite => cases hnone

/-- Doubles are ordered as their exponents are, and where these agree, as their mantissas are. -/
theorem Canonical.compare_eq {m₁ m₂ : Nat} {e₁ e₂ : Int} (h₁ : Canonical m₁ e₁)
    (h₂ : Canonical m₂ e₂) :
    (compare e₁ e₂).then (compare m₁ m₂) = compare ((m₁ : ℚ) * 2 ^ e₁) (m₂ * 2 ^ e₂) := by
  have hlt : ∀ {m m' : Nat} {e e' : Int}, Canonical m e → Canonical m' e' → e < e' →
      (m : ℚ) * 2 ^ e < m' * 2 ^ e' := by
    intro m m' e e' h h' he
    have hpow : (2 : ℚ) ^ (e + 1) ≤ 2 ^ e' := zpow_le_zpow_right₀ one_le_two (by omega)
    rw [zpow_add_one₀ two_ne_zero] at hpow
    have hm : (m : ℚ) < 2 ^ 53 := by exact_mod_cast h.lt
    have hm' : (2 : ℚ) ^ 52 ≤ m' := by
      exact_mod_cast h'.normal.resolve_right (by have := h.least; omega)
    have hunit : (0 : ℚ) < 2 ^ e := by positivity
    nlinarith
  rcases lt_trichotomy e₁ e₂ with he | rfl | he
  · rw [compare_lt_iff_lt.mpr he, compare_lt_iff_lt.mpr (hlt h₁ h₂ he)]
    rfl
  · have hmono : StrictMono fun m : Nat => (m : ℚ) * 2 ^ e₁ := fun m m' h => by dsimp only; gcongr
    rw [compare_eq_iff_eq.mpr rfl, ← cmp_eq_compare ((m₁ : ℚ) * _),
      hmono.cmp_map_eq m₁ m₂, cmp_eq_compare]
    rfl
  · rw [compare_gt_iff_gt.mpr he, compare_gt_iff_gt.mpr (hlt h₂ h₁ he)]
    rfl

/-- **The order of unpacked doubles is that of their values.** -/
theorem Valued.compare_eq {u v : UnpackedFloat} {p q : ℚ} (hu : Valued u p) (hv : Valued v q) :
    u.compare v = some (compare p q) := by
  have hpos : ∀ {m : Nat} (e : Int), 0 < m → (0 : ℚ) < m * 2 ^ e := fun e hm => by positivity
  have happly : ∀ (m : Nat) (e : Int), ((Sign.negative.apply m : Int) : ℚ) * 2 ^ e = -(m * 2 ^ e) :=
      fun m e => by
    simp [Sign.apply]
  cases hu with
  | zero s =>
    cases hv with
    | zero s' => exact congrArg some (compare_eq_iff_eq.mpr rfl).symm
    | @finite s' m' e' hm' _ =>
      cases s'
      · rw [happly]
        exact congrArg some (compare_gt_iff_gt.mpr (neg_neg_of_pos (hpos e' hm'))).symm
      · exact congrArg some (compare_lt_iff_lt.mpr (hpos e' hm')).symm
  | @finite s m e hm h =>
    have hp := hpos e hm
    cases hv with
    | zero s' =>
      cases s
      · rw [happly]
        exact congrArg some (compare_lt_iff_lt.mpr (neg_neg_of_pos hp)).symm
      · exact congrArg some (compare_gt_iff_gt.mpr hp).symm
    | @finite s' m' e' hm' h' =>
      have hq := hpos e' hm'
      cases s <;> cases s'
      · rw [happly, happly, ← cmp_eq_compare, StrictAnti.cmp_map_eq (fun _ _ => neg_lt_neg),
          ← cmp_swap, cmp_eq_compare, ← h.compare_eq h']
        rfl
      · rw [happly]
        exact congrArg some (compare_lt_iff_lt.mpr ((neg_neg_of_pos hp).trans hq)).symm
      · rw [happly]
        exact congrArg some (compare_gt_iff_gt.mpr ((neg_neg_of_pos hq).trans hp)).symm
      · exact congrArg some (h.compare_eq h')

end Unpacked

/-! ## Comparisons of doubles -/

section Comparisons

variable {x y : Float} {p q : ℚ}

theorem le_iff (hx : worth? x = some p) (hy : worth? y = some q) : x ≤ y ↔ p ≤ q := by
  change decide (x.toModel ≤ y.toModel) = true ↔ _
  rw [decide_eq_true_iff]
  change (x.toModel.unpack.compare y.toModel.unpack).any (·.isLE) = true ↔ _
  rw [(valued_unpack hx).compare_eq (valued_unpack hy), Option.any_some, Ordering.isLE_iff_ne_gt]
  exact compare_le_iff_le

theorem lt_iff (hx : worth? x = some p) (hy : worth? y = some q) : x < y ↔ p < q := by
  change decide (x.toModel < y.toModel) = true ↔ _
  rw [decide_eq_true_iff]
  change (x.toModel.unpack.compare y.toModel.unpack == some .lt) = true ↔ _
  rw [(valued_unpack hx).compare_eq (valued_unpack hy), beq_iff_eq,
    Option.some_inj, compare_lt_iff_lt]

theorem beq_iff (hx : worth? x = some p) (hy : worth? y = some q) : (x == y) = true ↔ p = q := by
  change (x.toModel.unpack.compare y.toModel.unpack == some .eq) = true ↔ _
  rw [(valued_unpack hx).compare_eq (valued_unpack hy), beq_iff_eq,
    Option.some_inj, compare_eq_iff_eq]

end Comparisons

/-! ## Rounding to doubles -/

theorem fits_of_worth? {x : Float} {q : ℚ} (h : worth? x = some q) : Fits q :=
  (valued_unpack h).fits

theorem parts?_infinity : parts? infinity = none := by decide +kernel

/-- **Whole numbers are rounded to the nearest double**, and to an infinite one from `overflow`
on. -/
theorem worth?_ofInt (n : Int) :
    (overflow ≤ |(n : ℚ)| → worth? (ofInt n) = none) ∧
      (|(n : ℚ)| < overflow → ∃ y, worth? (ofInt n) = some y ∧ IsNearest n y) := by
  obtain ⟨hhuge, hround⟩ := worth?_nearest n.natAbs Nat.one_pos
  have habs : ((n.natAbs : Nat) : ℚ) / (1 : Nat) = |(n : ℚ)| := by simp
  rw [habs] at hhuge hround
  rw [ofInt, withSign]
  refine ⟨fun h => ?_, fun h => ?_⟩
  · have hnone : worth? infinity = none := by rw [worth?, parts?_infinity, Option.map_none]
    split <;> simp only [hhuge h, worth?_neg, hnone, Option.map_none]
  · obtain ⟨y, hy, hnearest⟩ := hround h
    by_cases hneg : n < 0
    · rw [if_pos (decide_eq_true hneg), worth?_neg, hy]
      refine ⟨-y, rfl, ?_⟩
      rw [abs_of_neg (by exact_mod_cast hneg)] at hnearest
      simpa using hnearest.neg
    · rw [if_neg (by simpa using hneg), hy]
      refine ⟨y, rfl, ?_⟩
      rwa [abs_of_nonneg (by exact_mod_cast not_lt.mp hneg)] at hnearest

theorem IsMagnitude.negative_eq {x : Float} (hx : IsMagnitude x) {p : Parts}
    (hp : parts? x = some p) : p.negative = false := by
  have hbits := (parts?_iff.mp hp).2
  change x.toBits.toNat ≤ 9218868437227405312 at hx
  cases h : p.negative
  · rfl
  · rw [h, Bool.toNat_true] at hbits
    omega

/-- Doubles that are not negative are given by their values. -/
theorem IsMagnitude.eq_of_worth? {x y : Float} (hx : IsMagnitude x) (hy : IsMagnitude y) {q : ℚ}
    (hxq : worth? x = some q) (hyq : worth? y = some q) : x = y := by
  obtain ⟨⟨b, m, e⟩, hp, hworth⟩ := Option.map_eq_some_iff.mp hxq
  obtain ⟨⟨b', m', e'⟩, hp', rfl⟩ := Option.map_eq_some_iff.mp hyq
  obtain rfl : b = false := hx.negative_eq hp
  obtain rfl : b' = false := hy.negative_eq hp'
  obtain ⟨hc, hbits⟩ := parts?_iff.mp hp
  obtain ⟨hc', hbits'⟩ := parts?_iff.mp hp'
  rw [Parts.worth_positive, Parts.worth_positive] at hworth
  obtain ⟨he, hm⟩ :=
    Ordering.then_eq_eq.mp ((hc.compare_eq hc').trans (compare_eq_iff_eq.mpr hworth))
  rw [← ofBits_toBits x, ← ofBits_toBits y,
    UInt64.toNat_inj.mp (hbits.trans (Eq.trans ?_ hbits'.symm))]
  rw [compare_eq_iff_eq.mp he, compare_eq_iff_eq.mp hm]

/-- A quotient that has the value of a double is rounded to that double. -/
theorem nearest_parts {x : Float} (hx : IsMagnitude x) {p : Parts} (hp : parts? x = some p)
    {num den : Nat} (hden : 0 < den) (hval : (num / den : ℚ) = p.mantissa * 2 ^ p.exponent) :
    nearest num den = x := by
  have hworth : worth? x = some (num / den : ℚ) := by
    rw [worth?, hp, hval]
    exact congrArg some (by rw [Parts.worth, hx.negative_eq hp]; exact one_mul _)
  obtain ⟨hlt, -, hgreatest, -⟩ := canonical_parts hp
  have hsmall : (num / den : ℚ) < overflow := by
    have hpow : (2 : ℚ) ^ p.exponent ≤ 2 ^ (971 : Int) := zpow_le_zpow_right₀ one_le_two hgreatest
    have hm : (p.mantissa : ℚ) ≤ 2 ^ 53 - 1 := by
      rw [le_sub_iff_add_le]
      exact_mod_cast hlt
    rw [show (2 : ℚ) ^ (971 : Int) = 2 *
      2 ^ (970 : Int) from zpow_one_add₀ (two_ne_zero' ℚ) 970] at hpow
    have hunit : (0 : ℚ) < 2 ^ (970 : Int) := by positivity
    rw [hval, overflow]
    generalize (2 : ℚ) ^ p.exponent = w, (2 : ℚ) ^ (970 : Int) = u at *
    nlinarith
  obtain ⟨y, hy, hnearest⟩ := (worth?_nearest num hden).2 hsmall
  rw [hnearest.eq (fits_of_worth? hworth)] at hy
  exact (isMagnitude_nearest num den).eq_of_worth? hx hy hworth

end Pseudocode.Number
