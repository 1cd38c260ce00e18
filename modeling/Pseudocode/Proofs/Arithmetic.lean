import Pseudocode.Proofs.Unpacking

/-!
# Arithmetic on doubles

The operations compute with mantissas and exponents as exactly as they can, and round once at the
end: a mantissa is shifted to 53 binary digits, or to the exponent of the smallest double, while one
digit behind the last and a mark for everything behind that are kept (`ExtendedMantissa`). That is
dividing by a power of two and rounding to even (`roundedMantissa_shiftRight`), so it gives the
nearest double. All is stated for results up to `2 ^ 64`, far from where the numbers end.

Results:
* `valued_roundWithAccuracy`: a mantissa with an exponent is rounded to the nearest double.
* `Valued.add`, `Valued.sub`, `Valued.mul`: sums, differences and products are the nearest doubles.
* `Valued.div`: quotients that are whole numbers of at most 53 binary digits are exact.
-/

namespace Pseudocode.Number

open Float.Model (UnpackedFloat Format totalExponent)
open Float.Model.UnpackedFloat

/-! ## Rounding a mantissa -/

/-- What is left of a mantissa after it was shifted: the digits above the last ones shifted out, the
last of these, and whether there is anything below. -/
theorem shiftRight_succ (m k : Nat) :
    (ExtendedMantissa.mk m false false >>> (k + 1) : ExtendedMantissa) =
      ⟨m / 2 ^ (k + 1), m / 2 ^ k % 2 != 0, m % 2 ^ k != 0⟩ := by
  change Nat.repeat ExtendedMantissa.shiftRightOne (k + 1) _ = _
  induction k with
  | zero => simp [Nat.repeat, ExtendedMantissa.shiftRightOne, Nat.mod_one]
  | succ k ih =>
    have hpos : 0 < 2 ^ k := Nat.two_pow_pos k
    rw [Nat.repeat, ih, ExtendedMantissa.shiftRightOne]
    congr 1
    · rw [Nat.div_div_eq_div_mul, ← Nat.pow_succ]
    · rw [Nat.mod_pow_succ, ← Bool.coe_iff_coe]
      simp only [Bool.or_eq_true, bne_iff_ne]
      rcases Nat.mod_two_eq_zero_or_one (m / 2 ^ k) with h | h <;> rw [h] <;> omega

/-- Shifting and rounding is dividing and rounding. -/
theorem roundedMantissa_shiftRight (m k : Nat) :
    (ExtendedMantissa.mk m false false >>> k : ExtendedMantissa).roundedMantissa =
      roundDiv m (2 ^ k) := by
  cases k with
  | zero =>
    change m = _
    simp [roundDiv, Nat.mod_one]
  | succ k =>
    have hlow : m % 2 ^ k < 2 ^ k := Nat.mod_lt _ (Nat.two_pow_pos k)
    rw [shiftRight_succ, roundDiv, Nat.mod_pow_succ, ExtendedMantissa.roundedMantissa]
    generalize m / 2 ^ (k + 1) = q, m % 2 ^ k = r at *
    rw [Nat.pow_succ]
    generalize 2 ^ k = u at *
    rcases Nat.mod_two_eq_zero_or_one
      (m / u) with h | h <;> rcases Nat.eq_zero_or_pos r with rfl | hr
    · rw [h, if_neg (by omega)]
      rfl
    · rw [h, if_neg (by omega), bne_iff_ne.mpr hr.ne']
      rfl
    · rw [h]
      change q + q % 2 = _
      split <;> omega
    · rw [h, if_pos (by omega), bne_iff_ne.mpr hr.ne']
      rfl

theorem targetExponent_eq (m : Nat) (e : Int) :
    Format.binary64.targetExponent (totalExponent m e) = max (m.log2 + e - 52) (-1074) := by
  change max ((m.log2 : Int) + 1 + e - 53) (-1074) = _
  omega

/-- Shifting a number to the exponent at which it has 53 binary digits, or to that of the smallest
double. -/
theorem shiftToTargetExponent_eq (m : Nat) (e : Int) :
    shiftToTargetExponent Format.binary64 m e .exact =
      (ExtendedMantissa.mk m false false >>> (max (m.log2 + e - 52 : Int) (-1074) - e).toNat,
        e + (max (m.log2 + e - 52 : Int) (-1074) - e).toNat) := by
  rw [shiftToTargetExponent, targetExponent_eq]
  rfl

section Round

variable {m : Nat} {e : Int}

/-- A rounded mantissa may have one digit too many, which is then shifted out. -/
theorem shiftToTargetExponent_rounded (hm : m ≤ 2 ^ 53) (he : -1074 ≤ e) :
    (m < 2 ^ 53 ∧ shiftToTargetExponent Format.binary64 m e .exact = (⟨m, false, false⟩, e)) ∨
      (m = 2 ^ 53 ∧
        shiftToTargetExponent Format.binary64 m e .exact = (⟨2 ^ 52, false, false⟩, e + 1)) := by
  rw [shiftToTargetExponent_eq]
  rcases Nat.lt_or_eq_of_le hm with hlt | rfl
  · have hlog : m.log2 ≤ 52 := by
      rcases Nat.eq_zero_or_pos m with rfl | hpos
      · decide
      · exact Nat.lt_succ_iff.mp ((Nat.log2_lt hpos.ne').mpr hlt)
    rw [show (max (m.log2 + e - 52 : Int) (-1074) - e).toNat = 0 by omega]
    exact .inl ⟨hlt, by rw [Nat.cast_zero, add_zero]; rfl⟩
  · rw [Nat.log2_two_pow, show (max ((53 : Nat) + e - 52 : Int) (-1074) - e).toNat = 1 by omega]
    exact .inr ⟨rfl, rfl⟩

/-- What a rounded mantissa is packed as has its value. -/
theorem valued_rounded (s : Sign) (hm : m ≤ 2 ^ 53) (he : -1074 ≤ e) (he' : e ≤ 970)
    (hnormal : 2 ^ 52 ≤ m ∨ e = -1074) :
    let r := shiftToTargetExponent Format.binary64 m e .exact
    Valued (if h : r.1.mantissa = 0 then .zero s else .finite s r.1.mantissa r.2
      (Nat.pos_of_ne_zero h)) ((s.apply m : Int) * 2 ^ e) := by
  dsimp only
  rcases shiftToTargetExponent_rounded hm he with ⟨hlt, hlast⟩ | ⟨rfl, hlast⟩
  · rw [hlast]
    by_cases hzero : m = 0
    · rw [dif_pos hzero, hzero]
      cases s <;> simpa [Sign.apply] using Valued.zero _
    · rw [dif_neg hzero]
      exact .finite s _ ⟨hlt, he, by omega, hnormal⟩
  · have hcanonical : Canonical (2 ^ 52) (e + 1) := ⟨by decide, by omega, by omega, .inl le_rfl⟩
    have hcarry : ((s.apply (2 ^ 53 : Nat) : Int) : ℚ) * 2 ^ e =
        (s.apply (2 ^ 52 : Nat) : Int) * 2 ^ (e + 1) := by
      rw [zpow_add_one₀ two_ne_zero]
      cases s <;> simp only [Sign.apply] <;> push_cast <;> ring
    rw [hlast, dif_neg (by change ¬ 2 ^ 52 = 0; decide), hcarry]
    exact .finite s _ hcanonical

/-- **A mantissa is rounded to the nearest double.** -/
theorem valued_roundWithAccuracy (s : Sign) (hm : 0 < m)
    (he : e ≤ max (m.log2 + e - 52 : Int) (-1074)) (hbound : (m : ℚ) * 2 ^ e ≤ 2 ^ 64) :
    ∃ y, Valued (roundWithAccuracy Format.binary64 s m e .exact) y ∧
      IsNearest ((s.apply m : Int) * 2 ^ e) y := by
  obtain ⟨k, hk⟩ : ∃ k : Nat, (max (m.log2 + e - 52 : Int) (-1074) - e).toNat = k := ⟨_, rfl⟩
  have hbounds := roundDiv_bounds m (2 ^ k)
  have hfirst := shiftToTargetExponent_eq m e
  rw [hk] at hfirst
  -- the digits that are kept: at most 53, and no fewer unless the exponent is the least one
  have hfew : m / 2 ^ k < 2 ^ 53 := by
    rw [Nat.div_lt_iff_lt_mul (Nat.two_pow_pos k), ← Nat.pow_add]
    exact Nat.lt_log2_self.trans_le (Nat.pow_le_pow_right (by decide) (by omega))
  have hmany : e + k = -1074 ∨ 2 ^ 52 ≤ m / 2 ^ k := by
    by_cases h : e + k = -1074
    · exact .inl h
    · rw [Nat.le_div_iff_mul_le (Nat.two_pow_pos k), ← Nat.pow_add]
      exact .inr ((Nat.pow_le_pow_right (by decide) (by omega)).trans (Nat.log2_self_le hm.ne'))
  have hsmall : (m.log2 : Int) + e ≤ 64 := by
    rw [← zpow_le_zpow_iff_right₀ (one_lt_two : (1 : ℚ) < 2), zpow_add₀ two_ne_zero]
    exact (mul_le_mul_of_nonneg_right (log2_bounds hm).1 (by positivity)).trans hbound
  have hvalue : (m / (2 ^ k : Nat) : ℚ) * 2 ^ (e + k) = m * 2 ^ e := by
    rw [zpow_add₀ two_ne_zero, zpow_natCast]
    push_cast
    field_simp
  have hnearest := hvalue ▸ isNearest_roundDiv (Nat.two_pow_pos k) (by omega) hfew hmany
  refine ⟨(s.apply (roundDiv m (2 ^ k)) : Int) * 2 ^ (e + k), ?_, ?_⟩
  · unfold roundWithAccuracy
    rw [hfirst]
    dsimp only
    rw [roundedMantissa_shiftRight]
    exact valued_rounded s (by omega) (by omega) (by omega) (by omega)
  · cases s
    · simpa [Sign.apply] using hnearest.neg
    · simpa [Sign.apply] using hnearest

theorem log2_mul_two_pow (hm : 0 < m) (k : Nat) : (m * 2 ^ k).log2 = m.log2 + k := by
  rw [Nat.log2_eq_iff (Nat.mul_pos hm (Nat.two_pow_pos k)).ne', Nat.pow_add,
    Nat.add_right_comm, Nat.pow_add]
  exact ⟨Nat.mul_le_mul_right _ (Nat.log2_self_le hm.ne'),
    Nat.mul_lt_mul_of_pos_right Nat.lt_log2_self (Nat.two_pow_pos k)⟩

/-- Digits that are put after the mantissa do not change the value. -/
theorem apply_mul_two_pow (s : Sign) (m k : Nat) (e : Int) :
    ((s.apply (m * 2 ^ k : Nat) : Int) : ℚ) * 2 ^ (e - k) = (s.apply m : Int) * 2 ^ e := by
  have hunit : (2 : ℚ) ^ k * 2 ^ (e - k) = 2 ^ e := by
    rw [← zpow_natCast, ← zpow_add₀ two_ne_zero, add_sub_cancel]
  cases s <;> simp only [Sign.apply] <;> push_cast <;> rw [← hunit] <;> ring

theorem valued_round (s : Sign) (hm : 0 < m) (hbound : (m : ℚ) * 2 ^ e ≤ 2 ^ 64) :
    ∃ y, Valued (UnpackedFloat.round Format.binary64 s m e) y ∧
      IsNearest ((s.apply m : Int) * 2 ^ e) y := by
  unfold UnpackedFloat.round decreaseExponent
  dsimp only
  rw [targetExponent_eq, Nat.shiftLeft_eq]
  generalize hk : (e - max (m.log2 + e - 52 : Int) (-1074)).toNat = k
  rw [← apply_mul_two_pow s m k e]
  refine valued_roundWithAccuracy s (Nat.mul_pos hm (Nat.two_pow_pos k))
    (by rw [log2_mul_two_pow hm]; omega) ?_
  exact (apply_mul_two_pow .positive m k e).trans_le hbound

theorem valued_normalize (n : Int) (hbound : |(n : ℚ) * 2 ^ e| ≤ 2 ^ 64) :
    ∃ y, Valued (UnpackedFloat.normalize Format.binary64 n e .positive) y ∧
      IsNearest (n * 2 ^ e) y := by
  unfold UnpackedFloat.normalize
  rcases lt_trichotomy n 0 with hn | rfl | hn
  · obtain ⟨k, rfl⟩ := Int.exists_eq_neg_ofNat hn.le
    have hround := valued_round (e := e) .negative (m := k) (by omega)
      (by simpa using (neg_le_abs _).trans hbound)
    rw [compare_lt_iff_lt.mpr hn]
    simpa [Sign.apply] using hround
  · exact ⟨0, .zero .positive, by simpa using IsNearest.self (fits_intCast (n := 0) (by decide))⟩
  · obtain ⟨k, rfl⟩ := Int.eq_ofNat_of_zero_le hn.le
    have hround := valued_round (e := e) .positive (m := k) (by omega)
      (by simpa using (le_abs_self _).trans hbound)
    rw [compare_gt_iff_gt.mpr hn]
    simpa [Sign.apply] using hround

end Round

/-! ## Operations -/

section Operations

variable {u v : UnpackedFloat} {p q : ℚ}

theorem apply_decreaseExponent (s : Sign) (m : Nat) {e t : Int} (ht : t ≤ e) :
    ((s.apply (decreaseExponent m e t).1 : Int) : ℚ) * 2 ^ t = (s.apply m : Int) * 2 ^ e := by
  have hvalue := apply_mul_two_pow s m (e - t).toNat e
  rwa [Int.toNat_of_nonneg (by omega), sub_sub_cancel, ← Nat.shiftLeft_eq] at hvalue

theorem Valued.add (hu : Valued u p) (hv : Valued v q) (hbound : |p + q| ≤ 2 ^ 64) :
    ∃ y, Valued (UnpackedFloat.add Format.binary64 u v) y ∧ IsNearest (p + q) y := by
  have hfu := hu.fits
  have hfv := hv.fits
  cases hu with
  | zero s =>
    rw [zero_add]
    cases hv with
    | zero s' =>
      refine ⟨0, ?_, .self hfv⟩
      cases s <;> cases s' <;> exact .zero _
    | finite s' hm' h' => exact ⟨_, .finite s' hm' h', .self hfv⟩
  | @finite s m e hm h =>
    cases hv with
    | zero s' => exact ⟨_, .finite s hm h, by rw [add_zero]; exact .self hfu⟩
    | @finite s' m' e' hm' h' =>
      rw [← apply_decreaseExponent s m (min_le_left e e'),
        ← apply_decreaseExponent s' m' (min_le_right e e'), ← add_mul, ← Int.cast_add] at hbound ⊢
      exact valued_normalize _ hbound

theorem Valued.sub (hu : Valued u p) (hv : Valued v q) (hbound : |p - q| ≤ 2 ^ 64) :
    ∃ y, Valued (UnpackedFloat.sub Format.binary64 u v) y ∧ IsNearest (p - q) y := by
  have hsub :
      UnpackedFloat.sub Format.binary64 u v = UnpackedFloat.add Format.binary64 u v.neg := by
    cases hu with
    | zero => cases hv <;> rfl
    | finite =>
      cases hv with
      | zero => rfl
      | finite s' =>
        refine congrArg (UnpackedFloat.normalize _ · _ _) ?_
        rw [apply_neg, ← Int.sub_eq_add_neg]
  rw [sub_eq_add_neg] at hbound ⊢
  exact hsub ▸ hu.add hv.neg hbound

theorem apply_mul (s s' : Sign) (n : Int) : (s * s').apply n = s.apply (s'.apply n) := by
  cases s <;> cases s'
  · exact (neg_neg n).symm
  · rfl
  · rfl
  · rfl

theorem apply_div (s s' : Sign) (n : Int) : (s / s').apply n = s.apply (s'.apply n) := by
  rw [← apply_mul]
  cases s <;> cases s' <;> rfl

theorem Valued.mul (hu : Valued u p) (hv : Valued v q) (hbound : |p * q| ≤ 2 ^ 64) :
    ∃ y, Valued (UnpackedFloat.mul Format.binary64 u v) y ∧ IsNearest (p * q) y := by
  have hzero : IsNearest 0 0 := .self (fits_intCast (n := 0) (by decide))
  cases hu with
  | zero s =>
    rw [zero_mul]
    cases hv <;> exact ⟨0, .zero _, hzero⟩
  | @finite s m e hm h =>
    cases hv with
    | zero s' =>
      rw [mul_zero]
      exact ⟨0, .zero _, hzero⟩
    | @finite s' m' e' hm' h' =>
      have hvalue : ((s.apply m : Int) : ℚ) * 2 ^ e * ((s'.apply m' : Int) * 2 ^ e') =
          ((s * s').apply (m * m' : Nat) : Int) * 2 ^ (e + e') := by
        rw [zpow_add₀ two_ne_zero, apply_mul]
        cases s <;> cases s' <;> simp only [Sign.apply] <;> push_cast <;> ring
      rw [hvalue] at hbound ⊢
      refine valued_roundWithAccuracy (s * s') (Nat.mul_pos hm hm') ?_ ?_
      · by_cases hdigits : 2 ^ 52 ≤ m * m'
        · have hlog := (Nat.le_log2 (Nat.mul_pos hm hm').ne').mpr hdigits
          omega
        · -- fewer digits come of two numbers that have fewer
          have hle := Nat.le_mul_of_pos_right m hm'
          have hle' := Nat.le_mul_of_pos_left m' hm
          have he := h.normal.resolve_left (by omega)
          have he' := h'.normal.resolve_left (by omega)
          omega
      · rwa [abs_mul, ← Int.cast_abs, abs_apply, Int.cast_natCast,
          abs_of_pos (by positivity)] at hbound

/-- A quotient of mantissas that is a whole number is exact: it is divided as far as its binary
digits go. -/
theorem valued_quotient (s : Sign) {m m' K : Nat} {e e' : Int} (hm : 0 < m) (hm' : 0 < m')
    (hK : 0 < K) (hlt : K < 2 ^ 53) (hmag : (m : ℚ) * 2 ^ e = K * (m' * 2 ^ e')) :
    Valued (let (m, e, acc) := divCore Format.binary64 m e m' e'
      roundWithAccuracy Format.binary64 s m e acc) (s.apply K : Int) := by
  have hlog := (Nat.log2_lt hK.ne').mpr hlt
  have hdigits : (m.log2 : Int) - m'.log2 - 1 < K.log2 + 1 + e' - e := by
    have hratio : (m / m' : ℚ) = K * 2 ^ (e' - e) := by
      rw [zpow_sub₀ two_ne_zero, div_eq_iff (by positivity)]
      field_simp
      linarith
    have hhigh : (K : ℚ) * 2 ^ (e' - e) < 2 ^ ((K.log2 : Int) + 1) * 2 ^ (e' - e) := by
      gcongr
      exact (log2_bounds hK).2
    rw [← zpow_add₀ two_ne_zero, ← hratio] at hhigh
    have := (zpow_lt_zpow_iff_right₀ one_lt_two).mp ((ratio_bounds hm hm').1.trans hhigh)
    omega
  obtain ⟨t, ht⟩ : ∃ t : Int, min (e - e') (max (m.log2 + e - (m'.log2 + e') - 53) (-1074)) = t :=
    ⟨_, rfl⟩
  obtain ⟨j, hj⟩ : ∃ j : Nat, t = -j := ⟨(-t).toNat, by omega⟩
  obtain ⟨k, hk⟩ : ∃ k : Nat, e - e' = t + k := ⟨(e - e' - t).toNat, by omega⟩
  have hexact : m * 2 ^ k = K * 2 ^ j * m' := by
    rw [show e = e' + k - j by omega, zpow_sub₀ two_ne_zero, zpow_add₀ two_ne_zero, zpow_natCast,
      zpow_natCast] at hmag
    field_simp at hmag
    have hcast : (m : ℚ) * 2 ^ k = K * 2 ^ j * m' := by linarith
    exact_mod_cast hcast
  have hcore : divCore Format.binary64 m e m' e' = (K * 2 ^ j, t, .exact) := by
    have htarget : min (e - e')
        (Format.binary64.targetExponent (totalExponent m e - totalExponent m' e')) = t := by
      change min (e - e') (max ((m.log2 : Int) + 1 + e - (m'.log2 + 1 + e') - 53) (-1074)) = t
      omega
    unfold divCore
    dsimp only
    rw [htarget, show (e - e' - t).toNat = k by omega, Nat.shiftLeft_eq, hexact,
      Nat.mul_div_cancel _ hm', Nat.mul_mod_left]
    rfl
  have hvalue :
      ∀ s : Sign, ((s.apply (K * 2 ^ j : Nat) : Int) : ℚ) * 2 ^ t = (s.apply K : Int) := by
    intro s
    rw [hj, ← zero_sub, apply_mul_two_pow, zpow_zero, mul_one]
  rw [hcore]
  obtain ⟨y, hy, hnearest⟩ :=
    valued_roundWithAccuracy s (m := K * 2 ^ j) (e := t) (Nat.mul_pos hK (Nat.two_pow_pos j))
    (by rw [log2_mul_two_pow hK]; omega) ((hvalue .positive).trans_le (by
      change ((K : Int) : ℚ) ≤ _
      exact_mod_cast hlt.le.trans (by decide : 2 ^ 53 ≤ 2 ^ 64)))
  rw [hvalue] at hnearest
  rwa [hnearest.eq (fits_intCast (by rw [abs_apply]; exact_mod_cast hlt.le))] at hy

/-- A quotient that is a whole number is exact. -/
theorem Valued.div (hu : Valued u p) (hv : Valued v q) (hq : q ≠ 0) {n : Int}
    (hn : |n| < 2 ^ 53) (hp : p = n * q) : Valued (UnpackedFloat.div Format.binary64 u v) n := by
  cases hv with
  | zero s' => exact absurd rfl hq
  | @finite s' m' e' hm' h' =>
    cases hu with
    | zero s =>
      have hzero : (n : ℚ) = 0 := (mul_eq_zero.mp hp.symm).resolve_right hq
      rw [hzero]
      exact .zero _
    | @finite s m e hm h =>
      have hpos : (0 : ℚ) < m' * 2 ^ e' := by positivity
      obtain ⟨K, hK⟩ : ∃ K, n.natAbs = K := ⟨_, rfl⟩
      have hmag : (m : ℚ) * 2 ^ e = K * (m' * 2 ^ e') := by
        have habs : |((s.apply m : Int) : ℚ) * 2 ^ e| = |(n : ℚ) *
          ((s'.apply m' : Int) * 2 ^ e')| := by rw [hp]
        have hunit : ∀ e : Int, |(2 : ℚ) ^ e| = 2 ^ e := fun e => abs_of_pos (by positivity)
        have hquotient : |(n : ℚ)| = K := by
          rw [← Int.cast_abs, Int.abs_eq_natAbs, hK, Int.cast_natCast]
        simpa only [abs_mul, hunit, hquotient, ← Int.cast_abs, abs_apply,
          Int.cast_natCast] using habs
      have hsign : (((s / s').apply K : Int) : ℚ) = n := by
        refine mul_right_cancel₀ hpos.ne' ?_
        rw [apply_div]
        cases s <;> cases s' <;> simp only [Sign.apply] at hp ⊢ <;> push_cast at hp ⊢ <;> linarith
      have hKpos : 0 < K := by
        rcases Nat.eq_zero_or_pos K with rfl | h
        · rw [Nat.cast_zero, zero_mul] at hmag
          exact absurd hmag (by positivity)
        · exact h
      have hlt : K < 2 ^ 53 := by
        rw [Int.abs_eq_natAbs, hK] at hn
        exact_mod_cast hn
      exact hsign ▸ valued_quotient (s / s') hm hm' hKpos hlt hmag

end Operations

end Pseudocode.Number
