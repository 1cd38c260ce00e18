import Mathlib.Data.Rat.Floor
import Pseudocode.Proofs.Doubles
import Pseudocode.Value.Numeric

/-!
# Rounding

Arithmetic on numbers rounds: the result is the double nearest to the exact one. `IsNearest x y`
says so of rational numbers, as if there were no largest double, and says all that is needed:
rounding is exact on the values of doubles and keeps the order. A whole number of units of the right
size that is off by half a unit at most is nearest (`IsNearest.of_units`), whatever computed it.

Results:
* `Numeric.floor_eq_ok`: numbers are rounded down to the floor of their exact value.
* `IsNearest.mono`: rounding keeps the order.
* `worth?_nearest`: quotients are rounded to the nearest double, and to infinity from `overflow` on.
-/

namespace Pseudocode

/-! ## Exact values -/

/-- The exact value of a finite double. -/
def Number.Parts.worth (p : Number.Parts) : ℚ :=
  (if p.negative then -1 else 1) * (p.mantissa * 2 ^ p.exponent)

/-- The exact value of a number that is finite. -/
def Numeric.worth? : Numeric → Option ℚ
  | .int n => some n
  | .real x => (Number.parts? x).map Number.Parts.worth

theorem Numeric.numeric?_toValue (x : Numeric) : x.toValue.numeric? = some x := by
  cases x <;> rfl

theorem Number.Parts.worth_eq_ratio (p : Number.Parts) : p.worth = p.ratio.1 / p.ratio.2 := by
  have hscaled := Number.scaled_ratio p.mantissa 1 p.exponent
  rw [Nat.cast_one, div_one] at hscaled
  rw [worth, ← hscaled, ratio]
  cases p.negative with
  | true => simp [neg_div]
  | false => simp

theorem Number.Parts.floor_eq (p : Number.Parts) : p.floor = ⌊p.worth⌋ := by
  rw [worth_eq_ratio, Rat.floor_intCast_div_natCast, floor,
    Int.fdiv_eq_ediv_of_nonneg _ (Int.natCast_nonneg _)]

/-- **Numbers are rounded down to the floor of their exact value.** -/
theorem Numeric.floor_eq_ok {x : Numeric} {n : Int} :
    x.floor = .ok n ↔ ∃ q, x.worth? = some q ∧ ⌊q⌋ = n := by
  cases x with
  | int k => simp [Numeric.floor, worth?]
  | real x =>
    rw [Numeric.floor, worth?]
    cases Number.parts? x with
    | none => simp [fail]
    | some p => simp [Number.Parts.floor_eq]

namespace Number

/-- The exact value of a double that is finite. -/
def worth? (x : Float) : Option ℚ := (parts? x).map Parts.worth

/-! ## The nearest double -/

/-- The values of doubles, were there no largest one. -/
def Fits (z : ℚ) : Prop := ∃ m e : Int, |m| ≤ 2 ^ 53 ∧ -1074 ≤ e ∧ z = m * 2 ^ e

theorem fits_intCast {n : Int} (h : |n| ≤ 2 ^ 53) : Fits n := ⟨n, 0, h, by decide, by simp⟩

theorem Fits.neg {z : ℚ} : Fits z → Fits (-z) := by
  rintro ⟨m, e, hm, he, rfl⟩
  exact ⟨-m, e, by rwa [abs_neg], he, by push_cast; ring⟩

/-- No double is closer to `x` than `y`. -/
structure IsNearest (x y : ℚ) : Prop where
  fits : Fits y
  closest : ∀ z, Fits z → |x - y| ≤ |x - z|

namespace IsNearest

variable {x x' y y' z : ℚ}

theorem self (h : Fits x) : IsNearest x x := ⟨h, fun z _ => by simp⟩

theorem neg (h : IsNearest x y) : IsNearest (-x) (-y) := by
  refine ⟨h.fits.neg, fun z hz => ?_⟩
  rw [← abs_neg (-x - -y), ← abs_neg (-x - z)]
  have hclosest := h.closest (-z) hz.neg
  rwa [show -(-x - -y) = x - y by ring, show -(-x - z) = x - -z by ring]

theorem eq (h : IsNearest x y) (hx : Fits x) : y = x := by
  have hzero : |x - y| ≤ 0 := by simpa using h.closest x hx
  linarith [abs_nonpos_iff.mp hzero]

theorem le (h : IsNearest x y) (hz : Fits z) (hxz : x ≤ z) : y ≤ z := by
  by_contra hlt
  have hclosest := h.closest z hz
  rw [abs_of_nonpos (by linarith), abs_of_nonpos (by linarith)] at hclosest
  linarith

theorem ge (h : IsNearest x y) (hz : Fits z) (hzx : z ≤ x) : z ≤ y := by
  have := h.neg.le hz.neg (neg_le_neg hzx)
  linarith

/-- Rounding keeps the order. -/
theorem mono (h : IsNearest x y) (h' : IsNearest x' y') (hlt : x < x') : y ≤ y' := by
  by_contra hgt
  have h₁ := h.closest y' h'.fits
  have h₂ := h'.closest y h.fits
  -- the smaller number is not below the middle between the two doubles, nor the larger one above it
  have hlow : y' + y ≤ 2 * x := by
    by_contra hmid
    rcases le_total x y' with hx | hx
    · rw [abs_of_nonpos (by linarith), abs_of_nonpos (by linarith)] at h₁
      linarith
    · rw [abs_of_nonpos (by linarith), abs_of_nonneg (by linarith)] at h₁
      linarith
  rw [abs_of_nonneg (by linarith)] at h₂
  rcases le_total x' y with hx | hx
  · rw [abs_of_nonpos (by linarith)] at h₂
    linarith
  · rw [abs_of_nonneg (by linarith)] at h₂
    linarith

/-- A whole number of units that is off by half a unit at most is the nearest double. The unit is
the least one, or the number has 53 binary digits in it. -/
theorem of_units {r : Nat} {t : Int} (ht : -1074 ≤ t) (hr : r ≤ 2 ^ 53)
    (hlow : t = -1074 ∨ 2 ^ 52 * 2 ^ t ≤ x) (herr : |x - r * 2 ^ t| ≤ 2 ^ t / 2) :
    IsNearest x (r * 2 ^ t) := by
  have hunit : (0 : ℚ) < 2 ^ t := by positivity
  have hwhole : ∀ j : Int, |x - r * 2 ^ t| ≤ |x - j * 2 ^ t| := by
    intro j
    by_cases hj : j = r
    · rw [hj, Int.cast_natCast]
    · have hapart : (1 : ℚ) ≤ |((r - j : Int) : ℚ)| := by
        exact_mod_cast Int.one_le_abs (sub_ne_zero.mpr (Ne.symm hj))
      have htri := abs_sub (x - j * 2 ^ t) (x - r * 2 ^ t)
      rw [show x - j * 2 ^ t - (x - r * 2 ^ t) = (r - j : Int) * 2 ^ t by push_cast; ring, abs_mul,
        abs_of_pos hunit] at htri
      nlinarith
  refine ⟨⟨r, t, by simpa using by exact_mod_cast hr, ht, by simp⟩, ?_⟩
  rintro z ⟨k, e, hk, he, rfl⟩
  rcases le_or_gt t e with hte | hte
  · have hz : (k : ℚ) * 2 ^ e = (k * 2 ^ (e - t).toNat : Int) * 2 ^ t := by
      push_cast
      rw [mul_assoc, ← zpow_natCast, Int.toNat_of_nonneg (by omega),
        ← zpow_add₀ two_ne_zero, sub_add_cancel]
    rw [hz]
    exact hwhole _
  · -- a smaller unit: such doubles do not reach beyond the power of two below the number
    have hx := hlow.resolve_left (by omega)
    have hz : (k : ℚ) * 2 ^ e ≤ 2 ^ 52 * 2 ^ t := by
      have hpow : (2 : ℚ) ^ (e + 1) ≤ 2 ^ t := zpow_le_zpow_right₀ one_le_two (by omega)
      rw [zpow_add_one₀ two_ne_zero] at hpow
      have hk : (k : ℚ) ≤ 2 ^ 53 := by exact_mod_cast (le_abs_self k).trans hk
      have he : (0 : ℚ) < 2 ^ e := by positivity
      nlinarith
    have hpower := hwhole (2 ^ 52)
    rw [Int.cast_pow, Int.cast_ofNat, abs_of_nonneg (sub_nonneg.mpr hx)] at hpower
    exact hpower.trans ((by linarith : x - 2 ^ 52 * 2 ^ t ≤ x - k * 2 ^ e).trans (le_abs_self _))

end IsNearest

/-! ## Rounding quotients -/

theorem roundDiv_bounds (num den : Nat) :
    num / den ≤ roundDiv num den ∧ roundDiv num den ≤ num / den + 1 := by
  rw [roundDiv]
  split <;> omega

/-- The quotient is off by half at most. -/
theorem roundDiv_error (num : Nat) {den : Nat} (hden : 0 < den) :
    |(num / den : ℚ) - roundDiv num den| ≤ 1 / 2 := by
  have hpos : (0 : ℚ) < den := by exact_mod_cast hden
  have hsplit : (num : ℚ) = den * (num / den : Nat) + (num % den : Nat) := by
    exact_mod_cast (Nat.div_add_mod num den).symm
  rw [← mul_le_mul_iff_left₀ hpos, ← abs_of_pos hpos, ← abs_mul, abs_of_pos hpos, sub_mul,
    div_mul_cancel₀ _ hpos.ne', hsplit, roundDiv, abs_le]
  have hlt : ((num % den : Nat) : ℚ) ≤ den := by exact_mod_cast (Nat.mod_lt num hden).le
  have hnonneg : (0 : ℚ) ≤ (num % den : Nat) := Nat.cast_nonneg _
  split
  · next h =>
    have : (den : ℚ) ≤ 2 * (num % den : Nat) := by exact_mod_cast (by omega : den ≤ 2 * (num % den))
    push_cast
    constructor <;> linarith
  · next h =>
    have : 2 * ((num % den : Nat) : ℚ) ≤ den := by exact_mod_cast (by omega : 2 * (num % den) ≤ den)
    constructor <;> linarith

/-- A quotient of units is rounded to the nearest double if it has 53 binary digits, or fewer and
the unit is the least one. -/
theorem isNearest_roundDiv {n d : Nat} {t : Int} (hd : 0 < d) (ht : -1074 ≤ t)
    (hfew : n / d < 2 ^ 53) (hmany : t = -1074 ∨ 2 ^ 52 ≤ n / d) :
    IsNearest (n / d * 2 ^ t) (roundDiv n d * 2 ^ t) := by
  have hbounds := roundDiv_bounds n d
  have hunit : (0 : ℚ) < 2 ^ t := by positivity
  refine .of_units ht (by omega) (hmany.imp_right fun h => ?_) ?_
  · have hdigits : (2 : ℚ) ^ 52 ≤ (n / d : Nat) := by exact_mod_cast h
    exact mul_le_mul_of_nonneg_right (hdigits.trans Nat.cast_div_le) hunit.le
  · rw [← sub_mul, abs_mul, abs_of_pos hunit]
    linarith [mul_le_mul_of_nonneg_right (roundDiv_error n hd) hunit.le]

/-- A quotient is rounded up to an even number if half a unit is missing at most. -/
theorem le_roundDiv_iff (num : Nat) {den : Nat} (hden : 0 < den) (k : Nat) :
    2 * k + 2 ≤ roundDiv num den ↔ (4 * k + 3) * den ≤ 2 * num := by
  have hsplit := Nat.div_add_mod num den
  have hmod := Nat.mod_lt num hden
  rw [roundDiv]
  generalize num / den = q at *
  generalize num % den = r at *
  subst hsplit
  rcases Nat.lt_trichotomy q (2 * k + 1) with hq | rfl | hq
  · have : den * q + den ≤ den * (2 * k + 1) := by
      rw [← Nat.mul_succ]; exact Nat.mul_le_mul_left den hq
    constructor
    · intro h; split at h <;> omega
    · intro h; nlinarith
  · have : (2 * k + 1) % 2 = 1 := by omega
    simp only [this, and_true]
    constructor
    · intro h
      have : den ≤ 2 * r := by split at h <;> omega
      nlinarith
    · intro h
      have : den ≤ 2 * r := by nlinarith
      rw [if_pos (by omega)]
  · have : den * (2 * k + 2) ≤ den * q := Nat.mul_le_mul_left den hq
    constructor
    · intro h; nlinarith
    · intro h; split <;> omega

theorem worth?_ofBits {m : Nat} {e : Int} (hm : m ≤ 2 ^ 53) (hlow : -1074 ≤ e)
    (hnormal : 2 ^ 52 ≤ m ∨ e = -1074) (hfinite : magnitudeBits m e < 2047 * 2 ^ 52) :
    worth? (Float.ofBits (magnitudeBits m e).toUInt64) = some ((m : ℚ) * 2 ^ e) := by
  have hbits : (Float.ofBits (magnitudeBits m e).toUInt64).toBits.toNat = magnitudeBits m e := by
    have hnat : (magnitudeBits m e).toUInt64.toNat = magnitudeBits m e := by
      rw [Nat.toUInt64_eq, UInt64.toNat_ofNat_of_lt' (by change _ < 2 ^ 64; omega)]
    rw [toBits_ofBits (by rw [hnat]; exact hfinite.le), hnat]
  rcases Nat.lt_or_eq_of_le hm with hlt | rfl
  · have hhigh : e ≤ 971 := by
      unfold magnitudeBits at hfinite
      split at hfinite <;> omega
    have hparts :=
      parts?_iff (p := ⟨false, m, e⟩).mpr ⟨⟨hlt, hlow, hhigh, hnormal⟩, by simpa using hbits⟩
    simp [worth?, hparts, Parts.worth]
  · have hcarry : magnitudeBits (2 ^ 53) e = magnitudeBits (2 ^ 52) (e + 1) := by
      rw [magnitudeBits, magnitudeBits, if_neg (by decide), if_neg (by decide)]
      omega
    have hhigh : e + 1 ≤ 971 := by
      rw [magnitudeBits, if_neg (by decide)] at hfinite
      omega
    have hcanonical : Canonical (2 ^ 52) (e + 1) := ⟨by decide, by omega, hhigh, .inl le_rfl⟩
    have hparts :=
      parts?_iff (p := ⟨false, _, _⟩).mpr ⟨hcanonical, hbits.trans (hcarry.trans (by simp))⟩
    simp only [worth?, hparts, Option.map_some, Parts.worth, Option.some_inj]
    rw [zpow_add_one₀ (two_ne_zero' ℚ)]
    norm_num
    ring

/-- The least magnitude that is rounded to infinity. -/
def overflow : ℚ := (2 ^ 54 - 1) * 2 ^ (970 : Int)

theorem lt_overflow : (2 : ℚ) ^ 64 < overflow := by
  have hunit : (2 : ℚ) ^ (11 : Int) ≤ 2 ^ (970 : Int) := zpow_le_zpow_right₀ one_le_two (by decide)
  rw [overflow]
  generalize (2 : ℚ) ^ (970 : Int) = u at *
  linarith

/-- The bits of a rounded quotient reach those of infinity from `overflow` on. -/
theorem magnitudeBits_overflow {n d : Nat} {v : ℚ} {e : Int} (hd : 0 < d) (hupper : n / d < 2 ^ 53)
    (hlower : e = -1074 ∨ 2 ^ 52 ≤ n / d) (hvalue : (n / d : ℚ) * 2 ^ e = v) (hleast : -1074 ≤ e)
    (hfew : v < 2 ^ 53 * 2 ^ e) (hmany : e = -1074 ∨ 2 ^ 52 * 2 ^ e ≤ v) :
    2047 * 2 ^ 52 ≤ magnitudeBits (roundDiv n d) e ↔ overflow ≤ v := by
  have hbounds := roundDiv_bounds n d
  have hupos : (0 : ℚ) < 2 ^ (970 : Int) := by positivity
  rw [overflow, magnitudeBits]
  rcases Int.lt_trichotomy e 971 with hsmall | rfl | hlarge
  · have hpow : (2 : ℚ) ^ e ≤ 2 ^ (970 : Int) := zpow_le_zpow_right₀ one_le_two (by omega)
    refine iff_of_false (by split <;> omega) (not_le.mpr (hfew.trans ?_))
    generalize (2 : ℚ) ^ e = w, (2 : ℚ) ^ (970 : Int) = u at *
    linarith
  · have htie := le_roundDiv_iff n hd (2 ^ 52 - 1)
    have hdpos : (0 : ℚ) < d := by exact_mod_cast hd
    have hpow : (2 : ℚ) ^ (971 : Int) = 2 * 2 ^ (970 : Int) := zpow_one_add₀ (two_ne_zero' ℚ) 970
    have hcast : (2 ^ 54 - 1) * 2 ^ (970 : Int) ≤ v ↔ (4 * (2 ^ 52 - 1) + 3) * d ≤ 2 * n := by
      rw [← hvalue, hpow, ← mul_assoc, mul_le_mul_iff_left₀ hupos, div_mul_eq_mul_div,
        le_div_iff₀ hdpos, ← Nat.cast_le (α := ℚ)]
      norm_num [mul_comm]
    rw [hcast, ← htie]
    split <;> omega
  · have hpow : (2 : ℚ) ^ (970 : Int) * 2 ^ (2 : Int) ≤ 2 ^ e := by
      rw [← zpow_add₀ two_ne_zero]
      exact zpow_le_zpow_right₀ one_le_two (by omega)
    refine iff_of_true (by split <;> omega) (le_trans ?_ (hmany.resolve_left (by omega)))
    generalize (2 : ℚ) ^ e = w, (2 : ℚ) ^ (970 : Int) = u at *
    linarith

/-- The mantissa and the exponent that a positive quotient is rounded to. -/
theorem nearest_units {num den : Nat} (hnum : 0 < num) (hden : 0 < den) :
    ∃ (m : Nat) (e : Int), m ≤ 2 ^ 53 ∧ -1074 ≤ e ∧ (2 ^ 52 ≤ m ∨ e = -1074) ∧
      IsNearest (num / den) (m * 2 ^ e) ∧
      (2047 * 2 ^ 52 ≤ magnitudeBits m e ↔ overflow ≤ num / den) ∧
      nearest num den =
        if 2047 * 2 ^ 52 ≤ magnitudeBits m e then infinity
        else Float.ofBits (magnitudeBits m e).toUInt64 := by
  obtain ⟨E, hE, hlow, hhigh⟩ := exponentFor_spec hnum hden
  obtain ⟨e, he⟩ : ∃ e, e = max E (-1074) := ⟨_, rfl⟩
  rw [← he] at hE
  have hdigits := @le_scaled_div num den hden e
  have hratio := scaled_ratio num den (-e)
  have hpos := scaled_pos num hden (-e)
  have hnearest : nearest num den =
      let m := roundDiv (scaled num den (-e)).1 (scaled num den (-e)).2
      if 2047 * 2 ^ 52 ≤ magnitudeBits m e then infinity
      else Float.ofBits (magnitudeBits m e).toUInt64 := by
    rw [nearest, if_neg hnum.ne', hE]
    rfl
  generalize (scaled num den (-e)).1 = n at *
  generalize (scaled num den (-e)).2 = d at *
  have hbounds := roundDiv_bounds n d
  have hvalue : (n / d : ℚ) * 2 ^ e = num / den := by
    rw [hratio, mul_assoc, ← zpow_add₀ two_ne_zero, neg_add_cancel, zpow_zero, mul_one]
  -- the quotient has at most 53 binary digits, and no fewer unless the exponent is the least one
  have hfew : (num / den : ℚ) < 2 ^ 53 * 2 ^ e := by
    rw [← zpow_natCast, ← zpow_add₀ two_ne_zero]
    exact hhigh.trans_le (zpow_le_zpow_right₀ one_le_two (by omega))
  have hmany : e = -1074 ∨ 2 ^ 52 * 2 ^ e ≤ (num / den : ℚ) := by
    rw [← zpow_natCast, ← zpow_add₀ two_ne_zero]
    by_cases h : e = -1074
    · exact .inl h
    · exact .inr ((zpow_le_zpow_right₀ one_le_two (by omega)).trans hlow)
  have hupper : n / d < 2 ^ 53 :=
    not_le.mp fun h => absurd ((hdigits _).mp h) (not_le.mpr (by exact_mod_cast hfew))
  have hlower : e = -1074 ∨ 2 ^ 52 ≤ n / d :=
    hmany.imp_right fun h => (hdigits _).mpr (by exact_mod_cast h)
  exact ⟨roundDiv n d, e, by omega, by omega, by omega,
    hvalue ▸ isNearest_roundDiv hpos (by omega) hupper hlower,
    magnitudeBits_overflow hpos hupper hlower hvalue (by omega) hfew hmany, hnearest⟩

/-- **Quotients are rounded to the nearest double**, and to infinity from `overflow` on. -/
theorem worth?_nearest (num : Nat) {den : Nat} (hden : 0 < den) :
    (overflow ≤ num / den → nearest num den = infinity) ∧
      ((num / den : ℚ) < overflow → ∃ y, worth? (nearest num den) = some y ∧
        IsNearest (num / den) y) := by
  rcases Nat.eq_zero_or_pos num with rfl | hnum
  · have hzero : parts? (nearest 0 den) = some ⟨false, 0, -1074⟩ := by
      rw [nearest, if_pos rfl]
      decide +kernel
    have hpos : ¬ overflow ≤ (0 : Nat) / den := by rw [overflow]; norm_num
    refine ⟨fun h => absurd h hpos, fun _ => ⟨0, by simp [worth?, hzero, Parts.worth], ?_⟩⟩
    simpa using IsNearest.self (fits_intCast (n := 0) (by decide))
  · obtain ⟨m, e, hm, he, hnormal, hround, hover, hnearest⟩ := nearest_units hnum hden
    rw [hnearest]
    constructor
    · intro h
      rw [if_pos (hover.mpr h)]
    · intro h
      have hfinite := not_le.mp (mt hover.mp (not_le.mpr h))
      rw [if_neg (not_le.mpr hfinite)]
      exact ⟨_, worth?_ofBits hm he hnormal hfinite, hround⟩

end Number

end Pseudocode
