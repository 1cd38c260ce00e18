import Pseudocode.Number.Division
import Pseudocode.Proofs.Arithmetic
import Pseudocode.Proofs.Attempts
import Pseudocode.Proofs.CaseRanges

/-!
# Division of whole numbers

DIV rounds the quotient of two whole numbers down, and MOD takes the remainder that truncating the
quotient leaves. Below `2 ^ 53` both are exact. They belong to one division where rounding down is
truncating, that is if the divisor divides the dividend or has its sign (`Aligned`). Elsewhere the
quotient is one less than the remainder's. The product of such a quotient and the divisor need not
be a double, but it lies past the dividend, and adding a remainder of the dividend's sign to it
leads on, so no rounding brings the dividend back.

Results:
* `worth?_remainder`, `worth?_floorQuotient`: remainder and quotient of whole numbers, exactly.
* `worth?_recombined`: quotient and remainder together.
* `quotients_fit_remainders_if_aligned`: the operators DIV and MOD beside each other.
-/

namespace Pseudocode

open Eval Number

namespace Number

section Operations

variable {x y : Float} {p q : ℚ} (hx : worth? x = some p) (hy : worth? y = some q)
include hx hy

theorem worth?_add (h : |p + q| ≤ 2 ^ 64) : ∃ z, worth? (x + y) = some z ∧ IsNearest (p + q) z := by
  obtain ⟨z, hz, hnearest⟩ := (valued_unpack hx).add (valued_unpack hy) h
  exact ⟨z, hz.worth?_pack, hnearest⟩

theorem worth?_mul (h : |p * q| ≤ 2 ^ 64) : ∃ z, worth? (x * y) = some z ∧ IsNearest (p * q) z := by
  obtain ⟨z, hz, hnearest⟩ := (valued_unpack hx).mul (valued_unpack hy) h
  exact ⟨z, hz.worth?_pack, hnearest⟩

/-- A difference that is a whole number of at most 53 binary digits is exact. -/
theorem worth?_sub {n : Int} (h : p - q = n) (hn : |n| ≤ 2 ^ 53) :
    worth? (x - y) = some (n : ℚ) := by
  have hbound : |p - q| ≤ 2 ^ 64 := by
    rw [h]
    exact_mod_cast hn.trans (by decide)
  obtain ⟨z, hz, hnearest⟩ := (valued_unpack hx).sub (valued_unpack hy) hbound
  rw [h] at hnearest
  exact hnearest.eq (fits_intCast hn) ▸ hz.worth?_pack

theorem bne_iff : (x != y) = true ↔ p ≠ q := by
  rw [bne, Bool.not_eq_true', ← Bool.not_eq_true, beq_iff hx hy]

end Operations

/-! ## Remainders -/

theorem abs_worth (r : Parts) : |r.worth| = r.mantissa * 2 ^ r.exponent := by
  rw [Parts.worth, abs_mul, abs_of_nonneg (by positivity : (0 : ℚ) ≤ r.mantissa * 2 ^ r.exponent)]
  cases r.negative <;> simp

/-- Parts that have the value of a whole number are put together to that number. -/
theorem worth?_toFloat {r : Parts} {n : Int} (h : r.worth = n) (hn : |n| ≤ 2 ^ 53) :
    worth? r.toFloat = some (n : ℚ) := by
  obtain ⟨b, m, e⟩ := r
  have hratio := scaled_ratio m 1 e
  rw [Nat.cast_one, div_one] at hratio
  have habs : (m : ℚ) * 2 ^ e = |(n : ℚ)| := by rw [← h, abs_worth]
  have hle : |(n : ℚ)| ≤ 2 ^ 53 := by exact_mod_cast hn
  obtain ⟨y, hy, hnearest⟩ := (worth?_nearest (scaled m 1 e).1 (scaled_pos m Nat.one_pos e)).2
    (by rw [hratio, habs]; exact hle.trans_lt (lt_trans (by norm_num) lt_overflow))
  rw [hratio, habs, ← Int.cast_abs] at hnearest
  rw [hnearest.eq (fits_intCast (by rwa [abs_abs])), Int.cast_abs, ← habs] at hy
  change worth? (withSign b (nearest (scaled m 1 e).1 (scaled m 1 e).2)) = _
  rw [← h, withSign, Parts.worth]
  cases b
  · simpa using hy
  · simpa [worth?_neg] using congrArg (Option.map Neg.neg) hy

/-- Numbers leave the remainder that they leave in another unit. -/
theorem mod_mul_unit {A B α β : Nat} {u : ℚ} (hu : 0 < u) (hA : A * u = α)
    (hB : B * u = β) (hβ : 0 < β) : ((A % B : Nat) : ℚ) * u = (α % β : Nat) := by
  have hsplit : (A : ℚ) = B * (A / B : Nat) + (A % B : Nat) := by
    exact_mod_cast (Nat.div_add_mod A B).symm
  have hsplit' : (α : ℚ) = β * (α / β : Nat) + (α % β : Nat) := by
    exact_mod_cast (Nat.div_add_mod α β).symm
  have hBpos : 0 < B := Nat.pos_of_ne_zero fun h => by
    rw [h, Nat.cast_zero, zero_mul] at hB
    exact hβ.ne (by exact_mod_cast hB)
  have hmod : ((A % B : Nat) : ℚ) < B := by exact_mod_cast Nat.mod_lt A hBpos
  have hquotient : α / β = A / B := by
    refine Nat.div_eq_of_lt_le ?_ ?_
    · have : ((A / B : Nat) : ℚ) * β ≤ α := by
        rw [← hA, ← hB, hsplit]
        nlinarith [mul_nonneg (Nat.cast_nonneg (α := ℚ) (A % B)) hu.le]
      exact_mod_cast this
    · have : (α : ℚ) < ((A / B : Nat) + 1) * β := by
        rw [← hA, ← hB]
        nlinarith
      exact_mod_cast this
  rw [hquotient, ← hA, ← hB] at hsplit'
  linear_combination hsplit' - u * hsplit

theorem tmod_natCast (n : Nat) (b : Int) : (n : Int).tmod b = (n % b.natAbs : Nat) := by
  rcases b.natAbs_eq with h | h
  · rw [h, Int.natAbs_natCast]
    rfl
  · rw [h, Int.tmod_neg, Int.natAbs_neg, Int.natAbs_natCast]
    rfl

/-- **The remainder of whole numbers is that of division towards zero.** -/
theorem worth?_remainder {x y : Float} {a b : Int} (hx : worth? x = some (a : ℚ))
    (hy : worth? y = some (b : ℚ)) (ha : |a| < 2 ^ 53) (hb : b ≠ 0) :
    worth? (remainder x y) = some (a.tmod b : ℚ) := by
  obtain ⟨⟨s, m, e⟩, hp, hpa⟩ := Option.map_eq_some_iff.mp hx
  obtain ⟨⟨s', m', e'⟩, hq, hqb⟩ := Option.map_eq_some_iff.mp hy
  have hm' : m' ≠ 0 := fun h => hb (by simpa [Parts.worth, h] using hqb.symm)
  rw [remainder, hp, hq]
  dsimp only
  rw [if_neg hm']
  -- both numbers in units of the smaller exponent
  have hunits : ∀ {s : Bool} {m : Nat} {e t n : Int}, Parts.worth ⟨s, m, e⟩ = n → t ≤ e →
      ((m * 2 ^ (e - t).toNat : Nat) : ℚ) * 2 ^ t = n.natAbs := by
    intro s m e t n h ht
    have hvalue := apply_decreaseExponent .positive m ht
    have habs := abs_worth ⟨s, m, e⟩
    rw [h, ← Int.cast_abs, Int.abs_eq_natAbs, Int.cast_natCast] at habs
    simpa [Float.Model.UnpackedFloat.Sign.apply, Float.Model.UnpackedFloat.decreaseExponent,
      Nat.shiftLeft_eq, habs] using hvalue
  have hmod :=
    mod_mul_unit (by positivity) (hunits hpa (min_le_left e e')) (hunits hqb (min_le_right e e'))
    (Int.natAbs_pos.mpr hb)
  have hnonneg : (0 : ℚ) ≤ m * 2 ^ e := by positivity
  refine worth?_toFloat ?_ ?_
  · refine (congrArg (_ * ·) hmod).trans ?_
    cases s with
    | false =>
      rw [Parts.worth_positive] at hpa
      have ha : 0 ≤ a := by exact_mod_cast hpa ▸ hnonneg
      obtain ⟨k, rfl⟩ := Int.eq_ofNat_of_zero_le ha
      rw [tmod_natCast, Int.cast_natCast]
      exact one_mul _
    | true =>
      rw [Parts.worth_negative] at hpa
      have ha : a ≤ 0 := by exact_mod_cast hpa ▸ neg_nonpos.mpr hnonneg
      obtain ⟨k, rfl⟩ := Int.exists_eq_neg_ofNat ha
      rw [Int.neg_tmod, tmod_natCast, Int.cast_neg, Int.cast_natCast, Int.natAbs_neg]
      exact neg_one_mul _
  · rw [Int.abs_eq_natAbs, Int.natAbs_tmod]
    rw [Int.abs_eq_natAbs] at ha
    exact_mod_cast (Nat.mod_le _ _).trans (by exact_mod_cast ha.le)

/-! ## Quotients -/

/-- Whether rounding the quotient of two whole numbers down is truncating it. -/
def Aligned (a b : Int) : Prop := b ∣ a ∨ (a < 0 ↔ b < 0)

instance (a b : Int) : Decidable (Aligned a b) :=
  inferInstanceAs (Decidable (b ∣ a ∨ (a < 0 ↔ b < 0)))

theorem fdiv_eq (a : Int) {b : Int} (hb : b ≠ 0) :
    a.fdiv b = a.tdiv b - if Aligned a b then 0 else 1 := by
  rw [Int.fdiv_eq_tdiv]
  congr 1
  by_cases hd : b ∣ a
  · rw [if_pos hd, if_pos (.inl hd)]
  have ha : a ≠ 0 := fun h => hd (h ▸ dvd_zero b)
  have haligned : Aligned a b ↔ (a < 0 ↔ b < 0) := or_iff_right hd
  rw [if_neg hd]
  rcases lt_or_gt_of_ne ha with ha | ha <;> rcases lt_or_gt_of_ne hb with hb | hb
  · rw [if_neg (by omega), if_neg (by omega), if_pos (haligned.mpr (by omega)),
      Int.sign_eq_neg_one_of_neg hb]
    rfl
  · rw [if_neg (by omega), if_pos (by omega), if_neg (mt haligned.mp (by omega)),
      Int.sign_eq_one_of_pos hb]
  · rw [if_pos (by omega), if_neg (by omega), if_neg (mt haligned.mp (by omega))]
  · rw [if_pos (by omega), if_pos (by omega), if_pos (haligned.mpr (by omega))]

/-- The remainder lies between zero and the dividend. -/
theorem tmod_bounds (a : Int) {b : Int} (hb : b ≠ 0) :
    (a.tmod b).natAbs ≤ a.natAbs ∧ (a.tmod b).natAbs < b.natAbs ∧ (0 ≤ a → 0 ≤ a.tmod b) ∧
      (a ≤ 0 → a.tmod b ≤ 0) := by
  rw [Int.natAbs_tmod]
  refine ⟨Nat.mod_le _ _, Nat.mod_lt _ (Int.natAbs_pos.mpr hb), Int.tmod_nonneg b, fun ha => ?_⟩
  have := Int.tmod_nonneg b (Int.neg_nonneg_of_nonpos ha)
  rw [Int.neg_tmod] at this
  omega

theorem tmod_neg_iff {a b : Int} (hb : b ≠ 0) (h : ¬ b ∣ a) : a.tmod b < 0 ↔ a < 0 := by
  rw [Int.dvd_iff_tmod_eq_zero] at h
  obtain ⟨-, -, hpos, hneg⟩ := tmod_bounds a hb
  omega

theorem worth?_zero : worth? 0 = some 0 := by
  have hzero : parts? 0 = some ⟨false, 0, -1074⟩ := by decide +kernel
  simp [worth?, hzero, Parts.worth]

theorem worth?_ofInt_small {n : Int} (hn : |n| ≤ 2 ^ 53) : worth? (ofInt n) = some (n : ℚ) := by
  have hle : |(n : ℚ)| ≤ 2 ^ 53 := by exact_mod_cast hn
  obtain ⟨y, hy, hnearest⟩ := (worth?_ofInt n).2 (hle.trans_lt (lt_trans (by norm_num) lt_overflow))
  rwa [hnearest.eq (fits_intCast hn)] at hy

theorem worth?_floorFloat {x : Float} {n : Int} (hx : worth? x = some (n : ℚ)) (hn : |n| ≤ 2 ^ 53) :
    worth? (floorFloat x) = some (n : ℚ) := by
  obtain ⟨p, hp, hpn⟩ := Option.map_eq_some_iff.mp hx
  rw [floorFloat, hp]
  dsimp only
  split
  · exact hx
  · rw [p.floor_eq, hpn, Int.floor_intCast]
    exact worth?_ofInt_small hn

/-- A whole quotient is rounded to itself. -/
theorem worth?_snap {q d : Float} {n : Int} (hq : worth? q = some (n : ℚ)) (hn : |n| ≤ 2 ^ 53) :
    worth? (if q != 0 then
      let whole := floorFloat q
      if 0.5 < q - whole then whole + 1 else whole
    else zeroLike d) = some (n : ℚ) := by
  by_cases hzero : (q != 0) = true
  · rw [if_pos hzero]
    have hwhole := worth?_floorFloat hq hn
    have hhalf : worth? 0.5 = some (1 / 2) := by
      have hparts : parts? 0.5 = some ⟨false, 4503599627370496, -53⟩ := by decide +kernel
      rw [worth?, hparts]
      norm_num [Parts.worth, zpow_neg]
    have hdifference := worth?_sub hq hwhole (n := 0) (by simp) (by decide)
    dsimp only
    rwa [if_neg (mt (lt_iff hhalf hdifference).mp (by norm_num))]
  · have hn0 : (n : ℚ) = 0 := not_not.mp (mt (bne_iff hq worth?_zero).mpr hzero)
    rw [if_neg hzero, zeroLike, withSign, hn0]
    split <;> simp [worth?_neg, worth?_zero]

/-- **The quotient of whole numbers is rounded down.** -/
theorem worth?_floorQuotient {x y : Float} {a b : Int} (hx : worth? x = some (a : ℚ))
    (hy : worth? y = some (b : ℚ)) (ha : |a| < 2 ^ 53) (hb : b ≠ 0) :
    worth? (floorQuotient x y) = some (a.fdiv b : ℚ) := by
  have hr := worth?_remainder hx hy ha hb
  have hsplit := Int.mul_tdiv_add_tmod a b
  have hquotient : |a.tdiv b| < 2 ^ 53 := by
    rw [Int.abs_eq_natAbs] at ha ⊢
    exact_mod_cast (Int.natAbs_tdiv_le_natAbs a b).trans_lt (by exact_mod_cast ha)
  have hsub : worth? (x - remainder x y) = some ((b * a.tdiv b : Int) : ℚ) := by
    refine worth?_sub hx hr (by rw [← Int.cast_sub]; congr 1; omega) ?_
    rw [Int.abs_eq_natAbs] at ha ⊢
    rw [Int.natAbs_mul, Int.natAbs_tdiv]
    exact_mod_cast (Nat.mul_div_le a.natAbs b.natAbs).trans (by exact_mod_cast ha.le)
  have hdiv : worth? ((x - remainder x y) / y) = some (a.tdiv b : ℚ) := by
    refine ((valued_unpack hsub).div (valued_unpack hy)
      (by exact_mod_cast hb) hquotient ?_).worth?_pack
    push_cast
    ring
  -- a remainder of the other sign than the divisor's is a quotient that was rounded up
  have hcorrect : (remainder x y != 0 && decide (y < 0) != decide (remainder x y < 0)) = true ↔
      ¬ Aligned a b := by
    rw [Bool.and_eq_true, bne_iff hr worth?_zero, bne_iff_ne, Int.cast_ne_zero, Ne,
      ← Int.dvd_iff_tmod_eq_zero, Aligned, not_or]
    refine and_congr_right fun h => not_congr ?_
    rw [decide_eq_decide, lt_iff hy worth?_zero, lt_iff hr worth?_zero, Int.cast_lt_zero,
      Int.cast_lt_zero, tmod_neg_iff hb h]
    exact Iff.comm
  rw [floorQuotient]
  dsimp only
  obtain ⟨hleast, hgreatest⟩ := abs_lt.mp hquotient
  have hone : worth? 1 = some ((1 : Int) : ℚ) := by
    have hparts : parts? 1 = some ⟨false, 4503599627370496, -52⟩ := by decide +kernel
    rw [worth?, hparts]
    norm_num [Parts.worth, zpow_neg]
  refine worth?_snap ?_ ?_
  · rw [fdiv_eq a hb]
    by_cases h : Aligned a b
    · rw [if_neg (mt hcorrect.mp (not_not.mpr h)), if_pos h, sub_zero]
      exact hdiv
    · rw [if_pos (hcorrect.mpr h), if_neg h]
      exact worth?_sub hdiv hone (by push_cast; ring) (abs_le.mpr ⟨by omega, by omega⟩)
  · rw [fdiv_eq a hb]
    split <;> exact abs_le.mpr ⟨by omega, by omega⟩

/-! ## Both together -/

theorem fdiv_mul_add_tmod (a : Int) {b : Int} (hb : b ≠ 0) :
    a.fdiv b * b + a.tmod b = if Aligned a b then a else a - b := by
  have hsplit := Int.mul_tdiv_add_tmod a b
  rw [fdiv_eq a hb, sub_mul, mul_comm]
  split <;> omega

/-- **A quotient that was rounded down does not belong to the remainder of one that is
truncated.** -/
theorem worth?_recombined {x y : Float} {a b : Int} (hx : worth? x = some (a : ℚ))
    (hy : worth? y = some (b : ℚ)) (ha : |a| < 2 ^ 53) (hb : |b| < 2 ^ 53) (hzero : b ≠ 0) :
    ∃ t, worth? (floorQuotient x y * y + remainder x y) = some t ∧ (t = a ↔ Aligned a b) := by
  have hr := worth?_remainder hx hy ha hzero
  have hq := worth?_floorQuotient hx hy ha hzero
  have hsplit := fdiv_mul_add_tmod a hzero
  obtain ⟨hdividend, hdivisor, hpos, hneg⟩ := tmod_bounds a hzero
  rw [abs_lt] at ha hb
  have hproduct : |a.fdiv b * b| ≤ 2 ^ 54 := by
    split at hsplit <;> exact abs_le.mpr ⟨by omega, by omega⟩
  have hproduct' : |((a.fdiv b : ℚ) * b)| ≤ 2 ^ 54 := by exact_mod_cast hproduct
  obtain ⟨p, hp, hnearest⟩ := worth?_mul hq hy (hproduct'.trans (by norm_num))
  have hfits : Fits (2 ^ 54) := ⟨2 ^ 53, 1, by decide, by decide, by norm_num⟩
  have hleast := hnearest.ge hfits.neg (abs_le.mp hproduct').1
  have hgreatest := hnearest.le hfits (abs_le.mp hproduct').2
  have hremainder : |(a.tmod b : ℚ)| ≤ 2 ^ 53 := by exact_mod_cast abs_le.mpr ⟨by omega, by omega⟩
  obtain ⟨t, ht, hsum⟩ := worth?_add hp hr
    (abs_le.mpr ⟨by linarith [abs_le.mp hremainder], by linarith [abs_le.mp hremainder]⟩)
  refine ⟨t, ht, ?_⟩
  rw [← Int.cast_mul] at hnearest
  by_cases h : Aligned a b
  · -- the product is what the remainder leaves of the dividend, and all is exact
    rw [if_pos h] at hsplit
    rw [hnearest.eq (fits_intCast (abs_le.mpr ⟨by omega, by omega⟩)),
      ← Int.cast_add, hsplit] at hsum
    exact iff_of_true (hsum.eq (fits_intCast (abs_le.mpr ⟨by omega, by omega⟩))) h
  · rw [if_neg h] at hsplit
    refine iff_of_false ?_ h
    have hsigns : ¬ (a < 0 ↔ b < 0) := fun h' => h (.inr h')
    have ha0 : a ≠ 0 := fun h' => h (.inl (h' ▸ dvd_zero b))
    -- the product is already past the dividend, and the remainder leads on
    rcases lt_or_gt_of_ne hzero with hb0 | hb0
    · have hfits : Fits ((a + 1 : Int) : ℚ) := fits_intCast (abs_le.mpr ⟨by omega, by omega⟩)
      have hge := hnearest.ge hfits (by exact_mod_cast (by omega : a + 1 ≤ a.fdiv b * b))
      have hge' := hsum.ge hfits (le_add_of_le_of_nonneg hge (by exact_mod_cast hpos (by omega)))
      push_cast at hge'
      exact ne_of_gt (by linarith)
    · have hfits : Fits ((a - 1 : Int) : ℚ) := fits_intCast (abs_le.mpr ⟨by omega, by omega⟩)
      have hle := hnearest.le hfits (by exact_mod_cast (by omega : a.fdiv b * b ≤ a - 1))
      have hle' := hsum.le hfits (add_le_of_le_of_nonpos hle (by exact_mod_cast hneg (by omega)))
      push_cast at hle'
      exact ne_of_lt (by linarith)

end Number

section Operators

variable {k l : Numeric} {x y : Float}

theorem Numeric.isZero_eq_false {b : Int} (hl : l.worth? = some (b : ℚ)) (hb : b ≠ 0) :
    l.isZero = false := by
  cases l with
  | int n =>
    obtain rfl : n = b := Int.cast_injective (Option.some.inj hl)
    exact beq_false_of_ne hb
  | real y => exact Bool.eq_false_iff.mpr (mt (beq_iff hl worth?_zero).mp (Int.cast_ne_zero.mpr hb))

theorem remainder_of_worth? {p : ℚ} (hx : Number.worth? x = some p) (y : Float) :
    Value.remainder x y = .ok (Number.remainder x y) := by
  obtain ⟨r, hr, -⟩ := Option.map_eq_some_iff.mp hx
  rw [Value.remainder, if_neg]
  simp [isInfinite, isFinite, hr]

theorem evaluate_arithmetic {n : Nat} {scope : Scope} {m : Machine} {left right : Expr} {z : Float}
    {op : BinaryOp} {f : Float → Float → Attempt Float} {divides : Bool} (line : Int)
    (hop : ∀ v w, op.apply v w = Value.arithmetic f v w divides)
    (hleft : evaluate n scope left m = .ok k.toValue m)
    (hright : evaluate n scope right m = .ok l.toValue m) (hx : k.toReal = .ok x)
    (hy : l.toReal = .ok y) (hzero : (divides && l.isZero) = false) (hz : f x y = .ok z) :
    evaluate (n + 1) scope (.binary line left op right) m = .ok (.real z) m := by
  rw [evaluate_binary line op hleft hright, hop,
    arithmetic_of_numeric f k.numeric?_toValue l.numeric?_toValue hzero, hx, hy]
  change attempt (f x y >>= fun z => .ok (Value.real z)) m = _
  rw [hz]
  rfl

end Operators

/-- A number put together again from a quotient and a remainder. -/
def Expr.recombined (line : Int) (a b : Expr) : Expr :=
  .binary line (.binary line (.binary line a .floorDiv b) .mul b) .add (.binary line a .mod b)

/-- **DIV rounds down and MOD belongs to truncation.** The two are one division if the divisor
divides the dividend or has its sign. Otherwise the quotient is one less than the remainder's, and
what they give together is not the dividend. -/
theorem quotients_fit_remainders_if_aligned {n : Nat} {scope : Scope} {m : Machine} {ea eb : Expr}
    {k l : Numeric} {a b : Int} (line : Int) (hk : k.worth? = some (a : ℚ))
    (hl : l.worth? = some (b : ℚ)) (ha : |a| < 2 ^ 53) (hb : |b| < 2 ^ 53) (hzero : b ≠ 0)
    (hea : ∀ i, n ≤ i → evaluate i scope ea m = .ok k.toValue m)
    (heb : ∀ i, n ≤ i → evaluate i scope eb m = .ok l.toValue m) :
    (∃ q, evaluate (n + 1) scope (.binary line ea .floorDiv eb) m = .ok (.real q) m ∧
      Number.worth? q = some (a.fdiv b : ℚ)) ∧
      (∃ r, evaluate (n + 1) scope (.binary line ea .mod eb) m = .ok (.real r) m ∧
        Number.worth? r = some (a.tmod b : ℚ)) ∧
      evaluate (n + 4) scope (.binary line (.recombined line ea eb) .eq ea) m =
        .ok (.bool (decide (Aligned a b))) m ∧
      a.fdiv b * b + a.tmod b = if Aligned a b then a else a - b := by
  have hsmall : ∀ {k : Numeric} {a : Int}, k.worth? = some (a : ℚ) → |a| < 2 ^ 53 →
      ∃ x, k.Doubled a x a := by
    intro k a hk ha
    refine Numeric.exists_doubled_self ?_ hk
    cases k with
    | int i => exact (Int.cast_injective (Option.some.inj hk) : i = a) ▸ ha.le
    | real _ => trivial
  obtain ⟨x, hx⟩ := hsmall hk ha
  obtain ⟨y, hy⟩ := hsmall hl hb
  have hisZero := Numeric.isZero_eq_false hl hzero
  have hdiv : ∀ i, n ≤ i →
      evaluate (i + 1) scope (.binary line ea .floorDiv eb) m = .ok (.real (floorQuotient x y)) m :=
        fun i hi =>
    evaluate_arithmetic line (fun _ _ => rfl) (hea i hi) (heb i hi) hx.toReal hy.toReal
      (by rw [hisZero]; rfl) rfl
  have hmod : ∀ i, n ≤ i →
      evaluate (i + 1) scope (.binary line ea .mod eb) m = .ok (.real (Number.remainder x y)) m :=
        fun i hi =>
    evaluate_arithmetic line (fun _ _ => rfl) (hea i hi) (heb i hi) hx.toReal hy.toReal
      (by rw [hisZero]; rfl) (remainder_of_worth? hx.worth y)
  have hproduct : evaluate (n + 2) scope (.binary line (.binary line ea .floorDiv eb) .mul eb) m =
      .ok (.real (floorQuotient x y * y)) m :=
    evaluate_arithmetic (k := .real _) line (fun _ _ => rfl) (hdiv n le_rfl)
      (heb _ (by omega)) rfl hy.toReal rfl rfl
  have hsum : evaluate (n + 3) scope (.recombined line ea eb) m =
      .ok (.real (floorQuotient x y * y + Number.remainder x y)) m :=
    evaluate_arithmetic (k := .real _) (l := .real _) line (fun _ _ => rfl) hproduct
      (hmod (n + 1) (by omega)) rfl rfl rfl rfl
  obtain ⟨t, ht, haligned⟩ := worth?_recombined hx.worth hy.worth ha hb hzero
  refine ⟨⟨_, hdiv n le_rfl, worth?_floorQuotient hx.worth hy.worth ha hzero⟩,
    ⟨_, hmod n le_rfl, worth?_remainder hx.worth hy.worth ha hzero⟩, ?_, fdiv_mul_add_tmod a hzero⟩
  have hequals : Value.equals (.real (floorQuotient x y * y + Number.remainder x y)) k.toValue =
      .ok (decide (Aligned a b)) := by
    refine (Numeric.equals_of_toReal (a := .real _) rfl hx.toReal).trans
      (congrArg _ (Bool.eq_iff_iff.mpr ?_))
    rw [beq_iff ht hx.worth, haligned, decide_eq_true_iff]
  rw [evaluate_binary line .eq hsum (hea _ (by omega)), BinaryOp.apply, hequals]
  rfl

/-- Of two divisors that leave a remainder, the one with the dividend's sign gives the dividend
again. -/
theorem divisions_of_minus_seven :
    evaluate 5 .global
        (.binary 1 (.recombined 1 (.literal 1 (.int (-7))) (.literal 1 (.int (-2)))) .eq
        (.literal 1 (.int (-7)))) {} = .ok (.bool true) {} ∧
      evaluate 5 .global
        (.binary 1 (.recombined 1 (.literal 1 (.int (-7))) (.literal 1 (.int 2))) .eq
        (.literal 1 (.int (-7)))) {} = .ok (.bool false) {} := by
  have hliteral : ∀ v i, 1 ≤ i → evaluate i .global (.literal 1 v) {} = .ok v {} := by
    intro v i hi
    obtain ⟨j, rfl⟩ := Nat.exists_eq_add_of_le' hi
    rfl
  have haligned :=
    quotients_fit_remainders_if_aligned (k := .int (-7)) (l := .int (-2)) 1 rfl rfl (by decide)
    (by decide) (by decide) (hliteral _) (hliteral _)
  have hopposed :=
    quotients_fit_remainders_if_aligned (k := .int (-7)) (l := .int 2) 1 rfl rfl (by decide)
    (by decide) (by decide) (hliteral _) (hliteral _)
  exact ⟨haligned.2.2.1, hopposed.2.2.1⟩

/-- The quotient of -7 by 2 is -4 and the remainder -1, which give -9 together. -/
theorem quotient_of_another_division :
    (evaluate 4 .global (.recombined 1 (.literal 1 (.int (-7))) (.literal 1 (.int 2)))).run' {} =
      some (.real (-9)) ∧
      (evaluate 5 .global (.binary 1 (.recombined 1 (.literal 1 (.int (-7))) (.literal 1 (.int 2)))
        .eq (.literal 1 (.int (-7))))).run' {} = some (.bool false) := by
  decide +kernel

end Pseudocode
