import Mathlib.Data.Rat.Lemmas
import Mathlib.Tactic
import Pseudocode.Number.Reading

/-!
# Doubles and quotients

A double is its bit pattern, up to the NaNs (`ofBits_toBits`, `toBits_ofBits`), and a finite double
is a sign and a mantissa of at most 53 binary digits times a power of two, which make up the bits
(`parts?_iff`). Rounding a quotient of naturals finds that power first: `exponentFor_spec` says that
the quotient has 53 binary digits there, and `scaled_ratio` what the quotient is in units of it.

Results:
* `parts?_iff`: the parts of a double make up its bits.
* `isMagnitude_nearest`: rounding gives doubles that are not negative.
-/

namespace Pseudocode.Number

/-! ## Bit patterns -/

section Bits

open Float.Model (Format)
open Float.Model.UnpackedFloat

variable (b : BitVec 64)

theorem toNat_unpackSign : (@unpackSign Format.binary64 b).toNat = b.toNat / 2 ^ 63 := by
  have hb : b.toNat < 2 ^ 64 := b.isLt
  delta unpackSign
  simp only [BitVec.toNat_cast, BitVec.extractLsb_toNat, Nat.shiftRight_eq_div_pow]
  omega

theorem toNat_unpackExponent :
    (@unpackExponent Format.binary64 b).toNat = b.toNat / 2 ^ 52 % 2 ^ 11 := by
  simp [unpackExponent, BitVec.extractLsb_toNat, Nat.shiftRight_eq_div_pow]

theorem toNat_unpackMantissa : (@unpackMantissa Format.binary64 b).toNat = b.toNat % 2 ^ 52 := by
  simp [unpackMantissa, BitVec.extractLsb_toNat, Nat.shiftRight_eq_div_pow]

variable {b}

theorem toNat_packComponents (s : Sign) (e : BitVec 11) (m : BitVec 52) :
    (packComponents Format.binary64 s e m).toNat = (s == .negative).toNat * 2 ^ 63 +
      (e.toNat * 2 ^ 52 + m.toNat) := by
  have hs : s.toBitVec.toNat = (s == .negative).toNat := by cases s <;> rfl
  simp only [packComponents, BitVec.toNat_append]
  rw [← Nat.shiftLeft_add_eq_or_of_lt e.isLt, ← Nat.shiftLeft_add_eq_or_of_lt m.isLt,
    Nat.shiftLeft_eq, Nat.shiftLeft_eq, hs]
  omega

theorem toNat_unpackSign_eq :
    (Sign.ofBitVec (@unpackSign Format.binary64 b) == .negative).toNat = b.toNat / 2 ^ 63 := by
  have hs : ∀ s : BitVec 1, (Sign.ofBitVec s == .negative).toNat = s.toNat := by decide
  rw [hs, toNat_unpackSign]

/-- The three fields of a bit pattern make it up. -/
theorem packComponents_fields {e : BitVec 11} {m : BitVec 52}
    (he : @unpackExponent Format.binary64 b = e) (hm : @unpackMantissa Format.binary64 b = m) :
    packComponents Format.binary64 (Sign.ofBitVec (@unpackSign Format.binary64 b)) e m = b := by
  have hb : b.toNat < 2 ^ 64 := b.isLt
  subst he hm
  apply BitVec.eq_of_toNat_eq
  rw [toNat_packComponents, toNat_unpackSign_eq, toNat_unpackExponent, toNat_unpackMantissa]
  omega

theorem log2_subnormal {m : BitVec 52} (hm : m ≠ 0#52) :
    m.toNat.log2 + 1 ≠ Format.binary64.mantissaBits := by
  change m.toNat.log2 + 1 ≠ 53
  have hpos : m.toNat ≠ 0 := fun h => hm (BitVec.eq_of_toNat_eq h)
  have := (Nat.log2_lt hpos).mpr m.isLt
  omega

theorem toNat_one_append (m : BitVec 52) : (1#1 ++ m).toNat = 2 ^ 52 + m.toNat := by
  rw [BitVec.toNat_append, ← Nat.shiftLeft_add_eq_or_of_lt m.isLt]
  rfl

theorem log2_normal (m : BitVec 52) : (1#1 ++ m).toNat.log2 + 1 = Format.binary64.mantissaBits := by
  change (1#1 ++ m).toNat.log2 + 1 = 53
  have hm := m.isLt
  rw [toNat_one_append]
  have hlow := (Nat.le_log2 (n := 2 ^ 52 + m.toNat) (k := 52) (by omega)).mpr (by omega)
  have hhigh := (Nat.log2_lt (n := 2 ^ 52 + m.toNat) (k := 53) (by omega)).mpr (by omega)
  omega

/-- **Packing undoes unpacking** for the bit patterns of doubles. -/
theorem pack_unpack (hv : Format.binary64.Valid b) :
    pack Format.binary64 (unpack Format.binary64 b) = b := by
  have hbias : ((Format.binary64.exponentBias : Nat) : Int) = 1023 := rfl
  unfold unpack
  dsimp only
  by_cases hexp : @unpackExponent Format.binary64 b = -1#11
  · rw [if_pos hexp]
    by_cases hman : @unpackMantissa Format.binary64 b = 0#52
    · rw [if_pos hman]
      exact packComponents_fields hexp hman
    · rw [if_neg hman]
      exact (hv.eq_packedNaN hexp hman).symm
  · rw [if_neg hexp]
    have hlt : (@unpackExponent Format.binary64 b).toNat < 2048 :=
      (@unpackExponent Format.binary64 b).isLt
    have hne : (@unpackExponent Format.binary64 b).toNat ≠ 2047 :=
      fun h => hexp (BitVec.eq_of_toNat_eq h)
    by_cases hzero : @unpackExponent Format.binary64 b = 0#11
    · rw [if_pos hzero]
      by_cases hman : @unpackMantissa Format.binary64 b = 0#52
      · rw [dif_pos hman]
        exact packComponents_fields hzero hman
      · rw [dif_neg hman]
        -- a subnormal number: the exponent field is that of the least exponent, less one
        unfold pack
        dsimp only
        rw [if_neg, if_neg (log2_subnormal hman), BitVec.ofNat_toNat, BitVec.setWidth_eq]
        · exact packComponents_fields hzero rfl
        · rw [hzero, hbias]
          decide
    · rw [if_neg hzero]
      -- a normal number: the leading bit of the mantissa is not stored
      unfold pack
      dsimp only
      have hfield : ((@unpackExponent Format.binary64 b).toNat -
          ((Format.binary64.exponentBias : Int) + ((52 : Nat) : Int)) +
          Format.binary64.exponentBias + ((52 : Nat) : Int)).toNat =
          (@unpackExponent Format.binary64 b).toNat := by omega
      rw [hfield, if_neg (by omega), if_pos (log2_normal _), BitVec.ofNat_toNat, BitVec.setWidth_eq]
      refine packComponents_fields rfl (BitVec.eq_of_toNat_eq ?_)
      rw [BitVec.toNat_ofNat, toNat_one_append, Nat.add_mod_left]
      exact (Nat.mod_eq_of_lt (BitVec.isLt _)).symm

end Bits

theorem ofBits_toBits (x : Float) : Float.ofBits x.toBits = x := by
  obtain ⟨⟨bits, hv⟩⟩ := x
  have hpack := UInt64.eq_of_toBitVec_eq (pack_unpack hv)
  change Float.ofModel (Float.Model.ofBits bits) = _
  unfold Float.Model.ofBits Float.Model.pack
  congr 2

/-- The bit pattern of positive infinity. Larger ones are those of NaNs and negative numbers. -/
def infinityBits : Nat := 2047 * Nat.pow 2 52

theorem toBits_ofBits {b : UInt64} (h : b.toNat ≤ infinityBits) : (Float.ofBits b).toBits = b := by
  have hv : Float.Model.Format.binary64.Valid b.toBitVec := by
    refine ⟨fun hexp hman => absurd (BitVec.eq_of_toNat_eq ?_) hman⟩
    have hfield := toNat_unpackExponent b.toBitVec
    rw [hexp] at hfield
    rw [toNat_unpackMantissa]
    change 2047 = b.toNat / 2 ^ 52 % 2 ^ 11 at hfield
    change b.toNat ≤ 9218868437227405312 at h
    change b.toNat % 2 ^ 52 = 0
    omega
  exact UInt64.eq_of_toBitVec_eq (pack_unpack hv)

/-! ## Parts -/

/-- A mantissa and an exponent as doubles have them: as many binary digits as fit. -/
structure Canonical (m : Nat) (e : Int) : Prop where
  lt : m < 2 ^ 53
  least : -1074 ≤ e
  greatest : e ≤ 971
  normal : 2 ^ 52 ≤ m ∨ e = -1074

/-- The bits below the sign. A mantissa of 53 binary digits that is rounded up to the next power of
two carries into the exponent. -/
def magnitudeBits (m : Nat) (e : Int) : Nat :=
  if m < 2 ^ 52 then m else (e + 1074).toNat * 2 ^ 52 + m

theorem signBit_eq (x : Float) : signBit x = decide (2 ^ 63 ≤ x.toBits.toNat) := by
  have hlt : x.toBits.toNat < 2 ^ 64 := x.toBits.toNat_lt
  have hshift : (x.toBits >>> 63).toNat = x.toBits.toNat / 2 ^ 63 := by
    simp [UInt64.toNat_shiftRight, Nat.shiftRight_eq_div_pow]
  rw [signBit, Bool.beq_eq_decide_eq, decide_eq_decide, ← UInt64.toNat_inj, hshift]
  change _ = 1 ↔ _
  omega

/-- **The parts of a double make up its bits**, and only they do. -/
theorem parts?_iff {x : Float} {p : Parts} :
    parts? x = some p ↔ Canonical p.mantissa p.exponent ∧
      x.toBits.toNat = p.negative.toNat * 2 ^ 63 + magnitudeBits p.mantissa p.exponent := by
  obtain ⟨negative, m, e⟩ := p
  have hlt : x.toBits.toNat < 2 ^ 64 := x.toBits.toNat_lt
  unfold parts? magnitudeBits
  simp only [Nat.pow_eq, signBit_eq]
  constructor
  · intro h
    have hfinite : x.toBits.toNat / 2 ^ 52 % 2 ^ 11 ≠ 2047 := fun hall => by
      rw [if_pos hall] at h
      cases h
    rw [if_neg hfinite] at h
    have hsign : (decide (2 ^ 63 ≤ x.toBits.toNat)).toNat = x.toBits.toNat / 2 ^ 63 := by
      by_cases hneg : 2 ^ 63 ≤ x.toBits.toNat
      · rw [decide_eq_true hneg, Bool.toNat_true]
        omega
      · rw [decide_eq_false hneg, Bool.toNat_false]
        omega
    by_cases hzero : x.toBits.toNat / 2 ^ 52 % 2 ^ 11 = 0
    · rw [if_pos hzero] at h
      cases h
      rw [hsign, if_pos (Nat.mod_lt _ (by decide))]
      exact ⟨⟨by omega, by omega, by omega, by omega⟩, by omega⟩
    · rw [if_neg hzero] at h
      cases h
      rw [hsign, if_neg (by omega)]
      exact ⟨⟨by omega, by omega, by omega, by omega⟩, by omega⟩
  · rintro ⟨⟨hm, hlow, hhigh, hnormal⟩, hbits⟩
    have hbool := negative.toNat_le
    by_cases hsmall : m < 2 ^ 52
    · rw [if_pos hsmall] at hbits
      rw [if_neg (by omega), if_pos (by omega), hnormal.resolve_left (by omega)]
      cases negative <;> simp_all <;> omega
    · rw [if_neg hsmall] at hbits
      rw [if_neg (by omega), if_neg (by omega)]
      cases negative <;> simp_all <;> omega

theorem canonical_parts {x : Float} {p : Parts} (h : parts? x = some p) :
    Canonical p.mantissa p.exponent :=
  (parts?_iff.mp h).1

/-! ## Quotients and powers of two -/

theorem scaled_pos (num : Nat) {den : Nat} (hden : 0 < den) (e : Int) :
    0 < (scaled num den e).2 := by
  unfold scaled
  split
  · exact hden
  · exact Nat.mul_pos hden (Nat.pow_pos (by decide))

/-- Scaling multiplies the quotient by a power of two. -/
theorem scaled_ratio (num den : Nat) (e : Int) :
    ((scaled num den e).1 : ℚ) / (scaled num den e).2 = num / den * 2 ^ e := by
  unfold scaled
  split
  · next h =>
    have hpow : (2 : ℚ) ^ e = 2 ^ e.toNat := by
      rw [← zpow_natCast, Int.toNat_of_nonneg h]
    simp only [Nat.cast_mul, Nat.pow_eq, Nat.cast_pow, Nat.cast_ofNat, hpow]
    ring
  · next h =>
    have hpow : (2 : ℚ) ^ e = (2 ^ (-e).toNat)⁻¹ := by
      rw [← zpow_natCast, Int.toNat_of_nonneg (by omega), zpow_neg, inv_inv]
    simp only [Nat.cast_mul, Nat.pow_eq, Nat.cast_pow, Nat.cast_ofNat, hpow]
    field_simp

/-- The whole part of a scaled quotient, compared with a natural. -/
theorem le_scaled_div {num den : Nat} (hden : 0 < den) (e : Int) (k : Nat) :
    k ≤ (scaled num den (-e)).1 / (scaled num den (-e)).2 ↔ (k : ℚ) * 2 ^ e ≤ num / den := by
  have hpos := scaled_pos num hden (-e)
  have htwo : (0 : ℚ) < 2 ^ e := by positivity
  rw [Nat.le_div_iff_mul_le hpos, ← le_div_iff₀ htwo, div_eq_mul_inv (_ / _ : ℚ), ← zpow_neg,
    ← scaled_ratio, le_div_iff₀ (by exact_mod_cast hpos)]
  exact_mod_cast Iff.rfl

theorem log2_bounds {n : Nat} (hn : 0 < n) :
    (2 : ℚ) ^ (n.log2 : Int) ≤ n ∧ (n : ℚ) < 2 ^ ((n.log2 : Int) + 1) := by
  constructor
  · rw [zpow_natCast]
    exact_mod_cast Nat.log2_self_le hn.ne'
  · exact_mod_cast Nat.lt_log2_self

/-- The quotient of two naturals lies between powers of two that their binary digits give. -/
theorem ratio_bounds {num den : Nat} (hnum : 0 < num) (hden : 0 < den) :
    (2 : ℚ) ^ ((num.log2 : Int) - den.log2 - 1) < num / den ∧
      (num / den : ℚ) < 2 ^ ((num.log2 : Int) - den.log2 + 1) := by
  obtain ⟨hnlow, hnhigh⟩ := log2_bounds hnum
  obtain ⟨hdlow, hdhigh⟩ := log2_bounds hden
  have hpos : (0 : ℚ) < den := by exact_mod_cast hden
  constructor
  · rw [lt_div_iff₀ hpos]
    calc (2 : ℚ) ^ ((num.log2 : Int) - den.log2 - 1) * den
        < 2 ^ ((num.log2 : Int) - den.log2 - 1) * 2 ^ ((den.log2 : Int) + 1) := by gcongr
      _ = 2 ^ (num.log2 : Int) := by rw [← zpow_add₀ two_ne_zero]; congr 1; omega
      _ ≤ num := hnlow
  · rw [div_lt_iff₀ hpos]
    calc (num : ℚ) < 2 ^ ((num.log2 : Int) + 1) := hnhigh
      _ = 2 ^ ((num.log2 : Int) - den.log2 + 1) * 2 ^ (den.log2 : Int) := by
        rw [← zpow_add₀ two_ne_zero]; congr 1; omega
      _ ≤ 2 ^ ((num.log2 : Int) - den.log2 + 1) * den := by gcongr

/-- The exponent at which a quotient has 53 binary digits, unless that is below the least one. -/
theorem exponentFor_spec {num den : Nat} (hnum : 0 < num) (hden : 0 < den) :
    ∃ e : Int, exponentFor num den = max e (-1074) ∧
      (2 : ℚ) ^ (e + 52) ≤ num / den ∧ (num / den : ℚ) < 2 ^ (e + 53) := by
  obtain ⟨hlow, hhigh⟩ := ratio_bounds hnum hden
  obtain ⟨g, hg⟩ : ∃ g : Int, g = (num.log2 : Int) - den.log2 - 52 := ⟨_, rfl⟩
  rw [show (num.log2 : Int) - den.log2 - 1 = g - 1 + 52 by omega] at hlow
  rw [show (num.log2 : Int) - den.log2 + 1 = g + 53 by omega] at hhigh
  have hdigits : ∀ k : Nat, 2 ^ k ≤ (scaled num den (-g)).1 / (scaled num den (-g)).2 ↔
      (2 : ℚ) ^ (g + k) ≤ num / den := by
    intro k
    rw [le_scaled_div hden, Nat.cast_pow, Nat.cast_ofNat, ← zpow_natCast, ← zpow_add₀ two_ne_zero,
      add_comm]
  unfold exponentFor
  simp only [← hg, Nat.pow_eq, if_neg (mt (hdigits 53).mp (not_le.mpr hhigh))]
  by_cases hfull : 2 ^ 52 ≤ (scaled num den (-g)).1 / (scaled num den (-g)).2
  · exact ⟨g, by rw [if_neg (not_lt.mpr hfull)], (hdigits 52).mp hfull, hhigh⟩
  · refine ⟨g - 1, by rw [if_pos (not_le.mp hfull)], hlow.le, ?_⟩
    rw [show g - 1 + 53 = g + 52 by omega]
    exact not_le.mp (mt (hdigits 52).mpr hfull)

/-! ## Doubles that are not negative -/

/-- The doubles that are not negative, infinity among them. -/
def IsMagnitude (x : Float) : Prop := x.toBits.toNat ≤ infinityBits

theorem parts?_cases {x : Float} (hx : IsMagnitude x) : x = infinity ∨ ∃ p, parts? x = some p := by
  change x.toBits.toNat ≤ 9218868437227405312 at hx
  unfold parts?
  simp only [Nat.pow_eq]
  by_cases hall : x.toBits.toNat / 2 ^ 52 % 2 ^ 11 = 2047
  · have hbits : x.toBits = 0x7FF0000000000000 := by
      apply UInt64.toNat_inj.mp
      change _ = 9218868437227405312
      omega
    rw [← ofBits_toBits x, hbits]
    exact .inl rfl
  · rw [if_neg hall]
    split <;> exact .inr ⟨_, rfl⟩

theorem zero_eq_ofBits : (0 : Float) = Float.ofBits 0 := by decide +kernel

theorem isMagnitude_ofBits {b : UInt64} (hb : b.toNat ≤ infinityBits) :
    IsMagnitude (Float.ofBits b) := by
  rwa [IsMagnitude, toBits_ofBits hb]

theorem isMagnitude_infinity : IsMagnitude infinity :=
  isMagnitude_ofBits (by decide)

/-- Rounding gives doubles that are not negative. -/
theorem isMagnitude_nearest (num den : Nat) : IsMagnitude (nearest num den) := by
  unfold nearest
  split
  · rw [zero_eq_ofBits]
    exact isMagnitude_ofBits (by decide)
  · dsimp only
    generalize (if roundDiv _ _ < _ then _ else _) = bits
    split
    · exact isMagnitude_infinity
    · next h =>
      refine isMagnitude_ofBits ?_
      change ¬ infinityBits ≤ bits at h
      have hlt : infinityBits < UInt64.size := by decide
      rw [Nat.toUInt64_eq, UInt64.toNat_ofNat_of_lt' (by omega)]
      omega

end Pseudocode.Number
