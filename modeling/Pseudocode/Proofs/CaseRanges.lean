import Pseudocode.Proofs.Steps
import Pseudocode.Proofs.Unpacking

/-!
# Ranges of numbers

A label `a TO b` of CASE compares exact values. The operators `>=` and `<=` do not: they turn whole
numbers into doubles first, which fails past the largest double and rounds beyond `2 ^ 53`. Rounding
keeps the order, so the operators err on one side only: where they differ from the label, they take
two numbers for equal that are not.

Results:
* `Numeric.compare?_eq`: the order of two numbers is that of their exact values.
* `Numeric.Doubled.le_iff`: as doubles, two numbers are in order if they are or if they count as
  equal.
* `range_labels_compare_exactly`: a label `a TO b` beside the expression `(v >= a) AND (v <= b)`.
-/

namespace Pseudocode

open Eval Number

namespace Numeric

variable {a b : Numeric} {p q : ℚ}

/-! ## Exact comparison -/

theorem compareInt_eq (n : Int) {x : Float} (hx : Number.worth? x = some q) :
    compareInt n x = some (compare (n : ℚ) q) := by
  obtain ⟨r, hr, rfl⟩ := Option.map_eq_some_iff.mp hx
  have hpos : (0 : ℚ) < r.ratio.2 := by exact_mod_cast scaled_pos r.mantissa Nat.one_pos r.exponent
  have hmono : StrictMono fun z : ℚ => z * r.ratio.2 := fun z z' h => by dsimp only; gcongr
  rw [compareInt, hr, r.worth_eq_ratio]
  dsimp only
  rw [← cmp_eq_compare (n : ℚ), ← hmono.cmp_map_eq, div_mul_cancel₀ _ hpos.ne', ← cmp_eq_compare,
    ← Int.cast_strictMono (R := ℚ).cmp_map_eq, Int.cast_mul, Int.cast_natCast]

/-- **The order of two numbers is that of their exact values.** -/
theorem compare?_eq (ha : a.worth? = some p) (hb : b.worth? = some q) :
    a.compare? b = some (compare p q) := by
  cases a with
  | int m =>
    obtain rfl := Option.some.inj ha
    cases b with
    | int n =>
      obtain rfl := Option.some.inj hb
      rw [compare?, ← cmp_eq_compare, ← cmp_eq_compare, Int.cast_strictMono (R := ℚ).cmp_map_eq]
    | real y => exact compareInt_eq m hb
  | real x =>
    cases b with
    | int n =>
      obtain rfl := Option.some.inj hb
      rw [compare?, compareInt_eq n ha, Option.map_some, ← cmp_eq_compare,
        ← cmp_eq_compare, cmp_swap]
    | real y =>
      rw [compare?, compareFloat]
      rcases lt_trichotomy p q with h | rfl | h
      · rw [if_pos ((lt_iff ha hb).mpr h), compare_lt_iff_lt.mpr h]
      · rw [if_neg (mt (lt_iff ha hb).mp (lt_irrefl p)),
          if_neg (mt (lt_iff hb ha).mp (lt_irrefl p)),
          if_pos ((beq_iff ha hb).mpr rfl), compare_eq_iff_eq.mpr rfl]
      · rw [if_neg (mt (lt_iff ha hb).mp h.not_gt), if_pos ((lt_iff hb ha).mpr h),
          compare_gt_iff_gt.mpr h]

theorem le_eq (ha : a.worth? = some p) (hb : b.worth? = some q) : a.le b = decide (p ≤ q) := by
  rw [le, compare?_eq ha hb]
  rcases lt_trichotomy p q with h | rfl | h
  · rw [compare_lt_iff_lt.mpr h, decide_eq_true h.le]
  · rw [compare_eq_iff_eq.mpr rfl, decide_eq_true le_rfl]
  · rw [compare_gt_iff_gt.mpr h, decide_eq_false h.not_ge]

/-! ## Comparison as doubles -/

/-- Whole numbers past the largest double. -/
def IsHuge : Numeric → Prop
  | int n => overflow ≤ |(n : ℚ)|
  | real _ => False

/-- Whole numbers with so few digits that they are doubles. -/
def IsSmall : Numeric → Prop
  | int n => |n| ≤ 2 ^ 53
  | real _ => True

theorem toReal_huge (h : a.IsHuge) : a.toReal = fail .numberTooLarge := by
  cases a with
  | real x => exact h.elim
  | int n =>
    rw [toReal, if_neg]
    simp [isFinite, Option.map_eq_none_iff.mp ((worth?_ofInt n).1 h)]

/-- A number, its exact value, the double it is turned into, and the value of that. -/
structure Doubled (a : Numeric) (p : ℚ) (x : Float) (y : ℚ) : Prop where
  exact : a.worth? = some p
  toReal : a.toReal = .ok x
  worth : Number.worth? x = some y
  nearest : IsNearest p y

/-- A number that is not past the largest double is turned into the nearest one. -/
theorem exists_doubled (h : ¬ a.IsHuge) (ha : a.worth? = some p) : ∃ x y, Doubled a p x y := by
  cases a with
  | real x => exact ⟨x, p, ha, rfl, ha, .self (fits_of_worth? ha)⟩
  | int n =>
    obtain rfl := Option.some.inj ha
    obtain ⟨y, hy, hnearest⟩ := (worth?_ofInt n).2 (not_le.mp h)
    obtain ⟨r, hr, -⟩ := Option.map_eq_some_iff.mp hy
    refine ⟨ofInt n, y, ha, ?_, hy, hnearest⟩
    rw [Numeric.toReal, if_pos]
    simp [isFinite, hr]

/-- Small numbers are doubles. -/
theorem exists_doubled_self (h : a.IsSmall) (ha : a.worth? = some p) : ∃ x, Doubled a p x p := by
  have hfits : Fits p ∧ ¬ a.IsHuge := by
    cases a with
    | real _ => exact ⟨fits_of_worth? ha, id⟩
    | int n =>
      obtain rfl := Option.some.inj ha
      have hle : |(n : ℚ)| ≤ 2 ^ 53 := by exact_mod_cast (h : |n| ≤ 2 ^ 53)
      exact ⟨fits_intCast h, not_le.mpr (hle.trans_lt (lt_trans (by norm_num) lt_overflow))⟩
  obtain ⟨x, y, hx⟩ := exists_doubled hfits.2 ha
  exact ⟨x, hx.nearest.eq hfits.1 ▸ hx⟩

theorem ordered_toValue (f : Float → Float → Bool) (g : String → String → Bool) (a b : Numeric) :
    Value.ordered f g a.toValue b.toValue = do return .bool (f (← a.toReal) (← b.toReal)) := by
  cases a <;> cases b <;> rfl

theorem equals_of_toReal {x y : Float} (hx : a.toReal = .ok x) (hy : b.toReal = .ok y) :
    a.toValue.equals b.toValue = .ok (x == y) := by
  have hequals : a.toValue.equals b.toValue = do return (← a.toReal) == (← b.toReal) := by
    cases a <;> cases b <;> rfl
  rw [hequals, hx, hy]
  rfl

namespace Doubled

variable {x x' : Float} {y y' : ℚ}

theorem eq_of_eq (ha : Doubled a p x y) (hb : Doubled b p x' y') : y = y' := by
  by_cases hfits : Fits p
  · rw [ha.nearest.eq hfits, hb.nearest.eq hfits]
  · -- neither number is a real, so they are the same whole number
    cases a with
    | real _ => exact absurd (fits_of_worth? ha.exact) hfits
    | int m =>
      cases b with
      | real _ => exact absurd (fits_of_worth? hb.exact) hfits
      | int n =>
        obtain rfl : m = n := Int.cast_injective (Option.some.inj (ha.exact.trans hb.exact.symm))
        obtain rfl := Except.ok.inj (ha.toReal.symm.trans hb.toReal)
        exact Option.some.inj (ha.worth.symm.trans hb.worth)

/-- **As doubles, numbers are in order if they are or if they have become equal.** -/
theorem le_iff (ha : Doubled a p x y) (hb : Doubled b q x' y') : y ≤ y' ↔ p ≤ q ∨ y = y' := by
  constructor
  · intro h
    rcases le_or_gt p q with hle | hlt
    · exact .inl hle
    · exact .inr (le_antisymm h (hb.nearest.mono ha.nearest hlt))
  · rintro (h | h)
    · rcases h.lt_or_eq with hlt | rfl
      · exact ha.nearest.mono hb.nearest hlt
      · exact (ha.eq_of_eq hb).le
    · exact h.le

theorem equals_iff (ha : Doubled a p x y) (hb : Doubled b q x' y') :
    a.toValue.equals b.toValue = .ok true ↔ y = y' := by
  rw [equals_of_toReal ha.toReal hb.toReal, Except.ok.injEq, beq_iff ha.worth hb.worth]

theorem ordered_eq (ha : Doubled a p x y) (hb : Doubled b q x' y') (f : Float → Float → Bool)
    (g : String → String → Bool) :
    Value.ordered f g a.toValue b.toValue = .ok (.bool (f x x')) := by
  rw [Numeric.ordered_toValue, ha.toReal, hb.toReal]
  rfl

end Doubled

/-- A comparison fails if one of the numbers is past the largest double. -/
theorem ordered_huge (f : Float → Float → Bool) (g : String → String → Bool)
    (ha : a.worth? = some p) (h : a.IsHuge ∨ b.IsHuge) :
    Value.ordered f g a.toValue b.toValue = fail .numberTooLarge := by
  rw [ordered_toValue]
  by_cases hhuge : a.IsHuge
  · rw [toReal_huge hhuge]
    rfl
  · obtain ⟨x, y, hx⟩ := exists_doubled hhuge ha
    rw [hx.toReal, toReal_huge (h.resolve_left hhuge)]
    rfl

end Numeric

/-! ## Labels and comparisons -/

/-- The expression that is TRUE if the first of three numbers lies between the others. -/
def Expr.within (line : Int) (v a b : Expr) : Expr :=
  .binary line (.binary line v .ge a) .and (.binary line v .le b)

section Ranges

variable {n : Nat} {scope : Scope} {m : Machine}

theorem evaluate_binary {l r : Expr} {x y : Value} (line : Int) (op : BinaryOp)
    (hl : evaluate n scope l m = .ok x m) (hr : evaluate n scope r m = .ok y m) :
    evaluate (n + 1) scope (.binary line l op r) m = attempt (op.apply x y) m := by
  rw [evaluate, evaluateForm]
  exact (bind_ok hl).trans (bind_ok hr)

variable {ev ea eb : Expr} {v a b : Numeric} {p q r : ℚ} (line : Int)
  (hv : evaluate n scope ev m = .ok v.toValue m) (ha : evaluate n scope ea m = .ok a.toValue m)
  (hb : evaluate n scope eb m = .ok b.toValue m)
include hv ha hb

theorem evaluate_within {x y z : Float} {p' q' r' : ℚ} (hx : v.Doubled p x p')
    (hy : a.Doubled q y q') (hz : b.Doubled r z r') :
    evaluate (n + 2) scope (.within line ev ea eb) m =
      .ok (.bool (decide (q' ≤ p') && decide (p' ≤ r'))) m := by
  have hge := evaluate_binary line .ge hv ha
  have hle := evaluate_binary line .le hv hb
  rw [BinaryOp.apply, hx.ordered_eq hy] at hge
  rw [BinaryOp.apply, hx.ordered_eq hz] at hle
  rw [Expr.within, evaluate_binary line .and hge hle,
    decide_eq_decide.mpr (le_iff hy.worth hx.worth),
    decide_eq_decide.mpr (le_iff hx.worth hz.worth)]
  rfl

theorem evaluate_within_huge (hp : v.worth? = some p) (hq : a.worth? = some q)
    (h : v.IsHuge ∨ a.IsHuge ∨ b.IsHuge) :
    evaluate (n + 2) scope (.within line ev ea eb) m = .error (.fault .numberTooLarge 0) m := by
  have hge := evaluate_binary line .ge hv ha
  have hle := evaluate_binary line .le hv hb
  rw [BinaryOp.apply] at hge
  rw [BinaryOp.apply] at hle
  rw [Expr.within, evaluate, evaluateForm]
  by_cases hfirst : v.IsHuge ∨ a.IsHuge
  · rw [Numeric.ordered_huge _ _ hp hfirst] at hge
    exact bind_eq_error.mpr (.inl hge)
  · obtain ⟨x, p', hx⟩ := Numeric.exists_doubled (fun h => hfirst (.inl h)) hp
    obtain ⟨y, q', hy⟩ := Numeric.exists_doubled (fun h => hfirst (.inr h)) hq
    rw [hx.ordered_eq hy] at hge
    rw [Numeric.ordered_huge _ _ hp
      (h.imp_right fun h => h.resolve_left fun h => hfirst (.inr h))] at hle
    exact (bind_ok hge).trans (bind_eq_error.mpr (.inl hle))

/-- **Labels compare exactly.** A label `a TO b` covers the numbers between the exact values of `a`
and `b`, whatever their size. The expression `(v >= a) AND (v <= b)` fails if one of the three is a
whole number past the largest double, and otherwise takes two numbers to be in order also if they
count as equal, which they do if they are rounded to the same double. Up to `2 ^ 53` nothing is
rounded, and the two agree. -/
theorem range_labels_compare_exactly (hp : v.worth? = some p) (hq : a.worth? = some q)
    (hr : b.worth? = some r) :
    labelCovers (evaluate n) scope v.toValue (.range line ea eb) m =
      .ok (decide (q ≤ p ∧ p ≤ r)) m ∧
      (v.IsHuge ∨ a.IsHuge ∨ b.IsHuge →
        evaluate (n + 2) scope (.within line ev ea eb) m = .error (.fault .numberTooLarge 0) m) ∧
      (¬ (v.IsHuge ∨ a.IsHuge ∨ b.IsHuge) → ∃ t,
        evaluate (n + 2) scope (.within line ev ea eb) m = .ok (.bool t) m ∧
          (t = true ↔ (q ≤ p ∨ a.toValue.equals v.toValue = .ok true) ∧
            (p ≤ r ∨ v.toValue.equals b.toValue = .ok true))) ∧
      (v.IsSmall → a.IsSmall → b.IsSmall →
        evaluate (n + 2) scope (.within line ev ea eb) m =
          .ok (.bool (decide (q ≤ p ∧ p ≤ r))) m) := by
  refine ⟨?_, evaluate_within_huge line hv ha hb hp hq, fun h => ?_, fun hsv hsa hsb => ?_⟩
  · refine (bind_ok ha).trans ((bind_ok hb).trans ?_)
    simp only [Numeric.numeric?_toValue, Numeric.le_eq hq hp, Numeric.le_eq hp hr, Bool.decide_and]
    rfl
  · obtain ⟨x, p', hx⟩ := Numeric.exists_doubled (fun hhuge => h (.inl hhuge)) hp
    obtain ⟨y, q', hy⟩ := Numeric.exists_doubled (fun hhuge => h (.inr (.inl hhuge))) hq
    obtain ⟨z, r', hz⟩ := Numeric.exists_doubled (fun hhuge => h (.inr (.inr hhuge))) hr
    refine ⟨_, evaluate_within line hv ha hb hx hy hz, ?_⟩
    rw [Bool.and_eq_true, decide_eq_true_iff, decide_eq_true_iff, hy.le_iff hx, hx.le_iff hz,
      hy.equals_iff hx, hx.equals_iff hz]
  · obtain ⟨x, hx⟩ := Numeric.exists_doubled_self hsv hp
    obtain ⟨y, hy⟩ := Numeric.exists_doubled_self hsa hq
    obtain ⟨z, hz⟩ := Numeric.exists_doubled_self hsb hr
    rw [evaluate_within line hv ha hb hx hy hz, Bool.decide_and]

end Ranges

/-- A range from a real to a whole number, and the whole number after it: they are rounded to the
same double, so the comparisons take it to be in the range. -/
theorem number_after_a_range :
    let ev := Expr.literal 1 (.int 9007199254740993)
    let ea := Expr.literal 1 (.real 0.5)
    let eb := Expr.literal 1 (.int 9007199254740992)
    (Numeric.real 0.5).worth? = some (1 / 2) ∧
      labelCovers (evaluate 1) .global (.int 9007199254740993) (.range 1 ea eb) {} = .ok false {} ∧
      evaluate 3 .global (.within 1 ev ea eb) {} = .ok (.bool true) {} := by
  intro ev ea eb
  have hparts : parts? 0.5 = some ⟨false, 4503599627370496, -53⟩ := by decide +kernel
  have hworth : (Numeric.real 0.5).worth? = some (1 / 2) := by
    rw [Numeric.worth?, hparts]
    norm_num [Parts.worth, zpow_neg]
  obtain ⟨hlabel, -, hwithin, -⟩ :=
    range_labels_compare_exactly (n := 1) (v := .int 9007199254740993)
    (a := .real 0.5) (b := .int 9007199254740992) (m := {}) 1 (rfl : evaluate 1 .global ev {} = _)
    (rfl : evaluate 1 .global ea {} = _) (rfl : evaluate 1 .global eb {} = _) rfl hworth rfl
  have hlarge : ∀ k : ℚ, |k| ≤ 2 ^ 64 → ¬ overflow ≤ |k| :=
    fun k hk => not_le.mpr (hk.trans_lt lt_overflow)
  obtain ⟨t, ht, hiff⟩ := hwithin (by
    rintro (h | h | h)
    · exact hlarge _ (by norm_num) h
    · exact h
    · exact hlarge _ (by norm_num) h)
  refine ⟨hworth, ?_, ?_⟩
  · rw [decide_eq_false (by norm_num)] at hlabel
    exact hlabel
  · rw [hiff.mpr ⟨.inl (by norm_num), .inr rfl⟩] at ht
    exact ht

/-- Labels and comparisons differ on whole numbers that are rounded to the same double. -/
theorem comparisons_take_numbers_for_equal :
    labelCovers (evaluate 1) .global (.int 9007199254740992)
        (.range 1 (.literal 1 (.int 9007199254740993)) (.literal 1 (.int 9007199254740993)))
          {} = .ok false {} ∧
      evaluate 3 .global
        (.within 1 (.literal 1 (.int 9007199254740992)) (.literal 1 (.int 9007199254740993))
        (.literal 1 (.int 9007199254740993))) {} = .ok (.bool true) {} :=
  ⟨rfl, rfl⟩

end Pseudocode
