/-
  ComponentFlow.Proofs.Order — the order of payload values. Values that are numbers compare as their ranks do, which
  say first how infinity, the finite values of each sign and zero lie to each other, and then the exponent and the
  mantissa (`Scalar.compare_rank`). So all laws of an order hold of them, and what is not a number is in no order.
-/
import ComponentFlow.Scalar.Basic
import Mathlib.Order.Basic

namespace ComponentFlow.Scalar

open Float.Model (UnpackedFloat)
open Std (OrientedCmp TransCmp)

variable {x y z : Float32}

/-- Where a number lies: its class, and the exponent and the mantissa, which count downwards below zero. -/
def rank : UnpackedFloat → Int × Int × Int
  | .infinity .positive => (2, 0, 0)
  | .finite .positive m e _ => (1, e, m)
  | .zero _ | .notANumber => (0, 0, 0)
  | .finite .negative m e _ => (-1, -e, -m)
  | .infinity .negative => (-2, 0, 0)

def compareRanks : Int × Int × Int → Int × Int × Int → Ordering :=
  compareLex (compareOn (·.1)) (compareLex (compareOn (·.2.1)) (compareOn (·.2.2)))

theorem compare_natCast (m n : Nat) : compare (m : Int) (n : Int) = compare m n := by
  have hless : (m : Int) < n ↔ m < n := Int.ofNat_lt
  have hsame : (m : Int) = n ↔ m = n := Int.ofNat_inj
  simp only [compare, compareOfLessAndEq, hless, hsame]

theorem compare_neg (i j : Int) : compare (-i) (-j) = (compare i j).swap := by
  have hless : -i < -j ↔ j < i := Int.neg_lt_neg_iff
  have hswap : (compare i j).swap = compare j i := OrientedCmp.eq_swap.symm
  have hsame : -i = -j ↔ j = i := by omega
  rw [hswap]
  simp only [compare, compareOfLessAndEq, hless, hsame]

/-- Values that are numbers compare as their ranks do. -/
theorem compare_rank {a b : UnpackedFloat} (ha : a.isNaN = false) (hb : b.isNaN = false) :
    a.compare b = some (compareRanks (rank a) (rank b)) := by
  cases a with
  | notANumber => cases ha
  | infinity s =>
    cases b with
    | notANumber => cases hb
    | zero _ => cases s <;> rfl
    | infinity s' | finite s' _ _ _ => cases s <;> cases s' <;> rfl
  | zero _ =>
    cases b with
    | notANumber => cases hb
    | zero _ => rfl
    | infinity s | finite s _ _ _ => cases s <;> rfl
  | finite s m e _ =>
    cases b with
    | notANumber => cases hb
    | zero _ => cases s <;> rfl
    | infinity s' => cases s' <;> cases s <;> rfl
    | finite s' n f _ =>
      -- Of one sign, the exponents decide first and then the mantissas.
      have hpositive : (compare e f).then (compare m n) =
          compareRanks (rank (.finite .positive m e ‹_›)) (rank (.finite .positive n f ‹_›)) := by
        show _ = (compare e f).then (compare (m : Int) n)
        rw [compare_natCast]
      have hnegative : ((compare e f).then (compare m n)).swap =
          compareRanks (rank (.finite .negative m e ‹_›)) (rank (.finite .negative n f ‹_›)) := by
        show _ = (compare (-e) (-f)).then (compare (-(m : Int)) (-n))
        rw [compare_neg, compare_neg, compare_natCast, Ordering.swap_then]
      cases s <;> cases s'
      · exact congrArg some hnegative
      · rfl
      · rfl
      · exact congrArg some hpositive

instance : TransCmp compareRanks := inferInstanceAs (TransCmp (compareLex _ _))

/-- What is not a number is not compared. -/
theorem compare_nan {a b : UnpackedFloat} (h : a.isNaN = true ∨ b.isNaN = true) : a.compare b = none := by
  rcases h with h | h
  · cases a <;> cases h
    rfl
  · cases b <;> cases h
    cases a <;> rfl

/-! ## Comparisons of payload values -/

def rankOf (x : Float32) : Int × Int × Int := rank x.toModel.unpack

theorem compare_cases (x y : Float32) :
    ((x.isNaN = false ∧ y.isNaN = false) ∧
      x.toModel.unpack.compare y.toModel.unpack = some (compareRanks (rankOf x) (rankOf y))) ∨
    (¬ (x.isNaN = false ∧ y.isNaN = false) ∧ x.toModel.unpack.compare y.toModel.unpack = none) := by
  by_cases hnumbers : x.isNaN = false ∧ y.isNaN = false
  · exact .inl ⟨hnumbers, compare_rank hnumbers.1 hnumbers.2⟩
  · refine .inr ⟨hnumbers, compare_nan ?_⟩
    rw [not_and_or, Bool.not_eq_false, Bool.not_eq_false] at hnumbers
    exact hnumbers

theorem lt_iff_compare : x < y ↔ x.toModel.unpack.compare y.toModel.unpack = some .lt :=
  decide_eq_true_iff.trans beq_iff_eq

theorem le_iff_compare : x ≤ y ↔ (x.toModel.unpack.compare y.toModel.unpack).any Ordering.isLE = true :=
  decide_eq_true_iff

theorem lt_iff : x < y ↔ (x.isNaN = false ∧ y.isNaN = false) ∧ compareRanks (rankOf x) (rankOf y) = .lt := by
  rw [lt_iff_compare]
  obtain ⟨hnumbers, hcompare⟩ | ⟨hnan, hcompare⟩ := compare_cases x y
  · rw [hcompare, Option.some.injEq, and_iff_right hnumbers]
  · rw [hcompare]
    exact ⟨nofun, fun h => absurd h.1 hnan⟩

theorem le_iff : x ≤ y ↔
    (x.isNaN = false ∧ y.isNaN = false) ∧ (compareRanks (rankOf x) (rankOf y)).isLE = true := by
  rw [le_iff_compare]
  obtain ⟨hnumbers, hcompare⟩ | ⟨hnan, hcompare⟩ := compare_cases x y
  · rw [hcompare, Option.any_some, and_iff_right hnumbers]
  · rw [hcompare, Option.any_none]
    exact ⟨nofun, fun h => absurd h.1 hnan⟩

/-- Only numbers have an order. -/
theorem numbers_of_le (h : x ≤ y) : x.isNaN = false ∧ y.isNaN = false := (le_iff.mp h).1

theorem le_of_not_gt (hx : x.isNaN = false) (hy : y.isNaN = false) (h : ¬ x > y) : x ≤ y := by
  refine le_iff.mpr ⟨⟨hx, hy⟩, ?_⟩
  by_contra hgreater
  exact h (lt_iff.mpr ⟨⟨hy, hx⟩, OrientedCmp.lt_of_not_isLE hgreater⟩)

theorem not_lt_of_le (h : x ≤ y) : ¬ y < x := by
  intro hlt
  exact OrientedCmp.not_isLE_of_lt (lt_iff.mp hlt).2 (le_iff.mp h).2

theorem le_of_lt (h : x < y) : x ≤ y := by
  obtain ⟨hnumbers, hlt⟩ := lt_iff.mp h
  exact le_iff.mpr ⟨hnumbers, by rw [hlt]; rfl⟩

theorem le_refl (hx : x.isNaN = false) : x ≤ x := le_iff.mpr ⟨⟨hx, hx⟩, Std.ReflCmp.isLE_rfl⟩

theorem lt_of_le_of_lt (h : x ≤ y) (h' : y < z) : x < z := by
  obtain ⟨⟨hx, -⟩, hle⟩ := le_iff.mp h
  obtain ⟨⟨-, hz⟩, hlt⟩ := lt_iff.mp h'
  exact lt_iff.mpr ⟨⟨hx, hz⟩, TransCmp.lt_of_isLE_of_lt hle hlt⟩

end ComponentFlow.Scalar
