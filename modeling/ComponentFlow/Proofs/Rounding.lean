/-
  ComponentFlow.Proofs.Rounding — integers that are too large for the mantissa of a payload value. Becoming a payload
  value rounds an integer to 24 bits, to nearest and ties to even, which is what narrowing a double does to its fraction
  (`Scalar.rounded_shiftRight`). The result is an integer again, so no conversion back and no dropping of
  fractions changes it any further. Not every integer of an integer tensor is kept (`Tensor.odd_not_read_back`); which
  ones are is `Tensor.integers_read_back`.

  - `Scalar.nearest`: the nearest integer that there is room for, and when it is the integer itself.
  - `Scalar.ofNat_integral`: a natural number becomes the integral number next to it.
-/
import ComponentFlow.Proofs.Whole
import ComponentFlow.Scalar.Width
import ComponentFlow.Tensor.Basic

namespace ComponentFlow.Scalar

open Float.Model (Format UnpackedFloat totalExponent)
open Float.Model.UnpackedFloat

variable {x : Float32} {s : Sign} {m n k : Nat} {e : Int} {u : UnpackedFloat}

/-! ## Shifting -/

/-- Behind `k` shifts stand the quotient, whether the remainder reaches one half, and whether something else is left
    of it. -/
theorem shiftRight_exact (n k : Nat) : ExtendedMantissa.ofMantissaAndAccuracy n .exact >>> k =
    ⟨n / 2 ^ k, decide (2 ^ k ≤ 2 * (n % 2 ^ k)), decide (2 * (n % 2 ^ k) % 2 ^ k ≠ 0)⟩ := by
  show k.repeat ExtendedMantissa.shiftRightOne _ = _
  induction k with
  | zero => simp [Nat.repeat, Nat.mod_one, ExtendedMantissa.ofMantissaAndAccuracy]
  | succ k ih =>
    have hrest : n % 2 ^ k < 2 ^ k := Nat.mod_lt _ (Nat.two_pow_pos k)
    have hsplit : n % 2 ^ (k + 1) = n % 2 ^ k + 2 ^ k * (n / 2 ^ k % 2) := Nat.mod_pow_succ
    have hmantissa : n / 2 ^ k / 2 = n / 2 ^ (k + 1) := by rw [Nat.div_div_eq_div_mul, Nat.pow_succ]
    have hround : (n / 2 ^ k % 2 != 0) = decide (2 ^ (k + 1) ≤ 2 * (n % 2 ^ (k + 1))) := by
      rw [hsplit, Nat.pow_succ']
      rcases Nat.mod_two_eq_zero_or_one (n / 2 ^ k) with hbit | hbit
      · simp [hbit, hrest]
      · simp [hbit]
    have hsticky : (decide (2 ^ k ≤ 2 * (n % 2 ^ k)) || decide (2 * (n % 2 ^ k) % 2 ^ k ≠ 0)) =
        decide (2 * (n % 2 ^ (k + 1)) % 2 ^ (k + 1) ≠ 0) := by
      rw [hsplit, Nat.pow_succ', Nat.mul_mod_mul_left, Nat.add_mul_mod_self_left, Nat.mod_eq_of_lt hrest,
        ← Bool.decide_or, decide_eq_decide]
      by_cases hhalf : 2 ^ k ≤ 2 * (n % 2 ^ k)
      · have := Nat.two_pow_pos k
        simp only [hhalf, true_or, true_iff]
        omega
      · rw [Nat.mod_eq_of_lt (Nat.lt_of_not_le hhalf)]
        simp [hhalf]
    rw [Nat.repeat, ih, ExtendedMantissa.shiftRightOne, hmantissa, hround, hsticky]

/-- Rounding what was shifted out is rounding the quotient. -/
theorem rounded_shiftRight (n k : Nat) :
    (ExtendedMantissa.ofMantissaAndAccuracy n .exact >>> k).roundedMantissa = roundShift n k := by
  have hrest : n % 2 ^ k < 2 ^ k := Nat.mod_lt _ (Nat.two_pow_pos k)
  rw [shiftRight_exact]
  simp only [roundShift, Nat.one_shiftLeft]
  by_cases hhalf : 2 ^ k ≤ 2 * (n % 2 ^ k)
  · have hmore : 2 * (n % 2 ^ k) % 2 ^ k = 2 * (n % 2 ^ k) - 2 ^ k := by
      rw [Nat.mod_eq_sub_mod hhalf, Nat.mod_eq_of_lt (by omega)]
    by_cases htie : 2 * (n % 2 ^ k) = 2 ^ k
    · have heven : n / 2 ^ k + n / 2 ^ k % 2 = if n / 2 ^ k % 2 = 1 then n / 2 ^ k + 1 else n / 2 ^ k := by
        split <;> omega
      simpa [htie, ExtendedMantissa.roundedMantissa, ExtendedMantissa.accuracy, Accuracy.roundToNearestEven] using heven
    · have hgt : 2 ^ k < 2 * (n % 2 ^ k) := by omega
      have hrest' : 2 * (n % 2 ^ k) - 2 ^ k ≠ 0 := by omega
      simp [hhalf, hmore, hgt, hrest', ExtendedMantissa.roundedMantissa, ExtendedMantissa.accuracy,
        Accuracy.roundToNearestEven]
  · have hdown : ∀ sticky, (ExtendedMantissa.mk (n / 2 ^ k) false sticky).roundedMantissa = n / 2 ^ k := by
      intro sticky
      cases sticky <;> rfl
    have hless : ¬ 2 * (n % 2 ^ k) > 2 ^ k := by omega
    have hne : 2 * (n % 2 ^ k) ≠ 2 ^ k := by omega
    simp [hhalf, hdown, hless, hne]

theorem roundShift_bounds (n k : Nat) : n / 2 ^ k ≤ roundShift n k ∧ roundShift n k ≤ n / 2 ^ k + 1 := by
  simp only [roundShift, Nat.one_shiftLeft]
  split <;> omega

/-- What has no remainder is not rounded. -/
theorem roundShift_of_dvd (h : 2 ^ k ∣ n) : roundShift n k = n / 2 ^ k := by
  have hrest : n % 2 ^ k = 0 := Nat.mod_eq_zero_of_dvd h
  have hpos := Nat.two_pow_pos k
  simp [roundShift, Nat.one_shiftLeft, hrest, Nat.ne_of_lt hpos]

/-! ## The nearest integer -/

/-- How many bits of an integer the mantissa has no room for. -/
def excess (n : Nat) : Nat := n.log2 - 23

/-- The nearest integer whose bits the mantissa has room for, of two the one with the even mantissa. -/
def nearest (n : Nat) : Nat := roundShift n (excess n) * 2 ^ excess n

theorem excess_eq_zero (hn : n < 2 ^ 24) : excess n = 0 := Nat.sub_eq_zero_of_le (log2_le hn)

theorem nearest_small (hn : n < 2 ^ 24) : nearest n = n := by
  rw [nearest, excess_eq_zero hn, roundShift_of_dvd (Nat.one_dvd n)]
  simp

/-- Without its excess bits an integer fills the mantissa. -/
theorem quotient_bounds (hn : 2 ^ 23 ≤ n) : 2 ^ 23 ≤ n / 2 ^ excess n ∧ n / 2 ^ excess n < 2 ^ 24 := by
  have hne : n ≠ 0 := Nat.ne_of_gt (Nat.lt_of_lt_of_le (by decide) hn)
  have hlog : 23 ≤ n.log2 := (Nat.le_log2 hne).mpr hn
  obtain ⟨hlow, hhigh⟩ := (Nat.log2_eq_iff hne).mp rfl
  have hfill : 23 + excess n = n.log2 := Nat.add_sub_cancel' hlog
  rw [← hfill] at hlow hhigh
  constructor
  · rw [Nat.le_div_iff_mul_le (Nat.two_pow_pos _), ← Nat.pow_add]
    exact hlow
  · rw [Nat.div_lt_iff_lt_mul (Nat.two_pow_pos _), ← Nat.pow_add]
    rwa [Nat.add_right_comm] at hhigh

theorem roundShift_excess (hn : 2 ^ 23 ≤ n) :
    2 ^ 23 ≤ roundShift n (excess n) ∧ roundShift n (excess n) ≤ 2 ^ 24 := by
  obtain ⟨hlow, hhigh⟩ := quotient_bounds hn
  obtain ⟨hdown, hup⟩ := roundShift_bounds n (excess n)
  omega

/-- Rounding moves by no more than half of the last place that the mantissa has room for. -/
theorem nearest_close (n : Nat) : 2 * nearest n ≤ 2 * n + 2 ^ excess n ∧ 2 * n ≤ 2 * nearest n + 2 ^ excess n := by
  have hsplit : 2 ^ excess n * (n / 2 ^ excess n) + n % 2 ^ excess n = n := Nat.div_add_mod n _
  have hrest : n % 2 ^ excess n < 2 ^ excess n := Nat.mod_lt _ (Nat.two_pow_pos _)
  rw [Nat.mul_comm] at hsplit
  simp only [nearest, roundShift, Nat.one_shiftLeft]
  split
  · next hup =>
    have hhalf : 2 ^ excess n ≤ 2 * (n % 2 ^ excess n) := by
      simp only [Bool.or_eq_true, Bool.and_eq_true, decide_eq_true_eq, beq_iff_eq] at hup
      omega
    have hnext : (n / 2 ^ excess n + 1) * 2 ^ excess n = n / 2 ^ excess n * 2 ^ excess n + 2 ^ excess n :=
      Nat.succ_mul _ _
    omega
  · next hdown =>
    have hhalf : 2 * (n % 2 ^ excess n) ≤ 2 ^ excess n := by
      simp only [Bool.or_eq_true, Bool.and_eq_true, decide_eq_true_eq, beq_iff_eq, not_or] at hdown
      omega
    omega

/-- An integer is its nearest one if 24 bits and a power of two make it up. -/
theorem nearest_eq_self : nearest n = n ↔ ∃ m k : Nat, m < 2 ^ 24 ∧ n = m * 2 ^ k := by
  constructor
  · intro h
    by_cases hn : n < 2 ^ 23
    · exact ⟨n, 0, Nat.lt_trans hn (by decide), (Nat.mul_one n).symm⟩
    · obtain ⟨-, hhigh⟩ := roundShift_excess (Nat.le_of_not_lt hn)
      rcases Nat.lt_or_eq_of_le hhigh with hlt | hfull
      · exact ⟨_, excess n, hlt, h.symm⟩
      · refine ⟨2 ^ 23, excess n + 1, by decide, ?_⟩
        calc n
          _ = nearest n := h.symm
          _ = 2 ^ 23 * 2 * 2 ^ excess n := congrArg (· * 2 ^ excess n) hfull
          _ = 2 ^ 23 * 2 ^ (excess n + 1) := by rw [Nat.mul_assoc, ← Nat.pow_succ']
  · rintro ⟨m, k, hm, rfl⟩
    rcases Nat.eq_zero_or_pos m with rfl | hpos
    · rw [Nat.zero_mul]
      exact nearest_small (by decide)
    · have hlog : (m * 2 ^ k).log2 < 24 + k := by
        rw [Nat.log2_lt (Nat.ne_of_gt (Nat.mul_pos hpos (Nat.two_pow_pos k))), Nat.pow_add]
        exact Nat.mul_lt_mul_of_pos_right hm (Nat.two_pow_pos k)
      have hexcess : excess (m * 2 ^ k) ≤ k := by
        unfold excess
        omega
      have hdvd : 2 ^ excess (m * 2 ^ k) ∣ m * 2 ^ k := Nat.dvd_mul_left_of_dvd (Nat.pow_dvd_pow 2 hexcess) m
      rw [nearest, roundShift_of_dvd hdvd, Nat.div_mul_cancel hdvd]

/-! ## Rounding a number -/

theorem shiftToTargetExponent_exact {j : Nat} (h : Format.binary32.targetExponent (totalExponent m e) = e + j) :
    shiftToTargetExponent .binary32 m e .exact = (ExtendedMantissa.ofMantissaAndAccuracy m .exact >>> j, e + j) := by
  have hshift : (e + j - e : Int).toNat = j := by omega
  rw [shiftToTargetExponent, shiftToExponent, h, hshift]

/-- A mantissa fits, or one place less of it does. -/
theorem carry (hlow : 2 ^ 23 ≤ m) (hhigh : m ≤ 2 ^ 24) (k : Nat) :
    ∃ j : Nat, Format.binary32.targetExponent (totalExponent m k) = k + j ∧ j ≤ 1 ∧
      2 ^ 23 ≤ m / 2 ^ j ∧ m / 2 ^ j < 2 ^ 24 ∧ m / 2 ^ j * 2 ^ j = m := by
  rcases Nat.lt_or_eq_of_le hhigh with hlt | rfl
  · have hlog : m.log2 = 23 :=
      (Nat.log2_eq_iff (Nat.ne_of_gt (Nat.lt_of_lt_of_le (by decide) hlow))).mpr ⟨hlow, hlt⟩
    refine ⟨0, ?_, by decide, by omega, by omega, by omega⟩
    show max ((m.log2 + 1 + k : Int) - 24) (-149) = k + (0 : Nat)
    omega
  · refine ⟨1, ?_, by decide, by decide, by decide, by decide⟩
    have hlog : (2 ^ 24 : Nat).log2 = 24 := Nat.log2_two_pow
    show max (((2 ^ 24 : Nat).log2 + 1 + k : Int) - 24) (-149) = k + (1 : Nat)
    omega

/-- Rounding drops the excess bits, and one more where it carries out of the mantissa. -/
theorem roundWithAccuracy_integral (hn : 2 ^ 23 ≤ n) (hlimit : excess n ≤ 103) :
    Integral s (nearest n) (roundWithAccuracy .binary32 s n 0 .exact) := by
  have hne : n ≠ 0 := Nat.ne_of_gt (Nat.lt_of_lt_of_le (by decide) hn)
  have hlog : 23 ≤ n.log2 := (Nat.le_log2 hne).mpr hn
  have hfirst : Format.binary32.targetExponent (totalExponent n 0) = 0 + (excess n : Int) := by
    show max ((n.log2 + 1 + 0 : Int) - 24) (-149) = 0 + ((n.log2 - 23 : Nat) : Int)
    omega
  obtain ⟨hlow, hhigh⟩ := roundShift_excess hn
  obtain ⟨j, hsecond, hj, hlow', hhigh', hvalue⟩ := carry hlow hhigh (excess n)
  have hpos : 0 < roundShift n (excess n) / 2 ^ j := Nat.lt_of_lt_of_le (by decide) hlow'
  have hmantissa : (ExtendedMantissa.ofMantissaAndAccuracy (roundShift n (excess n)) .exact >>> j).mantissa =
      roundShift n (excess n) / 2 ^ j := by rw [shiftRight_exact]
  have hround : roundWithAccuracy .binary32 s n 0 .exact =
      .finite s (roundShift n (excess n) / 2 ^ j) (excess n + j) hpos := by
    simp only [roundWithAccuracy, shiftToTargetExponent_exact hfirst, rounded_shiftRight, Int.zero_add,
      shiftToTargetExponent_exact hsecond, hmantissa, Nat.ne_of_gt hpos, dite_false]
  have hleft : (excess n + j : Int).toNat = j + excess n := by omega
  have hright : (-(excess n + j : Int)).toNat = 0 := by omega
  rw [hround]
  refine .finite hpos hlow' hhigh' (by omega) (by omega) ?_
  rw [hleft, hright, Nat.pow_add, ← Nat.mul_assoc, hvalue, Nat.pow_zero, Nat.mul_one, nearest]

theorem ofNat_integral (hn : n < 2 ^ 64) : Integral .positive (nearest n) (UnpackedFloat.ofNat .binary32 n) := by
  by_cases hsmall : n < 2 ^ 23
  · have hsmall : n < 2 ^ 24 := Nat.lt_trans hsmall (by decide)
    rw [nearest_small hsmall, ofNat_unpacked hsmall]
    exact integral_unpacked hsmall
  · have hlarge : 2 ^ 23 ≤ n := Nat.le_of_not_lt hsmall
    have hne : n ≠ 0 := Nat.ne_of_gt (Nat.lt_of_lt_of_le (by decide) hlarge)
    have hlog : n.log2 < 64 := (Nat.log2_lt hne).mpr hn
    have hlimit : excess n ≤ 103 := by
      unfold excess
      omega
    have hsign : compare (n : Int) 0 = .gt := Int.compare_eq_gt.mpr (by omega)
    have hlog' : 23 ≤ n.log2 := (Nat.le_log2 hne).mpr hlarge
    have hshift : (0 - Format.binary32.targetExponent (totalExponent n 0)).toNat = 0 := by
      show (0 - max ((n.log2 + 1 + 0 : Int) - 24) (-149)).toNat = 0
      omega
    simp only [UnpackedFloat.ofNat, UnpackedFloat.ofInt, UnpackedFloat.normalize, hsign, Int.toNat_natCast,
      UnpackedFloat.round, decreaseExponent, hshift, Nat.shiftLeft_zero]
    exact roundWithAccuracy_integral hlarge hlimit

/-! ## Integers as payload values -/

theorem toNat_toUInt64 (hn : n < 2 ^ 64) : n.toUInt64.toNat = n := Nat.mod_eq_of_lt hn

/-- A number below `2 ^ 64` becomes the nearest one. -/
theorem ofNat_eq (hn : n < 2 ^ 64) : ∃ u, Integral .positive (nearest n) u ∧ ofNat n = .ofModel (.pack u) := by
  refine ⟨_, ofNat_integral hn, ?_⟩
  show Float32.ofModel (.pack (UnpackedFloat.ofNat .binary32 n.toUInt64.toNat)) = _
  rw [toNat_toUInt64 hn]

/-- The nearest integer, on the same side of zero. -/
def rounded (z : Int) : Int := if z < 0 then -(nearest z.natAbs) else nearest z.natAbs

/-- The sign of an integer, where zero has none. -/
def signOfInt (z : Int) : Sign := if z < 0 then .negative else .positive

theorem ofInt_eq {z : Int} (hz : z.natAbs < 2 ^ 64) :
    ∃ u, Integral (signOfInt z) (nearest z.natAbs) u ∧ ofInt z = .ofModel (.pack u) := by
  obtain ⟨u, hu, hofNat⟩ := ofNat_eq hz
  unfold ofInt signOfInt
  split
  · refine ⟨u.neg, hu.neg, ?_⟩
    rw [hofNat]
    show Float32.ofModel (.pack (Float32.Model.pack u).unpack.neg) = _
    rw [hu.unpack_pack]
  · exact ⟨u, hu, hofNat⟩

theorem abs_integral (h : Integral s n u) : (Float32.ofModel (.pack u)).abs = .ofModel (.pack u.abs) := by
  show Float32.ofModel (.pack (Float32.Model.pack u).unpack.abs) = _
  rw [h.unpack_pack]

/-- There is no fraction to be dropped. -/
theorem trunc_ofInt {z : Int} (hz : z.natAbs < 2 ^ 64) : trunc (ofInt z) = ofInt z := by
  by_cases hsmall : z.natAbs < 2 ^ 23
  · have hsmall' : z.natAbs < 2 ^ 24 := Nat.lt_trans hsmall (by decide)
    have hofNat : ofNat z.natAbs = whole .positive z.natAbs := by
      show Float32.ofModel (.pack (UnpackedFloat.ofNat .binary32 z.natAbs.toUInt64.toNat)) = _
      rw [toNat_toUInt64 hz, ofNat_unpacked hsmall', whole]
    unfold ofInt
    rw [hofNat, neg_whole hsmall']
    split <;> exact trunc_whole hsmall
  · obtain ⟨u, hu, hofInt⟩ := ofInt_eq hz
    have hlarge : ¬ nearest z.natAbs < 2 ^ 23 := by
      have hmantissa := (roundShift_excess (Nat.le_of_not_lt hsmall)).1
      exact Nat.not_lt.mpr (Nat.le_trans hmantissa (Nat.le_mul_of_pos_right _ (Nat.two_pow_pos _)))
    refine if_neg ?_
    rw [hofInt, abs_integral hu, Scalar.lt_limit]
    show ¬ (Float32.Model.pack u.abs).unpack.compare _ = some .lt
    rwa [hu.abs.unpack_pack, hu.abs.lt_limit]

theorem nearest_lt (hn : n ≤ 2 ^ 63) : nearest n < 2 ^ 64 := by
  have hlog : n.log2 < 64 := by
    rcases Nat.eq_zero_or_pos n with rfl | hpos
    · decide
    · exact (Nat.log2_lt (Nat.ne_of_gt hpos)).mpr (Nat.lt_of_le_of_lt hn (by decide))
  have hexcess : 2 ^ excess n ≤ 2 ^ 40 := Nat.pow_le_pow_right (by decide) (by unfold excess; omega)
  obtain ⟨hclose, -⟩ := nearest_close n
  omega

/-- What a payload value gives back is the nearest integer, if that is within range. -/
theorem toIntWithin_ofInt {z : Int} (hz : z.natAbs ≤ 2 ^ 63) (lo hi : Int) :
    toIntWithin lo hi (ofInt z) = max lo (min hi (rounded z)) := by
  obtain ⟨u, hu, hofInt⟩ := ofInt_eq (Nat.lt_of_le_of_lt hz (by decide))
  have hsize : (ofInt z).abs.toUInt64.toNat = nearest z.natAbs := by
    rw [hofInt, abs_integral hu]
    show (UInt64.ofNatClamp ((Float32.Model.pack u.abs).unpack.toInt 0 _).toNat).toNat = _
    rw [hu.abs.unpack_pack, hu.abs.toInt]
    have hfits : nearest z.natAbs < UInt64.size := nearest_lt hz
    show (UInt64.ofNatClamp (nearest z.natAbs)).toNat = _
    rw [UInt64.ofNatClamp, dif_pos hfits]
    rfl
  have hnegative : ofInt z < 0 ↔ z < 0 ∧ nearest z.natAbs ≠ 0 := by
    have hbelow : ofInt z < 0 ↔ (Float32.Model.pack u).unpack.compare (.zero .positive) = some .lt := by
      rw [hofInt, ← beq_iff_eq]
      exact decide_eq_true_iff
    rw [hbelow, hu.unpack_pack, hu.negative]
    simp [signOfInt]
  unfold toIntWithin
  simp only [hsize, hnegative]
  refine congrArg (fun k => max lo (min hi k)) ?_
  unfold rounded
  by_cases hz : z < 0 <;> by_cases hzero : nearest z.natAbs = 0 <;> simp [hz, hzero]

/-- Of the integers in 32 bits one is kept although it is rounded: the largest, which rounding takes out of range. -/
theorem toInt32_ofInt_eq_self {z : Int} (hlo : -2147483648 ≤ z) (hhi : z ≤ 2147483647) :
    toInt32 (ofInt z) = z ↔ (∃ m k : Nat, m < 2 ^ 24 ∧ z.natAbs = m * 2 ^ k) ∨ z = 2147483647 := by
  have hsize : z.natAbs ≤ 2 ^ 63 := by omega
  rw [toInt32, toIntWithin_ofInt hsize, ← nearest_eq_self]
  constructor
  · intro h
    by_cases hlowest : z = -2147483648
    · subst hlowest
      exact .inl (by decide)
    · unfold rounded at h
      split at h <;> omega
  · rintro (hexact | rfl)
    · unfold rounded
      split <;> omega
    · decide

/-- No number up to `2 ^ 24` is rounded. -/
theorem toInt32_ofNat (hn : n ≤ 16777216) : toInt32 (ofNat n) = n := by
  rw [← ofInt_natCast, toInt32_ofInt_eq_self (by omega) (by omega), Int.natAbs_natCast]
  rcases Nat.eq_or_lt_of_le hn with rfl | hsmall
  · exact .inl ⟨1, 24, by decide, by decide⟩
  · exact .inl ⟨n, 0, hsmall, by rw [Nat.pow_zero, Nat.mul_one]⟩

theorem trunc_ofNat (hn : n < 2 ^ 64) : trunc (ofNat n) = ofNat n := by
  rw [← ofInt_natCast]
  exact trunc_ofInt hn

/-- Integers in 32 bits are rounded by no more than 64. -/
theorem rounded_close {z : Int} (hlo : -2147483648 ≤ z) (hhi : z ≤ 2147483647) : (rounded z - z).natAbs ≤ 64 := by
  by_cases hlowest : z = -2147483648
  · subst hlowest
    decide
  · have hlog : z.natAbs.log2 < 31 := by
      rcases Nat.eq_zero_or_pos z.natAbs with hzero | hpos
      · rw [hzero]
        decide
      · exact (Nat.log2_lt (Nat.ne_of_gt hpos)).mpr (by omega)
    have hexcess : 2 ^ excess z.natAbs ≤ 2 ^ 7 := Nat.pow_le_pow_right (by decide) (by unfold excess; omega)
    obtain ⟨habove, hbelow⟩ := nearest_close z.natAbs
    unfold rounded
    split <;> omega

end ComponentFlow.Scalar

namespace ComponentFlow.Tensor

open Scalar (rounded toInt32 ofInt)

variable {shape : Shape} {values : Array Int}

/-- Integers in 32 bits make a tensor of their shape. What is read back is each rounded to the 24 bits that a payload
    value has room for, off by 64 at most, and kept in range. So exactly those come back unchanged that are less than
    `2 ^ 24` times a power of two, and the largest, which is rounded up and then moved back. -/
theorem integers_read_back (hsize : values.size = shape.count)
    (hrange : ∀ z ∈ values, -2147483648 ≤ z ∧ z ≤ 2147483647) : ∃ t, ofInts shape values = .ok t ∧
      t.dtype = .i32 ∧ t.shape = shape ∧
      t.toInts = values.toList.map (fun z => max (-2147483648) (min 2147483647 (rounded z))) ∧
      (∀ z ∈ values, (rounded z - z).natAbs ≤ 64) ∧
      (t.toInts = values.toList ↔
        ∀ z ∈ values, (∃ m k : Nat, m < 2 ^ 24 ∧ z.natAbs = m * 2 ^ k) ∨ z = 2147483647) := by
  have hcount : (values.map ofInt).size = shape.count := Array.size_map.trans hsize
  have hread : ((values.map ofInt).map DType.i32.coerce).toList.map toInt32 =
      values.toList.map fun z => toInt32 (ofInt z) := by
    rw [Array.toList_map, Array.toList_map, List.map_map, List.map_map]
    refine List.map_congr_left fun z hz => ?_
    obtain ⟨hlo, hhi⟩ := hrange z (Array.mem_toList_iff.mp hz)
    exact congrArg toInt32 (Scalar.trunc_ofInt (by omega))
  refine ⟨⟨.i32, shape, (values.map ofInt).map DType.i32.coerce, by simp [hsize]⟩, dif_pos hcount, rfl, rfl, ?_,
    fun z hz => Scalar.rounded_close (hrange z hz).1 (hrange z hz).2, ?_⟩
  · refine hread.trans (List.map_congr_left fun z hz => ?_)
    obtain ⟨hlo, hhi⟩ := hrange z (Array.mem_toList_iff.mp hz)
    exact Scalar.toIntWithin_ofInt (by omega) _ _
  · have hsame : values.toList.map (fun z => toInt32 (ofInt z)) = values.toList ↔
        ∀ z ∈ values.toList, toInt32 (ofInt z) = z := by
      simpa using List.map_inj_left (l := values.toList) (f := fun z => toInt32 (ofInt z)) (g := id)
    show List.map toInt32 _ = _ ↔ _
    rw [hread, hsame]
    refine forall_congr' fun z => ?_
    rw [Array.mem_toList_iff]
    exact imp_congr_right fun hz => Scalar.toInt32_ofInt_eq_self (hrange z hz).1 (hrange z hz).2

/-- An integer of 25 bits, and the largest of 32. -/
theorem odd_read_back : (∀ z ∈ #[16777217, 2147483647], -2147483648 ≤ z ∧ z ≤ (2147483647 : Int)) ∧
    ∃ t, ofInts ⟨[2]⟩ #[16777217, 2147483647] = .ok t ∧ t.toInts = [16777216, 2147483647] := by
  have hrange : ∀ z ∈ #[16777217, 2147483647], -2147483648 ≤ z ∧ z ≤ (2147483647 : Int) := by simp
  have hsize : #[16777217, (2147483647 : Int)].size = (Shape.mk [2]).count := rfl
  obtain ⟨t, ht, -, -, hread, -⟩ := integers_read_back hsize hrange
  have hrounded : rounded 16777217 = 16777216 ∧ rounded 2147483647 = 2147483648 := by decide
  refine ⟨hrange, t, ht, hread.trans ?_⟩
  simp [hrounded]

/-- The first integer that does not come back. -/
theorem odd_not_read_back : ∃ t, ofInts ⟨[1]⟩ #[16777217] = .ok t ∧ t.toInts = [16777216] ∧
    t.toInts ≠ [16777217] := by
  have hread : (ofInts ⟨[1]⟩ #[16777217]).toOption.map toInts = some [16777216] := by decide +kernel
  rcases h : ofInts ⟨[1]⟩ #[16777217] with cause | t
  · rw [h] at hread
    cases hread
  · rw [h] at hread
    have hints : t.toInts = [16777216] := Option.some.inj hread
    refine ⟨t, rfl, hints, ?_⟩
    rw [hints]
    decide

end ComponentFlow.Tensor
