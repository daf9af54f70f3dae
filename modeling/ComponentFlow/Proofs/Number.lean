/-
  ComponentFlow.Proofs.Number — the rational numbers that payload values stand for (`Scalar.number?`). Values
  compare as their numbers do (`Scalar.lt_iff_number`): an exponent decides before the mantissas, because a mantissa has
  all of its 24 bits unless the exponent is the least one. Dividing a whole number by a power of two is exact, since
  only the exponent changes (`Scalar.number_whole_div`).
-/
import ComponentFlow.Proofs.Order
import ComponentFlow.Proofs.Rounding

namespace ComponentFlow.Scalar

open Float.Model (Format UnpackedFloat totalExponent)
open Float.Model.UnpackedFloat

variable {x y : Float32} {s : Sign} {m n : Nat} {e f : Int} {a b : UnpackedFloat} {p q : ℚ}

/-- The number that mantissa and exponent make up. -/
def unpackedNumber? : UnpackedFloat → Option ℚ
  | .zero _ => some 0
  | .finite s m e _ => some (s.apply m * 2 ^ e)
  | .infinity _ | .notANumber => none

/-- The number that a payload value stands for. Infinities stand for none. -/
def number? (x : Float32) : Option ℚ := unpackedNumber? x.toModel.unpack

/-! ## Mantissas -/

/-- A mantissa has room, and unless the exponent is the least one it fills it. -/
structure Placed (m : Nat) (e : Int) : Prop where
  fits : m < 2 ^ 24
  least : -149 ≤ e
  full : -149 < e → 2 ^ 23 ≤ m

theorem unpack_placed {bits : BitVec 32} (hpos : 0 < m) (h : unpack .binary32 bits = .finite s m e hpos) :
    Placed m e := by
  obtain ⟨-, hfits⟩ := unpack_finite hpos h
  have hleading : ∀ w : BitVec 23, 2 ^ 23 ≤ (1#1 ++ w).toNat := by
    intro w
    rw [BitVec.toNat_append, ← Nat.shiftLeft_add_eq_or_of_lt w.isLt]
    exact Nat.le_add_right _ _
  dsimp only [unpack] at h
  split at h
  · split at h <;> cases h
  · split at h
    · next hzero =>
      split at h
      · cases h
      · injection h with _ _ hexponent
        rw [hzero] at hexponent
        have hleast : e = -149 := hexponent.symm
        exact ⟨hfits, Int.le_of_eq hleast.symm, fun hmore => absurd hleast (Int.ne_of_gt hmore)⟩
    · next hnormal =>
      cases h
      refine ⟨hfits, ?_, fun _ => hleading _⟩
      have hnonzero : (@unpackExponent .binary32 bits).toNat ≠ 0 := fun heq => hnormal (BitVec.eq_of_toNat_eq heq)
      show -149 ≤ ((@unpackExponent .binary32 bits).toNat : Int) - (127 + 23)
      omega

/-! ## Order -/

theorem magnitude_pos (hpos : 0 < m) (e : Int) : (0 : ℚ) < m * 2 ^ e := by positivity

theorem magnitude_lt (h : Placed m e) (h' : Placed n f) (hless : e < f ∨ e = f ∧ m < n) :
    (m : ℚ) * 2 ^ e < n * 2 ^ f := by
  rcases hless with hexponent | ⟨rfl, hmantissa⟩
  · have hfull : 2 ^ 23 ≤ n := h'.full (Int.lt_of_le_of_lt h.least hexponent)
    calc (m : ℚ) * 2 ^ e
      _ < 2 ^ 24 * 2 ^ e := by
        gcongr
        exact_mod_cast h.fits
      _ = 2 ^ 23 * 2 ^ (e + 1) := by
        rw [zpow_add_one₀ two_ne_zero]
        ring
      _ ≤ 2 ^ 23 * 2 ^ f := by
        gcongr
        · norm_num
        · omega
      _ ≤ n * 2 ^ f := by
        gcongr
        exact_mod_cast hfull
  · gcongr

theorem compare_magnitudes (h : Placed m e) (h' : Placed n f) :
    (compare e f).then (compare m n) = compare ((m : ℚ) * 2 ^ e) (n * 2 ^ f) := by
  rcases lt_trichotomy e f with hexponent | rfl | hexponent
  · rw [compare_lt_iff_lt.mpr hexponent, compare_lt_iff_lt.mpr (magnitude_lt h h' (.inl hexponent))]
    rfl
  · rw [compare_eq_iff_eq.mpr rfl, Ordering.eq_then]
    rcases lt_trichotomy m n with hmantissa | rfl | hmantissa
    · rw [compare_lt_iff_lt.mpr hmantissa, compare_lt_iff_lt.mpr (magnitude_lt h h' (.inr ⟨rfl, hmantissa⟩))]
    · rw [compare_eq_iff_eq.mpr rfl, compare_eq_iff_eq.mpr rfl]
    · rw [compare_gt_iff_gt.mpr hmantissa, compare_gt_iff_gt.mpr (magnitude_lt h' h (.inr ⟨rfl, hmantissa⟩))]
  · rw [compare_gt_iff_gt.mpr hexponent, compare_gt_iff_gt.mpr (magnitude_lt h' h (.inl hexponent))]
    rfl

theorem compare_neg_numbers (p q : ℚ) : compare (-p) (-q) = (compare p q).swap := by
  rcases lt_trichotomy p q with hless | rfl | hmore
  · rw [compare_lt_iff_lt.mpr hless, compare_gt_iff_gt.mpr (neg_lt_neg hless)]
    rfl
  · rw [compare_eq_iff_eq.mpr rfl, compare_eq_iff_eq.mpr rfl]
    rfl
  · rw [compare_gt_iff_gt.mpr hmore, compare_lt_iff_lt.mpr (neg_lt_neg hmore)]
    rfl

/-- A value stands for a number on one side of zero, or for zero. -/
inductive StandsFor : UnpackedFloat → ℚ → Prop
  | zero (s : Sign) : StandsFor (.zero s) 0
  | positive {m : Nat} {e : Int} (hpos : 0 < m) : Placed m e → StandsFor (.finite .positive m e hpos) (m * 2 ^ e)
  | negative {m : Nat} {e : Int} (hpos : 0 < m) : Placed m e → StandsFor (.finite .negative m e hpos) (-(m * 2 ^ e))

theorem standsFor_number (h : number? x = some p) : StandsFor x.toModel.unpack p := by
  unfold number? at h
  rcases hx : x.toModel.unpack with _ | _ | _ | ⟨s, m, e, hpos⟩
  all_goals rw [hx] at h; cases h
  · exact .zero _
  · cases s with
    | positive =>
      simp only [Sign.apply, Int.cast_natCast]
      exact .positive hpos (unpack_placed hpos hx)
    | negative =>
      simp only [Sign.apply, Int.cast_neg, Int.cast_natCast, neg_mul]
      exact .negative hpos (unpack_placed hpos hx)

theorem StandsFor.compare (ha : StandsFor a p) (hb : StandsFor b q) : a.compare b = some (compare p q) := by
  have hbelow : ∀ {m : Nat}, 0 < m → ∀ e : Int, -((m : ℚ) * 2 ^ e) < 0 := fun hpos e =>
    neg_lt_zero.mpr (magnitude_pos hpos e)
  cases ha with
  | zero _ =>
    cases hb with
    | zero _ => exact congrArg some (compare_eq_iff_eq.mpr rfl).symm
    | positive hpos _ => exact congrArg some (compare_lt_iff_lt.mpr (magnitude_pos hpos _)).symm
    | negative hpos _ => exact congrArg some (compare_gt_iff_gt.mpr (hbelow hpos _)).symm
  | positive hpos h =>
    cases hb with
    | zero _ => exact congrArg some (compare_gt_iff_gt.mpr (magnitude_pos hpos _)).symm
    | positive _ h' => exact congrArg some (compare_magnitudes h h')
    | negative hpos' _ =>
      exact congrArg some (compare_gt_iff_gt.mpr ((hbelow hpos' _).trans (magnitude_pos hpos _))).symm
  | negative hpos h =>
    cases hb with
    | zero _ => exact congrArg some (compare_lt_iff_lt.mpr (hbelow hpos _)).symm
    | positive hpos' _ =>
      exact congrArg some (compare_lt_iff_lt.mpr ((hbelow hpos _).trans (magnitude_pos hpos' _))).symm
    | negative _ h' =>
      rw [compare_neg_numbers, ← compare_magnitudes h h']
      rfl

theorem lt_iff_number (hx : number? x = some p) (hy : number? y = some q) : x < y ↔ p < q := by
  rw [lt_iff_compare, (standsFor_number hx).compare (standsFor_number hy), Option.some.injEq, compare_lt_iff_lt]

theorem le_iff_number (hx : number? x = some p) (hy : number? y = some q) : x ≤ y ↔ p ≤ q := by
  rw [le_iff_compare, (standsFor_number hx).compare (standsFor_number hy), Option.any_some, ← compare_le_iff_le,
    Ordering.isLE_iff_ne_gt]

/-! ## Division by a power of two -/

theorem totalExponent_full (hlow : 2 ^ 23 ≤ m) (hhigh : m < 2 ^ 24) (e : Int) : totalExponent m e = e + 24 := by
  have hlog : m.log2 = 23 :=
    (Nat.log2_eq_iff (Nat.ne_of_gt (Nat.lt_of_lt_of_le (by decide) hlow))).mpr ⟨hlow, hhigh⟩
  rw [totalExponent, hlog]
  omega

/-- Of a mantissa with one bit too many, whose last bit is zero, rounding drops that bit. -/
theorem roundWithAccuracy_double (hpos : 0 < m) (hlow : 2 ^ 23 ≤ m) (hhigh : m < 2 ^ 24) (he : -149 ≤ e) :
    roundWithAccuracy .binary32 s (2 * m) e .exact = .finite s m (e + 1) hpos := by
  have hlog : (2 * m).log2 = 24 := (Nat.log2_eq_iff (by omega)).mpr ⟨by omega, by omega⟩
  have hfirst : Format.binary32.targetExponent (totalExponent (2 * m) e) = e + (1 : Nat) := by
    show max (((2 * m).log2 + 1 + e : Int) - 24) (-149) = e + (1 : Nat)
    omega
  have hsecond : Format.binary32.targetExponent (totalExponent m (e + 1)) = e + 1 + (0 : Nat) := by
    rw [totalExponent_full hlow hhigh]
    show max ((e + 1 + 24 : Int) - 24) (-149) = e + 1 + (0 : Nat)
    omega
  have hhalf : roundShift (2 * m) 1 = m := by
    rw [roundShift_of_dvd (Nat.dvd_mul_right 2 m)]
    omega
  have hkept : (ExtendedMantissa.ofMantissaAndAccuracy m .exact >>> 0).mantissa = m := rfl
  simp only [roundWithAccuracy, shiftToTargetExponent_exact hfirst, rounded_shiftRight, hhalf, Nat.cast_one,
    shiftToTargetExponent_exact hsecond, hkept, Nat.ne_of_gt hpos, dite_false, Nat.cast_zero, Int.add_zero]

/-- The quotient gets one bit too many, and no rest. -/
theorem div_power (hpos : 0 < m) (hlow : 2 ^ 23 ≤ m) (hhigh : m < 2 ^ 24) (h : -149 ≤ e - f - 24) :
    (UnpackedFloat.finite s m e hpos).div .binary32 (.finite .positive (2 ^ 23) f (by decide)) =
      .finite s m (e - f - 23) hpos := by
  have hsign : s / Sign.positive = s := by cases s <;> rfl
  have htarget : min (e - f) (Format.binary32.targetExponent (totalExponent m e - totalExponent (2 ^ 23) f)) =
      e - f - 24 := by
    rw [totalExponent_full hlow hhigh, totalExponent_full (by decide) (by decide)]
    show min (e - f) (max ((e + 24 - (f + 24) : Int) - 24) (-149)) = e - f - 24
    omega
  have hshift : (e - f - (e - f - 24)).toNat = 24 := by omega
  have hdouble : m <<< 24 = 2 * m * 2 ^ 23 := by
    rw [Nat.shiftLeft_eq]
    omega
  have hcore : divCore .binary32 m e (2 ^ 23) f = (2 * m, e - f - 24, .exact) := by
    simp only [divCore, htarget, hshift, hdouble, Nat.mul_mod_left, Nat.mul_div_cancel _ (Nat.two_pow_pos 23)]
    rfl
  have hexponent : e - f - 24 + 1 = e - f - 23 := by omega
  simp only [UnpackedFloat.div, hcore, hsign, roundWithAccuracy_double hpos hlow hhigh h, hexponent]

/-- The mantissa of an integer makes up the integer again. -/
theorem mantissa_number (hn : n < 2 ^ 24) (e : Int) : (mantissa n : ℚ) * 2 ^ (n.log2 - 23 + e) = n * 2 ^ e := by
  have hlog := log2_le hn
  have hexponent : ((23 - n.log2 : Nat) : Int) + (n.log2 - 23 + e) = e := by omega
  rw [mantissa, Nat.shiftLeft_eq, Nat.cast_mul, Nat.cast_pow, Nat.cast_ofNat, ← zpow_natCast, mul_assoc,
    ← zpow_add₀ two_ne_zero, hexponent]

theorem number_whole_div (hn : n < 2 ^ 24) (hy : y.toModel.unpack = .finite .positive (2 ^ 23) f (by decide))
    (hleast : -127 ≤ f) (hmost : f ≤ 102) : number? (whole .positive n / y) = some ((n : ℚ) / 2 ^ (f + 23)) := by
  have hdiv : number? (whole .positive n / y) = unpackedNumber? (Float32.Model.pack
      ((unpacked .positive n).div .binary32 (.finite .positive (2 ^ 23) f (by decide)))).unpack := by
    show unpackedNumber? (Float32.Model.pack
      ((Float32.Model.pack (unpacked .positive n)).unpack.div .binary32 y.toModel.unpack)).unpack = _
    rw [unpack_unpacked hn, hy]
  rw [hdiv]
  rcases n.eq_zero_or_pos with rfl | hpos
  · have hzero : (unpacked .positive 0).div .binary32 (.finite .positive (2 ^ 23) f (by decide)) =
        .zero .positive := rfl
    have hunpack : (Float32.Model.pack (.zero .positive)).unpack = .zero .positive := rfl
    rw [hzero, hunpack, Nat.cast_zero, zero_div]
    rfl
  · obtain ⟨h, hunpacked⟩ := unpacked_pos (s := .positive) hpos hn
    obtain ⟨hlow, hhigh⟩ := mantissa_bounds hpos hn
    have hlog := log2_le hn
    have hunpack : (Float32.Model.pack (.finite .positive (mantissa n) (n.log2 - 23 - f - 23) h)).unpack =
        .finite .positive (mantissa n) (n.log2 - 23 - f - 23) h :=
      unpack_pack h hlow hhigh (by omega) (by omega)
    -- What the division takes from the exponent is the power of two.
    have hexponent : (n.log2 - 23 - f - 23 : Int) = n.log2 - 23 + -(f + 23) := by omega
    rw [hunpacked, div_power h hlow hhigh (by omega), hunpack]
    show some (((mantissa n : Int) : ℚ) * 2 ^ (n.log2 - 23 - f - 23 : Int)) = _
    rw [Int.cast_natCast, hexponent, mantissa_number hn, zpow_neg, div_eq_mul_inv]

end ComponentFlow.Scalar
