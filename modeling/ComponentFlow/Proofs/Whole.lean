/-
  ComponentFlow.Proofs.Whole — arithmetic on payload values that is exact. The order of factors does not
  matter. An integer below `2 ^ 24` has room in the mantissa: it becomes a payload value and comes back
  unchanged, whichever sign it gets (`Scalar.whole`). Dropping the fraction of a smaller value gives such an
  integer, and larger values have no fraction, so nothing is left to drop a second time (`Scalar.trunc_trunc`).

  - `Scalar.Integral`: a number that is an integer, with its sign. Conversions read the integer off.
-/
import Mathlib
import ComponentFlow.Scalar.Basic

namespace ComponentFlow.Scalar

open Float.Model (Format UnpackedFloat totalExponent)
open Float.Model.UnpackedFloat

variable {x y : Float32} {s : Sign} {m n : Nat} {e : Int} {u : UnpackedFloat}

/-! ## Products -/

theorem sign_mul_comm (s s' : Sign) : s * s' = s' * s := by cases s <;> cases s' <;> rfl

theorem mul_comm (x y : Float32) : x * y = y * x := by
  have hmul : ∀ a b : UnpackedFloat, a.mul .binary32 b = b.mul .binary32 a := by
    intro a b
    cases a <;> cases b <;> simp only [UnpackedFloat.mul, sign_mul_comm, Nat.mul_comm, Int.add_comm]
  exact congrArg (fun u => Float32.ofModel (.pack u)) (hmul x.toModel.unpack y.toModel.unpack)

/-! ## Bits -/

/-- A mantissa that fills its 24 bits, with an exponent in range, is read back from the bits. -/
theorem unpack_pack (hpos : 0 < m) (hm : 2 ^ 23 ≤ m) (hm' : m < 2 ^ 24) (he : -149 ≤ e) (he' : e ≤ 104) :
    unpack .binary32 (pack .binary32 (.finite s m e hpos)) = .finite s m e hpos := by
  have hlog : m.log2 + 1 = Format.binary32.mantissaBits := by
    rw [(Nat.log2_eq_iff (Nat.ne_of_gt hpos)).mpr ⟨hm, hm'⟩]
    rfl
  have hbiased : (e + Format.binary32.exponentBias + Format.binary32.mantissaBitsWithoutImplicit).toNat =
      (e + 150).toNat := by
    show (e + 127 + 23).toNat = (e + 150).toNat
    omega
  have hfits : ¬ 2 ^ Format.binary32.exponentBits ≤ (e + 150).toNat + 1 := by
    show ¬ 256 ≤ (e + 150).toNat + 1
    omega
  have hbits : pack .binary32 (.finite s m e hpos) =
      packComponents .binary32 s (BitVec.ofNat 8 (e + 150).toNat) (BitVec.ofNat 23 m) := by
    simp only [pack, hbiased, if_neg hfits, if_pos hlog]
  have hexponent : (BitVec.ofNat 8 (e + 150).toNat).toNat = (e + 150).toNat := by
    rw [BitVec.toNat_ofNat]
    omega
  have hother : ∀ k : Nat, k ≠ (e + 150).toNat → k < 256 → BitVec.ofNat 8 (e + 150).toNat ≠ BitVec.ofNat 8 k := by
    intro k hne hk heq
    have hsame := congrArg BitVec.toNat heq
    rw [hexponent, BitVec.toNat_ofNat] at hsame
    omega
  have hnumber : BitVec.ofNat 8 (e + 150).toNat ≠ -1#8 := hother 255 (by omega) (by omega)
  have hnormal : BitVec.ofNat 8 (e + 150).toNat ≠ 0#8 := hother 0 (by omega) (by omega)
  have hmantissa : (1#1 ++ BitVec.ofNat 23 m).toNat = m := by
    rw [BitVec.toNat_append, ← Nat.shiftLeft_add_eq_or_of_lt (BitVec.isLt _), BitVec.toNat_ofNat]
    show 1 <<< 23 + m % 2 ^ 23 = m
    omega
  have hvalue : ((e + 150).toNat : Int) - (Format.binary32.exponentBias + Format.binary32.mantissaBitsWithoutImplicit) =
      e := by
    show ((e + 150).toNat : Int) - (127 + 23) = e
    omega
  rw [hbits]
  simp only [unpack, unpackMantissa_packComponents, unpackExponent_packComponents, unpackSign_packComponents,
    if_neg hnumber, if_neg hnormal, Sign.ofBitVec_toBitVec, hexponent, hmantissa, hvalue]

/-- The sign in the first bit. -/
def signOf (b : BitVec 32) : Sign := Sign.ofBitVec (@unpackSign .binary32 b)

theorem unpack_finite {b : BitVec 32} (hpos : 0 < m) (hb : unpack .binary32 b = .finite s m e hpos) :
    signOf b = s ∧ m < 2 ^ 24 := by
  dsimp only [unpack] at hb
  split at hb
  · split at hb <;> cases hb
  · split at hb
    · split at hb <;> cases hb
      exact ⟨rfl, Nat.lt_of_lt_of_le (BitVec.isLt _) (by decide)⟩
    · cases hb
      exact ⟨rfl, BitVec.isLt _⟩

theorem unpack_zero {b : BitVec 32} (hb : unpack .binary32 b = .zero s) :
    signOf b = s := by
  dsimp only [unpack] at hb
  split at hb
  · split at hb <;> cases hb
  · split at hb
    · split at hb <;> cases hb
      rfl
    · cases hb

theorem sign_bit : x.toBits >>> 31 = 1 ↔ signOf x.toBits.toBitVec = .negative := by
  have hfirst : (@unpackSign .binary32 x.toBits.toBitVec).toNat = x.toBits.toNat / 2 ^ 31 := by
    show (x.toBits.toBitVec.extractLsb' 31 1).toNat = x.toBits.toNat / 2 ^ 31
    rw [BitVec.extractLsb'_toNat, Nat.shiftRight_eq_div_pow, UInt32.toNat_toBitVec]
    have hlt := x.toBits.toNat_lt
    omega
  have hshift : (x.toBits >>> 31).toNat = x.toBits.toNat / 2 ^ 31 := by
    rw [UInt32.toNat_shiftRight, Nat.shiftRight_eq_div_pow]
    rfl
  have hsign : ∀ b : BitVec 1, Sign.ofBitVec b = .negative ↔ b.toNat = 1 := by
    intro b
    unfold Sign.ofBitVec
    split
    · next hzero => simp [hzero]
    · next hone =>
      have hne : b.toNat ≠ 0 := fun hzero => hone (BitVec.eq_of_toNat_eq hzero)
      have hlt := b.isLt
      simp only [true_iff]
      omega
  rw [signOf, hsign, hfirst, ← hshift, ← UInt32.toNat_inj]
  rfl

/-! ## Integers and their bits -/

/-- Rounding leaves what has the exponent that it should have. -/
theorem roundWithAccuracy_fixed (hpos : 0 < m) (h : Format.binary32.targetExponent (totalExponent m e) = e) :
    roundWithAccuracy .binary32 s m e .exact = .finite s m e hpos := by
  have hkept : ∀ em : ExtendedMantissa, em >>> (0 : Nat) = em := fun _ => rfl
  simp [roundWithAccuracy, shiftToTargetExponent, shiftToExponent, h, hkept, ExtendedMantissa.ofMantissaAndAccuracy,
    ExtendedMantissa.roundedMantissa, ExtendedMantissa.accuracy, Accuracy.roundToNearestEven, Nat.ne_of_gt hpos]

theorem roundToInt_eq (s : Sign) (m : Nat) (e : Int) :
    roundToInt s m e = s.apply (m <<< e.toNat / 2 ^ (-e).toNat : Nat) := by
  have hshift : ∀ (em : ExtendedMantissa) (k : Nat), (em >>> k).mantissa = em.mantissa / 2 ^ k := by
    intro em k
    show (k.repeat ExtendedMantissa.shiftRightOne em).mantissa = em.mantissa / 2 ^ k
    induction k with
    | zero => simp [Nat.repeat]
    | succ k ih =>
      show (k.repeat ExtendedMantissa.shiftRightOne em).mantissa / 2 = em.mantissa / 2 ^ (k + 1)
      rw [ih, Nat.div_div_eq_div_mul, Nat.pow_succ]
  have hleft : (e - 0).toNat = e.toNat := by omega
  have hright : (0 - (e - e.toNat : Int)).toNat = (-e).toNat := by omega
  simp only [roundToInt, decreaseExponent, shiftToExponent, hshift, ExtendedMantissa.ofMantissaAndAccuracy, hleft,
    hright]

/-- The integer as a mantissa of 24 bits. -/
def mantissa (n : Nat) : Nat := n <<< (23 - n.log2)

theorem log2_le (hn : n < 2 ^ 24) : n.log2 ≤ 23 := by
  rcases n.eq_zero_or_pos with rfl | hpos
  · decide
  · exact Nat.le_of_lt_succ ((Nat.log2_lt (Nat.ne_of_gt hpos)).mpr hn)

theorem mantissa_bounds (hpos : 0 < n) (hn : n < 2 ^ 24) : 2 ^ 23 ≤ mantissa n ∧ mantissa n < 2 ^ 24 := by
  obtain ⟨hlow, hhigh⟩ := (Nat.log2_eq_iff (Nat.ne_of_gt hpos)).mp rfl
  have hlog := log2_le hn
  have hfill : 2 ^ n.log2 * 2 ^ (23 - n.log2) = 2 ^ 23 := by
    rw [← Nat.pow_add, Nat.add_sub_cancel' hlog]
  have hfill' : 2 ^ (n.log2 + 1) * 2 ^ (23 - n.log2) = 2 ^ 24 :=
    calc 2 ^ (n.log2 + 1) * 2 ^ (23 - n.log2)
      _ = 2 ^ n.log2 * 2 ^ (23 - n.log2) * 2 := by rw [Nat.pow_succ, Nat.mul_right_comm]
      _ = 2 ^ 23 * 2 := congrArg (· * 2) hfill
      _ = 2 ^ 24 := by decide
  rw [mantissa, Nat.shiftLeft_eq]
  constructor
  · rw [← hfill]
    exact Nat.mul_le_mul_right _ hlow
  · rw [← hfill']
    exact Nat.mul_lt_mul_of_pos_right hhigh (Nat.two_pow_pos _)

/-- An integer with a sign, which zero has as well. -/
def unpacked (s : Sign) (n : Nat) : UnpackedFloat :=
  if h : 0 < mantissa n then .finite s (mantissa n) (n.log2 - 23) h else .zero s

theorem unpacked_pos (hpos : 0 < n) (hn : n < 2 ^ 24) : ∃ h, unpacked s n = .finite s (mantissa n) (n.log2 - 23) h := by
  have h : 0 < mantissa n := Nat.lt_of_lt_of_le (by decide) (mantissa_bounds hpos hn).1
  exact ⟨h, dif_pos h⟩

/-! ## Numbers that are integers -/

/-- The number is an integer with a sign, and fills the mantissa unless it is zero. -/
inductive Integral (s : Sign) (n : Nat) : UnpackedFloat → Prop
  | zero : n = 0 → Integral s n (.zero s)
  | finite {m : Nat} {e : Int} (hpos : 0 < m) : 2 ^ 23 ≤ m → m < 2 ^ 24 → -149 ≤ e → e ≤ 104 →
      m * 2 ^ e.toNat = n * 2 ^ (-e).toNat → Integral s n (.finite s m e hpos)

namespace Integral

theorem unpack_pack (h : Integral s n u) : (Float32.Model.pack u).unpack = u := by
  cases h with
  | zero _ => cases s <;> rfl
  | finite hpos hlow hhigh he he' _ => exact Scalar.unpack_pack hpos hlow hhigh he he'

theorem abs (h : Integral s n u) : Integral .positive n u.abs := by
  cases h with
  | zero hn => exact .zero hn
  | finite hpos hlow hhigh he he' hvalue => exact .finite hpos hlow hhigh he he' hvalue

theorem neg (h : Integral s n u) : Integral (-s) n u.neg := by
  cases h with
  | zero hn => exact .zero hn
  | finite hpos hlow hhigh he he' hvalue => exact .finite hpos hlow hhigh he he' hvalue

theorem toInt (h : Integral s n u) (lo hi : Int) : u.toInt lo hi = s.apply n := by
  cases h with
  | zero hn =>
    rw [hn]
    cases s <;> rfl
  | @finite m e _ _ _ _ _ hvalue =>
    show roundToInt s m e = s.apply n
    rw [roundToInt_eq, Nat.shiftLeft_eq, hvalue, Nat.mul_div_cancel _ (Nat.two_pow_pos _)]

/-- Only integers from `2 ^ 23` on are taken for values without a fraction. -/
theorem lt_limit (h : Integral .positive n u) :
    u.compare (.finite .positive (2 ^ 23) 0 (by decide)) = some .lt ↔ n < 2 ^ 23 := by
  cases h with
  | zero hn =>
    rw [hn]
    exact iff_of_true rfl (by decide)
  | @finite m e _ hlow hhigh _ _ hvalue =>
    show some ((compare e 0).then (compare m (2 ^ 23))) = some .lt ↔ _
    rw [Option.some.injEq, Ordering.then_eq_lt, Int.compare_eq_lt, Int.compare_eq_eq, Nat.compare_eq_lt]
    rcases Int.lt_or_le e 0 with hneg | hnonneg
    · have hleft : e.toNat = 0 := by omega
      have hhalf : 2 ^ 1 ≤ 2 ^ (-e).toNat := Nat.pow_le_pow_right (by decide) (by omega)
      rw [hleft, Nat.pow_zero, Nat.mul_one] at hvalue
      have hsmall : n * 2 ^ 1 ≤ m := hvalue ▸ Nat.mul_le_mul_left n hhalf
      omega
    · have hright : (-e).toNat = 0 := by omega
      rw [hright, Nat.pow_zero, Nat.mul_one] at hvalue
      have hlarge : m ≤ n := hvalue ▸ Nat.le_mul_of_pos_right m (Nat.two_pow_pos _)
      omega

theorem negative (h : Integral s n u) : u.compare (.zero .positive) = some .lt ↔ s = .negative ∧ n ≠ 0 := by
  cases h with
  | zero hn =>
    have hequal : (UnpackedFloat.zero s).compare (.zero .positive) = some .eq := by cases s <;> rfl
    simp [hequal, hn]
  | @finite m e hpos _ _ _ _ hvalue =>
    have hne : n ≠ 0 := by
      rintro rfl
      rw [Nat.zero_mul] at hvalue
      exact Nat.ne_of_gt (Nat.mul_pos hpos (Nat.two_pow_pos _)) hvalue
    cases s with
    | negative => exact iff_of_true rfl ⟨rfl, hne⟩
    | positive => exact iff_of_false nofun fun h => nomatch h.1

end Integral

theorem integral_unpacked (hn : n < 2 ^ 24) : Integral s n (unpacked s n) := by
  rcases n.eq_zero_or_pos with rfl | hpos
  · exact .zero rfl
  · obtain ⟨h, hunpacked⟩ := unpacked_pos (s := s) hpos hn
    obtain ⟨hlow, hhigh⟩ := mantissa_bounds hpos hn
    have hlog := log2_le hn
    have hleft : (n.log2 - 23 : Int).toNat = 0 := by omega
    have hright : (-(n.log2 - 23 : Int)).toNat = 23 - n.log2 := by omega
    rw [hunpacked]
    refine .finite h hlow hhigh (by omega) (by omega) ?_
    rw [hleft, hright, mantissa, Nat.shiftLeft_eq, Nat.pow_zero, Nat.mul_one]

theorem unpack_unpacked (hn : n < 2 ^ 24) : (Float32.Model.pack (unpacked s n)).unpack = unpacked s n :=
  (integral_unpacked hn).unpack_pack

theorem ofNat_unpacked (hn : n < 2 ^ 24) : UnpackedFloat.ofNat .binary32 n = unpacked .positive n := by
  rcases n.eq_zero_or_pos with rfl | hpos
  · rfl
  · obtain ⟨h, hunpacked⟩ := unpacked_pos (s := .positive) hpos hn
    obtain ⟨hlow, hhigh⟩ := mantissa_bounds hpos hn
    have hlog := log2_le hn
    have hfull : (mantissa n).log2 = 23 := (Nat.log2_eq_iff (Nat.ne_of_gt h)).mpr ⟨hlow, hhigh⟩
    have hsign : compare (n : Int) 0 = .gt := Int.compare_eq_gt.mpr (by omega)
    have htarget : Format.binary32.targetExponent (totalExponent n 0) = n.log2 - 23 := by
      show max ((n.log2 + 1 + 0 : Int) - 24) (-149) = n.log2 - 23
      omega
    have hfixed : Format.binary32.targetExponent (totalExponent (mantissa n) (n.log2 - 23)) = n.log2 - 23 := by
      show max (((mantissa n).log2 + 1 + (n.log2 - 23) : Int) - 24) (-149) = n.log2 - 23
      omega
    have hshift : (0 - (n.log2 - 23 : Int)).toNat = 23 - n.log2 := by omega
    have hexponent : (0 : Int) - ↑(23 - n.log2) = n.log2 - 23 := by omega
    rw [hunpacked]
    simp only [UnpackedFloat.ofNat, UnpackedFloat.ofInt, UnpackedFloat.normalize, hsign, Int.toNat_natCast,
      UnpackedFloat.round, htarget, decreaseExponent, hshift, hexponent]
    exact roundWithAccuracy_fixed h hfixed

theorem abs_unpacked : (unpacked s n).abs = unpacked .positive n := by
  unfold unpacked
  split <;> rfl

theorem neg_unpacked : (unpacked s n).neg = unpacked (-s) n := by
  unfold unpacked
  split <;> rfl

/-! ## Whole values -/

/-- The payload value of an integer with a sign. -/
def whole (s : Sign) (n : Nat) : Float32 := .ofModel (.pack (unpacked s n))

theorem abs_whole (hn : n < 2 ^ 24) : (whole s n).abs = whole .positive n := by
  show Float32.ofModel (.pack (Float32.Model.pack (unpacked s n)).unpack.abs) = _
  rw [unpack_unpacked hn, abs_unpacked, whole]

theorem neg_whole (hn : n < 2 ^ 24) : -whole s n = whole (-s) n := by
  show Float32.ofModel (.pack (Float32.Model.pack (unpacked s n)).unpack.neg) = _
  rw [unpack_unpacked hn, neg_unpacked, whole]

theorem ofInt_natCast (n : Nat) : ofInt n = ofNat n := if_neg (Int.not_lt.mpr (Int.natCast_nonneg n))

theorem toFloat32_whole {w : UInt32} (hw : w.toNat < 2 ^ 24) : w.toFloat32 = whole .positive w.toNat := by
  show Float32.ofModel (.pack (UnpackedFloat.ofNat .binary32 w.toNat)) = _
  rw [ofNat_unpacked hw, whole]

theorem toNat_ofNatClamp (hn : n < 2 ^ 24) : (UInt32.ofNatClamp n).toNat = n := by
  unfold UInt32.ofNatClamp
  rw [dif_pos (Nat.lt_trans hn (by decide))]
  rfl

theorem toUInt32_whole (hn : n < 2 ^ 24) : (whole .positive n).toUInt32.toNat = n := by
  show (UInt32.ofNatClamp ((Float32.Model.pack (unpacked .positive n)).unpack.toInt 0 _).toNat).toNat = n
  rw [unpack_unpacked hn, (integral_unpacked hn).toInt]
  exact toNat_ofNatClamp hn

theorem negative_whole (hn : n < 2 ^ 24) : (whole s n).toBits >>> 31 = 1 ↔ s = .negative := by
  have hbits : unpack .binary32 (whole s n).toBits.toBitVec = unpacked s n := unpack_unpacked hn
  have hsign : signOf (whole s n).toBits.toBitVec = s := by
    rcases n.eq_zero_or_pos with rfl | hpos
    · exact unpack_zero hbits
    · obtain ⟨h, hunpacked⟩ := unpacked_pos (s := s) hpos hn
      exact (unpack_finite h (hbits.trans hunpacked)).1
  rw [sign_bit, hsign]

/-! ## Dropping fractions -/

/-- From `2 ^ 23` on there are no fractions. -/
theorem lt_limit : x < 8388608 ↔ x.toModel.unpack.compare (.finite .positive (2 ^ 23) 0 (by decide)) = some .lt := by
  have hlimit : (8388608 : Float32).toModel.unpack = .finite .positive (2 ^ 23) 0 (by decide) := rfl
  rw [← hlimit, ← beq_iff_eq]
  exact decide_eq_true_iff

theorem whole_lt_limit (hn : n < 2 ^ 23) : whole .positive n < 8388608 := by
  have hn' : n < 2 ^ 24 := Nat.lt_trans hn (by decide)
  rw [lt_limit]
  show (Float32.Model.pack (unpacked .positive n)).unpack.compare _ = some .lt
  rw [unpack_unpacked hn', (integral_unpacked hn').lt_limit]
  exact hn

theorem toUInt32_lt (h : x < 8388608) : x.toUInt32.toNat < 2 ^ 23 := by
  have hint : ∀ hi, (x.toModel.unpack.toInt 0 hi).toNat < 2 ^ 23 := by
    intro hi
    rw [lt_limit] at h
    cases hx : x.toModel.unpack with
    | notANumber | zero => exact Nat.two_pow_pos 23
    | infinity s =>
      cases s with
      | negative => exact Nat.two_pow_pos 23
      | positive =>
        rw [hx] at h
        cases h
    | finite s m e hpos =>
      obtain ⟨-, hm⟩ := unpack_finite hpos hx
      show (roundToInt s m e).toNat < 2 ^ 23
      rw [roundToInt_eq]
      cases s with
      | negative =>
        have hnegative : ∀ k : Nat, (-(k : Int)).toNat < 2 ^ 23 := fun k => by omega
        exact hnegative _
      | positive =>
        rw [hx] at h
        have hless : (compare e 0).then (compare m (2 ^ 23)) = .lt := Option.some.inj h
        rw [Ordering.then_eq_lt, Int.compare_eq_lt, Int.compare_eq_eq, Nat.compare_eq_lt] at hless
        show m <<< e.toNat / 2 ^ (-e).toNat < 2 ^ 23
        rcases hless with hneg | ⟨rfl, hlt⟩
        · have hleft : e.toNat = 0 := by omega
          have hhalf : 2 ^ 1 ≤ 2 ^ (-e).toNat := Nat.pow_le_pow_right (by decide) (by omega)
          rw [hleft, Nat.shiftLeft_zero, Nat.div_lt_iff_lt_mul (Nat.two_pow_pos _)]
          exact Nat.lt_of_lt_of_le hm (Nat.mul_le_mul_left (2 ^ 23) hhalf)
        · simpa using hlt
  show (UInt32.ofNatClamp (x.toModel.unpack.toInt 0 _).toNat).toNat < 2 ^ 23
  rw [toNat_ofNatClamp (Nat.lt_trans (hint _) (by decide))]
  exact hint _

theorem trunc_small (h : x.abs < 8388608) : ∃ s n, n < 2 ^ 23 ∧ trunc x = whole s n := by
  have hlt := toUInt32_lt h
  have hlt' : x.abs.toUInt32.toNat < 2 ^ 24 := Nat.lt_trans hlt (by decide)
  unfold trunc
  simp only [if_pos h, toFloat32_whole hlt']
  split
  · exact ⟨.negative, _, hlt, neg_whole hlt'⟩
  · exact ⟨.positive, _, hlt, rfl⟩

theorem trunc_whole (hn : n < 2 ^ 23) : trunc (whole s n) = whole s n := by
  have hn' : n < 2 ^ 24 := Nat.lt_trans hn (by decide)
  have hsize := toUInt32_whole hn'
  unfold trunc
  simp only [abs_whole hn', if_pos (whole_lt_limit hn), toFloat32_whole (hsize.symm ▸ hn'), hsize]
  cases s with
  | negative => exact (if_pos ((negative_whole hn').mpr rfl)).trans (neg_whole hn')
  | positive => exact if_neg (mt (negative_whole (s := .positive) hn').mp nofun)

/-- What has no fraction loses none. -/
theorem trunc_trunc (x : Float32) : trunc (trunc x) = trunc x := by
  by_cases h : x.abs < 8388608
  · obtain ⟨s, n, hn, htrunc⟩ := trunc_small h
    rw [htrunc, trunc_whole hn]
  · have hsame : trunc x = x := if_neg h
    rw [hsame, hsame]

end ComponentFlow.Scalar
