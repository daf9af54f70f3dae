/-
  ComponentFlow.Proofs.Sampling — samples without state. No step of the mixing loses anything: folding the high bits
  of a word down can be undone because a word that is its own shift has no bits, and multiplying because the factors
  are odd. So of seed, step and index any one determines the word of a sample and can be read off it when the other two
  are known (`Random.samples_apart`). The top 24 bits of the word are as many as a payload value has room for, so
  making a sample of them rounds nothing (`Random.number_uniform`).
-/
import ComponentFlow.Layers.Exploration
import ComponentFlow.Proofs.Number
import ComponentFlow.Random.Counter

namespace ComponentFlow.Random

variable {shift factor : UInt64}

/-! ## Steps of the mixing -/

theorem eq_zero_of_shiftRight_eq {d : UInt64} (hshift : 0 < shift.toNat % 64) (h : d >>> shift = d) : d = 0 := by
  have hnat : d.toNat / 2 ^ (shift.toNat % 64) = d.toNat := by
    rw [← Nat.shiftRight_eq_div_pow, ← UInt64.toNat_shiftRight, h]
  have hzero : ¬ 0 < d.toNat := by
    intro hpos
    exact Nat.ne_of_lt (Nat.div_lt_self hpos (Nat.one_lt_two_pow (Nat.ne_of_gt hshift))) hnat
  exact UInt64.toNat_inj.mp (Nat.eq_zero_of_not_pos hzero)

/-- What tells two words with one image apart is its own shift. -/
theorem xor_shiftRight_injective (hshift : 0 < shift.toNat % 64) :
    Function.Injective fun z : UInt64 => z ^^^ (z >>> shift) := by
  intro x y (h : x ^^^ (x >>> shift) = y ^^^ (y >>> shift))
  have hdiff : (x ^^^ y) >>> shift = x ^^^ y := by
    rw [UInt64.shiftRight_xor, ← UInt64.xor_eq_zero_iff]
    calc x >>> shift ^^^ y >>> shift ^^^ (x ^^^ y)
      _ = (x ^^^ x >>> shift) ^^^ (y ^^^ y >>> shift) := by ac_rfl
      _ = 0 := by rw [h, UInt64.xor_self]
  exact UInt64.xor_eq_zero_iff.mp (eq_zero_of_shiftRight_eq hshift hdiff)

/-- An odd factor has no divisor in common with the number of words. -/
theorem mul_injective_of_odd (hfactor : Odd factor.toNat) : Function.Injective fun z : UInt64 => z * factor := by
  intro x y (h : x * factor = y * factor)
  have hproducts : x.toNat * factor.toNat ≡ y.toNat * factor.toNat [MOD 2 ^ 64] := by
    have hnat := congrArg UInt64.toNat h
    rwa [UInt64.toNat_mul, UInt64.toNat_mul] at hnat
  have hcoprime : Nat.Coprime (2 ^ 64) factor.toNat := (Nat.coprime_two_left.mpr hfactor).pow_left 64
  have hwords : x.toNat ≡ y.toNat [MOD 2 ^ 64] := Nat.ModEq.cancel_right_of_coprime hcoprime hproducts
  exact UInt64.toNat_inj.mp (hwords.eq_of_lt_of_lt x.toNat_lt y.toNat_lt)

theorem fold_injective (hshift : 0 < shift.toNat % 64) (hfactor : Odd factor.toNat) :
    Function.Injective (fold shift factor) :=
  (mul_injective_of_odd hfactor).comp (xor_shiftRight_injective hshift)

theorem mix_injective : Function.Injective mix := by
  have hmoved : Function.Injective fun z : UInt64 => z + 0x9E3779B97F4A7C15 := fun x y h =>
    (UInt64.add_left_inj 0x9E3779B97F4A7C15).mp h
  have hfirst : Function.Injective (fold 30 0xBF58476D1CE4E5B9) := fold_injective (by decide) (by decide)
  have hsecond : Function.Injective (fold 27 0x94D049BB133111EB) := fold_injective (by decide) (by decide)
  have hlast : Function.Injective fun z : UInt64 => z ^^^ (z >>> 31) := xor_shiftRight_injective (by decide)
  exact hlast.comp (hsecond.comp (hfirst.comp hmoved))

/-! ## Words of samples -/

section Words

variable (seed step index : UInt64)

theorem sampleWord_seed_injective : Function.Injective fun seed => sampleWord seed step index := by
  intro x y h
  exact (UInt64.xor_left_inj _).mp ((UInt64.xor_left_inj _).mp (mix_injective h))

theorem sampleWord_step_injective : Function.Injective fun step => sampleWord seed step index := by
  intro x y h
  have hmul : Function.Injective fun z : UInt64 => z * 0x9E3779B97F4A7C15 := mul_injective_of_odd (by decide)
  exact hmul ((UInt64.xor_right_inj _).mp ((UInt64.xor_left_inj _).mp (mix_injective h)))

theorem sampleWord_index_injective : Function.Injective fun index => sampleWord seed step index := by
  intro x y h
  have hmul : Function.Injective fun z : UInt64 => z * 0xD1B54A32D192ED03 := mul_injective_of_odd (by decide)
  exact hmul ((UInt64.xor_right_inj _).mp (mix_injective h))

end Words

/-! ## Samples -/

section Samples

open Layers.Exploration (actionStream)

variable (seed step index : UInt64)

/-- The number in the top bits of the word has room in a mantissa, and dividing it moves the point. -/
theorem number_uniform : (sampleWord seed step index).toNat / 2 ^ 40 < 2 ^ 24 ∧
    Scalar.number? (uniform seed step index) =
      some (((sampleWord seed step index).toNat / 2 ^ 40 : ℕ) / 2 ^ 24 : ℚ) := by
  have htop : (sampleWord seed step index >>> 40).toNat = (sampleWord seed step index).toNat / 2 ^ 40 := by
    rw [UInt64.toNat_shiftRight, Nat.shiftRight_eq_div_pow]
    rfl
  have hroom : (sampleWord seed step index).toNat / 2 ^ 40 < 2 ^ 24 := by
    have hword := (sampleWord seed step index).toNat_lt
    omega
  have hquotient : uniform seed step index =
      Scalar.whole .positive ((sampleWord seed step index).toNat / 2 ^ 40) / (16777216 : UInt64).toFloat32 := by
    show Float32.ofModel (.pack (.ofNat .binary32 (sampleWord seed step index >>> 40).toNat)) / _ = _
    rw [htop, Scalar.ofNat_unpacked hroom]
    rfl
  refine ⟨hroom, ?_⟩
  rw [hquotient]
  exact Scalar.number_whole_div (f := 1) hroom rfl (by decide) (by decide)

/-- Whichever two of seed, step and index are fixed, the third one determines the word of a sample, and every word is
    that of a sample. So two elements of a draw, two steps at one element, or the two draws of an exploring component at
    one step and element never share a word. The sample is the number in the top 24 bits of the word, divided by
    `2 ^ 24` and not rounded, so it is at least zero and less than one. -/
theorem samples_apart :
    Function.Bijective (fun seed => sampleWord seed step index) ∧
    Function.Bijective (fun step => sampleWord seed step index) ∧
    Function.Bijective (fun index => sampleWord seed step index) ∧
    (∀ other, sampleWord seed step other = sampleWord seed step index ↔ other = index) ∧
    (∀ other, sampleWord seed other index = sampleWord seed step index ↔ other = step) ∧
    sampleWord (seed ^^^ actionStream) step index ≠ sampleWord seed step index ∧
    let n : Nat := (sampleWord seed step index).toNat / 2 ^ 40
    n < 2 ^ 24 ∧ Scalar.number? (uniform seed step index) = some ((n : ℚ) / 2 ^ 24) ∧
      0 ≤ uniform seed step index ∧ uniform seed step index < 1 := by
  have hseed := sampleWord_seed_injective step index
  have hstep := sampleWord_step_injective seed index
  have hindex := sampleWord_index_injective seed step
  obtain ⟨hroom, hnumber⟩ := number_uniform seed step index
  have hzero : Scalar.number? 0 = some 0 := rfl
  have hone : Scalar.number? 1 = some 1 := by
    show some (((2 ^ 23 : ℤ) : ℚ) * 2 ^ (-23 : ℤ)) = some 1
    norm_num
  refine ⟨Finite.injective_iff_bijective.mp hseed, Finite.injective_iff_bijective.mp hstep,
    Finite.injective_iff_bijective.mp hindex, fun other => hindex.eq_iff, fun other => hstep.eq_iff,
    fun h => ?_, hroom, hnumber, ?_, ?_⟩
  · have hstream : seed ^^^ actionStream = seed ^^^ 0 := (hseed h).trans (UInt64.xor_zero).symm
    exact absurd ((UInt64.xor_right_inj seed).mp hstream) (by decide)
  · rw [Scalar.le_iff_number hzero hnumber]
    positivity
  · rw [Scalar.lt_iff_number hnumber hone, div_lt_one (by norm_num)]
    exact_mod_cast hroom

end Samples

end ComponentFlow.Random
