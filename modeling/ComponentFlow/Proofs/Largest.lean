/-
  ComponentFlow.Proofs.Largest — the place of the largest element of a lane. The search goes through the lane once and
  keeps a leader, the first of the largest numbers so far (`Kernel.Leading`). What is not a number never leads, and
  neither does negative infinity, which the search starts from. So a lane without larger numbers has the place zero, and
  so has a lane without elements (`Kernel.firstLargest_places`).
-/
import ComponentFlow.Kernel.Axis
import ComponentFlow.Proofs.Order

namespace ComponentFlow.Kernel

open Scalar (negInfinity)

variable {done lane : List Float32} {best place : Nat} {top x : Float32}

/-- In this place stands the first of the largest numbers of the lane. -/
structure FirstLargest (lane : List Float32) (place : Nat) (top : Float32) : Prop where
  here : lane[place]? = some top
  largest : ∀ x ∈ lane, x.isNaN = false → x ≤ top
  first : ∀ j < place, ∀ x, lane[j]? = some x → x.isNaN = false → x < top

/-- The first of the largest numbers if these exceed negative infinity, else zero. -/
inductive LargestPlace (lane : List Float32) : Nat → Prop
  | first {place : Nat} {top : Float32} (h : FirstLargest lane place top) (hexceeds : top > negInfinity) :
      LargestPlace lane place
  | none (hnone : ∀ x ∈ lane, ¬ x > negInfinity) : LargestPlace lane 0

/-- The place and the value to beat after part of a lane. -/
inductive Leading (done : List Float32) : Nat → Float32 → Prop
  | nobody (h : ∀ x ∈ done, ¬ x > negInfinity) : Leading done 0 negInfinity
  | leader {best : Nat} {top : Float32} (h : FirstLargest done best top) (hexceeds : top > negInfinity) :
      Leading done best top

namespace Leading

variable (h : Leading done best top)
include h

theorem at_most (hx : x ∈ done) (hnumber : x.isNaN = false) : x ≤ top := by
  cases h with
  | nobody hnone =>
    have hinfinity : negInfinity.isNaN = false := by decide +kernel
    exact Scalar.le_of_not_gt hnumber hinfinity (hnone x hx)
  | leader hleads _ => exact hleads.largest x hx hnumber

/-- A larger value leads. -/
theorem beaten (hx : x > top) : Leading (done ++ [x]) done.length x := by
  have hexceeds : x > negInfinity := by
    cases h with
    | nobody _ => exact hx
    | leader _ hexceeds => exact Scalar.lt_of_le_of_lt (Scalar.le_of_lt hexceeds) hx
  have hbefore : ∀ y ∈ done, y.isNaN = false → y < x :=
    fun y hy hnumber => Scalar.lt_of_le_of_lt (h.at_most hy hnumber) hx
  refine .leader ⟨by simp, fun y hy hnumber => ?_, fun j hj y hy => ?_⟩ hexceeds
  · rcases List.mem_append.mp hy with hy | hy
    · exact Scalar.le_of_lt (hbefore y hy hnumber)
    · exact List.mem_singleton.mp hy ▸ Scalar.le_refl hnumber
  · rw [List.getElem?_append_left hj] at hy
    exact hbefore y (List.mem_of_getElem? hy)

/-- Against any other value the leader stays, also against an equal one. -/
theorem kept (hx : ¬ x > top) : Leading (done ++ [x]) best top := by
  cases h with
  | nobody hnone =>
    exact .nobody (List.forall_mem_append.mpr ⟨hnone, fun y hy => List.mem_singleton.mp hy ▸ hx⟩)
  | leader hleads hexceeds =>
    have hplace : best < done.length := (List.getElem?_eq_some_iff.mp hleads.here).1
    have hnumber : top.isNaN = false := (Scalar.lt_iff.mp hexceeds).1.2
    refine .leader ⟨?_, fun y hy hy' => ?_, fun j hj y hy => ?_⟩ hexceeds
    · rw [List.getElem?_append_left hplace]
      exact hleads.here
    · rcases List.mem_append.mp hy with hy | hy
      · exact hleads.largest y hy hy'
      · exact Scalar.le_of_not_gt hy' hnumber (List.mem_singleton.mp hy ▸ hx)
    · rw [List.getElem?_append_left (by omega)] at hy
      exact hleads.first j hj y hy

theorem largestPlace : LargestPlace done best := by
  cases h with
  | nobody hnone => exact .none hnone
  | leader hleads hexceeds => exact .first hleads hexceeds

end Leading

/-- The invariant goes through the lane with the part that is done. -/
theorem firstLargest_leading (h : Leading done best top) (rest : List Float32) :
    LargestPlace (done ++ rest) (firstLargest best top done.length rest) := by
  induction rest generalizing done best top with
  | nil => exact (List.append_nil done).symm ▸ h.largestPlace
  | cons x rest ih =>
    have hlength : (done ++ [x]).length = done.length + 1 := by simp
    rw [List.append_cons, firstLargest, ← hlength]
    by_cases hx : x > top
    · rw [if_pos hx]
      exact ih (h.beaten hx)
    · rw [if_neg hx]
      exact ih (h.kept hx)

theorem firstLargest_places (lane : List Float32) : LargestPlace lane (firstLargest 0 negInfinity 0 lane) := by
  have hstart : Leading [] 0 negInfinity := .nobody (by simp)
  exact firstLargest_leading hstart lane

/-- What is not a number does not lead, and of equal elements the first does. -/
example : firstLargest 0 negInfinity 0 [Float32.ofBits 0x7fc00000, 5, 7, 7] = 2 := by decide +kernel

theorem LargestPlace.lt (h : LargestPlace lane place) (hlane : 0 < lane.length) : place < lane.length := by
  cases h with
  | first h _ => exact (List.getElem?_eq_some_iff.mp h.here).1
  | none _ => exact hlane

theorem LargestPlace.le (h : LargestPlace lane place) : place ≤ lane.length := by
  cases h with
  | first h _ => exact Nat.le_of_lt (List.getElem?_eq_some_iff.mp h.here).1
  | none _ => exact Nat.zero_le _

end ComponentFlow.Kernel
