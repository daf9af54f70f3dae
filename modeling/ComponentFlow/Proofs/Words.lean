/-
  ComponentFlow.Proofs.Words — sizes as machine words. Counts, strides and places are numbers of any size here, where
  kernels have words: arithmetic that is checked stops at a product that is none, and unchecked arithmetic goes on with
  what is left of it. Extents of zero do not help, since other extents are multiplied before they are. As long as the
  extents of every run of axes multiply to a word (`Shape.Fits`), no product of either kind goes wrong, and kernels
  count and address as they do here (`Shape.exact_of_fits`).
-/
import ComponentFlow.Proofs.Index
import Mathlib.Data.List.Infix

namespace ComponentFlow

/-- How many machine words there are. -/
def Word.count : Nat := 18446744073709551616

/-- The number, if it is a word. -/
def Word.checked (n : Nat) : Option Nat := if n < count then some n else none

theorem Word.checked_lt {n : Nat} (h : n < count) : checked n = some n := if_pos h

namespace Shape

/-- Along every run of axes there are no more elements than words. -/
def Fits (s : Shape) : Prop := ∀ run, run <:+: s.dims → product run < Word.count

/-- The product of the extents, from the first on, all of it in words. -/
def checkedProduct (dims : List Nat) : Option Nat := dims.foldlM (fun n d => Word.checked (n * d)) 1

/-- The strides, from the last on, all of them in words. -/
def checkedStrides : List Nat → Option (List Nat)
  | [] => some []
  | [_] => some [1]
  | _ :: n :: rest => do
    let strides ← checkedStrides (n :: rest)
    let stride ← Word.checked (strides.headD 1 * n)
    some (stride :: strides)

/-- Whatever is counted or addressed in the shape comes out the same in words. -/
structure Exact (s : Shape) : Prop where
  count : checkedProduct s.dims = some s.count
  strides : checkedStrides s.dims = some s.strides
  around : ∀ {axis split}, Kernel.Split.ofAxis s.dims axis = .ok split →
    checkedProduct (s.dims.take axis) = some split.outer ∧ checkedProduct (s.dims.drop (axis + 1)) = some split.inner
  place : ∀ {m}, Within s.dims m → offset s.dims m < Word.count

variable {s : Shape} {axes dims : List Nat}

instance (s : Shape) : Decidable s.Fits :=
  decidable_of_iff (∀ rest ∈ s.dims.tails, ∀ run ∈ rest.inits, product run < Word.count) (by
    simp only [Fits, List.infix_iff_prefix_suffix, List.mem_tails, List.mem_inits]
    constructor
    · rintro h run ⟨rest, hrun, hrest⟩
      exact h rest hrest run hrun
    · intro h rest hrest run hrun
      exact h run ⟨rest, hrun, hrest⟩)

theorem Fits.part (h : s.Fits) (haxes : axes <:+: s.dims) : (Shape.mk axes).Fits :=
  fun _ hpart => h _ (hpart.trans haxes)

theorem Fits.checkedProduct (h : (Shape.mk dims).Fits) : checkedProduct dims = some (product dims) := by
  induction dims using List.reverseRecOn with
  | nil => rfl
  | append_singleton dims n ih =>
    have hfront : Shape.checkedProduct dims = some (product dims) := ih (h.part (List.prefix_append _ _).isInfix)
    have hproduct : product (dims ++ [n]) = product dims * n := by simp
    have hword : product dims * n < Word.count := hproduct ▸ h _ List.infix_rfl
    rw [hproduct, Shape.checkedProduct, List.foldlM_append]
    rw [Shape.checkedProduct] at hfront
    simp [hfront, Word.checked_lt hword]

theorem Fits.checkedStrides (h : (Shape.mk dims).Fits) : checkedStrides dims = some (stridesOf dims) := by
  induction dims with
  | nil => rfl
  | cons n dims ih =>
    have hrest : Shape.checkedStrides dims = some (stridesOf dims) := ih (h.part (List.suffix_cons _ _).isInfix)
    cases dims with
    | nil => rfl
    | cons n' dims =>
      have hword : product dims * n' < Word.count := by
        rw [Nat.mul_comm]
        exact h _ (List.suffix_cons _ _).isInfix
      simp only [Shape.checkedStrides, hrest, stridesOf, List.headD_cons, Word.checked_lt hword, product_cons,
        Nat.mul_comm n', Option.bind_eq_bind, Option.bind_some]

/-- In a shape that fits, words are as good as numbers. -/
theorem exact_of_fits (h : s.Fits) : s.Exact where
  count := Fits.checkedProduct h
  strides := Fits.checkedStrides h
  around := by
    intro axis split hsplit
    obtain ⟨-, rfl⟩ := Kernel.Split.ofAxis_eq hsplit
    exact ⟨(h.part (List.take_prefix _ _).isInfix).checkedProduct,
      (h.part (List.drop_suffix _ _).isInfix).checkedProduct⟩
  place := fun hm => Nat.lt_trans hm.offset_lt (h _ List.infix_rfl)

/-- Two extents that are words, and no element: a product of three that is none. -/
example : Shape.checkedProduct [4294967296, 4294967296, 0] = none := rfl

end Shape

end ComponentFlow
