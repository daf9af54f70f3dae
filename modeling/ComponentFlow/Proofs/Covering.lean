/-
  ComponentFlow.Proofs.Covering — specs that say less. One spec covers another when its element
  type is the same and every axis that it fixes is fixed to the same extent there. A spec admits a
  tensor exactly when it covers the tensor's own spec, and two specs that cover a third agree
  (`TensorSpec.compatible_of_covers`), which agreement alone does not give: it is not transitive.
-/
import ComponentFlow.Tensor.Basic
import Mathlib.Data.List.Forall2

namespace ComponentFlow

namespace Dim

/-- A fixed extent covers itself only, a named one every axis. -/
def Covers : Dim → Dim → Prop
  | .fixed n, d => d = .fixed n
  | .named _, _ => True

theorem covers_refl (d : Dim) : d.Covers d := by
  cases d <;> simp [Covers]

theorem covers_trans {a b c : Dim} (hab : a.Covers b) (hbc : b.Covers c) : a.Covers c := by
  cases a with
  | fixed n =>
    have hb : b = .fixed n := hab
    subst hb
    exact hbc
  | named s => trivial

theorem covers_fixed_iff {d : Dim} {n : Nat} : d.Covers (.fixed n) ↔ d.admits n = true := by
  cases d with
  | fixed m =>
    simp only [Covers, admits, Dim.fixed.injEq, beq_iff_eq]
    exact eq_comm
  | named s => simp [Covers, admits]

theorem compatible_fixed_iff {d : Dim} {n : Nat} : d.compatible (.fixed n) = true ↔ d.Covers (.fixed n) := by
  cases d with
  | fixed m =>
    simp only [Covers, compatible, Dim.fixed.injEq, beq_iff_eq]
    exact eq_comm
  | named s => simp [Covers, compatible]

theorem compatible_refl (d : Dim) : d.compatible d = true := by
  cases d <;> simp [compatible]

/-- Axes that agree still agree when less is said of them. -/
theorem compatible_mono {a b c d : Dim} (ha : a.Covers c) (hb : b.Covers d) (h : c.compatible d = true) :
    a.compatible b = true := by
  cases a with
  | named s => rfl
  | fixed m =>
    cases b with
    | named s => rfl
    | fixed n =>
      have hm : c = .fixed m := ha
      have hn : d = .fixed n := hb
      rw [hm, hn] at h
      exact h

/-- The axes of one list cover those of the other in order. -/
abbrev AllCover : List Dim → List Dim → Prop := List.Forall₂ Covers

theorem allCover_refl (ds : List Dim) : AllCover ds ds := by
  induction ds with
  | nil => exact .nil
  | cons d ds ih => exact .cons (covers_refl d) ih

theorem allCover_trans {as bs cs : List Dim} (hab : AllCover as bs) (hbc : AllCover bs cs) : AllCover as cs := by
  induction hab generalizing cs with
  | nil => exact hbc
  | cons h _ ih =>
    cases hbc with
    | cons h' hbc => exact .cons (covers_trans h h') (ih hbc)

/-- An axis that is fixed is fixed to that extent in every list that is covered. -/
theorem fixed_at_of_allCover {as bs : List Dim} (h : AllCover as bs) {i n : Nat} (hi : as[i]? = some (.fixed n)) :
    bs[i]? = some (.fixed n) := by
  induction h generalizing i with
  | nil => cases hi
  | cons hab _ ih =>
    cases i with
    | zero =>
      cases hi
      exact congrArg some hab
    | succ i => exact ih hi

theorem allAdmit_iff {ds : List Dim} {ns : List Nat} :
    allAdmit ds ns = true ↔ AllCover ds (ns.map .fixed) := by
  induction ds generalizing ns with
  | nil => cases ns <;> simp [allAdmit]
  | cons d ds ih =>
    cases ns with
    | nil => simp [allAdmit]
    | cons n ns => simp [allAdmit, ih, covers_fixed_iff]

theorem allCompatible_fixed_iff {ds : List Dim} {ns : List Nat} :
    allCompatible ds (ns.map .fixed) = true ↔ AllCover ds (ns.map .fixed) := by
  induction ds generalizing ns with
  | nil => cases ns <;> simp [allCompatible]
  | cons d ds ih =>
    cases ns with
    | nil => simp [allCompatible]
    | cons n ns => simp [allCompatible, ih, compatible_fixed_iff]

theorem eq_of_fixed_covers {ms ns : List Nat} (h : AllCover (ms.map .fixed) (ns.map .fixed)) : ms = ns := by
  have hpairs := List.forall₂_map_right_iff.mp (List.forall₂_map_left_iff.mp h)
  have hsame : List.Forall₂ Eq ms ns := hpairs.imp fun _ _ hmn => (Dim.fixed.inj hmn).symm
  rwa [List.forall₂_eq_eq_eq] at hsame

theorem length_of_allAdmit {ds : List Dim} {ns : List Nat} (h : allAdmit ds ns = true) : ds.length = ns.length := by
  simpa using (allAdmit_iff.mp h).length_eq

theorem length_of_allCompatible {as bs : List Dim} (h : allCompatible as bs = true) : as.length = bs.length := by
  induction as generalizing bs with
  | nil =>
    cases bs with
    | nil => rfl
    | cons _ _ => cases h
  | cons a as ih =>
    cases bs with
    | nil => cases h
    | cons b bs =>
      simp only [allCompatible, Bool.and_eq_true] at h
      simp [ih h.2]

theorem allCompatible_refl (ds : List Dim) : allCompatible ds ds = true := by
  induction ds with
  | nil => rfl
  | cons d ds ih => simp [allCompatible, compatible_refl, ih]

theorem allCompatible_mono {as bs cs ds : List Dim} (ha : AllCover as cs) (hb : AllCover bs ds)
    (h : allCompatible cs ds = true) : allCompatible as bs = true := by
  induction ha generalizing bs ds with
  | nil =>
    cases hb with
    | nil => rfl
    | cons _ _ => cases h
  | cons hac _ ih =>
    cases hb with
    | nil => cases h
    | cons hbd hb =>
      simp only [allCompatible, Bool.and_eq_true] at h ⊢
      exact ⟨compatible_mono hac hbd h.1, ih hb h.2⟩

end Dim

namespace TensorSpec

/-- Says no more than the other spec. -/
def Covers (a b : TensorSpec) : Prop := a.dtype = b.dtype ∧ Dim.AllCover a.dims b.dims

theorem covers_refl (s : TensorSpec) : s.Covers s := ⟨rfl, Dim.allCover_refl _⟩

theorem covers_trans {a b c : TensorSpec} (hab : a.Covers b) (hbc : b.Covers c) : a.Covers c :=
  ⟨hab.1.trans hbc.1, Dim.allCover_trans hab.2 hbc.2⟩

theorem covers_withDType {a b : TensorSpec} (h : a.Covers b) (d : DType) : (a.withDType d).Covers (b.withDType d) :=
  ⟨rfl, h.2⟩

theorem Covers.rank_eq {a b : TensorSpec} (h : a.Covers b) : a.rank = b.rank := h.2.length_eq

theorem admits_iff_covers {s : TensorSpec} {t : Tensor} : s.admits t = true ↔ s.Covers t.spec := by
  simp only [admits, Covers, Tensor.spec, ofShape, Bool.and_eq_true, beq_iff_eq, Dim.allAdmit_iff]
  exact and_congr_left fun _ => eq_comm

theorem compatible_spec_iff {s : TensorSpec} {t : Tensor} : s.compatible t.spec = true ↔ s.admits t = true := by
  rw [admits_iff_covers]
  simp [compatible, Covers, Tensor.spec, ofShape, Dim.allCompatible_fixed_iff]

theorem compatible_refl (s : TensorSpec) : s.compatible s = true := by simp [compatible, Dim.allCompatible_refl]

theorem compatible_mono {a b c d : TensorSpec} (ha : a.Covers c) (hb : b.Covers d) (h : c.compatible d = true) :
    a.compatible b = true := by
  simp only [compatible, Bool.and_eq_true, beq_iff_eq] at h ⊢
  exact ⟨ha.1.trans (h.1.trans hb.1.symm), Dim.allCompatible_mono ha.2 hb.2 h.2⟩

theorem compatible_of_covers {a b c : TensorSpec} (ha : a.Covers c) (hb : b.Covers c) : a.compatible b = true :=
  compatible_mono ha hb (compatible_refl c)

theorem admits_of_covers {a b : TensorSpec} {t : Tensor} (h : a.Covers b) (hb : b.admits t = true) :
    a.admits t = true :=
  admits_iff_covers.mpr (covers_trans h (admits_iff_covers.mp hb))

theorem admits_self (t : Tensor) : t.spec.admits t = true := admits_iff_covers.mpr (covers_refl _)

end TensorSpec

end ComponentFlow
