/-
  ComponentFlow.Proofs.Merging — broadcasting as an operation on lists of axes. Aligned at their last axes, the
  operands have some axes at each place, one from each operand that reaches so far. They fit if no two of them are
  extents that differ, an extent of one apart; then the result has there the extent, or else the first name, or else
  an extent of one (`Dim.merged`). As this speaks of any number of operands, merging some of them first changes nothing
  (`Dim.merged_merged_append`, `Dim.merged_append_merged`), and so neither does the grouping of three.

  - `Primitive.Merges`: the axes that operands broadcast to, place by place.
  - `Primitive.broadcastDims_ok`: broadcasting two operands finds these.
  - `Primitive.broadcasting_merges`: when broadcasting succeeds and with what, in any grouping and order.
-/
import ComponentFlow.Proofs.Inference

namespace ComponentFlow

/-! ## The axes at one place -/

namespace Dim

/-- An extent that does not stretch. -/
def rigid : Dim → Bool
  | .fixed n => n != 1
  | .named _ => false

def isNamed : Dim → Bool
  | .fixed _ => false
  | .named _ => true

/-- No two extents differ, but for extents of one. -/
def Fitting (axes : List Dim) : Prop :=
  ∀ m n, .fixed m ∈ axes → .fixed n ∈ axes → m ≠ 1 → n ≠ 1 → m = n

/-- The extent that is not one, or else the first name, or else an extent of one. -/
def merged (axes : List Dim) : Option Dim :=
  (axes.find? rigid).or ((axes.find? isNamed).or (axes.find? (· == .fixed 1)))

/-- The same, up to the name of an extent that varies. -/
def SameButName (d e : Dim) : Prop := d = e ∨ ∃ s t, d = .named s ∧ e = .named t

variable {xs ys : List Dim} {d e : Dim}

@[simp] theorem rigid_named (s : String) : (Dim.named s).rigid = false := rfl

@[simp] theorem rigid_one : (Dim.fixed 1).rigid = false := rfl

@[simp] theorem isNamed_fixed (n : Nat) : (Dim.fixed n).isNamed = false := rfl

@[simp] theorem isNamed_named (s : String) : (Dim.named s).isNamed = true := rfl

theorem rigid_iff : d.rigid = true ↔ ∃ n, d = .fixed n ∧ n ≠ 1 := by
  cases d <;> simp [rigid]

theorem isNamed_iff : d.isNamed = true ↔ ∃ s, d = .named s := by
  cases d <;> simp [isNamed]

theorem not_rigid_of_isNamed (h : d.isNamed = true) : d.rigid = false := by
  obtain ⟨s, rfl⟩ := isNamed_iff.mp h
  rfl

/-! ### Fitting -/

/-- Only the extents that do not stretch count. -/
theorem fitting_iff : Fitting xs ↔ ∀ d ∈ xs, ∀ e ∈ xs, d.rigid = true → e.rigid = true → d = e := by
  constructor
  · intro h d hd e he hrigid hrigid'
    obtain ⟨m, rfl, hm⟩ := rigid_iff.mp hrigid
    obtain ⟨n, rfl, hn⟩ := rigid_iff.mp hrigid'
    exact congrArg Dim.fixed (h m n hd he hm hn)
  · intro h m n hm hn hone hone'
    exact Dim.fixed.inj (h _ hm _ hn (rigid_iff.mpr ⟨m, rfl, hone⟩) (rigid_iff.mpr ⟨n, rfl, hone'⟩))

theorem Fitting.subset (h : Fitting ys) (hsub : xs ⊆ ys) : Fitting xs :=
  fun m n hm hn => h m n (hsub hm) (hsub hn)

theorem fitting_congr (h : ∀ d, d.rigid = true → (d ∈ xs ↔ d ∈ ys)) : Fitting xs ↔ Fitting ys := by
  rw [fitting_iff, fitting_iff]
  constructor
  · intro hfit d hd e he hrigid hrigid'
    exact hfit d ((h d hrigid).mpr hd) e ((h e hrigid').mpr he) hrigid hrigid'
  · intro hfit d hd e he hrigid hrigid'
    exact hfit d ((h d hrigid).mp hd) e ((h e hrigid').mp he) hrigid hrigid'

/-! ### Merging -/

/-- What axes merge to is the first of a kind of which there is one, when there is none of the kinds before. -/
theorem merged_cases (xs : List Dim) :
    (∃ d, d.rigid = true ∧ xs.find? rigid = some d ∧ merged xs = some d) ∨
    (∃ d, d.isNamed = true ∧ xs.find? rigid = none ∧ xs.find? isNamed = some d ∧ merged xs = some d) ∨
    (xs.find? rigid = none ∧ xs.find? isNamed = none ∧ xs.find? (· == .fixed 1) = some (.fixed 1) ∧
      merged xs = some (.fixed 1)) ∨
    (xs = [] ∧ merged xs = none) := by
  rcases hrigid : xs.find? rigid with _ | d
  · rcases hnamed : xs.find? isNamed with _ | d
    · rcases hone : xs.find? (· == .fixed 1) with _ | d
      · refine .inr (.inr (.inr ⟨?_, by simp [merged, hrigid, hnamed, hone]⟩))
        rw [List.eq_nil_iff_forall_not_mem]
        intro d hd
        cases d with
        | named s => exact List.find?_eq_none.mp hnamed _ hd rfl
        | fixed n =>
          have hn : ¬ n = 1 := by simpa using List.find?_eq_none.mp hone _ hd
          exact List.find?_eq_none.mp hrigid _ hd (rigid_iff.mpr ⟨n, rfl, hn⟩)
      · obtain rfl : d = .fixed 1 := by simpa using List.find?_some hone
        exact .inr (.inr (.inl ⟨rfl, rfl, hone, by simp [merged, hrigid, hnamed, hone]⟩))
    · exact .inr (.inl ⟨d, List.find?_some hnamed, rfl, rfl, by simp [merged, hrigid, hnamed]⟩)
  · exact .inl ⟨d, List.find?_some hrigid, rfl, by simp [merged, hrigid]⟩

theorem mem_of_merged (h : merged xs = some d) : d ∈ xs := by
  rcases merged_cases xs with ⟨e, -, he, hmerged⟩ | ⟨e, -, -, he, hmerged⟩ | ⟨-, -, he, hmerged⟩ | ⟨-, hmerged⟩
  · exact Option.some.inj (hmerged.symm.trans h) ▸ List.mem_of_find?_eq_some he
  · exact Option.some.inj (hmerged.symm.trans h) ▸ List.mem_of_find?_eq_some he
  · exact Option.some.inj (hmerged.symm.trans h) ▸ List.mem_of_find?_eq_some he
  · rw [hmerged] at h
    cases h

theorem exists_merged (d : Dim) (xs : List Dim) : ∃ e, merged (d :: xs) = some e := by
  rcases merged_cases (d :: xs) with ⟨e, -, -, h⟩ | ⟨e, -, -, -, h⟩ | ⟨-, -, -, h⟩ | ⟨h, -⟩
  · exact ⟨e, h⟩
  · exact ⟨e, h⟩
  · exact ⟨.fixed 1, h⟩
  · cases h

/-- The axis of one operand stays as it is. -/
theorem merged_toList (axis : Option Dim) : merged axis.toList = axis := by
  cases axis with
  | none => rfl
  | some d =>
    obtain ⟨e, he⟩ := exists_merged d []
    obtain rfl : e = d := List.mem_singleton.mp (mem_of_merged he)
    exact he

theorem fitting_toList (axis : Option Dim) : Fitting axis.toList := by
  intro m n hm hn _ _
  rw [Option.mem_toList] at hm hn
  exact Dim.fixed.inj (Option.some.inj (hm.symm.trans hn))

/-- Axes may be merged first that stand before others. -/
theorem merged_merged_append (xs ys : List Dim) : merged ((merged xs).toList ++ ys) = merged (xs ++ ys) := by
  rcases merged_cases xs with ⟨d, hd, hrigid, h⟩ | ⟨d, hd, hrigid, hnamed, h⟩ | ⟨hrigid, hnamed, hone, h⟩ | ⟨rfl, h⟩
  · rw [h]
    simp [merged, hd, hrigid]
  · rw [h]
    simp [merged, hd, not_rigid_of_isNamed hd, hrigid, hnamed]
  · rw [h]
    simp [merged, rigid, isNamed, hrigid, hnamed, hone]
  · rw [h]
    rfl

/-- Axes may be merged first that stand behind others. -/
theorem merged_append_merged (xs ys : List Dim) : merged (xs ++ (merged ys).toList) = merged (xs ++ ys) := by
  rcases merged_cases ys with ⟨d, hd, hrigid, h⟩ | ⟨d, hd, hrigid, hnamed, h⟩ | ⟨hrigid, hnamed, hone, h⟩ | ⟨rfl, h⟩
  · rw [h]
    simp [merged, hd, hrigid, Option.or_assoc]
  · rw [h]
    simp [merged, hd, not_rigid_of_isNamed hd, hrigid, hnamed]
  · rw [h]
    simp [merged, rigid, isNamed, hrigid, hnamed, hone]
  · rw [h]
    rfl

/-- An extent that does not stretch is what axes merge to if it is one of them and they fit. -/
theorem mem_merged (h : Fitting xs) (hd : d.rigid = true) : d ∈ (merged xs).toList ↔ d ∈ xs := by
  rw [Option.mem_toList]
  constructor
  · exact mem_of_merged
  · intro hmem
    rcases merged_cases xs with ⟨e, he, hrigid, hmerged⟩ | ⟨-, -, hrigid, -⟩ | ⟨hrigid, -⟩ | ⟨rfl, -⟩
    · rw [fitting_iff.mp h d hmem e (List.mem_of_find?_eq_some hrigid) hd he]
      exact hmerged
    · exact absurd hd (List.find?_eq_none.mp hrigid d hmem)
    · exact absurd hd (List.find?_eq_none.mp hrigid d hmem)
    · cases hmem

/-- Axes may be merged first wherever they stand. -/
theorem merged_between (xs ys zs : List Dim) :
    merged (xs ++ ((merged ys).toList ++ zs)) = merged (xs ++ (ys ++ zs)) := by
  rw [← merged_append_merged, merged_merged_append, merged_append_merged]

theorem fitting_between (h : Fitting ys) (xs zs : List Dim) :
    Fitting (xs ++ ((merged ys).toList ++ zs)) ↔ Fitting (xs ++ (ys ++ zs)) := by
  refine fitting_congr fun d hd => ?_
  simp only [List.mem_append, mem_merged h hd]

/-- In another order at most another name is the first one. -/
theorem merged_perm (hperm : xs.Perm ys) (h : Fitting xs) : Option.Rel SameButName (merged xs) (merged ys) := by
  have hkept : ∀ {p : Dim → Bool}, xs.find? p = none → ∀ {e}, ys.find? p ≠ some e := by
    intro p hp e he
    exact List.find?_eq_none.mp hp e (hperm.mem_iff.mpr (List.mem_of_find?_eq_some he)) (List.find?_some he)
  rcases merged_cases xs with ⟨d, hd, hrigid, hx⟩ | ⟨d, hd, hrigid, hnamed, hx⟩ | ⟨hrigid, hnamed, hone, hx⟩ | ⟨rfl, hx⟩
  · have hmem : d ∈ ys := hperm.mem_iff.mp (List.mem_of_find?_eq_some hrigid)
    have hy : merged ys = some d := Option.mem_toList.mp ((mem_merged (h.subset hperm.symm.subset) hd).mpr hmem)
    rw [hx, hy]
    exact .some (.inl rfl)
  · have hmem : d ∈ ys := hperm.mem_iff.mp (List.mem_of_find?_eq_some hnamed)
    rcases merged_cases ys with ⟨e, -, he, -⟩ | ⟨e, he, -, -, hy⟩ | ⟨-, he, -, -⟩ | ⟨rfl, -⟩
    · exact absurd he (hkept hrigid)
    · rw [hx, hy]
      obtain ⟨s, rfl⟩ := isNamed_iff.mp hd
      obtain ⟨t, rfl⟩ := isNamed_iff.mp he
      exact .some (.inr ⟨s, t, rfl, rfl⟩)
    · exact absurd hd (List.find?_eq_none.mp he d hmem)
    · cases hmem
  · have hmem : .fixed 1 ∈ ys := hperm.mem_iff.mp (List.mem_of_find?_eq_some hone)
    rcases merged_cases ys with ⟨e, -, he, -⟩ | ⟨e, -, -, he, -⟩ | ⟨-, -, -, hy⟩ | ⟨rfl, -⟩
    · exact absurd he (hkept hrigid)
    · exact absurd he (hkept hnamed)
    · rw [hx, hy]
      exact .some (.inl rfl)
    · cases hmem
  · obtain rfl : ys = [] := hperm.nil_eq.symm
    exact .none

theorem fitting_extents {m n : Nat} : Fitting [.fixed m, .fixed n] ↔ m = 1 ∨ n = 1 ∨ m = n := by
  constructor
  · intro h
    have := h m n (by simp) (by simp)
    omega
  · intro h k l hk hl hk1 hl1
    simp only [List.mem_cons, List.not_mem_nil, Dim.fixed.injEq, or_false] at hk hl
    omega

/-- Two axes broadcast if they fit, to what they merge to. -/
theorem broadcast_iff {a b : Dim} : a.broadcast b = some d ↔ Fitting [a, b] ∧ merged [a, b] = some d := by
  have hrigid : ∀ {n : Nat}, n ≠ 1 → (Dim.fixed n).rigid = true := fun hn => rigid_iff.mpr ⟨_, rfl, hn⟩
  cases a with
  | named s =>
    cases b with
    | named t => simp [broadcast, Fitting, merged]
    | fixed n => by_cases hn : n = 1 <;> simp [broadcast, Fitting, merged, List.find?_cons, hn, hrigid]
  | fixed m =>
    cases b with
    | named t => by_cases hm : m = 1 <;> simp [broadcast, Fitting, merged, List.find?_cons, hm, hrigid]
    | fixed n =>
      rw [fitting_extents]
      by_cases hm : m = 1
      · by_cases hn : n = 1 <;> simp [broadcast, merged, hm, hn, hrigid]
      · by_cases hn : n = 1
        · simp [broadcast, merged, hm, hn, hrigid]
        · by_cases hmn : m = n <;> simp [broadcast, merged, hm, hn, hmn, hrigid]

end Dim

/-! ## Operands aligned at their last axes -/

namespace Primitive

open Dim (Fitting merged SameButName)

/-- The axes at place `i` from the last one backwards, of the operands that reach so far. -/
def axesAt (operands : List (List Dim)) (i : Nat) : List Dim := operands.filterMap fun dims => dims.reverse[i]?

/-- Operands broadcast to these axes. -/
structure Merges (operands : List (List Dim)) (dims : List Dim) : Prop where
  fits : ∀ i, Fitting (axesAt operands i)
  axis : ∀ i, dims.reverse[i]? = merged (axesAt operands i)

variable {as bs cs ds es mids : List Dim} {operands others : List (List Dim)}

theorem axesAt_append (operands others : List (List Dim)) (i : Nat) :
    axesAt (operands ++ others) i = axesAt operands i ++ axesAt others i := List.filterMap_append

theorem axesAt_single (ds : List Dim) (i : Nat) : axesAt [ds] i = ds.reverse[i]?.toList := by
  cases h : ds.reverse[i]? <;> simp [axesAt, h]

theorem broadcastReversed_iff : broadcastReversed as bs = some ds ↔
    ∀ i : Nat, Fitting (as[i]?.toList ++ bs[i]?.toList) ∧ ds[i]? = merged (as[i]?.toList ++ bs[i]?.toList) := by
  induction as generalizing bs ds with
  | nil =>
    simp only [broadcastReversed, List.getElem?_nil, Option.toList_none, List.nil_append, Dim.merged_toList,
      Dim.fitting_toList, true_and, Option.some.injEq]
    exact ⟨fun h i => h ▸ rfl, fun h => (List.ext_getElem? h).symm⟩
  | cons a as ih =>
    cases bs with
    | nil =>
      simp only [broadcastReversed, List.getElem?_nil, Option.toList_none, List.append_nil, Dim.merged_toList,
        Dim.fitting_toList, true_and, Option.some.injEq]
      exact ⟨fun h i => h ▸ rfl, fun h => (List.ext_getElem? h).symm⟩
    | cons b bs =>
      simp only [broadcastReversed, Option.bind_eq_bind, Option.bind_eq_some_iff, ih, Dim.broadcast_iff]
      rw [← Nat.and_forall_add_one]
      constructor
      · rintro ⟨d, hd, rest, hrest, hds⟩
        obtain rfl := Option.some.inj hds
        exact ⟨⟨hd.1, hd.2.symm⟩, hrest⟩
      · rintro ⟨⟨hfit, hhead⟩, hrest⟩
        obtain ⟨d, hd⟩ := Dim.exists_merged a [b]
        have hds : ds[0]? = some d := hhead.trans hd
        cases ds with
        | nil => cases hds
        | cons d' rest =>
          obtain rfl : d' = d := Option.some.inj hds
          exact ⟨d', ⟨hfit, hd⟩, rest, hrest, rfl⟩

theorem axesAt_pair (as bs : List Dim) (i : Nat) :
    axesAt [as, bs] i = as.reverse[i]?.toList ++ bs.reverse[i]?.toList := by
  rw [← axesAt_single, ← axesAt_single, ← axesAt_append, List.singleton_append]

theorem broadcastDims_ok : broadcastDims as bs = .ok ds ↔ Merges [as, bs] ds := by
  have hreversed : broadcastDims as bs = .ok ds ↔ broadcastReversed as.reverse bs.reverse = some ds.reverse := by
    unfold broadcastDims
    cases broadcastReversed as.reverse bs.reverse with
    | none => simp
    | some es => simp [List.reverse_eq_iff]
  rw [hreversed, broadcastReversed_iff]
  constructor
  · intro h
    exact ⟨fun i => axesAt_pair as bs i ▸ (h i).1, fun i => axesAt_pair as bs i ▸ (h i).2⟩
  · intro h i
    rw [← axesAt_pair]
    exact ⟨h.fits i, h.axis i⟩

theorem exists_broadcastReversed (h : ∀ i : Nat, Fitting (as[i]?.toList ++ bs[i]?.toList)) :
    ∃ ds, broadcastReversed as bs = some ds := by
  induction as generalizing bs with
  | nil => exact ⟨bs, rfl⟩
  | cons a as ih =>
    cases bs with
    | nil => exact ⟨a :: as, rfl⟩
    | cons b bs =>
      obtain ⟨d, hd⟩ := Dim.exists_merged a [b]
      have hhead : a.broadcast b = some d := Dim.broadcast_iff.mpr ⟨h 0, hd⟩
      obtain ⟨rest, hrest⟩ := ih fun i => h (i + 1)
      exact ⟨d :: rest, by simp [broadcastReversed, hhead, hrest]⟩

theorem exists_broadcastDims (h : ∀ i, Fitting (axesAt [as, bs] i)) : ∃ ds, broadcastDims as bs = .ok ds := by
  obtain ⟨ds, hds⟩ := exists_broadcastReversed fun i => axesAt_pair as bs i ▸ h i
  exact ⟨ds.reverse, by simp [broadcastDims, hds]⟩

/-! ### Grouping and order -/

/-- Some of the operands may be broadcast first. -/
theorem Merges.between (h : Merges operands mids) (before behind : List (List Dim)) :
    Merges (before ++ (mids :: behind)) ds ↔ Merges (before ++ (operands ++ behind)) ds := by
  have haxes : ∀ i, axesAt (before ++ (mids :: behind)) i =
      axesAt before i ++ ((merged (axesAt operands i)).toList ++ axesAt behind i) := by
    intro i
    rw [← h.axis i, ← axesAt_single, ← axesAt_append, ← axesAt_append, List.singleton_append]
  have hfits : ∀ i, Fitting (axesAt (before ++ (mids :: behind)) i) ↔
      Fitting (axesAt (before ++ (operands ++ behind)) i) := by
    intro i
    rw [haxes, axesAt_append, axesAt_append]
    exact Dim.fitting_between (h.fits i) _ _
  have hmerged : ∀ i, merged (axesAt (before ++ (mids :: behind)) i) =
      merged (axesAt (before ++ (operands ++ behind)) i) := by
    intro i
    rw [haxes, axesAt_append, axesAt_append]
    exact Dim.merged_between _ _ _
  constructor
  · intro hds
    exact ⟨fun i => (hfits i).mp (hds.fits i), fun i => (hds.axis i).trans (hmerged i)⟩
  · intro hds
    exact ⟨fun i => (hfits i).mpr (hds.fits i), fun i => (hds.axis i).trans (hmerged i).symm⟩

/-- Operands that fit among others broadcast. -/
theorem Merges.exists_pair (h : Merges operands ds) (has : as ∈ operands) (hbs : bs ∈ operands) :
    ∃ mids, broadcastDims as bs = .ok mids := by
  refine exists_broadcastDims fun i => (h.fits i).subset (List.filterMap_subset _ ?_)
  simp [has, hbs]

theorem broadcastDims_left : (do let mids ← broadcastDims as bs; broadcastDims mids cs) = .ok ds ↔
    Merges [as, bs, cs] ds := by
  rw [broadcastDims_then]
  constructor
  · rintro ⟨mids, hmids, hds⟩
    exact ((broadcastDims_ok.mp hmids).between [] [cs]).mp (broadcastDims_ok.mp hds)
  · intro h
    obtain ⟨mids, hmids⟩ : ∃ mids, broadcastDims as bs = .ok mids := h.exists_pair (by simp) (by simp)
    exact ⟨mids, hmids, broadcastDims_ok.mpr (((broadcastDims_ok.mp hmids).between [] [cs]).mpr h)⟩

theorem broadcastDims_right : (do let mids ← broadcastDims bs cs; broadcastDims as mids) = .ok ds ↔
    Merges [as, bs, cs] ds := by
  rw [broadcastDims_then]
  constructor
  · rintro ⟨mids, hmids, hds⟩
    exact ((broadcastDims_ok.mp hmids).between [as] []).mp (broadcastDims_ok.mp hds)
  · intro h
    obtain ⟨mids, hmids⟩ : ∃ mids, broadcastDims bs cs = .ok mids := h.exists_pair (by simp) (by simp)
    exact ⟨mids, hmids, broadcastDims_ok.mpr (((broadcastDims_ok.mp hmids).between [as] []).mpr h)⟩

/-- In another order operands broadcast to the same axes, up to the names that are kept. -/
theorem Merges.perm (h : Merges operands ds) (h' : Merges others es) (hperm : operands.Perm others) :
    List.Forall₂ SameButName ds es := by
  have hall : ∀ {xs ys : List Dim}, (∀ i : Nat, Option.Rel SameButName xs[i]? ys[i]?) →
      List.Forall₂ SameButName xs ys := by
    intro xs
    induction xs with
    | nil =>
      intro ys hrel
      cases ys with
      | nil => exact .nil
      | cons y ys => cases hrel 0
    | cons x xs ih =>
      intro ys hrel
      cases ys with
      | nil => cases hrel 0
      | cons y ys =>
        have hhead : Option.Rel SameButName (some x) (some y) := hrel 0
        cases hhead with
        | some hxy => exact .cons hxy (ih fun i => hrel (i + 1))
  refine List.forall₂_reverse_iff.mp (hall fun i => ?_)
  rw [h.axis i, h'.axis i]
  exact Dim.merged_perm (hperm.filterMap _) (h.fits i)

/-- Two operands broadcast exactly if, aligned at their last axes, they have at no place two extents that differ and are
    not one. In each place the result has such an extent if there is one, or else the name of the left operand, or else
    that of the right one, or else an extent of one. So of three operands the first two may be broadcast first as well
    as the last two, and changing sides changes names at most. -/
theorem broadcasting_merges (as bs cs : List Dim) :
    ((∃ ds, broadcastDims as bs = .ok ds) ↔ ∀ i, Fitting (axesAt [as, bs] i)) ∧
    (∀ ds, broadcastDims as bs = .ok ds → ∀ i, ds.reverse[i]? = merged (axesAt [as, bs] i)) ∧
    (∀ ds, (do let mids ← broadcastDims as bs; broadcastDims mids cs) = .ok ds ↔
      (do let mids ← broadcastDims bs cs; broadcastDims as mids) = .ok ds) ∧
    ∀ ds, broadcastDims as bs = .ok ds → ∃ es, broadcastDims bs as = .ok es ∧ List.Forall₂ SameButName ds es := by
  refine ⟨⟨?_, exists_broadcastDims⟩, ?_, ?_, ?_⟩
  · rintro ⟨ds, hds⟩
    exact (broadcastDims_ok.mp hds).fits
  · intro ds hds
    exact (broadcastDims_ok.mp hds).axis
  · intro ds
    rw [broadcastDims_left, broadcastDims_right]
  · intro ds hds
    have hmerges : Merges [as, bs] ds := broadcastDims_ok.mp hds
    obtain ⟨es, hes⟩ : ∃ es, broadcastDims bs as = .ok es := hmerges.exists_pair (by simp) (by simp)
    exact ⟨es, hes, hmerges.perm (broadcastDims_ok.mp hes) (.swap bs as [])⟩

end Primitive

end ComponentFlow
