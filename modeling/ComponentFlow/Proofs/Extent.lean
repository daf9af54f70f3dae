/-
  ComponentFlow.Proofs.Extent — counting elements. An axis splits a shape into the counts before,
  along and behind it, whose product counts all elements; taking the axis away or setting it to one
  leaves the outer times the inner count.

  - `Split.index_lt`: the flat indices of a lane stay below the number of elements.
  - `Primitive.broadcast_fixed`: fixed axes broadcast to fixed axes, to which both sides stretch.
  - `Shape.BroadcastTo`: the shape that shapes stretch to, and that has no other extents than theirs.
  - `Primitive.broadcastDims_of_joins`: broadcasting finds it.
-/
import ComponentFlow.Kernel.Axis
import ComponentFlow.Kernel.Elementwise
import Mathlib.Algebra.BigOperators.Group.List.Basic
import Mathlib.Data.List.Forall2

namespace ComponentFlow

namespace Shape

/-! ## Products of extents -/

@[simp] theorem product_nil : product [] = 1 := rfl

@[simp] theorem product_cons (n : Nat) (ns : List Nat) : product (n :: ns) = n * product ns := rfl

@[simp] theorem product_append (ms ns : List Nat) : product (ms ++ ns) = product ms * product ns := List.prod_append

theorem pos_of_product_pos {n : Nat} {ns : List Nat} (h : 0 < product (n :: ns)) : 0 < n ∧ 0 < product ns := by
  rw [product_cons] at h
  exact ⟨Nat.pos_of_mul_pos_right h, Nat.pos_of_mul_pos_left h⟩

theorem product_insertIdx {dims : List Nat} {axis n : Nat} (h : axis ≤ dims.length) :
    product (dims.insertIdx axis n) = n * product dims := by
  induction axis generalizing dims with
  | zero => rfl
  | succ axis ih =>
    cases dims with
    | nil => cases h
    | cons m dims =>
      rw [List.insertIdx_succ_cons, product_cons, ih (Nat.le_of_succ_le_succ h), product_cons, Nat.mul_left_comm]

theorem product_ones (dims : List Nat) : product (dims.map fun _ => 1) = 1 := by
  induction dims with
  | nil => rfl
  | cons n dims ih => rw [List.map_cons, product_cons, ih]

end Shape

namespace Kernel.Split

variable {dims : List Nat} {axis : Nat} {s : Split}

theorem ofAxis_ok (h : axis < dims.length) : ∃ s, ofAxis dims axis = .ok s := by
  unfold ofAxis
  rw [List.getElem?_eq_getElem h]
  exact ⟨_, rfl⟩

theorem ofAxis_eq (h : ofAxis dims axis = .ok s) : axis < dims.length ∧
    s = ⟨Shape.product (dims.take axis), dims[axis]?.getD 0, Shape.product (dims.drop (axis + 1))⟩ := by
  unfold ofAxis at h
  split at h
  · next extent hextent =>
    cases h
    exact ⟨(List.getElem?_eq_some_iff.mp hextent).1, by rw [hextent]; rfl⟩
  · cases h

/-- The three counts make up all elements. -/
theorem product_eq (h : ofAxis dims axis = .ok s) : Shape.product dims = s.outer * s.extent * s.inner := by
  obtain ⟨hlt, rfl⟩ := ofAxis_eq h
  have hparts : dims = dims.take axis ++ dims[axis] :: dims.drop (axis + 1) := by
    rw [List.getElem_cons_drop, List.take_append_drop]
  have hproduct := congrArg Shape.product hparts
  rw [Shape.product_append, Shape.product_cons, ← Nat.mul_assoc] at hproduct
  rw [hproduct, List.getElem?_eq_getElem hlt]
  rfl

theorem product_eraseIdx (h : ofAxis dims axis = .ok s) : Shape.product (dims.eraseIdx axis) = s.outer * s.inner := by
  obtain ⟨-, rfl⟩ := ofAxis_eq h
  rw [List.eraseIdx_eq_take_drop_succ, Shape.product_append]

theorem product_set_one (h : ofAxis dims axis = .ok s) : Shape.product (dims.set axis 1) = s.outer * s.inner := by
  obtain ⟨hlt, rfl⟩ := ofAxis_eq h
  rw [List.set_eq_take_append_cons_drop, if_pos hlt]
  simp

theorem index_lt {o k i : Nat} (ho : o < s.outer) (hk : k < s.extent) (hi : i < s.inner) :
    s.index o k i < s.outer * s.extent * s.inner := by
  have hrow : o * s.extent + k + 1 ≤ s.outer * s.extent := by
    have := Nat.mul_le_mul_right s.extent (Nat.succ_le_of_lt ho)
    rw [Nat.succ_mul] at this
    omega
  have := Nat.mul_le_mul_right s.inner hrow
  rw [Nat.succ_mul] at this
  unfold index
  omega

end Kernel.Split

/-! ## Broadcasting -/

/-- Axes that stretch to others, both counted from the last one backwards: an extent of one fits
    everywhere, any other only itself, and what is missing in front fits too. -/
inductive Shape.Stretches : List Nat → List Nat → Prop
  | nil {outs : List Nat} : Stretches [] outs
  | cons {n out : Nat} {ins outs : List Nat} : n = 1 ∨ n = out → Stretches ins outs →
      Stretches (n :: ins) (out :: outs)

namespace Shape

theorem stretches_refl (dims : List Nat) : Stretches dims dims := by
  induction dims with
  | nil => exact .nil
  | cons n dims ih => exact .cons (.inr rfl) ih

theorem Stretches.trans {as bs cs : List Nat} (h : Stretches as bs) (h' : Stretches bs cs) : Stretches as cs := by
  induction h generalizing cs with
  | nil => exact .nil
  | @cons n out _ _ hn _ ih =>
    cases h' with
    | @cons _ out' _ _ hout h' =>
      refine .cons ?_ (ih h')
      rcases hn with hn | rfl
      · exact .inl hn
      · exact hout

/-- In order, axes fit on the last ones of those that they stretch to. -/
theorem Stretches.last_axes {ins outs : List Nat} (h : Stretches ins.reverse outs.reverse) :
    ∃ lead axes, outs = lead ++ axes ∧ List.Forall₂ (fun n out => n = 1 ∨ n = out) ins axes := by
  have hfront : ∀ {as bs}, Stretches as bs →
      ∃ axes rest, bs = axes ++ rest ∧ List.Forall₂ (fun n out => n = 1 ∨ n = out) as axes := by
    intro as bs hab
    induction hab with
    | nil => exact ⟨[], _, rfl, .nil⟩
    | cons hn _ ih =>
      obtain ⟨axes, rest, rfl, hfit⟩ := ih
      exact ⟨_ :: axes, rest, rfl, .cons hn hfit⟩
  obtain ⟨axes, rest, houts, hfit⟩ := hfront h
  refine ⟨rest.reverse, axes.reverse, ?_, ?_⟩
  · rw [← List.reverse_append, ← houts, List.reverse_reverse]
  · have hback := List.rel_reverse hfit
    rwa [List.reverse_reverse] at hback

theorem Stretches.length_le {as outs : List Nat} (h : Stretches as outs) : as.length ≤ outs.length := by
  induction h with
  | nil => exact Nat.zero_le _
  | cons _ _ ih => exact Nat.succ_le_succ ih

theorem Stretches.getElem? {as outs : List Nat} (h : Stretches as outs) {k n : Nat} (hn : as[k]? = some n) :
    ∃ out, outs[k]? = some out ∧ (n = 1 ∨ n = out) := by
  induction h generalizing k with
  | nil => cases hn
  | cons hfit _ ih =>
    cases k with
    | zero =>
      cases hn
      exact ⟨_, rfl, hfit⟩
    | succ k => exact ih hn

section Joining

variable {as bs cs outs : List Nat}

/-- Axes broadcast to others, all counted from the last one backwards: each list stretches to them, and each of them
    is that of one of the lists. -/
structure Joins (lists : List (List Nat)) (outs : List Nat) : Prop where
  stretches : ∀ dims ∈ lists, Stretches dims outs
  attained : ∀ k < outs.length, ∃ dims ∈ lists, dims[k]? = outs[k]?

/-- The shape that these shapes broadcast to. -/
def BroadcastTo (shapes : List Shape) (shape : Shape) : Prop :=
  Joins (shapes.map fun s => s.dims.reverse) shape.dims.reverse

namespace Joins

theorem pair_iff : Joins [as, bs] outs ↔ Stretches as outs ∧ Stretches bs outs ∧
    ∀ k < outs.length, as[k]? = outs[k]? ∨ bs[k]? = outs[k]? := by
  constructor
  · rintro ⟨hstretches, hattained⟩
    exact ⟨hstretches as (by simp), hstretches bs (by simp), fun k hk => by simpa using hattained k hk⟩
  · rintro ⟨has, hbs, hattained⟩
    exact ⟨by simpa using ⟨has, hbs⟩, fun k hk => by simpa using hattained k hk⟩

theorem comm (h : Joins [as, bs] outs) : Joins [bs, as] outs := by
  obtain ⟨has, hbs, hattained⟩ := pair_iff.mp h
  exact pair_iff.mpr ⟨hbs, has, fun k hk => (hattained k hk).symm⟩

theorem nil_left (h : Joins [[], bs] outs) : bs = outs := by
  obtain ⟨-, hbs, hattained⟩ := pair_iff.mp h
  have hlength : bs.length ≤ outs.length := hbs.length_le
  refine List.ext_getElem? fun k => ?_
  by_cases hk : k < outs.length
  · refine (hattained k hk).resolve_left fun hextent => ?_
    rw [List.getElem?_nil, List.getElem?_eq_getElem hk] at hextent
    cases hextent
  · rw [List.getElem?_eq_none (by omega), List.getElem?_eq_none (by omega)]

theorem cons_iff {a b : Nat} : Joins [a :: as, b :: bs] outs ↔ ∃ out rest, outs = out :: rest ∧ (a = 1 ∨ a = out) ∧
    (b = 1 ∨ b = out) ∧ (a = out ∨ b = out) ∧ Joins [as, bs] rest := by
  constructor
  · intro h
    obtain ⟨has, hbs, hattained⟩ := pair_iff.mp h
    cases has with
    | @cons _ out _ rest ha has =>
      cases hbs with
      | cons hb hbs =>
        refine ⟨out, rest, rfl, ha, hb, ?_, pair_iff.mpr ⟨has, hbs, fun k hk => ?_⟩⟩
        · simpa using hattained 0 (Nat.succ_pos _)
        · simpa using hattained (k + 1) (Nat.succ_lt_succ hk)
  · rintro ⟨out, rest, rfl, ha, hb, hone, hrest⟩
    obtain ⟨has, hbs, hattained⟩ := pair_iff.mp hrest
    refine pair_iff.mpr ⟨.cons ha has, .cons hb hbs, fun k hk => ?_⟩
    cases k with
    | zero => simpa using hone
    | succ k => simpa using hattained k (Nat.lt_of_succ_lt_succ hk)

/-- Lists that stretch to the same axes broadcast, to axes that stretch to these. -/
theorem exists_mids (hc : Stretches cs outs) (ha : Stretches as outs) :
    ∃ mids, Joins [cs, as] mids ∧ Stretches mids outs := by
  induction hc generalizing as with
  | nil => exact ⟨as, pair_iff.mpr ⟨.nil, stretches_refl as, fun _ _ => .inr rfl⟩, ha⟩
  | @cons n out ins outs hn hins ih =>
    cases ha with
    | nil => exact ⟨n :: ins, pair_iff.mpr ⟨stretches_refl _, .nil, fun _ _ => .inl rfl⟩, .cons hn hins⟩
    | @cons n' _ ins' _ hn' hins' =>
      obtain ⟨mids, hmids, hstretch⟩ := ih hins'
      by_cases hone : n = 1
      · exact ⟨n' :: mids, cons_iff.mpr ⟨_, _, rfl, .inl hone, .inr rfl, .inr rfl, hmids⟩, .cons hn' hstretch⟩
      · have hout : n = out := hn.resolve_left hone
        have hfit : n' = 1 ∨ n' = n := hout ▸ hn'
        exact ⟨n :: mids, cons_iff.mpr ⟨_, _, rfl, .inr rfl, hfit, .inl rfl, hmids⟩, .cons hn hstretch⟩

/-- Three lists broadcast as the third does with what the first two broadcast to. -/
theorem grouped (h : Joins [cs, as, bs] outs) : ∃ mids, Joins [cs, as] mids ∧ Joins [mids, bs] outs := by
  obtain ⟨mids, hmids, hstretch⟩ := exists_mids (h.stretches cs (by simp)) (h.stretches as (by simp))
  refine ⟨mids, hmids, pair_iff.mpr ⟨hstretch, h.stretches bs (by simp), fun k hk => ?_⟩⟩
  -- An extent of one of the first two is that of what they make, unless it is one, and then so is that.
  have hthrough : ∀ dims ∈ [cs, as], dims[k]? = outs[k]? → mids[k]? = outs[k]? := by
    intro dims hdims hextent
    have hout : outs[k]? = some outs[k] := List.getElem?_eq_getElem hk
    obtain ⟨mid, hmid, hfit⟩ := (hmids.stretches dims hdims).getElem? (hextent.trans hout)
    obtain ⟨out, hout', hfit'⟩ := hstretch.getElem? hmid
    obtain rfl : outs[k] = out := Option.some.inj (hout.symm.trans hout')
    rw [hmid, hout]
    exact congrArg some (by omega)
  obtain ⟨dims, hdims, hextent⟩ := h.attained k hk
  simp only [List.mem_cons, List.not_mem_nil, or_false] at hdims
  rcases hdims with rfl | rfl | rfl
  · exact .inl (hthrough _ (by simp) hextent)
  · exact .inl (hthrough _ (by simp) hextent)
  · exact .inr hextent

end Joins

theorem BroadcastTo.stretches {ts : List Shape} {shape s : Shape} (h : BroadcastTo ts shape) (hs : s ∈ ts) :
    Stretches s.dims.reverse shape.dims.reverse :=
  Joins.stretches h _ (List.mem_map_of_mem hs)

end Joining

end Shape

theorem Dim.broadcast_fixed {m n : Nat} {d : Dim} (h : (Dim.fixed m).broadcast (.fixed n) = some d) :
    ∃ out, d = .fixed out ∧ (m = 1 ∨ m = out) ∧ (n = 1 ∨ n = out) := by
  simp only [broadcast] at h
  split at h
  · next hm => exact ⟨n, (Option.some.inj h).symm, .inl hm, .inr rfl⟩
  · split at h
    · next hn => exact ⟨m, (Option.some.inj h).symm, .inr rfl, .inl hn⟩
    · split at h
      · next hmn => exact ⟨m, (Option.some.inj h).symm, .inr rfl, .inr hmn.symm⟩
      · cases h

namespace Primitive

theorem broadcastReversed_fixed {ms ns : List Nat} {ds : List Dim}
    (h : broadcastReversed (ms.map .fixed) (ns.map .fixed) = some ds) :
    ∃ outs : List Nat, ds = outs.map .fixed ∧ Shape.Stretches ms outs ∧ Shape.Stretches ns outs := by
  induction ms generalizing ns ds with
  | nil =>
    cases h
    exact ⟨ns, rfl, .nil, Shape.stretches_refl ns⟩
  | cons m ms ih =>
    cases ns with
    | nil =>
      cases h
      exact ⟨m :: ms, rfl, Shape.stretches_refl _, .nil⟩
    | cons n ns =>
      simp only [List.map_cons, broadcastReversed, Option.bind_eq_bind, Option.bind_eq_some_iff] at h
      obtain ⟨d, hd, ds', hds, hcons⟩ := h
      obtain ⟨out, rfl, hm, hn⟩ := Dim.broadcast_fixed hd
      obtain ⟨outs, rfl, hms, hns⟩ := ih hds
      exact ⟨out :: outs, (Option.some.inj hcons).symm, .cons hm hms, .cons hn hns⟩

/-- Fixed axes broadcast to fixed axes, to which both sides stretch. -/
theorem broadcast_fixed {ms ns : List Nat} {ds : List Dim}
    (h : broadcastDims (ms.map .fixed) (ns.map .fixed) = .ok ds) :
    ∃ outs : List Nat, ds = outs.map .fixed ∧ Shape.Stretches ms.reverse outs.reverse ∧
      Shape.Stretches ns.reverse outs.reverse := by
  unfold broadcastDims at h
  split at h
  · next ds' hds =>
    cases h
    rw [← List.map_reverse, ← List.map_reverse] at hds
    obtain ⟨outs, rfl, hms, hns⟩ := broadcastReversed_fixed hds
    refine ⟨outs.reverse, List.map_reverse.symm, ?_, ?_⟩
    · rwa [List.reverse_reverse]
    · rwa [List.reverse_reverse]
  · cases h

theorem broadcastReversed_nil (ds : List Dim) : broadcastReversed ds [] = some ds := by cases ds <;> rfl

theorem broadcast_of_fits {a b out : Nat} (ha : a = 1 ∨ a = out) (hb : b = 1 ∨ b = out) (hone : a = out ∨ b = out) :
    (Dim.fixed a).broadcast (.fixed b) = some (.fixed out) := by
  simp only [Dim.broadcast]
  by_cases ha' : a = 1
  · rw [if_pos ha']
    exact congrArg (some <| Dim.fixed ·) (by omega)
  · obtain rfl : a = out := ha.resolve_left ha'
    rw [if_neg ha']
    by_cases hb' : b = 1
    · rw [if_pos hb']
    · rw [if_neg hb', if_pos (hb.resolve_left hb').symm]

theorem broadcastReversed_of_joins {as bs outs : List Nat} (h : Shape.Joins [as, bs] outs) :
    broadcastReversed (as.map .fixed) (bs.map .fixed) = some (outs.map .fixed) := by
  induction as generalizing bs outs with
  | nil =>
    rw [h.nil_left]
    rfl
  | cons a as ih =>
    cases bs with
    | nil => rw [List.map_nil, broadcastReversed_nil, h.comm.nil_left]
    | cons b bs =>
      obtain ⟨out, rest, rfl, ha, hb, hone, hrest⟩ := Shape.Joins.cons_iff.mp h
      simp [broadcastReversed, broadcast_of_fits ha hb hone, ih hrest]

theorem broadcastDims_of_joins {as bs outs : List Nat} (h : Shape.Joins [as.reverse, bs.reverse] outs.reverse) :
    broadcastDims (as.map .fixed) (bs.map .fixed) = .ok (outs.map .fixed) := by
  simp [broadcastDims, ← List.map_reverse, broadcastReversed_of_joins h]

end Primitive

end ComponentFlow
