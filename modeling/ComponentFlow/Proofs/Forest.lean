/-
  ComponentFlow.Proofs.Forest — links of trees. A node has at most one parent, whose entry for it bears
  its name, and the way up from a node ends (`Tree.Forest`). So the nodes on the way up are told apart,
  there are no more of them than nodes, and a search along the way up sees all of them
  (`Tree.Forest.isAbove_iff`).
-/
import ComponentFlow.Proofs.Effect
import ComponentFlow.Tree.Edit
import Mathlib.Data.List.Perm.Subperm
import Mathlib.Order.WellFounded

namespace ComponentFlow

/-- Numbers below a bound that are told apart. -/
theorem length_le_of_below {xs : List Nat} {n : Nat} (hnodup : xs.Nodup) (hlt : ∀ x ∈ xs, x < n) : xs.length ≤ n := by
  have hsub : xs ⊆ List.range n := fun x hx => List.mem_range.mpr (hlt x hx)
  have hlength := (List.subperm_of_subset hnodup hsub).length_le
  rwa [List.length_range] at hlength

namespace Tree

variable {t : Tree} {id p top : NodeId}

/-! ## Nodes and what they hold -/

theorem node_of_lt (h : id < t.size) : ∃ n, t.node? id = some n := ⟨_, Array.getElem?_eq_getElem h⟩

theorem lt_of_node {n : Node} (h : t.node? id = some n) : id < t.size := (Array.getElem?_eq_some_iff.mp h).1

theorem lt_of_name {name : String} (h : t.name? id = some name) : id < t.size := by
  obtain ⟨n, hn, -⟩ := Option.map_eq_some_iff.mp h
  exact lt_of_node hn

theorem lt_of_parent (h : t.parent? id = some p) : id < t.size := by
  obtain ⟨n, hn, -⟩ := Option.bind_eq_some_iff.mp h
  exact lt_of_node hn

theorem children_of_node {n : Node} (h : t.node? id = some n) : t.children id = n.children := by rw [children, h]

theorem lt_of_child {entry : String × NodeId} (h : entry ∈ t.children id) : id < t.size := by
  unfold children at h
  split at h
  · next hn => exact lt_of_node hn
  · cases h

/-! ## Forests -/

/-- The link from a node to its parent. -/
def Up (t : Tree) (id p : NodeId) : Prop := t.parent? id = some p

/-- The way up from `id` leads to `top`, or starts there. -/
def Under (t : Tree) (id top : NodeId) : Prop := Relation.ReflTransGen t.Up id top

/-- The links of a tree fit together. The entries for children and the links to parents say the same,
    siblings have names of their own, names are allowed, nothing is above the root, and going up ends. -/
structure Forest (t : Tree) : Prop where
  linked : ∀ {p name id}, (name, id) ∈ t.children p ↔ t.parent? id = some p ∧ t.name? id = some name
  siblings : ∀ p, ((t.children p).map Prod.fst).Nodup
  named : ∀ {id name}, t.name? id = some name → nameFault? name = none
  rooted : ∃ n, t.node? root = some n ∧ n.parent = none
  grounded : WellFounded fun p id => t.Up id p

namespace Forest

theorem root_lt (h : t.Forest) : root < t.size := by
  obtain ⟨n, hn, -⟩ := h.rooted
  exact lt_of_node hn

theorem root_loose (h : t.Forest) : t.parent? root = none := by
  obtain ⟨n, hn, hloose⟩ := h.rooted
  rw [parent?, hn, Option.bind_some, hloose]

/-- A parent is there, and holds an entry for the node. -/
theorem entry (h : t.Forest) (hp : t.parent? id = some p) :
    ∃ name, t.name? id = some name ∧ (name, id) ∈ t.children p := by
  obtain ⟨n, hn, -⟩ := Option.bind_eq_some_iff.mp hp
  have hname : t.name? id = some n.name := by rw [name?, hn, Option.map_some]
  exact ⟨n.name, hname, h.linked.mpr ⟨hp, hname⟩⟩

theorem parent_lt (h : t.Forest) (hp : t.parent? id = some p) : p < t.size := by
  obtain ⟨_, -, hentry⟩ := h.entry hp
  exact lt_of_child hentry

theorem child_iff (h : t.Forest) {name : String} :
    t.child? p name = some id ↔ t.parent? id = some p ∧ t.name? id = some name :=
  (lookup_iff_mem (h.siblings p)).trans h.linked

/-- No node is above itself. -/
theorem no_cycle (h : t.Forest) (hp : t.Up id p) : ¬ t.Under p id := by
  intro hunder
  have hloop : Relation.TransGen (fun p id => t.Up id p) id id :=
    Relation.transGen_swap.mp (Relation.TransGen.head' hp hunder)
  exact h.grounded.transGen.irrefl.irrefl id hloop

end Forest

theorem lt_of_under (h : t.Under id top) (htop : top < t.size) : id < t.size := by
  rcases Relation.ReflTransGen.cases_head h with rfl | ⟨p, hp, -⟩
  · exact htop
  · exact lt_of_parent hp

theorem under_lt (h : t.Forest) (hunder : t.Under id top) (hid : id < t.size) : top < t.size := by
  induction hunder with
  | refl => exact hid
  | tail _ hp _ => exact h.parent_lt hp

/-- Two nodes above the same node are above one another. -/
theorem under_total {a b : NodeId} (ha : t.Under id a) (hb : t.Under id b) : t.Under a b ∨ t.Under b a := by
  refine Relation.ReflTransGen.total_of_right_unique (fun _ _ _ hp hq => ?_) ha hb
  exact Option.some.inj (Eq.trans (Eq.symm hp) hq)

/-! ## The way up -/

/-- The nodes on the way up from a node, the last of which has no parent. -/
inductive Ascent (t : Tree) : NodeId → List NodeId → Prop
  | top {id : NodeId} : t.parent? id = none → Ascent t id [id]
  | up {id p : NodeId} {above : List NodeId} : t.parent? id = some p → Ascent t p above → Ascent t id (id :: above)

variable {above : List NodeId}

/-- Going up from any node ends. -/
theorem Forest.ascent (h : t.Forest) (id : NodeId) : ∃ above, t.Ascent id above := by
  induction id using h.grounded.induction with
  | _ id ih =>
    rcases hp : t.parent? id with _ | p
    · exact ⟨[id], .top hp⟩
    · obtain ⟨above, habove⟩ := ih p hp
      exact ⟨id :: above, .up hp habove⟩

namespace Ascent

theorem mem_iff (h : t.Ascent id above) : top ∈ above ↔ t.Under id top := by
  induction h with
  | @top id hp =>
    rw [List.mem_singleton, Under, Relation.ReflTransGen.cases_head_iff]
    constructor
    · exact fun heq => .inl heq.symm
    · rintro (heq | ⟨p, hup, -⟩)
      · exact heq.symm
      · cases hp.symm.trans hup
  | @up id p above hp _ ih =>
    rw [List.mem_cons, ih, Under, Under, Relation.ReflTransGen.cases_head_iff (a := id), eq_comm]
    refine or_congr Iff.rfl ⟨fun habove => ⟨p, hp, habove⟩, ?_⟩
    rintro ⟨q, hq, habove⟩
    cases hp.symm.trans hq
    exact habove

theorem nodup (hforest : t.Forest) (h : t.Ascent id above) : above.Nodup := by
  induction h with
  | top => simp
  | up hp habove ih => exact List.nodup_cons.mpr ⟨fun hmem => hforest.no_cycle hp (habove.mem_iff.mp hmem), ih⟩

/-- No way up is longer than the tree is large. -/
theorem length_le (hforest : t.Forest) (h : t.Ascent id above) (hid : id < t.size) : above.length ≤ t.size :=
  length_le_of_below (h.nodup hforest) fun _ hmem => under_lt hforest (h.mem_iff.mp hmem) hid

end Ascent

/-- A search that may take as many steps as there are links on the way up meets every node of it. -/
theorem isAboveWithin_iff {candidate : NodeId} {steps : Nat} (h : t.Ascent id above)
    (hsteps : above.length ≤ steps + 1) : t.isAboveWithin candidate steps id = true ↔ candidate ∈ above := by
  induction h generalizing steps with
  | @top id hp =>
    rw [List.mem_singleton, eq_comm (a := candidate)]
    cases steps with
    | zero => rw [isAboveWithin, beq_iff_eq]
    | succ steps => rw [isAboveWithin, hp, Bool.or_false, beq_iff_eq]
  | @up id p above hp habove ih =>
    cases steps with
    | zero => cases habove <;> simp at hsteps
    | succ steps =>
      have hrest : t.isAboveWithin candidate steps p = true ↔ candidate ∈ above := ih (by simpa using hsteps)
      rw [isAboveWithin, hp, Bool.or_eq_true, beq_iff_eq, hrest, List.mem_cons, eq_comm (a := candidate)]

/-- A node is found above another exactly if the way up from that one leads to it. -/
theorem Forest.isAbove_iff (h : t.Forest) {candidate : NodeId} (hid : id < t.size) :
    t.isAbove candidate id = true ↔ t.Under id candidate := by
  obtain ⟨above, habove⟩ := h.ascent id
  have hlength := habove.length_le h hid
  exact (isAboveWithin_iff habove (Nat.le_succ_of_le hlength)).trans habove.mem_iff

end Tree

end ComponentFlow
