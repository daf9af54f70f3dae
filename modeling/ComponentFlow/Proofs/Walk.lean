/-
  ComponentFlow.Proofs.Walk — visiting the nodes of a forest. The visit takes a node off a stack and puts
  its children on top until the stack is empty (`Tree.Visits`). From any node it ends, and has met just
  the nodes below that one, each once (`Tree.Forest.visits`): a node below two siblings would be below
  itself. So the steps that a walk may take suffice (`Tree.Forest.walk_visits`).
-/
import ComponentFlow.Proofs.Forest
import Mathlib.Data.List.Nodup

namespace ComponentFlow

namespace Tree

variable {t : Tree} {id p : NodeId} {stack order : List NodeId}

/-- The nodes that are met until the stack is empty. -/
inductive Visits (t : Tree) : List NodeId → List NodeId → Prop
  | done : Visits t [] []
  | visit {id : NodeId} {stack order : List NodeId} :
      Visits t ((t.children id).map Prod.snd ++ stack) order → Visits t (id :: stack) (id :: order)

/-- A walk that may take as many steps as there are nodes to meet meets all of them. -/
theorem Visits.walkFrom (h : t.Visits stack order) {steps : Nat} (hsteps : order.length ≤ steps) :
    t.walkFrom steps stack = order := by
  induction h generalizing steps with
  | done => cases steps <;> rfl
  | visit _ ih =>
    cases steps with
    | zero => cases hsteps
    | succ steps => rw [Tree.walkFrom, ih (Nat.le_of_succ_le_succ hsteps)]

/-- What is met between taking these nodes off a stack and coming to what is below them on it: the nodes below them,
    each once. -/
structure Covers (t : Tree) (ids order : List NodeId) : Prop where
  visits : ∀ {stack rest}, t.Visits stack rest → t.Visits (ids ++ stack) (order ++ rest)
  nodup : order.Nodup
  mem_iff : ∀ x, x ∈ order ↔ ∃ id ∈ ids, t.Under x id

theorem Covers.nil : t.Covers [] [] := ⟨fun hrest => hrest, .nil, fun x => by simp⟩

theorem covers_cons {ids order' : List NodeId} (hid : t.Covers [id] order) (hids : t.Covers ids order')
    (hapart : ∀ x, t.Under x id → ∀ other ∈ ids, ¬ t.Under x other) : t.Covers (id :: ids) (order ++ order') where
  visits := by
    intro stack rest hrest
    rw [List.append_assoc]
    exact hid.visits (hids.visits hrest)
  nodup := by
    refine List.nodup_append.mpr ⟨hid.nodup, hids.nodup, ?_⟩
    rintro x hx _ hx' rfl
    obtain ⟨_, hmem, hunder⟩ := (hid.mem_iff x).mp hx
    obtain rfl := List.mem_singleton.mp hmem
    obtain ⟨other, hother, hunder'⟩ := (hids.mem_iff x).mp hx'
    exact hapart x hunder other hother hunder'
  mem_iff := by
    intro x
    rw [List.mem_append, hid.mem_iff, hids.mem_iff]
    simp

namespace Forest

/-- No node is below two siblings. -/
theorem siblings_apart (h : t.Forest) {a b x : NodeId} (ha : t.Up a p) (hb : t.Up b p) (hne : a ≠ b)
    (hx : t.Under x a) : ¬ t.Under x b := by
  have hnot : ∀ {a b : NodeId}, t.Up a p → t.Up b p → a ≠ b → ¬ t.Under a b := by
    intro a b ha hb hne hunder
    rcases Relation.ReflTransGen.cases_head hunder with heq | ⟨q, hq, habove⟩
    · exact hne heq
    · obtain rfl : p = q := Option.some.inj (Eq.trans (Eq.symm ha) hq)
      exact h.no_cycle hb habove
  intro hx'
  rcases under_total hx hx' with hunder | hunder
  · exact hnot ha hb hne hunder
  · exact hnot hb ha hne.symm hunder

theorem children_nodup (h : t.Forest) (id : NodeId) : ((t.children id).map Prod.snd).Nodup := by
  refine List.Nodup.map_on ?_ (List.Nodup.of_map _ (h.siblings id))
  rintro ⟨name, child⟩ hentry ⟨other, _⟩ hentry' rfl
  have hname : some name = some other := (h.linked.mp hentry).2.symm.trans (h.linked.mp hentry').2
  rw [Option.some.inj hname]

theorem mem_children (h : t.Forest) {child : NodeId} : child ∈ (t.children id).map Prod.snd ↔ t.Up child id := by
  rw [List.mem_map]
  constructor
  · rintro ⟨entry, hentry, rfl⟩
    exact (h.linked.mp hentry).1
  · intro hup
    obtain ⟨name, -, hentry⟩ := h.entry hup
    exact ⟨_, hentry, rfl⟩

/-- Below a node are the node and what is below its children. -/
theorem under_iff (h : t.Forest) {x : NodeId} :
    t.Under x id ↔ x = id ∨ ∃ child ∈ (t.children id).map Prod.snd, t.Under x child := by
  rw [Under, Relation.ReflTransGen.cases_tail_iff, eq_comm]
  simp only [h.mem_children, and_comm]
  rfl

theorem covers_children (h : t.Forest) {ids : List NodeId} (hnodup : ids.Nodup) (hup : ∀ child ∈ ids, t.Up child id)
    (hids : ∀ child ∈ ids, ∃ order, t.Covers [child] order) : ∃ order, t.Covers ids order := by
  induction ids with
  | nil => exact ⟨[], .nil⟩
  | cons child ids ih =>
    obtain ⟨hnot, hnodup⟩ := List.nodup_cons.mp hnodup
    obtain ⟨hchild, hrest⟩ := List.forall_mem_cons.mp hup
    obtain ⟨⟨order, horder⟩, hothers⟩ := List.forall_mem_cons.mp hids
    obtain ⟨order', horder'⟩ := ih hnodup hrest hothers
    refine ⟨_, covers_cons horder horder' fun x hx other hother => ?_⟩
    exact h.siblings_apart hchild (hrest other hother) (fun heq => hnot (heq ▸ hother)) hx

/-- From a node whose children can be visited. -/
theorem covers_node (h : t.Forest) (hids : ∀ child, t.Up child id → ∃ order, t.Covers [child] order) :
    ∃ order, t.Covers [id] order := by
  have hup : ∀ child ∈ (t.children id).map Prod.snd, t.Up child id := fun child => h.mem_children.mp
  obtain ⟨order, horder⟩ := h.covers_children (h.children_nodup id) hup fun child hchild =>
    hids child (hup child hchild)
  refine ⟨id :: order, fun hrest => .visit (horder.visits hrest),
    List.nodup_cons.mpr ⟨fun hmem => ?_, horder.nodup⟩, ?_⟩
  · obtain ⟨child, hchild, hunder⟩ := (horder.mem_iff id).mp hmem
    exact h.no_cycle (hup child hchild) hunder
  · intro x
    rw [List.mem_cons, horder.mem_iff]
    simp only [List.mem_singleton, exists_eq_left]
    exact h.under_iff.symm

/-- From every node. The induction is on how far the node is from the longest way up there can be. -/
theorem visits (h : t.Forest) (id : NodeId) : ∃ order, t.Covers [id] order := by
  have hdepth : ∀ (room : Nat) (id : NodeId) (above : List NodeId), t.Ascent id above → t.size < above.length + room →
      ∃ order, t.Covers [id] order := by
    intro room
    induction room with
    | zero =>
      intro id above habove hroom
      refine h.covers_node fun child hchild => ?_
      have hlength := (Ascent.up hchild habove).length_le h (lt_of_parent hchild)
      rw [List.length_cons] at hlength
      omega
    | succ room ih =>
      intro id above habove hroom
      refine h.covers_node fun child hchild => ih child (child :: above) (.up hchild habove) ?_
      rw [List.length_cons]
      omega
  obtain ⟨above, habove⟩ := h.ascent id
  exact hdepth (t.size + 1) id above habove (by omega)

/-- A walk ends when the stack is empty and not before. -/
theorem walk_covers (h : t.Forest) : t.Covers [root] t.walk := by
  obtain ⟨order, horder⟩ := h.visits root
  have hlt : ∀ x ∈ order, x < t.size := by
    intro x hx
    obtain ⟨_, hmem, hunder⟩ := (horder.mem_iff x).mp hx
    obtain rfl := List.mem_singleton.mp hmem
    exact lt_of_under hunder h.root_lt
  have hvisits : t.Visits [root] order := by
    have hall := horder.visits .done
    rwa [List.append_nil, List.append_nil] at hall
  have hwalk : t.walk = order := hvisits.walkFrom (length_le_of_below horder.nodup hlt)
  exact hwalk ▸ horder

theorem walk_visits (h : t.Forest) : t.Visits [root] t.walk := by
  have hall := h.walk_covers.visits .done
  rwa [List.append_nil, List.append_nil] at hall

theorem walk_nodup (h : t.Forest) : t.walk.Nodup := h.walk_covers.nodup

/-- The nodes that are met are those from which the way up leads to the root. -/
theorem mem_walk (h : t.Forest) : id ∈ t.walk ↔ t.Under id root := by
  rw [h.walk_covers.mem_iff]
  simp

end Forest

end Tree

end ComponentFlow
