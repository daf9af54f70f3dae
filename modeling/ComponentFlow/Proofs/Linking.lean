/-
  ComponentFlow.Proofs.Linking — the steps in which trees are assembled. A loose node is added, or a
  loose node is linked below another one (`Tree.Step`). Linking asks that the node is not above that
  one, and so a forest stays a forest (`Tree.Forest.steps`): the nodes above the new parent are as they
  were, and every other way up leads there or to where it led before.
-/
import ComponentFlow.Proofs.Forest

namespace ComponentFlow

namespace Tree

variable {t u : Tree} {id parent child : NodeId} {name : String}

/-! ## Adding a loose node -/

/-- The tree with one more node, which has no links. -/
def adding (t : Tree) (name : String) (component : Component) : Tree :=
  { t with nodes := t.nodes.push ⟨name, none, [], .unbuilt, component⟩ }

section Adding

variable {component : Component}

theorem node_adding : (t.adding name component).node? id =
    if id = t.size then some ⟨name, none, [], .unbuilt, component⟩ else t.node? id :=
  Array.getElem?_push

theorem node_adding_of_ne (hid : id ≠ t.size) : (t.adding name component).node? id = t.node? id := by
  rw [node_adding, if_neg hid]

theorem node_of_size : t.node? t.size = none := Array.getElem?_eq_none (Nat.le_refl _)

theorem size_adding : (t.adding name component).size = t.size + 1 := Array.size_push _

theorem parent_adding : (t.adding name component).parent? id = t.parent? id := by
  rw [parent?, parent?, node_adding]
  split
  · next hid => rw [hid, node_of_size, Option.bind_some, Option.bind_none]
  · rfl

theorem name_adding : (t.adding name component).name? id = if id = t.size then some name else t.name? id := by
  rw [name?, node_adding]
  split <;> rfl

theorem children_adding : (t.adding name component).children id = t.children id := by
  by_cases hid : id = t.size
  · have hnew : (t.adding name component).node? id = some ⟨name, none, [], .unbuilt, component⟩ := by
      rw [node_adding, if_pos hid]
    rw [children_of_node hnew, children, hid, node_of_size]
  · rw [children, node_adding_of_ne hid, children]

end Adding

/-! ## Linking a loose node -/

/-- A loose node may be linked below another one by this name. -/
structure Linkable (t : Tree) (parent child : NodeId) (name : String) : Prop where
  named : nameFault? name = none
  above : parent < t.size
  below : child < t.size
  loose : t.parent? child = none
  apart : child ≠ root
  acyclic : ¬ t.Under parent child
  free : t.child? parent name = none

namespace Linkable

variable (h : t.Linkable parent child name)
include h

theorem ne : parent ≠ child := by
  intro heq
  exact h.acyclic (heq ▸ .refl)

theorem node_child {n : Node} (hn : t.node? child = some n) :
    (t.link parent child name).node? child = some { n with name, parent := some parent } := by
  rw [node?] at hn
  simp only [link, node?, Array.getElem?_modify, hn, if_neg h.ne, if_true, Option.map_some]

theorem node_parent {n : Node} (hn : t.node? parent = some n) :
    (t.link parent child name).node? parent = some (n.adopt name child) := by
  rw [node?] at hn
  simp only [link, node?, Array.getElem?_modify, hn, if_neg h.ne.symm, if_true, Option.map_some]

omit h in
theorem node_other (hparent : id ≠ parent) (hchild : id ≠ child) :
    (t.link parent child name).node? id = t.node? id := by
  simp only [link, node?, Array.getElem?_modify, if_neg hparent.symm, if_neg hchild.symm]

theorem parent_link : (t.link parent child name).parent? id = if id = child then some parent else t.parent? id := by
  by_cases hchild : id = child
  · subst hchild
    obtain ⟨n, hn⟩ := node_of_lt h.below
    rw [if_pos rfl, parent?, h.node_child hn, Option.bind_some]
  · rw [if_neg hchild]
    by_cases hparent : id = parent
    · subst hparent
      obtain ⟨n, hn⟩ := node_of_lt h.above
      rw [parent?, h.node_parent hn, parent?, hn]
      rfl
    · rw [parent?, node_other hparent hchild, parent?]

theorem name_link : (t.link parent child name).name? id = if id = child then some name else t.name? id := by
  by_cases hchild : id = child
  · subst hchild
    obtain ⟨n, hn⟩ := node_of_lt h.below
    rw [if_pos rfl, name?, h.node_child hn, Option.map_some]
  · rw [if_neg hchild]
    by_cases hparent : id = parent
    · subst hparent
      obtain ⟨n, hn⟩ := node_of_lt h.above
      rw [name?, h.node_parent hn, name?, hn]
      rfl
    · rw [name?, node_other hparent hchild, name?]

theorem children_link : (t.link parent child name).children id =
    if id = parent then t.children id ++ [(name, child)] else t.children id := by
  by_cases hparent : id = parent
  · subst hparent
    obtain ⟨n, hn⟩ := node_of_lt h.above
    rw [if_pos rfl, children_of_node (h.node_parent hn), children_of_node hn]
    rfl
  · rw [if_neg hparent]
    by_cases hchild : id = child
    · subst hchild
      obtain ⟨n, hn⟩ := node_of_lt h.below
      rw [children_of_node (h.node_child hn), children_of_node hn]
    · rw [children, node_other hparent hchild, children]

/-- A way up that the new link is not part of. -/
theorem up_link (hchild : id ≠ child) {p : NodeId} : (t.link parent child name).Up id p ↔ t.Up id p := by
  rw [Up, Up, h.parent_link, if_neg hchild]

omit h in
theorem size_link : (t.link parent child name).size = t.size := by simp [link, size]

/-- Going up still ends: what is above the parent is as it was, and every other node gets there or to where it got
    before. -/
theorem grounded (hground : WellFounded fun p id => t.Up id p) :
    WellFounded fun p id => (t.link parent child name).Up id p := by
  have habove : ∀ id, t.Under parent id → Acc (fun p id => (t.link parent child name).Up id p) id := by
    intro id
    induction id using hground.induction with
    | _ id ih =>
      intro hunder
      have hchild : id ≠ child := fun heq => h.acyclic (heq ▸ hunder)
      refine ⟨id, fun p hp => ?_⟩
      have hup : t.Up id p := (h.up_link hchild).mp hp
      exact ih p hup (hunder.tail hup)
  refine ⟨fun id => ?_⟩
  induction id using hground.induction with
  | _ id ih =>
    refine ⟨id, fun p hp => ?_⟩
    by_cases hchild : id = child
    · have hparent : parent = p := by
        rw [Up, h.parent_link, if_pos hchild] at hp
        exact Option.some.inj hp
      exact hparent ▸ habove parent .refl
    · exact ih p ((h.up_link hchild).mp hp)

end Linkable

/-! ## Steps -/

/-- The tree of the root alone. -/
def seed (name : String) (component : Component) : Tree := ⟨#[⟨name, none, [], .unbuilt, component⟩], false⟩

/-- One step of assembling a tree. -/
inductive Step (t : Tree) : Tree → Prop
  | add {name : String} (component : Component) : nameFault? name = none → Step t (t.adding name component)
  | link {parent child : NodeId} {name : String} : t.Linkable parent child name → Step t (t.link parent child name)

def Steps (t u : Tree) : Prop := Relation.ReflTransGen Step t u

namespace Forest

theorem seed (hname : nameFault? name = none) (component : Component) : (Tree.seed name component).Forest := by
  have hnode : ∀ id n, (Tree.seed name component).node? id = some n → n = ⟨name, none, [], .unbuilt, component⟩ := by
    intro id n hn
    obtain ⟨hid, hn⟩ := Array.getElem?_eq_some_iff.mp hn
    obtain rfl : id = 0 := Nat.lt_one_iff.mp hid
    exact hn.symm
  have hparent : ∀ id, (Tree.seed name component).parent? id = none := by
    intro id
    refine Option.bind_eq_none_iff.mpr fun n hn => ?_
    rw [hnode id n hn]
  have hchildren : ∀ id, (Tree.seed name component).children id = [] := by
    intro id
    unfold children
    split
    · next n hn => rw [hnode id n hn]
    · rfl
  refine ⟨?_, ?_, ?_, ⟨_, rfl, rfl⟩, ⟨fun id => ⟨id, ?_⟩⟩⟩
  · intro p other id
    simp [hchildren, hparent]
  · intro p
    simp [hchildren]
  · intro id other hother
    obtain ⟨n, hn, rfl⟩ := Option.map_eq_some_iff.mp hother
    rw [hnode id n hn]
    exact hname
  · intro p hp
    cases (hparent id).symm.trans hp

theorem adding (h : t.Forest) (hname : nameFault? name = none) (component : Component) :
    (t.adding name component).Forest where
  linked := by
    intro p childName id
    rw [children_adding, parent_adding, h.linked]
    refine and_congr_right fun hp => ?_
    rw [name_adding, if_neg (Nat.ne_of_lt (lt_of_parent hp))]
  siblings := fun p => by
    rw [children_adding]
    exact h.siblings p
  named := by
    intro id other hother
    rw [name_adding] at hother
    split at hother
    · cases hother
      exact hname
    · exact h.named hother
  rooted := by
    rw [node_adding_of_ne (Nat.ne_of_lt h.root_lt)]
    exact h.rooted
  grounded := by
    have hup : (t.adding name component).Up = t.Up := by
      funext id p
      rw [Up, Up, parent_adding]
    rw [hup]
    exact h.grounded

/-- A node that has no parent has no entry for it anywhere. -/
theorem no_entry (h : t.Forest) (hloose : t.parent? id = none) {p : NodeId} : (name, id) ∉ t.children p := by
  intro hentry
  cases hloose.symm.trans (h.linked.mp hentry).1

theorem link (h : t.Forest) (hlink : t.Linkable parent child name) : (t.link parent child name).Forest where
  linked := by
    intro p other id
    rw [hlink.parent_link, hlink.name_link, hlink.children_link]
    by_cases hid : id = child
    · -- The new entry is the only one for the child, which had none before.
      subst hid
      rw [if_pos rfl, if_pos rfl]
      have hnone : ∀ q, (other, id) ∉ t.children q := fun q => h.no_entry hlink.loose
      by_cases hp : p = parent
      · subst hp
        simp [hnone, eq_comm]
      · simp [hnone, hp, Ne.symm hp]
    · rw [if_neg hid, if_neg hid, ← h.linked]
      split
      · simp [hid]
      · rfl
  siblings := fun p => by
    rw [hlink.children_link]
    split
    · next hp =>
      subst hp
      rw [List.map_append, List.map_singleton]
      refine List.nodup_append.mpr ⟨h.siblings p, by simp, fun other hother taken htaken heq => ?_⟩
      obtain rfl : taken = name := List.mem_singleton.mp htaken
      obtain ⟨⟨_, id⟩, hentry, rfl⟩ := List.mem_map.mp hother
      obtain rfl : _ = taken := heq
      have hchild : t.child? p _ = some id := h.child_iff.mpr (h.linked.mp hentry)
      cases hlink.free.symm.trans hchild
    · exact h.siblings p
  named := by
    intro id other hother
    rw [hlink.name_link] at hother
    split at hother
    · cases hother
      exact hlink.named
    · exact h.named hother
  rooted := by
    obtain ⟨n, hn⟩ := node_of_lt (t := t.link parent child name) (Linkable.size_link ▸ h.root_lt)
    refine ⟨n, hn, ?_⟩
    have hloose : (t.link parent child name).parent? root = none := by
      rw [hlink.parent_link, if_neg hlink.apart.symm, h.root_loose]
    rwa [parent?, hn, Option.bind_some] at hloose
  grounded := hlink.grounded h.grounded

theorem step (h : t.Forest) (hstep : t.Step u) : u.Forest := by
  cases hstep with
  | add component hname => exact h.adding hname component
  | link hlink => exact h.link hlink

theorem steps (h : t.Forest) (hsteps : t.Steps u) : u.Forest := by
  induction hsteps with
  | refl => exact h
  | tail _ hstep ih => exact ih.step hstep

end Forest

end Tree

end ComponentFlow
