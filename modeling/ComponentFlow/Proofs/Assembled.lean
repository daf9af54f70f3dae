/-
  ComponentFlow.Proofs.Assembled — what holds of trees that are assembled, whichever edits are tried on
  them and whether they succeed. Entries for children and links to parents say the same, names are
  allowed and told apart, nothing is above the root, and going up ends (`Tree.assembled_linked`). So the
  loops over links are not cut short by the steps that they may take: the search upwards, the scope and
  the walk see all that there is.
-/
import ComponentFlow.Proofs.Editing
import ComponentFlow.Proofs.Scope
import ComponentFlow.Proofs.Walk

namespace ComponentFlow

namespace Tree

variable {t : Tree}

/-- The one entry for a node among the children of its parent. -/
theorem Forest.entries (h : t.Forest) {child parent : NodeId} : t.parent? child = some parent ↔
    ∃ name, t.name? child = some name ∧
      (t.children parent).filter (fun entry => entry.2 == child) = [(name, child)] := by
  constructor
  · intro hparent
    obtain ⟨name, hname, hentry⟩ := h.entry hparent
    refine ⟨name, hname, ?_⟩
    have hnodup : (t.children parent).Nodup := (h.siblings parent).of_map _
    have hsame : ∀ entry ∈ t.children parent, (entry.2 == child) = (entry == (name, child)) := by
      rintro ⟨other, id⟩ hother
      rw [Bool.eq_iff_iff, beq_iff_eq, beq_iff_eq, Prod.mk.injEq]
      refine ⟨fun heq => ⟨?_, heq⟩, And.right⟩
      obtain rfl : id = child := heq
      exact Option.some.inj ((h.linked.mp hother).2.symm.trans hname)
    rw [List.filter_congr hsame, List.filter_beq, hnodup.count, if_pos hentry, List.replicate_one]
  · rintro ⟨name, -, hentries⟩
    have hentry : (name, child) ∈ (t.children parent).filter fun entry => entry.2 == child := by
      rw [hentries]
      exact List.mem_singleton_self _
    exact (h.linked.mp (List.mem_filter.mp hentry).1).1

/-- Whatever edits are tried on a tree, successful or not: a node has a parent exactly if it has one entry among the
    children of that node, under its own name, and it has none anywhere else; names are not empty, are ASCII and hold
    no '/'; siblings have names of their own; the root has no parent; and going up from any node ends within as many
    steps as there are nodes. So the search upwards finds just the nodes on the way up, the scope is found whenever the
    way up leads to the root, and a walk goes on until nothing is left to visit and meets each node below the root
    once. -/
theorem assembled_linked {a : Assembly} {start : Tree} (h : ofAssembly a = .ok start) (edits : List Edit) :
    let t := start.afterEdits edits
    (∀ child parent, t.parent? child = some parent ↔ ∃ name, t.name? child = some name ∧
      (t.children parent).filter (fun entry => entry.2 == child) = [(name, child)]) ∧
    (∀ child parent name, (name, child) ∈ t.children parent →
      t.parent? child = some parent ∧ t.name? child = some name) ∧
    (∀ id name, t.name? id = some name → name ≠ "" ∧ ∀ c ∈ name.toList, c.toNat < 128 ∧ c ≠ separator) ∧
    (∀ id, ((t.children id).map Prod.fst).Nodup) ∧
    t.parent? root = none ∧
    (∀ id < t.size, ∃ above, t.Ascent id above ∧ above.length ≤ t.size) ∧
    (∀ candidate id, id < t.size → (t.isAbove candidate id = true ↔ t.Under id candidate)) ∧
    (∀ id scope, t.scope? id = some scope ↔ ∃ names, t.Path id names ∧ scope = "/".intercalate names) ∧
    t.Visits [root] t.walk ∧ t.walk.Nodup ∧ ∀ id, id ∈ t.walk ↔ t.Under id root := by
  intro t
  have hforest : t.Forest := (ofAssembly_forest h).afterEdits edits
  refine ⟨fun child parent => hforest.entries, fun child parent name hentry => hforest.linked.mp hentry,
    fun id name hname => nameFault_none.mp (hforest.named hname), hforest.siblings, hforest.root_loose, ?_,
    fun candidate id hid => hforest.isAbove_iff hid, fun id scope => hforest.scope_iff, hforest.walk_visits,
    hforest.walk_nodup, fun id => hforest.mem_walk⟩
  intro id hid
  obtain ⟨above, habove⟩ := hforest.ascent id
  exact ⟨above, habove, habove.length_le hforest hid⟩

/-- A component without methods. -/
def bare : Component := ⟨"Bare", .null, [], .none⟩

/-- An older node comes below a newer one, which is attached and renamed later; what would close a loop, is attached
    already or takes a name that is taken is refused. -/
def grafts : List Edit :=
  [.insert (.leaf "dense" bare), .insert (.leaf "policy" bare), .attach 2 1 "layer", .attach 1 2 "loop",
    .attach 0 2 "policy", .attach 0 1 "again", .attachAssembly 0 (.leaf "policy" bare), .attach 0 7 "none"]

theorem grafts_linked : ofAssembly (.leaf "agent" bare) = .ok (seed "agent" bare) ∧
    let t := (seed "agent" bare).afterEdits grafts
    (∃ name, t.name? 1 = some name ∧ (t.children 2).filter (fun entry => entry.2 == 1) = [(name, 1)]) ∧
      t.Under 1 root ∧ (∃ names, t.Path 1 names ∧ "agent/policy/layer" = "/".intercalate names) ∧
      t.Visits [root] [0, 2, 1] := by
  have hstart : ofAssembly (.leaf "agent" bare) = .ok (seed "agent" bare) := rfl
  obtain ⟨hlinks, -, -, -, -, -, habove, hscope, hvisits, -, -⟩ := assembled_linked hstart grafts
  refine ⟨hstart, (hlinks 1 2).mp (by decide +kernel), (habove root 1 (by decide +kernel)).mp (by decide +kernel),
    (hscope 1 _).mp (by decide +kernel), ?_⟩
  have hwalk : ((seed "agent" bare).afterEdits grafts).walk = [0, 2, 1] := by decide +kernel
  exact hwalk ▸ hvisits

end Tree

end ComponentFlow
