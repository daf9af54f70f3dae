/-
  ComponentFlow.Proofs.Preorder — the order in which a walk meets nodes. The walk keeps a stack, on which it
  puts the children of a node in front of what is left. What it meets is nevertheless what going down recursively
  meets: a node, then all that is below its first child, then all below the next (`Tree.Preorder`). So a node stands
  before all that is below it, and behind it in the reversed walk, by which a build completes nodes
  (`CachedTree.walk_exact`).
-/
import ComponentFlow.Proofs.Atomic

namespace ComponentFlow

namespace Tree

variable {t : Tree} {id p d : NodeId} {ids stack order order' : List NodeId}

/-- Going down from these nodes, one after the other: each node, then in the same way its children in order. -/
inductive Preorder (t : Tree) : List NodeId → List NodeId → Prop
  | nil : Preorder t [] []
  | cons {id : NodeId} {ids below rest : List NodeId} : Preorder t ((t.children id).map Prod.snd) below →
      Preorder t ids rest → Preorder t (id :: ids) (id :: (below ++ rest))

namespace Preorder

theorem unique (h : t.Preorder ids order) (h' : t.Preorder ids order') : order = order' := by
  induction h generalizing order' with
  | nil =>
    cases h'
    rfl
  | cons _ _ ihbelow ihrest =>
    cases h' with
    | cons hbelow hrest => rw [ihbelow hbelow, ihrest hrest]

/-- Going down from two groups of nodes is going down from the one and then from the other. -/
theorem split (h : t.Preorder (ids ++ stack) order) :
    ∃ below rest, order = below ++ rest ∧ t.Preorder ids below ∧ t.Preorder stack rest := by
  induction ids generalizing order with
  | nil => exact ⟨[], order, rfl, .nil, h⟩
  | cons id ids ih =>
    cases h with
    | cons hchildren hothers =>
      obtain ⟨below, rest, rfl, hids, hstack⟩ := ih hothers
      exact ⟨_, rest, by rw [List.cons_append, List.append_assoc], .cons hchildren hids, hstack⟩

end Preorder

/-- What is put on the stack is met before what was there. -/
theorem Visits.preorder (h : t.Visits stack order) : t.Preorder stack order := by
  induction h with
  | done => exact .nil
  | visit _ ih =>
    obtain ⟨below, rest, rfl, hchildren, hstack⟩ := ih.split
    exact .cons hchildren hstack

namespace Preorder

variable (hforest : t.Forest)
include hforest

/-- Nothing below a node is left out. -/
theorem mem_of_under (h : t.Preorder ids order) (hid : id ∈ ids) (hunder : t.Under d id) : d ∈ order := by
  induction h generalizing id with
  | nil => cases hid
  | cons _ _ ihbelow ihrest =>
    rw [List.mem_cons, List.mem_append]
    rcases List.mem_cons.mp hid with rfl | hlater
    · rcases hforest.under_iff.mp hunder with rfl | ⟨child, hchild, hbelow⟩
      · exact .inl rfl
      · exact .inr (.inl (ihbelow hchild hbelow))
    · exact .inr (.inr (ihrest hlater hunder))

/-- A node that is met stands before all others below it. -/
theorem before (h : t.Preorder ids order) (hp : p ∈ order) (hne : d ≠ p) (hunder : t.Under d p) :
    [p, d].Sublist order := by
  induction h with
  | nil => cases hp
  | @cons id ids below rest hchildren _ ihbelow ihrest =>
    rw [List.mem_cons, List.mem_append] at hp
    rcases hp with rfl | hbelow | hrest
    · rcases hforest.under_iff.mp hunder with heq | ⟨child, hchild, hbelow⟩
      · exact absurd heq hne
      · have hmem : d ∈ below := mem_of_under hforest hchildren hchild hbelow
        exact (List.singleton_sublist.mpr (List.mem_append_left rest hmem)).cons_cons p
    · exact ((ihbelow hbelow).trans (List.sublist_append_left below rest)).cons id
    · exact ((ihrest hrest).trans (List.sublist_append_right below rest)).cons id

end Preorder

end Tree

namespace CachedTree

variable {c : CachedTree}

/-- The walk over a tree that can come about is the way down from the root, children in the order in which they were
    attached. It meets the nodes that have a scope, each once, and no others; and each node that it meets before
    everything below that node, so that the reversed walk comes to a node after all below it. -/
theorem walk_exact (h : c.Reached) :
    (∀ order, c.tree.Preorder [Tree.root] order ↔ order = c.tree.walk) ∧
    c.tree.walk.Nodup ∧ (∀ id, id ∈ c.tree.walk ↔ (c.scope? id).1.isSome = true) ∧
    ∀ p d, c.tree.Under p Tree.root → d ≠ p → c.tree.Under d p →
      [p, d].Sublist c.tree.walk ∧ [d, p].Sublist c.tree.walk.reverse := by
  have hforest := h.forest
  have hpreorder : c.tree.Preorder [Tree.root] c.tree.walk := hforest.walk_visits.preorder
  refine ⟨fun order => ⟨fun horder => horder.unique hpreorder, fun heq => heq ▸ hpreorder⟩, hforest.walk_nodup,
    fun id => ?_, fun p d hp hne hunder => ?_⟩
  · rw [(h.coherent.scope? id).scope, hforest.mem_walk, hforest.scope_isSome]
  · have hbefore : [p, d].Sublist c.tree.walk := hpreorder.before hforest (hforest.mem_walk.mpr hp) hne hunder
    exact ⟨hbefore, List.reverse_sublist.mpr hbefore⟩

/-- A node is met after a newer one that it was put below. -/
theorem grafts_walk : let c := (ofTree (Tree.seed "agent" Tree.bare)).after (Tree.grafts.map .edit)
    c.Reached ∧ c.tree.Preorder [Tree.root] [0, 2, 1] ∧ (c.scope? 1).1.isSome = true ∧
      [1, 2].Sublist c.tree.walk.reverse := by
  intro c
  have hreached : c.Reached := .after (.start (a := .leaf "agent" Tree.bare) rfl) _
  have hforest := hreached.forest
  obtain ⟨horder, -, hscope, hbefore⟩ := walk_exact hreached
  have hwalk : c.tree.walk = [0, 2, 1] := by decide +kernel
  have habove : c.tree.Under 2 Tree.root := (hforest.isAbove_iff (by decide +kernel)).mp (by decide +kernel)
  have hbelow : c.tree.Under 1 2 := (hforest.isAbove_iff (by decide +kernel)).mp (by decide +kernel)
  exact ⟨hreached, (horder _).mpr hwalk.symm, (hscope 1).mp (by rw [hwalk]; decide),
    (hbefore 2 1 habove (by decide) hbelow).2⟩

end CachedTree

end ComponentFlow
