/-
  ComponentFlow.Proofs.Atomic — edits of trees happen as a whole or not at all. An edit that fails has changed
  nothing (`Tree.edit_refused`). The one that does two things, placing an assembly and attaching it, checks
  before the first what the second needs: the new node is loose, a name that no child has, and above no node that
  was there. So nothing is left behind that was placed and could not be attached, and what was attached hangs
  together with its new parent (`CachedTree.edits_atomic`).

  - `CachedTree.Reached`: the trees that can come about, with the scopes they keep.
-/
import ComponentFlow.Proofs.Cached
import ComponentFlow.Proofs.Lifecycle
import ComponentFlow.Proofs.Placement

namespace ComponentFlow

/-! ## Trees that can come about -/

namespace CachedTree

variable {c : CachedTree}

/-- A tree of an assembly, on which edits were tried, nodes were asked for their scopes, and graphs were built. -/
inductive Reached : CachedTree → Prop
  | start {a : Assembly} {t : Tree} : Tree.ofAssembly a = .ok t → Reached (ofTree t)
  | edit {c : CachedTree} (e : Tree.Edit) : Reached c → Reached ((edit e).runOn c).2
  | ask {c : CachedTree} (id : NodeId) : Reached c → Reached ((ask id).runOn c).2
  | freeze {c : CachedTree} : Reached c → Reached { c with tree := c.tree.freeze }
  | advance {c : CachedTree} (state : BuildState) (id : NodeId) :
      Reached c → Reached { c with tree := c.tree.advance state id }

/-- Scopes that are kept stay right while states change. -/
theorem Coherent.reshape (h : c.Coherent) {t : Tree} (hshape : t.SameShape c.tree) :
    ({ c with tree := t } : CachedTree).Coherent where
  forest := hshape.forest h.forest
  right := fun hkept => (hshape.scope _).trans (h.right hkept)

theorem Reached.coherent (h : c.Reached) : c.Coherent := by
  induction h with
  | start hstart => exact ⟨Tree.ofAssembly_forest hstart, fun hkept => nomatch hkept⟩
  | edit e _ ih => exact (ih.did (.edit e)).1
  | ask id _ ih => exact (ih.did (.ask id)).1
  | freeze _ ih => exact ih.reshape (.freeze _)
  | advance state id _ ih => exact ih.reshape (.advance state _ id)

theorem Reached.after (h : c.Reached) (acts : List Act) : (c.after acts).Reached := by
  induction acts generalizing c with
  | nil => exact h
  | cons act rest ih =>
    cases act with
    | edit e => exact ih (h.edit e)
    | ask id => exact ih (h.ask id)

theorem Reached.forest (h : c.Reached) : c.tree.Forest := h.coherent.forest

end CachedTree

namespace Tree

variable {t u : Tree} {parent : NodeId}

/-! ## Refused edits -/

/-- An edit that fails has changed nothing. -/
theorem edit_refused (h : t.Forest) {e : Edit} {err : GraphError} (hrun : e.run.runOn t = (.error err, u)) : u = t := by
  cases e with
  | insert a =>
    rw [Edit.run, Effect.runOn_map, insert_runOn] at hrun
    rcases hok : t.checkInsert a with _ | ⟨⟩
    · rw [hok] at hrun
      exact (congrArg Prod.snd hrun).symm
    · rw [hok] at hrun
      cases hrun
  | attach above child name =>
    rw [Edit.run, Effect.runOn_bind, attach_runOn] at hrun
    rcases hok : t.checkAttach above child name with _ | ⟨⟩
    · rw [hok] at hrun
      exact (congrArg Prod.snd hrun).symm
    · rw [hok] at hrun
      cases hrun
  | attachAssembly above a =>
    rw [Edit.run, Effect.runOn_map, attachAssembly_runOn h] at hrun
    rcases hok : t.checkGraft above a with _ | ⟨⟩
    · rw [hok] at hrun
      exact (congrArg Prod.snd hrun).symm
    · rw [hok] at hrun
      cases hrun

/-! ## What is placed hangs together -/

theorem placed_first {above : Option NodeId} {a : Assembly} {nodes : Array Node} {n : Node}
    (hn : (placed above a nodes)[nodes.size]? = some n) : n.parent = above := by
  cases a with
  | mk name component children =>
    have hfirst : (nodes.push ⟨name, above, [], .unbuilt, component⟩)[nodes.size]? =
        some ⟨name, above, [], .unbuilt, component⟩ := Array.getElem?_push_size
    obtain ⟨entries, howner, -, -⟩ := placedAll_laid children hfirst
    rw [placed] at hn
    cases howner.symm.trans hn
    rfl

mutual

/-- Behind its first node, each node of a placed assembly is below an earlier one of them. -/
theorem placed_parent (above : Option NodeId) (a : Assembly) {nodes : Array Node} {id : Nat} {n : Node}
    (hid : nodes.size < id) (hn : (placed above a nodes)[id]? = some n) :
    ∃ p : Nat, n.parent = some p ∧ nodes.size ≤ p ∧ p < id := by
  cases a with
  | mk name component children =>
    rw [placed] at hn
    have hsize : (nodes.push ⟨name, above, [], .unbuilt, component⟩).size = nodes.size + 1 := Array.size_push _
    exact placedAll_parent nodes.size children (by omega) (by omega) hn

theorem placedAll_parent (owner : Nat) (as : List Assembly) {nodes : Array Node} {id : Nat} {n : Node}
    (howner : owner < nodes.size) (hid : nodes.size ≤ id) (hn : (placedAll owner as nodes)[id]? = some n) :
    ∃ p : Nat, n.parent = some p ∧ owner ≤ p ∧ p < id := by
  cases as with
  | nil => exact absurd (Array.getElem?_eq_some_iff.mp hn).1 (Nat.not_lt.mpr hid)
  | cons a rest =>
    have hsize := size_placed (some owner) a nodes
    have hne : id ≠ owner := Nat.ne_of_gt (Nat.lt_of_lt_of_le howner hid)
    rw [placedAll] at hn
    by_cases hlater : (placed (some owner) a nodes).size ≤ id
    · refine placedAll_parent owner rest ?_ ?_ hn <;> rw [Array.size_modify] <;> omega
    · have hearlier : id < ((placed (some owner) a nodes).modify owner (·.adopt a.name nodes.size)).size := by
        rw [Array.size_modify]
        exact Nat.lt_of_not_le hlater
      rw [placedAll_kept owner rest hearlier hne, Array.getElem?_modify, if_neg (Ne.symm hne)] at hn
      rcases Nat.eq_or_lt_of_le hid with rfl | hbelow
      · exact ⟨owner, placed_first hn, Nat.le_refl _, howner⟩
      · obtain ⟨p, hp, hle, hlt⟩ := placed_parent (some owner) a hbelow hn
        exact ⟨p, hp, Nat.le_trans (Nat.le_of_lt howner) hle, hlt⟩

end

/-- What was placed is below its first node. -/
theorem placing_under (a : Assembly) {id : Nat} (hid : t.size ≤ id) (hlt : id < (t.placing a).size) :
    (t.placing a).Under id t.size := by
  induction id using Nat.strong_induction_on with
  | _ id ih =>
    rcases Nat.eq_or_lt_of_le hid with rfl | hbelow
    · exact .refl
    · obtain ⟨n, hn⟩ := node_of_lt hlt
      obtain ⟨p, hp, hle, hlower⟩ := placed_parent none a hbelow hn
      have hup : (t.placing a).Up id p := by rw [Up, parent?, hn, Option.bind_some, hp]
      exact .head hup (ih p hlower hle (Nat.lt_trans hlower hlt))

/-- Linking a loose node cuts no way up. -/
theorem Linkable.under_link {child id top : NodeId} {name : String} (h : t.Linkable parent child name)
    (hunder : t.Under id top) : (t.link parent child name).Under id top := by
  refine Relation.ReflTransGen.mono (fun below above hup => (h.up_link ?_).mpr hup) id top hunder
  rintro rfl
  cases h.loose.symm.trans hup

end Tree

/-! ## Attempts -/

namespace CachedTree

variable {c : CachedTree} {parent : NodeId} {a : Assembly}

/-- Once the checks are passed the assembly is placed and attached. -/
theorem attachAssembly_runs (h : c.Coherent) (hok : c.tree.checkGraft parent a = .ok ()) : ∃ placed after,
    (onTree (Tree.place a)).runOn c = (.ok c.tree.size, placed) ∧
    (attach parent c.tree.size a.name).runOn placed = (.ok (), after) ∧
    (attachAssembly parent a).runOn c = (.ok c.tree.size, after) ∧
    after.tree = (c.tree.placing a).link parent c.tree.size a.name := by
  obtain ⟨hmutable, hparent, hassembly, hfree⟩ := Tree.checkGraft_ok.mp hok
  obtain ⟨above, habove⟩ := Tree.node_of_lt hparent
  have hplaced : ({ c with tree := c.tree.placing a } : CachedTree).Coherent :=
    h.grows (Tree.placed_places a h.forest hassembly).steps
  have hmirrors : ({ c with tree := c.tree.placing a } : CachedTree).Mirrors (attach parent c.tree.size a.name)
      (Tree.attach parent c.tree.size a.name) := attach_mirrors hplaced
  obtain ⟨r, after, hattach, hlink, -⟩ := hmirrors
  rw [Tree.attach_runOn, Tree.Places.attachable h.forest hok] at hlink
  obtain ⟨rfl, htree⟩ := Prod.mk.inj hlink
  refine ⟨_, after, rfl, hattach, ?_, htree.symm⟩
  rw [Tree.child?, Tree.children_of_node habove] at hfree
  simp [attachAssembly, Effect.runOn_bind, onTree, Tree.checkMutable_ok.mpr hmutable, Tree.checkNode_ok.mpr habove,
    hassembly, hfree, Tree.place_runOn, Effect.runOn_map, hattach]
  rfl

/-- An edit of a tree that can come about does all that it is for or, if it fails, nothing: the nodes with their names,
    links, components and states are those from before, the tree is frozen or not as it was, and nodes have the scopes
    that they had. Attaching an assembly fails only for what is checked before anything is placed, and with all of these
    checks passed neither placing nor attaching fails; every node that came with the assembly is then below the node it
    was attached to. -/
theorem edits_atomic (h : c.Reached) :
    (∀ e err c', (edit e).runOn c = (.error err, c') →
      c'.tree = c.tree ∧ ∀ id, (c'.scope? id).1 = (c.scope? id).1) ∧
    ∀ parent a,
      (∀ err, c.tree.checkGraft parent a = .error err → ((attachAssembly parent a).runOn c).1 = .error err) ∧
      (c.tree.checkGraft parent a = .ok () → ∃ placed after,
        (onTree (Tree.place a)).runOn c = (.ok c.tree.size, placed) ∧
        (attach parent c.tree.size a.name).runOn placed = (.ok (), after) ∧
        (attachAssembly parent a).runOn c = (.ok c.tree.size, after) ∧
        after.tree.parent? c.tree.size = some parent ∧ after.tree.child? parent a.name = some c.tree.size ∧
        ∀ id, c.tree.size ≤ id → id < after.tree.size → after.tree.Under id parent) := by
  have hcoherent := h.coherent
  refine ⟨fun e err c' hrun => ?_, fun parent a => ⟨fun err hcheck => ?_, fun hok => ?_⟩⟩
  · obtain ⟨r, c'', hcached, hplain, hcoherent'⟩ := edit_mirrors hcoherent e
    cases hcached.symm.trans hrun
    have htree : c'.tree = c.tree := Tree.edit_refused hcoherent.forest hplain
    refine ⟨htree, fun id => ?_⟩
    rw [(hcoherent'.scope? id).scope, (hcoherent.scope? id).scope, htree]
  · have hmirrors : c.Mirrors (attachAssembly parent a) (Tree.attachAssembly parent a) :=
      attachAssembly_mirrors hcoherent a
    obtain ⟨r, c', hcached, hplain, -⟩ := hmirrors
    rw [Tree.attachAssembly_runOn hcoherent.forest, hcheck] at hplain
    rw [hcached]
    exact (congrArg Prod.fst hplain).symm
  · obtain ⟨placed, after, hplace, hattach, hrun, htree⟩ := attachAssembly_runs hcoherent hok
    obtain ⟨-, -, hassembly, -⟩ := Tree.checkGraft_ok.mp hok
    have hforest := hcoherent.forest.steps (Tree.placed_places a hcoherent.forest hassembly).steps
    obtain ⟨-, hlink⟩ := (Tree.checkAttach_ok hforest).mp (Tree.Places.attachable hcoherent.forest hok)
    have hparent : after.tree.parent? c.tree.size = some parent := by rw [htree, hlink.parent_link, if_pos rfl]
    have hname : after.tree.name? c.tree.size = some a.name := by rw [htree, hlink.name_link, if_pos rfl]
    have hchild : after.tree.child? parent a.name = some c.tree.size :=
      (htree ▸ hforest.link hlink : after.tree.Forest).child_iff.mpr ⟨hparent, hname⟩
    refine ⟨placed, after, hplace, hattach, hrun, hparent, hchild, fun id hid hlt => ?_⟩
    refine Relation.ReflTransGen.tail (b := c.tree.size) ?_ hparent
    rw [htree, Tree.Linkable.size_link] at hlt
    exact htree ▸ hlink.under_link (Tree.placing_under a hid hlt)

/-- A policy on top of a layer. -/
def layered : Assembly := .mk "policy" Tree.bare [.leaf "dense" Tree.bare]

/-- Further down two children have one name. -/
def twins : Assembly :=
  .mk "critic" Tree.bare [.mk "trunk" Tree.bare [.leaf "dense" Tree.bare, .leaf "dense" Tree.bare]]

theorem twins_atomic : let c := ofTree (Tree.seed "agent" Tree.bare)
    c.Reached ∧ (∃ err c', (edit (.attachAssembly Tree.root twins)).runOn c = (.error err, c') ∧ c'.tree = c.tree) ∧
      ∃ after, (attachAssembly Tree.root layered).runOn c = (.ok 1, after) ∧ after.tree.Under 2 Tree.root := by
  intro c
  have hreached : c.Reached := .start (a := .leaf "agent" Tree.bare) rfl
  obtain ⟨hrefused, hattached⟩ := edits_atomic hreached
  have hrun : (edit (.attachAssembly Tree.root twins)).runOn c = (.error (.nameConflict "trunk" "dense"), c) := rfl
  obtain ⟨-, after, -, -, hafter, -, -, hunder⟩ := (hattached Tree.root layered).2 rfl
  have hsize : ((attachAssembly Tree.root layered).runOn c).2.tree.size = 3 := rfl
  rw [hafter] at hsize
  exact ⟨hreached, ⟨_, c, hrun, (hrefused _ _ _ hrun).1⟩, after, hafter, hunder 2 (by decide) (hsize.symm ▸ by decide)⟩

end CachedTree

end ComponentFlow
