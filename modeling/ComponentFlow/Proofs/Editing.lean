/-
  ComponentFlow.Proofs.Editing — edits of trees. All that an edit does, it does by adding loose nodes
  and linking them (`Tree.edit_steps`), so a forest stays one whatever is asked of it
  (`Tree.Forest.afterEdits`). Placing an assembly is a row of such steps as well, though it fills in
  the link of a node before it adds the nodes below that one (`Tree.placed_linked`). An edit that passes
  its checks does not fail later on (`Tree.attachAssembly_runOn`).
-/
import ComponentFlow.Proofs.Linking

namespace ComponentFlow

namespace Tree

variable {t u : Tree} {id parent child : NodeId} {name : String}

/-! ## Placing assemblies -/

section Placing

variable {nodes : Array Node}

mutual

theorem size_placed (above : Option NodeId) (a : Assembly) (nodes : Array Node) :
    nodes.size < (placed above a nodes).size := by
  cases a with
  | mk name component children =>
    rw [placed]
    have hle := size_placedAll nodes.size children (nodes.push ⟨name, above, [], .unbuilt, component⟩)
    rw [Array.size_push] at hle
    exact hle

theorem size_placedAll (owner : NodeId) (as : List Assembly) (nodes : Array Node) :
    nodes.size ≤ (placedAll owner as nodes).size := by
  cases as with
  | nil => exact Nat.le_refl _
  | cons a rest =>
    rw [placedAll]
    have hle := size_placedAll owner rest ((placed (some owner) a nodes).modify owner (·.adopt a.name nodes.size))
    rw [Array.size_modify] at hle
    exact Nat.le_trans (Nat.le_of_lt (size_placed (some owner) a nodes)) hle

end

theorem modify_push {f : Node → Node} {i : Nat} (hi : i < nodes.size) (n : Node) :
    (nodes.modify i f).push n = (nodes.push n).modify i f := by
  refine Array.ext_getElem? fun j => ?_
  simp only [Array.getElem?_push, Array.getElem?_modify, Array.size_modify]
  by_cases hj : j = nodes.size
  · rw [if_pos hj, if_neg (by omega), if_pos hj]
  · rw [if_neg hj, if_neg hj]

theorem modify_comm {f g : Node → Node} (hfg : ∀ n, f (g n) = g (f n)) (i j : Nat) :
    (nodes.modify i f).modify j g = (nodes.modify j g).modify i f := by
  refine Array.ext_getElem? fun k => ?_
  simp only [Array.getElem?_modify]
  by_cases hi : i = k <;> by_cases hj : j = k <;> simp [hi, hj, Option.map_map, Function.comp_def, hfg]

mutual

/-- What becomes of a node that is there does not matter to what is placed behind it, as long as its children stay. -/
theorem placed_modify {f : Node → Node}
    (hf : ∀ (n : Node) name child, f (n.adopt name child) = (f n).adopt name child) {i : Nat}
    (above : Option NodeId) (a : Assembly) {nodes : Array Node} (hi : i < nodes.size) :
    placed above a (nodes.modify i f) = (placed above a nodes).modify i f := by
  cases a with
  | mk name component children =>
    rw [placed, placed, Array.size_modify, modify_push hi, placedAll_modify hf nodes.size children]
    rw [Array.size_push]
    exact Nat.lt_succ_of_lt hi

theorem placedAll_modify {f : Node → Node}
    (hf : ∀ (n : Node) name child, f (n.adopt name child) = (f n).adopt name child) {i : Nat}
    (owner : NodeId) (as : List Assembly) {nodes : Array Node} (hi : i < nodes.size) :
    placedAll owner as (nodes.modify i f) = (placedAll owner as nodes).modify i f := by
  cases as with
  | nil => rfl
  | cons a rest =>
    have hlater : i < ((placed (some owner) a nodes).modify owner (·.adopt a.name nodes.size)).size := by
      rw [Array.size_modify]
      exact Nat.lt_trans hi (size_placed (some owner) a nodes)
    rw [placedAll, placedAll, placed_modify hf (some owner) a hi, Array.size_modify,
      modify_comm (fun n => hf n _ _) i owner, placedAll_modify hf owner rest hlater]

end

/-- A node whose link is filled in before the nodes below it are added is as good as one that is linked at last. -/
theorem placed_linked (owner : NodeId) (a : Assembly) (nodes : Array Node) : placed (some owner) a nodes =
    (placed none a nodes).modify nodes.size fun n => { n with name := a.name, parent := some owner } := by
  cases a with
  | mk name component children =>
    have hpush : nodes.push ⟨name, some owner, [], .unbuilt, component⟩ =
        (nodes.push ⟨name, none, [], .unbuilt, component⟩).modify nodes.size
          fun n => { n with name, parent := some owner } := by
      refine Array.ext_getElem? fun j => ?_
      simp only [Array.getElem?_push, Array.getElem?_modify]
      by_cases hj : j = nodes.size
      · simp [hj]
      · rw [if_neg hj, if_neg hj, if_neg (Ne.symm hj)]
    rw [placed, placed, hpush]
    refine placedAll_modify (fun _ _ _ => rfl) nodes.size children ?_
    rw [Array.size_push]
    exact Nat.lt_succ_self _

end Placing

/-- The tree with an assembly behind all nodes. -/
def placing (t : Tree) (a : Assembly) : Tree := { t with nodes := placed none a t.nodes }

/-- The tree with assemblies behind all nodes, linked below one of them. -/
def filling (t : Tree) (owner : NodeId) (as : List Assembly) : Tree := { t with nodes := placedAll owner as t.nodes }

/-- What placing an assembly does: nodes that were there stay as they are, and the first node behind them is loose. -/
structure Places (t : Tree) (name : String) (u : Tree) : Prop where
  steps : t.Steps u
  kept : ∀ id < t.size, u.node? id = t.node? id
  name : u.name? t.size = some name
  loose : u.parent? t.size = none

/-- What placing the children of a node does. -/
structure Fills (t : Tree) (owner : NodeId) (u : Tree) : Prop where
  steps : t.Steps u
  kept : ∀ id < t.size, id ≠ owner → u.node? id = t.node? id
  name : u.name? owner = t.name? owner
  parent : u.parent? owner = t.parent? owner

theorem checkName_ok : checkName name = .ok () ↔ nameFault? name = none := by
  unfold checkName
  rcases nameFault? name with _ | reason <;> simp

theorem checkAssembly_ok {component : Component} {children : List Assembly}
    (h : checkAssembly (.mk name component children) = .ok ()) :
    nameFault? name = none ∧ checkChildren name [] children = .ok () := by
  rw [checkAssembly] at h
  obtain ⟨⟨⟩, hname, hchildren⟩ := Outcome.bind_ok.mp h
  exact ⟨checkName_ok.mp hname, hchildren⟩

theorem checkChildren_ok {owner : String} {seen : List String} {a : Assembly} {rest : List Assembly}
    (h : checkChildren owner seen (a :: rest) = .ok ()) :
    a.name ∉ seen ∧ checkAssembly a = .ok () ∧ checkChildren owner (a.name :: seen) rest = .ok () := by
  rw [checkChildren] at h
  by_cases hseen : seen.contains a.name = true
  · rw [if_pos hseen] at h
    cases h
  · rw [if_neg hseen] at h
    obtain ⟨⟨⟩, hassembly, hrest⟩ := Outcome.bind_ok.mp h
    exact ⟨fun hmem => hseen (List.contains_iff_mem.mpr hmem), hassembly, hrest⟩

/-- A tree that was placed behind all nodes may be linked below any of them. -/
theorem Places.linkable (h : t.Forest) {a : Assembly} (hplaces : t.Places a.name u) (hparent : parent < t.size)
    (hname : nameFault? name = none) (hfree : ∀ id, (name, id) ∉ t.children parent) :
    u.Linkable parent t.size name where
  named := hname
  above := by
    obtain ⟨n, hn⟩ := node_of_lt hparent
    exact lt_of_node ((hplaces.kept parent hparent).trans hn)
  below := lt_of_name hplaces.name
  loose := hplaces.loose
  apart := (Nat.ne_of_lt h.root_lt).symm
  acyclic := by
    -- Going up from a node that was there, one meets only nodes that were there.
    intro hunder
    have hold : ∀ id, u.Under parent id → id < t.size := by
      intro id hid
      induction hid with
      | refl => exact hparent
      | @tail id p _ hp ih =>
        rw [Up, parent?, hplaces.kept id ih] at hp
        exact h.parent_lt hp
    exact Nat.lt_irrefl _ (hold _ hunder)
  free := by
    rw [child?, children, hplaces.kept parent hparent]
    refine List.lookup_eq_none_iff.mpr fun entry hentry => ?_
    have hne : name ≠ entry.1 := by
      rintro rfl
      exact hfree entry.2 hentry
    simpa using hne

mutual

theorem placed_places (a : Assembly) {t : Tree} (h : t.Forest) (hok : checkAssembly a = .ok ()) :
    t.Places a.name (t.placing a) := by
  cases a with
  | mk name component children =>
    obtain ⟨hname, hchildren⟩ := checkAssembly_ok hok
    have hadding := h.adding hname component
    have hnone : ∀ entry ∈ (t.adding name component).children t.size, entry.1 ∈ ([] : List String) := by
      intro entry hentry
      rw [children_adding, Tree.children, node_of_size] at hentry
      cases hentry
    have hfills : (t.adding name component).Fills t.size (t.placing (.mk name component children)) := by
      rw [placing, placed]
      exact placedAll_fills children hadding (by rw [size_adding]; exact Nat.lt_succ_self _) hnone hchildren
    refine ⟨.head (.add component hname) hfills.steps, fun id hid => ?_, ?_, ?_⟩
    · rw [hfills.kept id (by rw [size_adding]; exact Nat.lt_succ_of_lt hid) (Nat.ne_of_lt hid),
        node_adding_of_ne (Nat.ne_of_lt hid)]
    · rw [hfills.name, name_adding, if_pos rfl]
      rfl
    · rw [hfills.parent, parent_adding, parent?, node_of_size, Option.bind_none]

theorem placedAll_fills (as : List Assembly) {t : Tree} {owner : NodeId} {ownerName : String} {seen : List String}
    (h : t.Forest) (howner : owner < t.size) (hseen : ∀ entry ∈ t.children owner, entry.1 ∈ seen)
    (hok : checkChildren ownerName seen as = .ok ()) : t.Fills owner (t.filling owner as) := by
  cases as with
  | nil => exact ⟨.refl, fun _ _ _ => rfl, rfl, rfl⟩
  | cons a rest =>
    obtain ⟨hfresh, hassembly, hrest⟩ := checkChildren_ok hok
    have hplaces := placed_places a h hassembly
    have hname : nameFault? a.name = none := (h.steps hplaces.steps).named hplaces.name
    have hlink : (t.placing a).Linkable owner t.size a.name :=
      hplaces.linkable h howner hname fun id hentry => hfresh (hseen _ hentry)
    have hlinked := (h.steps hplaces.steps).link hlink
    have hseen' : ∀ entry ∈ ((t.placing a).link owner t.size a.name).children owner, entry.1 ∈ a.name :: seen := by
      intro entry hentry
      rw [hlink.children_link, if_pos rfl, children, hplaces.kept owner howner] at hentry
      rcases List.mem_append.mp hentry with hold | hnew
      · exact List.mem_cons_of_mem _ (hseen entry hold)
      · rw [List.mem_singleton.mp hnew]
        exact List.mem_cons_self
    have hfills : ((t.placing a).link owner t.size a.name).Fills owner (t.filling owner (a :: rest)) := by
      have hnodes : t.filling owner (a :: rest) = ((t.placing a).link owner t.size a.name).filling owner rest := by
        rw [filling, placedAll, placed_linked]
        rfl
      rw [hnodes]
      exact placedAll_fills rest hlinked (by rw [Linkable.size_link]; exact hlink.above) hseen' hrest
    have hne : owner ≠ t.size := Nat.ne_of_lt howner
    refine ⟨hplaces.steps.trans (.head (.link hlink) hfills.steps), fun id hid hother => ?_, ?_, ?_⟩
    · have hlater : id < ((t.placing a).link owner t.size a.name).size := by
        rw [Linkable.size_link]
        exact Nat.lt_trans hid hlink.below
      rw [hfills.kept id hlater hother, Linkable.node_other hother (Nat.ne_of_lt hid), hplaces.kept id hid]
    · rw [hfills.name, hlink.name_link, if_neg hne, name?, hplaces.kept owner howner, name?]
    · rw [hfills.parent, hlink.parent_link, if_neg hne, parent?, hplaces.kept owner howner, parent?]

end

/-- The tree of an assembly is its root, to which the other nodes were added. -/
theorem ofAssembly_steps {a : Assembly} (h : ofAssembly a = .ok t) :
    nameFault? a.name = none ∧ (seed a.name a.component).Steps t := by
  obtain ⟨⟨⟩, hok, htree⟩ := Outcome.bind_ok.mp h
  cases htree
  cases a with
  | mk name component children =>
    obtain ⟨hname, hchildren⟩ := checkAssembly_ok hok
    have hfills : (seed name component).Fills root ((seed name component).filling root children) :=
      placedAll_fills children (.seed hname component) Nat.one_pos (fun _ hentry => nomatch hentry) hchildren
    exact ⟨hname, hfills.steps⟩

theorem ofAssembly_forest {a : Assembly} (h : ofAssembly a = .ok t) : t.Forest := by
  obtain ⟨hname, hsteps⟩ := ofAssembly_steps h
  exact (Forest.seed hname a.component).steps hsteps

/-! ## Edits -/

theorem checkMutable_ok : t.checkMutable = .ok () ↔ t.frozen = false := by
  unfold checkMutable
  cases t.frozen <;> simp

theorem checkNode_ok {n : Node} : t.checkNode id = .ok n ↔ t.node? id = some n := by
  unfold checkNode
  rcases t.node? id with _ | m <;> simp

/-- A node may be attached exactly if the tree is not frozen and the node may be linked. -/
theorem checkAttach_ok (h : t.Forest) :
    t.checkAttach parent child name = .ok () ↔ t.frozen = false ∧ t.Linkable parent child name := by
  constructor
  · intro hok
    unfold checkAttach at hok
    obtain ⟨⟨⟩, hmutable, hok⟩ := Outcome.bind_ok.mp hok
    obtain ⟨⟨⟩, hname, hok⟩ := Outcome.bind_ok.mp hok
    obtain ⟨above, habove, hok⟩ := Outcome.bind_ok.mp hok
    obtain ⟨below, hbelow, hok⟩ := Outcome.bind_ok.mp hok
    have habove : t.node? parent = some above := checkNode_ok.mp habove
    have hbelow : t.node? child = some below := checkNode_ok.mp hbelow
    rcases hloose : below.parent with _ | existing
    · rw [hloose] at hok
      by_cases hapart : child = root ∨ t.isAbove child parent = true
      · simp only [if_pos hapart] at hok
        cases hok
      · simp only [if_neg hapart] at hok
        rw [not_or] at hapart
        by_cases hfree : (above.children.lookup name).isSome = true
        · simp only [if_pos hfree] at hok
          cases hok
        · refine ⟨checkMutable_ok.mp hmutable, checkName_ok.mp hname, lt_of_node habove, lt_of_node hbelow, ?_,
            hapart.1, fun hunder => hapart.2 ((h.isAbove_iff (lt_of_node habove)).mpr hunder), ?_⟩
          · rw [parent?, hbelow, Option.bind_some, hloose]
          · rw [child?, children_of_node habove]
            exact Option.not_isSome_iff_eq_none.mp hfree
    · rw [hloose] at hok
      cases hok
  · intro ⟨hmutable, hlink⟩
    obtain ⟨above, habove⟩ := node_of_lt hlink.above
    obtain ⟨below, hbelow⟩ := node_of_lt hlink.below
    have hloose : below.parent = none := by
      have hparent := hlink.loose
      rwa [parent?, hbelow, Option.bind_some] at hparent
    have hapart : ¬(child = root ∨ t.isAbove child parent = true) :=
      not_or.mpr ⟨hlink.apart, fun habove => hlink.acyclic ((h.isAbove_iff hlink.above).mp habove)⟩
    have hfree : ¬(above.children.lookup name).isSome = true := by
      have hchild := hlink.free
      rw [child?, children_of_node habove] at hchild
      simp [hchild]
    unfold checkAttach
    rw [checkMutable_ok.mpr hmutable, checkName_ok.mpr hlink.named, checkNode_ok.mpr habove, checkNode_ok.mpr hbelow]
    simp only [Outcome.ok_bind, hloose, if_neg hapart, if_neg hfree]
    rfl

theorem attach_runOn (parent child : NodeId) (name : String) : (attach parent child name).runOn t =
    match t.checkAttach parent child name with
      | .error e => (.error e, t)
      | .ok () => (.ok (), t.link parent child name) := by
  unfold attach
  rw [Effect.runOn_bind, Effect.runOn_reading]
  rcases t.checkAttach parent child name with e | ⟨⟩ <;> rfl

theorem place_runOn (a : Assembly) : (place a).runOn t = (.ok t.size, t.placing a) := rfl

/-- Whether an assembly may be added. -/
def checkInsert (t : Tree) (a : Assembly) : Outcome Unit := do
  t.checkMutable
  checkAssembly a

theorem insert_runOn (a : Assembly) : (insert a).runOn t =
    match t.checkInsert a with
      | .error e => (.error e, t)
      | .ok () => (.ok t.size, t.placing a) := by
  unfold insert checkInsert
  rw [Effect.runOn_bind, Effect.runOn_reading]
  rcases t.checkMutable with e | ⟨⟩
  · rfl
  · simp only [Effect.runOn_bind, Effect.runOn_ofOutcome, Outcome.ok_bind]
    rcases checkAssembly a with e | ⟨⟩ <;> rfl

/-- Whether an assembly may be added below a node by its own name. -/
def checkGraft (t : Tree) (parent : NodeId) (a : Assembly) : Outcome Unit := do
  t.checkMutable
  let above ← t.checkNode parent
  checkAssembly a
  if (above.children.lookup a.name).isSome then .error (.nameConflict (t.displayName parent) a.name) else .ok ()

theorem checkGraft_ok {a : Assembly} : t.checkGraft parent a = .ok () ↔
    t.frozen = false ∧ parent < t.size ∧ checkAssembly a = .ok () ∧ t.child? parent a.name = none := by
  unfold checkGraft
  constructor
  · intro hok
    obtain ⟨⟨⟩, hmutable, hok⟩ := Outcome.bind_ok.mp hok
    obtain ⟨above, habove, hok⟩ := Outcome.bind_ok.mp hok
    obtain ⟨⟨⟩, hassembly, hok⟩ := Outcome.bind_ok.mp hok
    have habove := checkNode_ok.mp habove
    refine ⟨checkMutable_ok.mp hmutable, lt_of_node habove, hassembly, ?_⟩
    rw [child?, children_of_node habove]
    split at hok
    · cases hok
    · next hfree => exact Option.not_isSome_iff_eq_none.mp hfree
  · intro ⟨hmutable, hparent, hassembly, hfree⟩
    obtain ⟨above, habove⟩ := node_of_lt hparent
    rw [child?, children_of_node habove] at hfree
    rw [checkMutable_ok.mpr hmutable, checkNode_ok.mpr habove, hassembly]
    simp [hfree]

/-- An assembly that was placed may be attached, if it could be added below that node. -/
theorem Places.attachable (h : t.Forest) {a : Assembly} (hok : t.checkGraft parent a = .ok ()) :
    (t.placing a).checkAttach parent t.size a.name = .ok () := by
  obtain ⟨hmutable, hparent, hassembly, hfree⟩ := checkGraft_ok.mp hok
  have hplaces := placed_places a h hassembly
  have hforest := h.steps hplaces.steps
  refine (checkAttach_ok hforest).mpr ⟨hmutable, hplaces.linkable h hparent (hforest.named hplaces.name) ?_⟩
  intro id hentry
  cases hfree.symm.trans (h.child_iff.mpr (h.linked.mp hentry))

/-- Once the checks are passed nothing fails. -/
theorem attachAssembly_runOn (h : t.Forest) (a : Assembly) : (attachAssembly parent a).runOn t =
    match t.checkGraft parent a with
      | .error e => (.error e, t)
      | .ok () => (.ok t.size, (t.placing a).link parent t.size a.name) := by
  rcases hok : t.checkGraft parent a with e | ⟨⟩
  · unfold checkGraft at hok
    unfold attachAssembly
    rcases hmutable : t.checkMutable with _ | ⟨⟩
    · rw [hmutable] at hok
      cases hok
      simp [Effect.runOn_bind, hmutable]
    rcases hnode : t.checkNode parent with _ | above
    · rw [hmutable, hnode] at hok
      cases hok
      simp [Effect.runOn_bind, hmutable, hnode]
    rcases hassembly : checkAssembly a with _ | ⟨⟩
    · rw [hmutable, hnode, hassembly] at hok
      cases hok
      simp [Effect.runOn_bind, hmutable, hnode]
    · rw [hmutable, hnode, hassembly] at hok
      simp only [Outcome.ok_bind] at hok
      split at hok
      · next htaken =>
        cases hok
        simp [Effect.runOn_bind, hmutable, hnode, htaken]
      · cases hok
  · obtain ⟨hmutable, hparent, hassembly, hfree⟩ := checkGraft_ok.mp hok
    obtain ⟨above, habove⟩ := node_of_lt hparent
    rw [child?, children_of_node habove] at hfree
    unfold attachAssembly
    simp only [Effect.runOn_bind, Effect.runOn_reading, Effect.runOn_ofOutcome, Effect.runOn_get,
      checkMutable_ok.mpr hmutable, checkNode_ok.mpr habove, hassembly, hfree, Option.isSome_none, Bool.false_eq_true,
      if_false, Effect.runOn_pure, place_runOn, attach_runOn, Places.attachable h hok]

/-- A change of a tree by its users. -/
inductive Edit where
  | insert (a : Assembly)
  | attach (parent child : NodeId) (name : String)
  | attachAssembly (parent : NodeId) (a : Assembly)

/-- Carries out an edit, and gives the node that it adds. -/
def Edit.run : Edit → Effect Tree (Option NodeId)
  | .insert a => some <$> Tree.insert a
  | .attach parent child name => do
    Tree.attach parent child name
    return none
  | .attachAssembly parent a => some <$> Tree.attachAssembly parent a

/-- The tree after edits, one after the other, whatever they come to. -/
def afterEdits (t : Tree) (edits : List Edit) : Tree := edits.foldl (fun t e => (e.run.runOn t).2) t

/-- All that an edit does, whether it succeeds or fails, is steps on a tree that is not frozen. -/
theorem edit_steps (h : t.Forest) (e : Edit) :
    (e.run.runOn t).2 = t ∨ t.frozen = false ∧ t.Steps (e.run.runOn t).2 := by
  cases e with
  | insert a =>
    rw [Edit.run, Effect.runOn_map, insert_runOn]
    rcases hok : t.checkInsert a with e | ⟨⟩
    · exact .inl rfl
    · obtain ⟨⟨⟩, hmutable, hassembly⟩ := Outcome.bind_ok.mp hok
      exact .inr ⟨checkMutable_ok.mp hmutable, (placed_places a h hassembly).steps⟩
  | attach parent child name =>
    rw [Edit.run, Effect.runOn_bind, attach_runOn]
    rcases hok : t.checkAttach parent child name with e | ⟨⟩
    · exact .inl rfl
    · obtain ⟨hmutable, hlink⟩ := (checkAttach_ok h).mp hok
      exact .inr ⟨hmutable, .single (.link hlink)⟩
  | attachAssembly parent a =>
    rw [Edit.run, Effect.runOn_map, attachAssembly_runOn h]
    rcases hok : t.checkGraft parent a with e | ⟨⟩
    · exact .inl rfl
    · obtain ⟨hmutable, -, hassembly, -⟩ := checkGraft_ok.mp hok
      have hplaces := placed_places a h hassembly
      obtain ⟨-, hlink⟩ := (checkAttach_ok (h.steps hplaces.steps)).mp (Places.attachable h hok)
      exact .inr ⟨hmutable, hplaces.steps.tail (.link hlink)⟩

/-- A frozen tree refuses every edit. -/
theorem edit_frozen (h : t.frozen = true) (e : Edit) : e.run.runOn t = (.error .treeFrozen, t) := by
  have hrefused : t.checkMutable = .error .treeFrozen := by rw [checkMutable, if_pos h]
  cases e with
  | insert a => rw [Edit.run, Effect.runOn_map, insert_runOn, checkInsert, hrefused]; rfl
  | attach parent child name => rw [Edit.run, Effect.runOn_bind, attach_runOn, checkAttach, hrefused]; rfl
  | attachAssembly parent a =>
    rw [Edit.run, Effect.runOn_map, attachAssembly, Effect.runOn_bind, Effect.runOn_reading, hrefused]
    rfl

theorem Forest.edit (h : t.Forest) (e : Edit) : (e.run.runOn t).2.Forest := by
  rcases edit_steps h e with hsame | ⟨-, hsteps⟩
  · exact hsame.symm ▸ h
  · exact h.steps hsteps

theorem Forest.afterEdits (h : t.Forest) (edits : List Edit) : (t.afterEdits edits).Forest := by
  induction edits generalizing t with
  | nil => exact h
  | cons e rest ih => exact ih (h.edit e)

end Tree

end ComponentFlow
