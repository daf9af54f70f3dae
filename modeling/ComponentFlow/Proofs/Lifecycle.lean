/-
  ComponentFlow.Proofs.Lifecycle — how far a graph and its nodes have been built. Whatever is done with a
  graph, and whether it succeeds or fails, is a row of moves of five kinds (`Graph.did_moves`). Each of them
  keeps the nodes that hang together with the root at the state of the root, and the frozen tree and the
  artifact in step with it (`Graph.Coherent.move`), and none moves a node back (`Graph.Move.forward`). So
  this holds of every graph that can be reached (`Graph.states_coherent`).
-/
import ComponentFlow.Proofs.Assembled
import ComponentFlow.Proofs.Deferral
import ComponentFlow.Proofs.Execute

namespace ComponentFlow

/-! ## States of nodes -/

namespace BuildState

theorem rank_le_max (a b : BuildState) : a.rank ≤ (a.max b).rank := by
  cases a <;> cases b <;> decide

end BuildState

namespace Tree

variable {t u : Tree} {id : NodeId} {s : BuildState}

theorem SameShape.up (h : t.SameShape u) : t.Up = u.Up := by
  funext id p
  rw [Up, Up, h.parent]

theorem SameShape.under (h : t.SameShape u) (id top : NodeId) : t.Under id top ↔ u.Under id top := by
  rw [Under, Under, h.up]

/-- Building leaves the links alone. -/
theorem SameShape.forest (h : t.SameShape u) (hu : u.Forest) : t.Forest := by
  refine ⟨?_, ?_, ?_, ?_, h.up ▸ hu.grounded⟩
  · intro p name id
    rw [h.children, h.parent, h.name]
    exact hu.linked
  · intro p
    rw [h.children]
    exact hu.siblings p
  · intro id name hname
    exact hu.named ((h.name id).symm.trans hname)
  · have hlt : root < t.size := h.size.symm ▸ hu.root_lt
    obtain ⟨n, hn⟩ := node_of_lt hlt
    refine ⟨n, hn, ?_⟩
    have hloose := (h.parent root).trans hu.root_loose
    rwa [parent?, hn, Option.bind_some] at hloose

/-- No node of `t` is missing in `u`, or further back there. -/
def Behind (t u : Tree) : Prop := ∀ id s, t.state? id = some s → ∃ s', u.state? id = some s' ∧ s.rank ≤ s'.rank

theorem Behind.refl (t : Tree) : t.Behind t := fun _ s hs => ⟨s, hs, Nat.le_refl _⟩

theorem Behind.trans {v : Tree} (h : t.Behind u) (h' : u.Behind v) : t.Behind v := by
  intro id s hs
  obtain ⟨s', hs', hle⟩ := h id s hs
  obtain ⟨s'', hs'', hle'⟩ := h' id s' hs'
  exact ⟨s'', hs'', Nat.le_trans hle hle'⟩

theorem behind_advanceAll (t : Tree) (s : BuildState) (ids : List NodeId) : t.Behind (t.advanceAll s ids) := by
  intro id old hold
  rw [state_advanceAll, hold, Option.map_some]
  refine ⟨_, rfl, ?_⟩
  split
  · exact old.rank_le_max s
  · exact Nat.le_refl _

theorem behind_underway (t : Tree) : t.Behind t.underway := t.behind_advanceAll .building t.walk

theorem behind_completed (t : Tree) : t.Behind t.completed :=
  t.behind_underway.trans (t.underway.behind_advanceAll .built t.walk.reverse)

/-- Nothing was built yet, and edits are allowed. -/
structure Untouched (t : Tree) : Prop where
  frozen : t.frozen = false
  states : ∀ {id s}, t.state? id = some s → s = .unbuilt

theorem Untouched.state (h : t.Untouched) : t.state = .unbuilt := by
  rw [Tree.state]
  rcases hs : t.state? root with _ | s
  · rfl
  · exact h.states hs

theorem state_adding {name : String} {component : Component} :
    (t.adding name component).state? id = if id = t.size then some .unbuilt else t.state? id := by
  rw [state?, node_adding]
  split <;> rfl

theorem state_link {parent child : NodeId} {name : String} : (t.link parent child name).state? id = t.state? id := by
  simp only [state?, link, node?, Array.getElem?_modify]
  rcases t.nodes[id]? with _ | n
  · simp
  · by_cases hparent : parent = id <;> by_cases hchild : child = id <;> simp [hparent, hchild, Node.adopt]

theorem Untouched.step (h : t.Untouched) (hstep : t.Step u) : u.Untouched := by
  cases hstep with
  | add component hname =>
    refine ⟨h.frozen, fun {id s} hs => ?_⟩
    rw [state_adding] at hs
    split at hs
    · exact (Option.some.inj hs).symm
    · exact h.states hs
  | link hlink =>
    refine ⟨h.frozen, fun {id s} hs => ?_⟩
    rw [state_link] at hs
    exact h.states hs

/-- Nodes keep their states. -/
theorem Step.state (hstep : t.Step u) (hs : t.state? id = some s) : u.state? id = some s := by
  cases hstep with
  | add component hname =>
    obtain ⟨n, hn, -⟩ := Option.map_eq_some_iff.mp hs
    rw [state_adding, if_neg (Nat.ne_of_lt (lt_of_node hn)), hs]
  | link hlink => rw [state_link, hs]

theorem Untouched.steps (h : t.Untouched) (hsteps : t.Steps u) : u.Untouched := by
  induction hsteps with
  | refl => exact h
  | tail _ hstep ih => exact ih.step hstep

theorem Steps.state (hsteps : t.Steps u) (hs : t.state? id = some s) : u.state? id = some s := by
  induction hsteps with
  | refl => exact hs
  | tail _ hstep ih => exact hstep.state ih

theorem frozen_advanceAll (s : BuildState) (ids : List NodeId) (t : Tree) : (t.advanceAll s ids).frozen = t.frozen := by
  unfold advanceAll
  induction ids generalizing t with
  | nil => rfl
  | cons id ids ih => exact ih (t.advance s id)

/-- A first build moves the nodes that it walks to the same state. -/
theorem Untouched.underway (h : t.Untouched) (id : NodeId) :
    t.underway.state? id = (t.state? id).map fun _ => if id ∈ t.walk then .building else .unbuilt := by
  have hstate := state_advanceAll .building t.walk t id
  refine hstate.trans ?_
  refine Option.map_congr fun s hs => ?_
  rw [h.states hs]
  rfl

theorem Untouched.completed (h : t.Untouched) (id : NodeId) :
    t.completed.state? id = (t.state? id).map fun _ => if id ∈ t.walk then .built else .unbuilt := by
  rw [state_completed]
  refine Option.map_congr fun s hs => ?_
  rw [h.states hs]
  rfl

theorem ofAssembly_untouched {a : Assembly} (h : ofAssembly a = .ok t) : t.Untouched := by
  obtain ⟨-, hsteps⟩ := ofAssembly_steps h
  have hseed : (seed a.name a.component).Untouched := by
    refine ⟨rfl, fun {id s} hs => ?_⟩
    obtain ⟨n, hn, rfl⟩ := Option.map_eq_some_iff.mp hs
    obtain ⟨hid, hn⟩ := Array.getElem?_eq_some_iff.mp hn
    obtain rfl : id = 0 := Nat.lt_one_iff.mp hid
    exact hn ▸ rfl
  exact hseed.steps hsteps

end Tree

namespace Graph

variable {g g' : Graph}

/-! ## What is done with a graph -/

inductive Act where
  | edit (e : Tree.Edit)
  | record (x : Recording)
  | callOnTensors (id : NodeId) (method : String) (inputs : List Tensor)
  | build
  | execute (fetches : List Placeholder) (feeds : Feeds)

/-- The graph after an act, whatever it comes to. -/
def did (g : Graph) : Act → Graph
  | .edit e => ((editing e.run).runOn g).2
  | .record x => (x.run.runOn g).2
  | .callOnTensors id method inputs => ((callOnTensors id method inputs).runOn g).2
  | .build => (build.runOn g).2
  | .execute fetches feeds => ((execute fetches feeds).runOn g).2

/-- After acts, one after the other. -/
def afterActs (g : Graph) (acts : List Act) : Graph := acts.foldl did g

/-- One move of a graph. -/
inductive Move (g : Graph) : Graph → Prop
  | edit {t : Tree} : g.tree.frozen = false → g.tree.Steps t → Move g { g with tree := t }
  | build : Move g (Graph.build.runOn g).2
  | declare {feeds : List (String × TensorSpec)} : g.backend.mode = .symbolic →
      Move g { g with recorder := { g.recorder with feeds } }
  | record {r : Invocation} {share : Bool} : g.backend.mode = .symbolic → g.state ≠ .building →
      Move g { g with recorder := g.recorder.append r share }
  | count {tally : Tally} : Move g { g with tally }

def Moves (g g' : Graph) : Prop := Relation.ReflTransGen Move g g'

theorem checkRecordable_ok {scope : String} {m : Signature} (h : g.checkRecordable scope m = .ok ()) :
    g.state ≠ .building := by
  intro hbuilding
  rw [checkRecordable, hbuilding] at h
  cases h

theorem makes_state {x : Recording} {r : Invocation} {share : Bool} (h : x.Makes g r share) : g.state ≠ .building := by
  cases h with
  | call _ hp _ =>
    obtain ⟨m, ins, hrecordable⟩ := prepareCall_ok hp
    exact checkRecordable_ok hrecordable.state
  | raw _ hp =>
    unfold prepareRaw at hp
    obtain ⟨_, -, hp⟩ := Outcome.bind_ok.mp hp
    obtain ⟨_, -, hp⟩ := Outcome.bind_ok.mp hp
    obtain ⟨⟨⟩, hstate, -⟩ := Outcome.bind_ok.mp hp
    exact checkRecordable_ok hstate

theorem requireSymbolic_error (hmode : g.backend.mode = .immediate) :
    g.requireSymbolic = .error (.modeMismatch .symbolic .immediate) := by
  simp [requireSymbolic, hmode]

theorem prepare_runOn : prepare.runOn g = match g.state with
    | .building => (.error (.reentrantBuild g.rootScope), g)
    | .unbuilt => ((build.runOn g).1.map fun _ => (), (build.runOn g).2)
    | .built => (.ok (), g) := by
  unfold prepare
  rw [Effect.runOn_bind, Effect.runOn_get]
  cases hstate : g.state with
  | unbuilt =>
    have hrun : (discard build).runOn g = ((build.runOn g).1.map fun _ => (), (build.runOn g).2) :=
      Effect.runOn_map _ _ _
    simpa only [hstate] using hrun
  | building | built => simp [hstate]

theorem prepare_moves : g.Moves (prepare.runOn g).2 := by
  rw [prepare_runOn]
  split
  · exact .refl
  · exact .single .build
  · exact .refl

/-- A call that runs at once may build first, and may count. -/
theorem callNow_moves (id : NodeId) (method : String) (inputs : List Value) :
    g.Moves ((callNow id method inputs).runOn g).2 := by
  have hprepare := prepare_moves (g := g)
  rw [callNow_eq, Effect.runOn_bind]
  rcases hrun : prepare.runOn g with ⟨e | ⟨⟩, g'⟩
  · rwa [hrun] at hprepare
  · rw [hrun] at hprepare
    by_cases hrecorded : inputs.any isRecorded = true
    · simp only [hrecorded, if_true, Effect.runOn_bind, Effect.runOn_throw]
      exact hprepare
    · simp only [hrecorded, Bool.false_eq_true, if_false, Effect.runOn_bind, Effect.runOn_get]
      exact hprepare.tail .count

theorem call_moves_now (hmode : g.backend.mode = .immediate) (id : NodeId) (method : String) (inputs : List Value) :
    g.Moves ((call id method inputs).runOn g).2 := by
  unfold call
  rw [Effect.runOn_bind, Effect.runOn_reading]
  rcases g.declaredMethod id method with e | ⟨scope, m⟩
  · exact .refl
  · simp only [Effect.runOn_bind, Effect.runOn_get, hmode]
    exact callNow_moves id method inputs

theorem record_moves (x : Recording) : g.Moves (x.run.runOn g).2 := by
  cases hmode : g.backend.mode with
  | symbolic =>
    have hleaves := Recording.run_leaves hmode x
    generalize (x.run.runOn g).2 = g' at hleaves
    cases hleaves with
    | feeds => exact .single (.declare hmode)
    | record hmakes => exact .single (.record hmode (makes_state hmakes))
  | immediate =>
    have hrefused := requireSymbolic_error hmode
    cases x with
    | input name spec =>
      have hrun : ((Recording.input name spec).run.runOn g).2 = g := by
        simp [Recording.run, input, Effect.runOn_bind, hrefused]
      rw [hrun]
      exact .refl
    | call id method inputs =>
      rw [Recording.run, Effect.runOn_bind_still fun _ _ => rfl]
      exact call_moves_now hmode id method inputs
    | callAt scope method inputs =>
      rw [Recording.run, Effect.runOn_bind_still fun _ _ => rfl, callAt_runOn]
      rcases g.tree.find? scope with _ | id
      · exact .refl
      · exact call_moves_now hmode id method inputs
    | raw id method inputs specs =>
      have hrun : ((Recording.raw id method inputs specs).run.runOn g).2 = g := by
        simp [Recording.run, recordWith, Effect.runOn_bind, hrefused]
      rw [hrun]
      exact .refl

theorem call_moves (id : NodeId) (method : String) (inputs : List Value) :
    g.Moves ((call id method inputs).runOn g).2 := by
  have hrecord := record_moves (g := g) (.call id method inputs)
  rwa [Recording.run, Effect.runOn_bind_still fun _ _ => rfl] at hrecord

theorem execute_moves (fetches : List Placeholder) (feeds : Feeds) : g.Moves ((execute fetches feeds).runOn g).2 := by
  cases hmode : g.backend.mode with
  | symbolic =>
    rw [execute_runOn hmode]
    split
    · exact .refl
    · exact .single .count
  | immediate =>
    have hrun : ((execute fetches feeds).runOn g).2 = g := by
      simp [execute, Effect.runOn_bind, requireSymbolic_error hmode]
    rw [hrun]
    exact .refl

theorem editing_runOn {α : Type} (op : Effect Tree α) :
    (editing op).runOn g = ((op.runOn g.tree).1, { g with tree := (op.runOn g.tree).2 }) :=
  Effect.runOn_within Graph.tree (fun t g => { g with tree := t }) op g

theorem edit_moves (h : g.tree.Forest) (e : Tree.Edit) : g.Moves ((editing e.run).runOn g).2 := by
  rw [editing_runOn]
  rcases Tree.edit_steps h e with hsame | ⟨hfrozen, hsteps⟩
  · rw [hsame]
    exact .refl
  · exact .single (.edit hfrozen hsteps)

/-- Whatever is done, and whether it succeeds or fails. -/
theorem did_moves (h : g.tree.Forest) (act : Act) : g.Moves (g.did act) := by
  cases act with
  | edit e => exact edit_moves h e
  | record x => exact record_moves x
  | callOnTensors id method inputs =>
    rw [did, callOnTensors, Effect.runOn_bind_still fun _ _ => rfl]
    exact call_moves id method _
  | build => exact .single .build
  | execute fetches feeds => exact execute_moves fetches feeds

/-! ## What moves keep -/

/-- The state of the root is that of every node that hangs together with it; the others are unbuilt. The tree is
    frozen once the first build has begun, and there is an artifact once it has succeeded on a symbolic graph; an
    immediate graph records nothing. -/
structure Coherent (g : Graph) : Prop where
  forest : g.tree.Forest
  under : ∀ {id s}, g.tree.Under id Tree.root → g.tree.state? id = some s → s = g.state
  apart : ∀ {id s}, ¬ g.tree.Under id Tree.root → g.tree.state? id = some s → s = .unbuilt
  frozen : g.tree.frozen = true ↔ g.state ≠ .unbuilt
  artifact : g.artifact.isSome = true ↔ g.backend.mode = .symbolic ∧ g.state = .built
  immediate : g.backend.mode = .immediate → g.recorder.pending = [] ∧ g.recorder.feeds = []

/-! ### Builds -/

section Build

variable {e : GraphError} {report : BuildReport}

/-- What a build that fails leaves. -/
theorem build_error_leaves (h : (build.runOn g).1 = .error e) :
    (build.runOn g).2.tree = g.buildingTree ∧ (build.runOn g).2.artifact = g.artifact := by
  by_cases hbuildable : g.Buildable
  · have hbuilds := g.build_builds
    generalize (build.runOn g).1 = outcome, (build.runOn g).2 = g' at h hbuilds
    cases hbuilds with
    | refused hrefused => exact absurd hbuildable hrefused
    | idle | resolved => cases h
    | unresolved | aborted => exact ⟨rfl, rfl⟩
  · obtain ⟨e, hrun, -⟩ := build_refused hbuildable
    rw [hrun]
    exact ⟨rfl, rfl⟩

theorem build_ok_leaves (h : (build.runOn g).1 = .ok report) :
    g.state ≠ .building ∧ (build.runOn g).2.tree = g.builtTree ∧
      ((build.runOn g).2.artifact.isSome = true ↔ g.artifact.isSome = true ∨ g.backend.mode = .symbolic) := by
  obtain ⟨hbuildable, hcase⟩ := build_ok (Prod.ext h rfl : build.runOn g = (.ok report, (build.runOn g).2))
  refine ⟨hbuildable.state, ?_⟩
  rcases hcase with ⟨hmust, -, hafter⟩ | ⟨hmust, a, m, -, -, hafter⟩
  · rw [hafter]
    refine ⟨rfl, Iff.intro .inl fun hsome => hsome.elim (fun hold => hold) fun hmode => ?_⟩
    have hsettled : g.artifact.isSome = true ∧ g.recorder.pending = [] := by
      simpa [mustResolve, hmode, ← Option.isSome_iff_ne_none] using hmust
    exact hsettled.1
  · rw [hafter]
    have hmode : g.backend.mode = .symbolic := by
      rw [mustResolve, Bool.and_eq_true, beq_iff_eq] at hmust
      exact hmust.1
    exact ⟨rfl, fun _ => .inr hmode, fun _ => rfl⟩

/-- On an immediate graph a build leaves the recorder alone. -/
theorem build_recorder (hmode : g.backend.mode = .immediate) : (build.runOn g).2.recorder = g.recorder := by
  have hmust : g.mustResolve = false := by simp [mustResolve, hmode]
  have hbuilds := g.build_builds
  generalize (build.runOn g).1 = outcome, (build.runOn g).2 = g' at hbuilds
  cases hbuilds with
  | refused | idle => rfl
  | resolved _ htrue | unresolved _ htrue | aborted _ htrue => cases hmust.symm.trans htrue

end Build

namespace Coherent

theorem untouched (h : g.Coherent) (hstate : g.state = .unbuilt) : g.tree.Untouched where
  frozen := by
    rcases hfrozen : g.tree.frozen with _ | _
    · rfl
    · exact absurd hstate (h.frozen.mp hfrozen)
  states := by
    intro id s hs
    by_cases hunder : g.tree.Under id Tree.root
    · exact (h.under hunder hs).trans hstate
    · exact h.apart hunder hs

/-- What does not change the tree. -/
theorem congr (h : g.Coherent) (htree : g'.tree = g.tree) (hbackend : g'.backend = g.backend)
    (hartifact : g'.artifact.isSome = g.artifact.isSome)
    (hrecorder : g.backend.mode = .immediate → g'.recorder = g.recorder) : g'.Coherent := by
  have hstate : g'.state = g.state := congrArg Tree.state htree
  refine ⟨htree ▸ h.forest, ?_, ?_, ?_, ?_, fun hmode => ?_⟩
  · rw [htree, hstate]
    exact h.under
  · rw [htree]
    exact h.apart
  · rw [htree, hstate]
    exact h.frozen
  · rw [hartifact, hbackend, hstate]
    exact h.artifact
  · rw [hbackend] at hmode
    rw [hrecorder hmode]
    exact h.immediate hmode

/-- What moves the nodes that hang together with the root, and no others, to the same state. -/
theorem first (h : g.Coherent) {s : BuildState} (hs : s ≠ .unbuilt)
    (hshape : g'.tree.SameShape g.tree) (hfrozen : g'.tree.frozen = true)
    (hstates : ∀ id, g'.tree.state? id = (g.tree.state? id).map fun _ => if id ∈ g.tree.walk then s else .unbuilt)
    (hbackend : g'.backend = g.backend)
    (hartifact : g'.artifact.isSome = true ↔ g.backend.mode = .symbolic ∧ s = .built)
    (hrecorder : g.backend.mode = .immediate → g'.recorder = g.recorder) : g'.Coherent := by
  have hstate' : g'.state = s := by
    obtain ⟨n, hn, -⟩ := h.forest.rooted
    have hroot : g'.tree.state? Tree.root = some s := by
      rw [hstates, if_pos (h.forest.mem_walk.mpr .refl), Tree.state?, hn, Option.map_some, Option.map_some]
    rw [state, Tree.state, hroot, Option.getD_some]
  refine ⟨hshape.forest h.forest, ?_, ?_, ?_, ?_, fun hmode => ?_⟩
  · intro id s' hunder hs'
    rw [hstates, if_pos (h.forest.mem_walk.mpr ((hshape.under _ _).mp hunder))] at hs'
    obtain ⟨_, -, rfl⟩ := Option.map_eq_some_iff.mp hs'
    exact hstate'.symm
  · intro id s' hnot hs'
    rw [hstates, if_neg fun hmem => hnot ((hshape.under _ _).mpr (h.forest.mem_walk.mp hmem))] at hs'
    obtain ⟨_, -, rfl⟩ := Option.map_eq_some_iff.mp hs'
    rfl
  · rw [hstate']
    exact ⟨fun _ => hs, fun _ => hfrozen⟩
  · rw [hartifact, hbackend, hstate']
  · rw [hbackend] at hmode
    rw [hrecorder hmode]
    exact h.immediate hmode

theorem build (h : g.Coherent) : (Graph.build.runOn g).2.Coherent := by
  have hbackend := g.build_after.backend
  have hrecorder := build_recorder (g := g)
  rcases houtcome : (Graph.build.runOn g).1 with e | report
  · obtain ⟨htree, hartifact⟩ := build_error_leaves houtcome
    by_cases hstate : g.state = .unbuilt
    · have hnone : g.artifact.isSome = true ↔ g.backend.mode = .symbolic ∧ BuildState.building = .built := by
        rw [h.artifact, hstate]
        simp
      rw [buildingTree, if_pos hstate] at htree
      refine h.first (s := .building) (by decide) ?_ ?_ ?_ hbackend (hartifact ▸ hnone) hrecorder
      · exact htree ▸ g.tree.underway_sameShape
      · rw [htree]
        rfl
      · rw [htree]
        exact (h.untouched hstate).underway
    · rw [buildingTree, if_neg hstate] at htree
      exact h.congr htree hbackend (by rw [hartifact]) hrecorder
  · obtain ⟨hbuilding, htree, hartifact⟩ := build_ok_leaves houtcome
    by_cases hstate : g.state = .unbuilt
    · have hsome : (Graph.build.runOn g).2.artifact.isSome = true ↔
          g.backend.mode = .symbolic ∧ BuildState.built = .built := by
        rw [hartifact, h.artifact, hstate]
        simp
      rw [builtTree, if_pos hstate] at htree
      refine h.first (s := .built) (by decide) ?_ ?_ ?_ hbackend hsome hrecorder
      · exact htree ▸ g.tree.completed_sameShape
      · rw [htree]
        exact Tree.frozen_advanceAll ..
      · rw [htree]
        exact (h.untouched hstate).completed
    · rw [builtTree, if_neg hstate] at htree
      have hbuilt : g.state = .built := by
        cases hs : g.state with
        | unbuilt => exact absurd hs hstate
        | building => exact absurd hs hbuilding
        | built => rfl
      have hsame : (Graph.build.runOn g).2.artifact.isSome = g.artifact.isSome := by
        rw [Bool.eq_iff_iff, hartifact, h.artifact, hbuilt]
        simp
      exact h.congr htree hbackend hsame hrecorder

/-- An edit is made before anything is built, and then nothing is. -/
theorem edit (h : g.Coherent) (hfrozen : g.tree.frozen = false) {t : Tree} (hsteps : g.tree.Steps t) :
    ({ g with tree := t } : Graph).Coherent := by
  have hstate : g.state = .unbuilt := by
    by_contra hne
    rw [h.frozen.mpr hne] at hfrozen
    cases hfrozen
  have huntouched : t.Untouched := (h.untouched hstate).steps hsteps
  have hstate' : Graph.state { g with tree := t } = .unbuilt := huntouched.state
  refine ⟨h.forest.steps hsteps, fun _ hs => ?_, fun _ hs => huntouched.states hs, ?_, ?_, h.immediate⟩
  · rw [hstate']
    exact huntouched.states hs
  · rw [hstate']
    simp [huntouched.frozen]
  · rw [hstate', h.artifact, hstate]

theorem move (h : g.Coherent) (hmove : g.Move g') : g'.Coherent := by
  cases hmove with
  | edit hfrozen hsteps => exact h.edit hfrozen hsteps
  | build => exact h.build
  | declare hmode => exact h.congr rfl rfl rfl fun himmediate => by cases hmode.symm.trans himmediate
  | record hmode => exact h.congr rfl rfl rfl fun himmediate => by cases hmode.symm.trans himmediate
  | count => exact h.congr rfl rfl rfl fun _ => rfl

theorem moves (h : g.Coherent) (hmoves : g.Moves g') : g'.Coherent := by
  induction hmoves with
  | refl => exact h
  | tail _ hmove ih => exact ih.move hmove

theorem afterActs_moves (h : g.Coherent) (acts : List Act) : g.Moves (g.afterActs acts) := by
  induction acts generalizing g with
  | nil => exact .refl
  | cons act rest ih =>
    have hmoves := did_moves h.forest act
    exact hmoves.trans (ih (h.moves hmoves))

theorem afterActs (h : g.Coherent) (acts : List Act) : (g.afterActs acts).Coherent := h.moves (h.afterActs_moves acts)

end Coherent

/-! ### States move forward -/

theorem build_behind : g.tree.Behind (build.runOn g).2.tree := by
  rcases houtcome : (build.runOn g).1 with e | report
  · rw [(build_error_leaves houtcome).1, buildingTree]
    split
    · exact g.tree.behind_underway
    · exact .refl _
  · rw [(build_ok_leaves houtcome).2.1, builtTree]
    split
    · exact g.tree.behind_completed
    · exact .refl _

/-- The backend is the same, and no node has moved back. -/
structure Forward (g g' : Graph) : Prop where
  backend : g'.backend = g.backend
  behind : g.tree.Behind g'.tree

theorem Move.forward (h : g.Move g') : g.Forward g' := by
  cases h with
  | edit _ hsteps => exact ⟨rfl, fun id s hs => ⟨s, hsteps.state hs, Nat.le_refl _⟩⟩
  | build => exact ⟨g.build_after.backend, build_behind⟩
  | declare | record | count => exact ⟨rfl, .refl _⟩

theorem Moves.forward (h : g.Moves g') : g.Forward g' := by
  induction h with
  | refl => exact ⟨rfl, .refl _⟩
  | tail _ hmove ih => exact ⟨hmove.forward.backend.trans ih.backend, ih.behind.trans hmove.forward.behind⟩

/-! ## Graphs that can be reached -/

theorem coherent_fresh {a : Assembly} {tree : Tree} (h : Tree.ofAssembly a = .ok tree) (id : Nat) (backend : Backend) :
    (fresh id tree backend).Coherent := by
  have huntouched := Tree.ofAssembly_untouched h
  have hstate : (fresh id tree backend).state = .unbuilt := huntouched.state
  refine ⟨Tree.ofAssembly_forest h, fun _ hs => ?_, fun _ hs => huntouched.states hs, ?_, ?_, fun _ => ⟨rfl, rfl⟩⟩
  · rw [hstate]
    exact huntouched.states hs
  · rw [hstate]
    simp [fresh, huntouched.frozen]
  · rw [hstate]
    simp [fresh]

/-- Whatever is done with a graph, on either backend, and whatever fails: each node from which the way up leads to the
    root has the state of the root, and every other node is unbuilt. The tree is frozen exactly if the root is not
    unbuilt; there is an artifact exactly if the graph is symbolic and the root is built; an immediate graph has no
    pending records, no inputs and no artifact. Whatever is done next, no node moves back. -/
theorem states_coherent {a : Assembly} {tree : Tree} (h : Tree.ofAssembly a = .ok tree) (id : Nat) (backend : Backend)
    (acts : List Act) :
    let g := (fresh id tree backend).afterActs acts
    (∀ node s, g.tree.state? node = some s → g.tree.Under node Tree.root → s = g.state) ∧
    (∀ node s, g.tree.state? node = some s → ¬ g.tree.Under node Tree.root → s = .unbuilt) ∧
    (g.tree.frozen = true ↔ g.state ≠ .unbuilt) ∧
    (g.artifact.isSome = true ↔ backend.mode = .symbolic ∧ g.state = .built) ∧
    (backend.mode = .immediate → g.recorder.pending = [] ∧ g.recorder.feeds = [] ∧ g.artifact = none) ∧
    ∀ act node s, g.tree.state? node = some s →
      ∃ s', (g.did act).tree.state? node = some s' ∧ s.rank ≤ s'.rank := by
  intro g
  have hfresh := coherent_fresh h id backend
  have hg : g.Coherent := hfresh.afterActs acts
  have hbackend : g.backend = backend := (hfresh.afterActs_moves acts).forward.backend
  have hartifact := hg.artifact
  rw [hbackend] at hartifact
  refine ⟨fun node s hs hunder => hg.under hunder hs, fun node s hs hnot => hg.apart hnot hs, hg.frozen, hartifact,
    fun hmode => ?_, fun act => (did_moves hg.forest act).forward.behind⟩
  obtain ⟨hpending, hfeeds⟩ := hg.immediate (hbackend ▸ hmode)
  refine ⟨hpending, hfeeds, Option.not_isSome_iff_eq_none.mp fun hsome => ?_⟩
  cases hmode.symm.trans (hartifact.mp hsome).1

/-- A component is added and not attached before the build, nor after it. -/
def spared : List Act :=
  [.edit (.insert (.leaf "spare" Tree.bare)), .execute [] [], .build, .edit (.attach 0 1 "late"), .build]

theorem spared_coherent : Tree.ofAssembly (.leaf "agent" Tree.bare) = .ok (Tree.seed "agent" Tree.bare) ∧
    let g := (fresh 1 (Tree.seed "agent" Tree.bare) ⟨.symbolic, .reference⟩).afterActs spared
    BuildState.built = g.state ∧ g.tree.frozen = true ∧ g.artifact.isSome = true ∧
      ∃ s, (g.did .build).tree.state? 1 = some s ∧ BuildState.unbuilt.rank ≤ s.rank := by
  have hstart : Tree.ofAssembly (.leaf "agent" Tree.bare) = .ok (Tree.seed "agent" Tree.bare) := rfl
  obtain ⟨hunder, -, hfrozen, hartifact, -, hforward⟩ :=
    states_coherent hstart 1 ⟨.symbolic, .reference⟩ spared
  have hbuilt := hunder 0 .built (by decide +kernel) .refl
  refine ⟨hstart, hbuilt, hfrozen.mpr (by decide +kernel), hartifact.mpr ⟨rfl, hbuilt.symm⟩, ?_⟩
  exact hforward .build 1 .unbuilt (by decide +kernel)

end Graph

end ComponentFlow
