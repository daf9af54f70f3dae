/-
  ComponentFlow.Proofs.DeadEnd — graphs whose first build failed. The root is left being built, which every
  build, call and record is refused for, and the tree is left frozen, which every edit is refused for. So
  nothing that is done later changes the tree, the pending records or the artifact, which is never made
  (`Graph.failed_build_dead_end`).
-/
import ComponentFlow.Proofs.Lifecycle

namespace ComponentFlow

/-- A node that hangs together with the root and declares a method. -/
def Tree.Offers (t : Tree) (id : NodeId) (name : String) : Prop :=
  t.Under id root ∧ ∃ c, t.component? id = some c ∧ c.declares name = true

namespace Graph

variable {g g' : Graph} {id : NodeId} {name : String} {e : GraphError}

theorem declaredMethod_of_offers (h : g.tree.Forest) (hoffers : g.tree.Offers id name) :
    ∃ scope m, g.declaredMethod id name = .ok (scope, m) := by
  obtain ⟨hunder, c, hc, hdeclares⟩ := hoffers
  obtain ⟨scope, hscope⟩ := Option.isSome_iff_exists.mp (h.scope_isSome.mpr hunder)
  obtain ⟨m, hm⟩ := Option.isSome_iff_exists.mp hdeclares
  have hmethod : g.tree.method id name = .ok m := by
    unfold Tree.method
    simp only [hc, hm]
  exact ⟨scope, m.toSignature, declaredMethod_ok.mpr ⟨hscope, m, hmethod, rfl⟩⟩

/-! ## Builds that fail -/

/-- What has an unbuilt graph build: a build, or a call that runs at once. -/
inductive Act.Builds (g : Graph) : Act → Prop
  | build : Builds g .build
  | call {x : Recording} {id : NodeId} {name : String} {inputs : List Value} : g.backend.mode = .immediate →
      x.call? g.tree = some (id, name, inputs) → g.tree.Offers id name → Builds g (.record x)
  | callOnTensors {id : NodeId} {name : String} {inputs : List Tensor} : g.backend.mode = .immediate →
      g.tree.Offers id name → Builds g (.callOnTensors id name inputs)

/-- A call that runs at once goes no further than the build before it. -/
theorem call_unprepared (hmode : g.backend.mode = .immediate) (h : g.tree.Forest) (hoffers : g.tree.Offers id name)
    (hprepare : prepare.runOn g = (.error e, g')) (inputs : List Value) :
    (call id name inputs).runOn g = (.error e, g') := by
  obtain ⟨scope, m, hm⟩ := declaredMethod_of_offers h hoffers
  unfold call
  simp only [Effect.runOn_bind, Effect.runOn_reading, hm, Effect.runOn_get, hmode, callNow_eq, hprepare]

theorem did_builds (h : g.tree.Forest) (hstate : g.state = .unbuilt) (hfails : (build.runOn g).1 = .error e) {act : Act}
    (hbuilds : act.Builds g) : g.did act = (build.runOn g).2 := by
  have hprepare : prepare.runOn g = (.error e, (build.runOn g).2) := by
    rw [prepare_runOn, hstate]
    simp only [hfails]
    rfl
  cases hbuilds with
  | build => rfl
  | call hmode hcall hoffers =>
    rw [did, Recording.run_of_call hcall, Effect.runOn_bind_still fun _ _ => rfl,
      call_unprepared hmode h hoffers hprepare]
  | callOnTensors hmode hoffers =>
    rw [did, callOnTensors, Effect.runOn_bind_still fun _ _ => rfl, call_unprepared hmode h hoffers hprepare]

/-- The root is left being built. -/
theorem build_fails (h : g.Coherent) (hstate : g.state = .unbuilt) (hfails : (build.runOn g).1 = .error e) :
    (build.runOn g).2.state = .building := by
  have htree := (build_error_leaves hfails).1
  rw [buildingTree, if_pos hstate] at htree
  rw [state, htree]
  exact Tree.underway_state hstate (Nat.ne_of_gt h.forest.root_lt)

/-! ## What is done later -/

/-- The tree, the pending records and the artifact are the same. -/
structure Stays (g g' : Graph) : Prop where
  tree : g'.tree = g.tree
  pending : g'.recorder.pending = g.recorder.pending
  artifact : g'.artifact = g.artifact

theorem Stays.refl (g : Graph) : g.Stays g := ⟨rfl, rfl, rfl⟩

theorem Stays.trans {g'' : Graph} (h : g.Stays g') (h' : g'.Stays g'') : g.Stays g'' :=
  ⟨h'.tree.trans h.tree, h'.pending.trans h.pending, h'.artifact.trans h.artifact⟩

theorem Move.stays (h : g.Move g') (hcoherent : g.Coherent) (hstate : g.state = .building) : g.Stays g' := by
  cases h with
  | edit hfrozen =>
    rw [hcoherent.frozen.mpr (by simp [hstate])] at hfrozen
    cases hfrozen
  | build =>
    rw [build_reentrant hstate]
    exact .refl g
  | declare => exact ⟨rfl, rfl, rfl⟩
  | record _ hnot => exact absurd hstate hnot
  | count => exact ⟨rfl, rfl, rfl⟩

theorem Moves.stays (h : g.Moves g') (hcoherent : g.Coherent) (hstate : g.state = .building) : g.Stays g' := by
  induction h with
  | refl => exact .refl g
  | tail hbefore hmove ih =>
    have hbuilding : Graph.state _ = .building := (congrArg Tree.state ih.tree).trans hstate
    exact ih.trans (hmove.stays (hcoherent.moves hbefore) hbuilding)

/-! ## What is refused -/

/-- The operation fails with this error and changes nothing. -/
def Rejects {α : Type} (g : Graph) (op : Effect Graph α) (e : GraphError) : Prop := op.runOn g = (.error e, g)

section Building

variable (hstate : g.state = .building)
include hstate

theorem prepare_reentrant : prepare.runOn g = (.error (.reentrantBuild g.rootScope), g) := by
  rw [prepare_runOn, hstate]

theorem checkRecordable_reentrant (scope : String) (m : Signature) :
    g.checkRecordable scope m = .error (.reentrantBuild g.rootScope) := by
  unfold checkRecordable
  rw [hstate]

theorem call_reentrant (h : g.tree.Forest) (hoffers : g.tree.Offers id name) (inputs : List Value) :
    g.Rejects (call id name inputs) (.reentrantBuild g.rootScope) := by
  cases hmode : g.backend.mode with
  | symbolic =>
    obtain ⟨scope, m, hm⟩ := declaredMethod_of_offers h hoffers
    rw [Rejects, call_runOn hmode, prepareCall, hm]
    simp only [Outcome.ok_bind, checkRecordable_reentrant hstate, Outcome.error_bind]
  | immediate => exact call_unprepared hmode h hoffers (prepare_reentrant hstate) inputs

theorem callAt_reentrant (h : g.tree.Forest) (hoffers : g.tree.Offers id name) {scope : String}
    (hfind : g.tree.find? scope = some id) (inputs : List Value) :
    g.Rejects (callAt scope name inputs) (.reentrantBuild g.rootScope) := by
  rw [Rejects, callAt_runOn, hfind]
  exact call_reentrant hstate h hoffers inputs

theorem callOnTensors_reentrant (h : g.tree.Forest) (hoffers : g.tree.Offers id name) (inputs : List Tensor) :
    g.Rejects (callOnTensors id name inputs) (.reentrantBuild g.rootScope) := by
  rw [Rejects, callOnTensors, Effect.runOn_bind, call_reentrant hstate h hoffers]

theorem recordWith_reentrant (hmode : g.backend.mode = .symbolic) (h : g.tree.Forest) (hoffers : g.tree.Offers id name)
    (inputs : List Binding) (specs : List (Option TensorSpec)) :
    g.Rejects (recordWith id name inputs specs) (.reentrantBuild g.rootScope) := by
  obtain ⟨scope, m, hm⟩ := declaredMethod_of_offers h hoffers
  rw [Rejects, recordWith_runOn, prepareRaw, requireSymbolic_ok hmode, hm]
  simp only [Outcome.ok_bind, checkRecordable_reentrant hstate, Outcome.error_bind]

end Building

theorem editing_frozen (h : g.tree.frozen = true) (edit : Tree.Edit) : g.Rejects (editing edit.run) .treeFrozen := by
  rw [Rejects, editing_runOn, Tree.edit_frozen h]

theorem execute_unbuilt (hmode : g.backend.mode = .symbolic) (h : g.artifact = none) (fetches : List Placeholder)
    (feeds : Feeds) : g.Rejects (execute fetches feeds) (.notBuilt g.rootScope) := by
  rw [Rejects, execute_runOn hmode, h]

/-- A graph, on either backend, whose first build fails, asked for or made by a call that runs at once. Whatever is done
    later, the root stays being built, and the tree, the pending records and the artifact, of which there is none, stay
    as they are. Every build is refused as reentrant, and so is every call of a method that an attached component
    declares and, on a symbolic graph, every record of one. Every edit is refused because the tree is frozen, and on
    a symbolic graph every run because nothing is built. -/
theorem failed_build_dead_end {a : Assembly} {tree : Tree} (h : Tree.ofAssembly a = .ok tree) (id : Nat)
    (backend : Backend) (acts : List Act) (hstate : ((fresh id tree backend).afterActs acts).state = .unbuilt)
    {e : GraphError} (hfails : (build.runOn ((fresh id tree backend).afterActs acts)).1 = .error e)
    {act : Act} (hbuilds : act.Builds ((fresh id tree backend).afterActs acts)) (later : List Act) :
    let failed := ((fresh id tree backend).afterActs acts).did act
    let g := failed.afterActs later
    g.state = .building ∧ g.tree = failed.tree ∧ g.recorder.pending = failed.recorder.pending ∧ g.artifact = none ∧
    g.Rejects build (.reentrantBuild g.rootScope) ∧
    (∀ node name, g.tree.Offers node name →
      (∀ inputs, g.Rejects (call node name inputs) (.reentrantBuild g.rootScope)) ∧
      (∀ scope inputs, g.tree.find? scope = some node →
        g.Rejects (callAt scope name inputs) (.reentrantBuild g.rootScope)) ∧
      (∀ inputs, g.Rejects (callOnTensors node name inputs) (.reentrantBuild g.rootScope)) ∧
      (backend.mode = .symbolic → ∀ inputs specs,
        g.Rejects (recordWith node name inputs specs) (.reentrantBuild g.rootScope))) ∧
    (∀ edit : Tree.Edit, g.Rejects (editing edit.run) .treeFrozen) ∧
    (backend.mode = .symbolic → ∀ fetches feeds, g.Rejects (execute fetches feeds) (.notBuilt g.rootScope)) := by
  intro failed g
  have hfresh := coherent_fresh h id backend
  have hbefore : ((fresh id tree backend).afterActs acts).Coherent := hfresh.afterActs acts
  have hfailed : failed = (build.runOn ((fresh id tree backend).afterActs acts)).2 :=
    did_builds hbefore.forest hstate hfails hbuilds
  have hcoherent : failed.Coherent := hbefore.moves (did_moves hbefore.forest act)
  have hbuilding : failed.state = .building := hfailed ▸ build_fails hbefore hstate hfails
  have hstays : failed.Stays g := (hcoherent.afterActs_moves later).stays hcoherent hbuilding
  have hg : g.Coherent := hcoherent.afterActs later
  have hbuilding' : g.state = .building := (congrArg Tree.state hstays.tree).trans hbuilding
  have hbackend : g.backend = backend := by
    have hmoves := (hfresh.afterActs_moves acts).trans (did_moves hbefore.forest act)
    exact (Moves.forward (hmoves.trans (hcoherent.afterActs_moves later))).backend
  have hnone : g.artifact = none := by
    refine Option.not_isSome_iff_eq_none.mp fun hsome => ?_
    cases hbuilding'.symm.trans (hg.artifact.mp hsome).2
  refine ⟨hbuilding', hstays.tree, hstays.pending, hnone, build_reentrant hbuilding', fun node name hoffers => ?_,
    ?_, ?_⟩
  · exact ⟨call_reentrant hbuilding' hg.forest hoffers, fun scope inputs hfind =>
      callAt_reentrant hbuilding' hg.forest hoffers hfind inputs, callOnTensors_reentrant hbuilding' hg.forest hoffers,
      fun hmode => recordWith_reentrant hbuilding' (hbackend ▸ hmode) hg.forest hoffers⟩
  · exact editing_frozen (hg.frozen.mpr (by simp [hbuilding']))
  · exact fun hmode => execute_unbuilt (hbackend ▸ hmode) hnone

/-- A component with a method that is declared to call a child. -/
def dependent : Component :=
  ⟨"Dependent", .null, [{ name := "act", calls := [("helper", "act")], body := .straight [] [] }], .none⟩

/-- The child is not there when the method is called first, and is attached too late. -/
theorem missing_helper_dead_end :
    let start := fresh 1 (Tree.seed "agent" dependent) ⟨.immediate, .reference⟩
    let failed := start.did (.record (.call 0 "act" []))
    let g := failed.afterActs [.edit (.attachAssembly 0 (.leaf "helper" dependent)), .build]
    failed.state = .building ∧ g.tree = failed.tree ∧ g.Rejects build (.reentrantBuild g.rootScope) ∧
      (∀ inputs, g.Rejects (call 0 "act" inputs) (.reentrantBuild g.rootScope)) ∧
      g.Rejects (editing (Tree.Edit.insert (.leaf "helper" dependent)).run) .treeFrozen := by
  intro start failed g
  have htree : Tree.ofAssembly (.leaf "agent" dependent) = .ok (Tree.seed "agent" dependent) := rfl
  have hoffers : (Tree.seed "agent" dependent).Offers 0 "act" := ⟨.refl, dependent, rfl, by decide +kernel⟩
  have hfails : (build.runOn start).1 = .error (.unknownComponent "agent" "helper") := by rfl
  have hbuilds : Act.Builds start (.record (.call 0 "act" [])) := .call rfl rfl hoffers
  obtain ⟨-, hsame, -, -, hbuild, hcall, hedit, -⟩ :=
    failed_build_dead_end htree 1 ⟨.immediate, .reference⟩ [] rfl hfails hbuilds
      [.edit (.attachAssembly 0 (.leaf "helper" dependent)), .build]
  have hoffers' : g.tree.Offers 0 "act" := ⟨.refl, dependent, rfl, by decide +kernel⟩
  exact ⟨by decide +kernel, hsame, hbuild, (hcall 0 "act" hoffers').1, hedit _⟩

end Graph

end ComponentFlow
