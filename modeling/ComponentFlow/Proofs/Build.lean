/-
  ComponentFlow.Proofs.Build — what a build does to a graph. The tree keeps its shape, its root ends
  up built, and what was pending is resolved on top of the artifact there was (`Graph.build_ok`); with
  nothing pending nothing changes (`Graph.build_again`). A build that fails leaves the artifact and
  the declared inputs alone (`Graph.build_after`). `Graph.build_builds` tells all that can happen.
-/
import ComponentFlow.Graph.Basic
import ComponentFlow.Proofs.Effect
import ComponentFlow.Proofs.Shape

namespace ComponentFlow

/-! ## States of nodes -/

namespace Tree

theorem state_advance (state : BuildState) (t : Tree) (id i : NodeId) :
    (t.advance state id).state? i = (t.state? i).map fun s => if i = id then s.max state else s := by
  simp only [advance, state?, node?, Array.getElem?_modify]
  by_cases h : id = i
  · subst h
    simp [Option.map_map, Function.comp_def]
  · simp [h, Ne.symm h, Function.comp_def]

theorem state_advanceAll (state : BuildState) (ids : List NodeId) (t : Tree) (i : NodeId) :
    (t.advanceAll state ids).state? i = (t.state? i).map fun s => if i ∈ ids then s.max state else s := by
  unfold advanceAll
  induction ids generalizing t with
  | nil => simp
  | cons id ids ih =>
    rw [List.foldl_cons, ih, state_advance, Option.map_map]
    congr 1
    funext s
    have hmax : (s.max state).max state = s.max state := by
      cases s <;> cases state <;> rfl
    by_cases h : i = id <;> by_cases h' : i ∈ ids <;> simp [h, h', hmax]

/-- The tree during the first build. -/
def underway (t : Tree) : Tree := (t.advanceAll .building t.walk).freeze

/-- The tree after the first build. -/
def completed (t : Tree) : Tree := t.underway.advanceAll .built t.walk.reverse

theorem underway_sameShape (t : Tree) : t.underway.SameShape t :=
  (SameShape.freeze _).trans (SameShape.advanceAll .building t.walk t)

theorem completed_sameShape (t : Tree) : t.completed.SameShape t :=
  (SameShape.advanceAll .built t.walk.reverse t.underway).trans t.underway_sameShape

theorem state_completed (t : Tree) (i : NodeId) : t.completed.state? i =
    (t.state? i).map fun s => if i ∈ t.walk then (s.max .building).max .built else s := by
  have hunderway : t.underway.state? i = (t.state? i).map fun s => if i ∈ t.walk then s.max .building else s :=
    state_advanceAll .building t.walk t i
  rw [completed, state_advanceAll, hunderway, Option.map_map]
  congr 1
  funext s
  by_cases hi : i ∈ t.walk <;> simp [hi]

/-- A root that was built for the first time is built, if there is one. -/
theorem completed_state (t : Tree) (h : t.state = .unbuilt) : t.completed.state ≠ .building := by
  unfold state at h ⊢
  rw [state_completed]
  rcases hs : t.state? root with _ | s
  · simp
  · rw [hs] at h
    obtain rfl : s = .unbuilt := h
    by_cases hroot : root ∈ t.walk <;> simp [hroot, BuildState.max, BuildState.rank]

theorem root_mem_walk {t : Tree} (h : t.size ≠ 0) : root ∈ t.walk := by
  obtain ⟨steps, hsteps⟩ := Nat.exists_eq_succ_of_ne_zero h
  unfold walk
  rw [hsteps]
  exact List.mem_cons_self

/-- The root of a tree that is unbuilt. -/
theorem state_root {t : Tree} (h : t.state = .unbuilt) (hsize : t.size ≠ 0) : t.state? root = some .unbuilt := by
  obtain ⟨n, hn⟩ : ∃ n, t.node? root = some n := ⟨_, Array.getElem?_eq_getElem (Nat.pos_of_ne_zero hsize)⟩
  simp only [state, state?, hn, Option.map_some, Option.getD_some] at h ⊢
  rw [h]

theorem size_of_completed_unbuilt {t : Tree} (h : t.state = .unbuilt) (h' : t.completed.state = .unbuilt) :
    t.size = 0 := by
  by_contra hne
  have hbuilt : t.completed.state? root = some .built := by
    simp [state_completed, state_root h hne, root_mem_walk hne, BuildState.max, BuildState.rank]
  rw [state, hbuilt] at h'
  cases h'

/-- During the first build the root is being built. -/
theorem underway_state {t : Tree} (h : t.state = .unbuilt) (hsize : t.size ≠ 0) : t.underway.state = .building := by
  have hbuilding : t.underway.state? root = some .building := by
    show (t.advanceAll .building t.walk).state? root = _
    simp [state_advanceAll, state_root h hsize, root_mem_walk hsize, BuildState.max, BuildState.rank]
  rw [state, hbuilding, Option.getD_some]

theorem walk_of_empty {t : Tree} (h : t.size = 0) : t.walk = [] := by
  rw [walk, h]
  rfl

theorem completed_of_empty {t : Tree} (h : t.size = 0) : t.completed = t.freeze := by
  unfold completed underway
  rw [walk_of_empty h]
  rfl

/-- Only a tree without nodes is unbuilt after its first build, and then a second one is in vain. -/
theorem completed_idem (t : Tree) (h : t.state = .unbuilt) (h' : t.completed.state = .unbuilt) :
    t.completed.completed = t.completed := by
  have hempty := size_of_completed_unbuilt h h'
  have hfrozen : t.freeze.size = 0 := hempty
  rw [completed_of_empty hempty, completed_of_empty hfrozen]
  rfl

end Tree

/-- An operation that is aborted returns no error to its caller. -/
def GraphError.aborts : GraphError → Bool
  | .fault _ => true
  | _ => false

namespace Graph

/-! ## Builds -/

variable {g g' : Graph}

theorem resolvePending_runOn (g : Graph) : resolvePending.runOn g =
    match Resolution.run ⟨g.id, g.tree, g.backend.kernels, g.artifact, g.recorder.feeds⟩ g.recorder.pending with
    | .ok (a, emitted) =>
      (.ok (g.recorder.pending.length, emitted), { g with recorder := g.recorder.take.2, artifact := some a })
    | .error (.fault cause) => (.error (.fault cause), { g with recorder := g.recorder.take.2 })
    | .error e => (.error e, { g with recorder := g.recorder.take.2.restore g.recorder.pending }) := by
  unfold resolvePending
  simp only [Effect.runOn_bind, Effect.runOn_get, modifyRecorder, Effect.runOn_modify, Recorder.take]
  rcases Resolution.run ⟨g.id, g.tree, g.backend.kernels, g.artifact, g.recorder.feeds⟩ g.recorder.pending
    with e | ⟨a, m⟩
  · cases e <;> rfl
  · rfl

theorem resolvePending_tree (g : Graph) : (resolvePending.runOn g).2.tree = g.tree := by
  rw [resolvePending_runOn]
  split <;> rfl

/-- The tree while a build resolves. -/
def buildingTree (g : Graph) : Tree := if g.state = .unbuilt then g.tree.underway else g.tree

/-- The tree after a build that succeeds. -/
def builtTree (g : Graph) : Tree := if g.state = .unbuilt then g.tree.completed else g.tree

theorem buildingTree_sameShape (g : Graph) : g.buildingTree.SameShape g.tree := by
  unfold buildingTree
  split
  · exact g.tree.underway_sameShape
  · exact .refl _

theorem builtTree_sameShape (g : Graph) : g.builtTree.SameShape g.tree := by
  unfold builtTree
  split
  · exact g.tree.completed_sameShape
  · exact .refl _

theorem builtTree_state (h : g.state ≠ .building) : g.builtTree.state ≠ .building := by
  unfold builtTree
  split
  · next hunbuilt => exact g.tree.completed_state hunbuilt
  · exact h

/-- What a build resolves the pending invocations against. -/
def resolution (g : Graph) : Resolution :=
  ⟨g.id, g.buildingTree, g.backend.kernels, g.artifact, g.recorder.feeds⟩

/-- Whether a build gets as far as resolving. -/
structure Buildable (g : Graph) : Prop where
  state : g.state ≠ .building
  calls : g.state = .unbuilt → g.tree.checkCalls g.tree.walk = .ok ()

theorem build_runOn (h : g.Buildable) : build.runOn g =
    match (if g.mustResolve then resolvePending else pure (0, 0)).runOn { g with tree := g.buildingTree } with
    | (.ok (resolved, emitted), g') =>
      (.ok ⟨g.backend.mode, g.tree.walk.length, resolved, emitted⟩, { g' with tree := g.builtTree })
    | (.error e, g') => (.error e, g') := by
  obtain ⟨hstate, hcalls⟩ := h
  unfold build buildingTree builtTree Tree.completed Tree.underway
  simp only [Effect.runOn_bind, Effect.runOn_get, hstate, if_false]
  by_cases hunbuilt : g.state = .unbuilt
  · simp only [hunbuilt, if_true, Effect.runOn_bind, modifyTree, Effect.runOn_modify, Effect.runOn_ofOutcome,
      hcalls hunbuilt]
    generalize hbegun : { g with tree := (g.tree.advanceAll .building g.tree.walk).freeze } = begun
    have htree : (resolvePending.runOn begun).2.tree = (g.tree.advanceAll .building g.tree.walk).freeze := by
      rw [resolvePending_tree, ← hbegun]
    split
    · rw [Effect.runOn_bind]
      rcases hrun : resolvePending.runOn begun with ⟨_ | ⟨resolved, emitted⟩, g'⟩
      · rfl
      · rw [hrun] at htree
        change g'.tree = _ at htree
        simp only [Effect.runOn_bind, Effect.runOn_modify, Effect.runOn_pure, htree]
    · subst hbegun
      rfl
  · simp only [hunbuilt, if_false]
    split
    · have htree := resolvePending_tree g
      rw [Effect.runOn_bind]
      rcases hrun : resolvePending.runOn g with ⟨_ | ⟨resolved, emitted⟩, g'⟩
      · rfl
      · rw [hrun] at htree
        obtain ⟨id, tree, backend, recorder, artifact, tally⟩ := g'
        obtain rfl : tree = g.tree := htree
        rfl
    · rfl

/-- A build that has nothing to resolve. -/
theorem build_idle (h : g.Buildable) (hmust : g.mustResolve = false) :
    build.runOn g = (.ok ⟨g.backend.mode, g.tree.walk.length, 0, 0⟩, { g with tree := g.builtTree }) := by
  rw [build_runOn h, hmust]
  rfl

/-- A build whose records can be resolved. -/
theorem build_resolved (h : g.Buildable) (hmust : g.mustResolve = true) {a : Artifact} {m : Nat}
    (hrun : g.resolution.run g.recorder.pending = .ok (a, m)) :
    build.runOn g = (.ok ⟨g.backend.mode, g.tree.walk.length, g.recorder.pending.length, m⟩,
      { g with tree := g.builtTree, recorder := g.recorder.take.2, artifact := some a }) := by
  rw [build_runOn h, if_pos hmust, resolvePending_runOn]
  unfold resolution at hrun
  simp only [hrun]

theorem build_reentrant (h : g.state = .building) : build.runOn g = (.error (.reentrantBuild g.rootScope), g) := by
  unfold build
  simp [Effect.runOn_bind, h]

/-- A build that is refused before it resolves anything. The root is left being built. -/
theorem build_refused (h : ¬ g.Buildable) :
    ∃ e, build.runOn g = (.error e, { g with tree := g.buildingTree }) ∧ g.buildingTree.state = .building := by
  by_cases hbuilding : g.state = .building
  · have htree : g.buildingTree = g.tree := by
      refine if_neg fun hunbuilt => ?_
      rw [hbuilding] at hunbuilt
      cases hunbuilt
    rw [htree]
    exact ⟨.reentrantBuild g.rootScope, build_reentrant hbuilding, hbuilding⟩
  · obtain ⟨hunbuilt, e, hcheck⟩ : g.state = .unbuilt ∧ ∃ e, g.tree.checkCalls g.tree.walk = .error e := by
      rcases hcheck : g.tree.checkCalls g.tree.walk with e | ⟨⟩
      · exact ⟨by_contra fun hne => h ⟨hbuilding, fun hunbuilt => absurd hunbuilt hne⟩, e, rfl⟩
      · exact absurd ⟨hbuilding, fun _ => hcheck⟩ h
    have hsize : g.tree.size ≠ 0 := by
      intro hempty
      rw [Tree.walk_of_empty hempty] at hcheck
      cases hcheck
    have htree : g.buildingTree = g.tree.underway := if_pos hunbuilt
    rw [htree]
    refine ⟨e, ?_, Tree.underway_state hunbuilt hsize⟩
    unfold build
    simp [Effect.runOn_bind, hunbuilt, modifyTree, hcheck, Tree.underway]

theorem build_unresolved (h : g.Buildable) (hmust : g.mustResolve = true) {e : GraphError}
    (haborts : e.aborts = false) (hrun : g.resolution.run g.recorder.pending = .error e) :
    build.runOn g =
      (.error e, { g with tree := g.buildingTree, recorder := { g.recorder with shared := [] } }) := by
  rw [build_runOn h, if_pos hmust, resolvePending_runOn]
  unfold resolution at hrun
  dsimp only
  rw [hrun]
  cases e with
  | fault cause => cases haborts
  | _ => simp only [Recorder.take, Recorder.restore, List.append_nil]

theorem build_aborted (h : g.Buildable) (hmust : g.mustResolve = true) {e : GraphError}
    (haborts : e.aborts = true) (hrun : g.resolution.run g.recorder.pending = .error e) :
    build.runOn g = (.error e, { g with tree := g.buildingTree, recorder := g.recorder.take.2 }) := by
  rw [build_runOn h, if_pos hmust, resolvePending_runOn]
  unfold resolution at hrun
  dsimp only
  rw [hrun]
  cases e with
  | fault cause => rfl
  | _ => cases haborts

/-- Everything that a build can come to, and the graph that it leaves. -/
inductive Builds (g : Graph) : Outcome BuildReport → Graph → Prop
  /-- It does not get as far as resolving, now or later. -/
  | refused {e : GraphError} {tree : Tree} : ¬ g.Buildable → tree.state = .building → tree.SameShape g.tree →
      Builds g (.error e) { g with tree }
  /-- There is nothing to resolve. -/
  | idle : g.Buildable → g.mustResolve = false →
      Builds g (.ok ⟨g.backend.mode, g.tree.walk.length, 0, 0⟩) { g with tree := g.builtTree }
  | resolved {a : Artifact} {m : Nat} : g.Buildable → g.mustResolve = true →
      g.resolution.run g.recorder.pending = .ok (a, m) →
      Builds g (.ok ⟨g.backend.mode, g.tree.walk.length, g.recorder.pending.length, m⟩)
        { g with tree := g.builtTree, recorder := g.recorder.take.2, artifact := some a }
  /-- What was pending cannot be resolved; it is pending again, but shared no more. -/
  | unresolved {e : GraphError} : g.Buildable → g.mustResolve = true → e.aborts = false →
      g.resolution.run g.recorder.pending = .error e →
      Builds g (.error e) { g with tree := g.buildingTree, recorder := { g.recorder with shared := [] } }
  /-- What was pending is lost. -/
  | aborted {e : GraphError} : g.Buildable → g.mustResolve = true → e.aborts = true →
      g.resolution.run g.recorder.pending = .error e →
      Builds g (.error e) { g with tree := g.buildingTree, recorder := g.recorder.take.2 }

theorem build_builds (g : Graph) : Builds g (build.runOn g).1 (build.runOn g).2 := by
  by_cases hbuildable : g.Buildable
  · cases hmust : g.mustResolve with
    | false =>
      rw [build_idle hbuildable hmust]
      exact .idle hbuildable hmust
    | true =>
      rcases hrun : g.resolution.run g.recorder.pending with e | ⟨a, m⟩
      · cases haborts : e.aborts with
        | false =>
          rw [build_unresolved hbuildable hmust haborts hrun]
          exact .unresolved hbuildable hmust haborts hrun
        | true =>
          rw [build_aborted hbuildable hmust haborts hrun]
          exact .aborted hbuildable hmust haborts hrun
      · rw [build_resolved hbuildable hmust hrun]
        exact .resolved hbuildable hmust hrun
  · obtain ⟨e, hrun, hstate⟩ := build_refused hbuildable
    rw [hrun]
    exact .refused hbuildable hstate g.buildingTree_sameShape

/-- What a build that succeeds was and did. -/
theorem build_ok {report : BuildReport} (h : build.runOn g = (.ok report, g')) : g.Buildable ∧
    (g.mustResolve = false ∧ report = ⟨g.backend.mode, g.tree.walk.length, 0, 0⟩ ∧ g' = { g with tree := g.builtTree } ∨
      g.mustResolve = true ∧ ∃ a m, g.resolution.run g.recorder.pending = .ok (a, m) ∧
        report = ⟨g.backend.mode, g.tree.walk.length, g.recorder.pending.length, m⟩ ∧
        g' = { g with tree := g.builtTree, recorder := g.recorder.take.2, artifact := some a }) := by
  have hbuilds := g.build_builds
  rw [h] at hbuilds
  cases hbuilds with
  | idle hbuildable hmust => exact ⟨hbuildable, .inl ⟨hmust, rfl, rfl⟩⟩
  | @resolved a m hbuildable hmust hrun => exact ⟨hbuildable, .inr ⟨hmust, a, m, hrun, rfl, rfl⟩⟩

/-- Everything that was recorded is built, and building again would change nothing. -/
structure Settled (g : Graph) : Prop where
  buildable : g.Buildable
  tree : g.builtTree = g.tree
  artifact : g.artifact.isSome = true
  pending : g.recorder.pending = []

/-- A tree that was built is not built again. -/
theorem builtTree_settled (htree : g'.tree = g.builtTree) : g'.builtTree = g'.tree := by
  have hstate : g'.state = g.builtTree.state := congrArg Tree.state htree
  by_cases hunbuilt : g'.state = .unbuilt
  · rw [builtTree, if_pos hunbuilt, htree]
    rw [hstate] at hunbuilt
    by_cases hg : g.state = .unbuilt
    · have hbuilt : g.builtTree = g.tree.completed := if_pos hg
      rw [hbuilt] at hunbuilt ⊢
      exact g.tree.completed_idem hg hunbuilt
    · rw [builtTree, if_neg hg] at hunbuilt
      exact absurd hunbuilt hg
  · rw [builtTree, if_neg hunbuilt]

theorem Buildable.again (h : g.Buildable) (htree : g'.tree = g.builtTree) : g'.Buildable := by
  have hstate : g'.state = g.builtTree.state := congrArg Tree.state htree
  have hshape : g'.tree.SameShape g.tree := htree ▸ g.builtTree_sameShape
  refine ⟨hstate ▸ builtTree_state h.state, fun hunbuilt => ?_⟩
  rw [hshape.checkCalls, hshape.walk]
  refine h.calls (by_contra fun hne => hne ?_)
  rw [hstate, builtTree, if_neg hne] at hunbuilt
  exact hunbuilt

theorem build_settled (hmode : g.backend.mode = .symbolic) {report : BuildReport}
    (h : build.runOn g = (.ok report, g')) : g'.Settled := by
  obtain ⟨hbuildable, hcase⟩ := build_ok h
  rcases hcase with ⟨hmust, -, rfl⟩ | ⟨-, a, m, -, -, rfl⟩
  · have hnone : g.artifact.isSome = true ∧ g.recorder.pending = [] := by
      simpa [mustResolve, hmode, ← Option.isSome_iff_ne_none] using hmust
    exact ⟨hbuildable.again rfl, builtTree_settled rfl, hnone.1, hnone.2⟩
  · exact ⟨hbuildable.again rfl, builtTree_settled rfl, rfl, rfl⟩

theorem build_again (h : g.Settled) :
    build.runOn g = (.ok ⟨g.backend.mode, g.tree.walk.length, 0, 0⟩, g) := by
  have hmust : g.mustResolve = false := by
    simp [mustResolve, h.pending, Option.isNone_eq_false_iff, h.artifact]
  rw [build_idle h.buildable hmust, h.tree]

/-- What holds after a build in any case: either the artifact is the one there was, or all that was
    pending has been resolved on top of it. Records are lost when a build is aborted. -/
structure AfterBuild (g g' : Graph) : Prop where
  id : g'.id = g.id
  shape : g'.tree.SameShape g.tree
  backend : g'.backend = g.backend
  nextId : g'.recorder.nextId = g.recorder.nextId
  feeds : g'.recorder.feeds = g.recorder.feeds
  outcome : g'.artifact = g.artifact ∧ (g'.recorder.pending = g.recorder.pending ∨ g'.recorder.pending = []) ∨
    ∃ a m, g.resolution.run g.recorder.pending = .ok (a, m) ∧ g'.artifact = some a ∧ g'.recorder.pending = []

theorem build_after (g : Graph) : AfterBuild g (build.runOn g).2 := by
  have hbuilds := g.build_builds
  generalize (build.runOn g).1 = outcome, (build.runOn g).2 = g' at hbuilds
  cases hbuilds with
  | refused _ _ hshape => exact ⟨rfl, hshape, rfl, rfl, rfl, .inl ⟨rfl, .inl rfl⟩⟩
  | idle => exact ⟨rfl, g.builtTree_sameShape, rfl, rfl, rfl, .inl ⟨rfl, .inl rfl⟩⟩
  | @resolved a m _ _ hrun => exact ⟨rfl, g.builtTree_sameShape, rfl, rfl, rfl, .inr ⟨a, m, hrun, rfl, rfl⟩⟩
  | unresolved => exact ⟨rfl, g.buildingTree_sameShape, rfl, rfl, rfl, .inl ⟨rfl, .inl rfl⟩⟩
  | aborted => exact ⟨rfl, g.buildingTree_sameShape, rfl, rfl, rfl, .inl ⟨rfl, .inr rfl⟩⟩

end Graph

end ComponentFlow
