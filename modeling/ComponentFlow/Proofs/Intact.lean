/-
  ComponentFlow.Proofs.Intact — requests that fail. A recording that fails changes nothing, and a run
  that fails changes nothing but the tally. A build on a graph that was built before takes the pending
  records out, and when it cannot resolve them puts all of them back, in order; it forgets no more than
  which of them may be shared (`Graph.build_failed`). So it fails again in the same way, and what was
  built before runs as it did (`Graph.failures_leave_intact`).
-/
import ComponentFlow.Proofs.Formation

namespace ComponentFlow

namespace Graph

variable {g g' : Graph} {e : GraphError}

/-- The same tree with the same build states, the same records and inputs, and the same artifact. -/
structure Intact (g g' : Graph) : Prop where
  id : g'.id = g.id
  tree : g'.tree = g.tree
  backend : g'.backend = g.backend
  pending : g'.recorder.pending = g.recorder.pending
  feeds : g'.recorder.feeds = g.recorder.feeds
  nextId : g'.recorder.nextId = g.recorder.nextId
  artifact : g'.artifact = g.artifact

/-! ## Runs -/

/-- A run changes the tally, whatever it comes to. -/
theorem execute_intact (hmode : g.backend.mode = .symbolic) (fetches : List Placeholder) (feeds : Feeds) :
    Intact g ((execute fetches feeds).runOn g).2 := by
  rw [execute_runOn hmode]
  split <;> exact ⟨rfl, rfl, rfl, rfl, rfl, rfl, rfl⟩

/-- What a run comes to does not depend on what was recorded. -/
theorem execute_recorder (hmode : g.backend.mode = .symbolic) (r : Recorder) (fetches : List Placeholder)
    (feeds : Feeds) :
    ((execute fetches feeds).runOn { g with recorder := r }).1 = ((execute fetches feeds).runOn g).1 := by
  have hmode' : Graph.backend { g with recorder := r } = g.backend := rfl
  rw [execute_runOn (hmode' ▸ hmode), execute_runOn hmode]
  rcases g.artifact with _ | a <;> rfl

/-! ## Builds of a graph that is built -/

theorem buildable_of_built (hstate : g.state = .built) : g.Buildable := by
  refine ⟨by simp [hstate], fun hunbuilt => ?_⟩
  rw [hstate] at hunbuilt
  cases hunbuilt

/-- The records are back where they were. -/
def unshared (g : Graph) : Graph := { g with recorder := { g.recorder with shared := [] } }

theorem unshared_intact (g : Graph) : g.Intact g.unshared := ⟨rfl, rfl, rfl, rfl, rfl, rfl, rfl⟩

/-- When a build of a graph that is built fails, and what it leaves. -/
theorem build_failed (hstate : g.state = .built) (haborts : e.aborts = false) :
    build.runOn g = (.error e, g') ↔
      g.mustResolve = true ∧ g.resolution.run g.recorder.pending = .error e ∧ g' = g.unshared := by
  have hbuildable := buildable_of_built hstate
  have htree : g.buildingTree = g.tree := if_neg (by simp [hstate])
  constructor
  · intro h
    have hbuilds := g.build_builds
    rw [h] at hbuilds
    cases hbuilds with
    | refused hrefused => exact absurd hbuildable hrefused
    | unresolved _ hmust _ hrun => exact ⟨hmust, hrun, by rw [htree, unshared]⟩
    | aborted _ _ haborted =>
      rw [haborts] at haborted
      cases haborted
  · intro ⟨hmust, hrun, hafter⟩
    rw [build_unresolved hbuildable hmust haborts hrun, htree, hafter, unshared]

/-- Nothing that a build looks at has changed. -/
theorem build_failed_again (hstate : g.state = .built) (haborts : e.aborts = false)
    (h : build.runOn g = (.error e, g')) : build.runOn g' = (.error e, g') := by
  obtain ⟨hmust, hresolve, rfl⟩ := (build_failed hstate haborts).mp h
  exact (build_failed (g := g.unshared) hstate haborts).mpr ⟨hmust, hresolve, rfl⟩

/-- Requests to a symbolic graph that fail. A recording leaves the graph as it was. A run leaves the tree, the
    records, the inputs and the artifact as they were. So does a build of a graph that is built, unless it is
    aborted and returns no error; done again it fails with the same error and changes nothing at all, and every
    run comes to what it would have come to before. -/
theorem failures_leave_intact (hmode : g.backend.mode = .symbolic) :
    (∀ (x : Recording) e g', x.run.runOn g = (.error e, g') → g' = g) ∧
      (∀ fetches feeds e g', (execute fetches feeds).runOn g = (.error e, g') → g.Intact g') ∧
      ∀ e g', g.state = .built → e.aborts = false → build.runOn g = (.error e, g') →
        g.Intact g' ∧ build.runOn g' = (.error e, g') ∧
          ∀ fetches feeds, ((execute fetches feeds).runOn g').1 = ((execute fetches feeds).runOn g).1 := by
  refine ⟨fun x e g' h => Recording.error hmode h, fun fetches feeds e g' h => ?_, fun e g' hstate haborts h => ?_⟩
  · have hintact := execute_intact hmode fetches feeds
    rwa [h] at hintact
  · have hagain := build_failed_again hstate haborts h
    obtain ⟨-, -, rfl⟩ := (build_failed hstate haborts).mp h
    exact ⟨g.unshared_intact, hagain, execute_recorder hmode _⟩

/-- A graph that was built, with a record of an input that nobody declared. -/
def dangling : Graph :=
  let s : TensorSpec := ⟨.f32, [.named "B"]⟩
  ((Session.start 1 Session.increment .reference).after
    [.record (.input "x" s), .record (.call 0 "add" [.placeholder ⟨1, .feed "x", s⟩]), .build,
      .record (.raw 0 "add" [.feed "z"] [some s])]).graph

/-- A run of what was built. -/
def fetchBuilt : Effect Graph (List Tensor) :=
  execute [⟨1, .output 0 0, ⟨.f32, [.named "B"]⟩⟩] [("x", .zeros ⟨[3]⟩)]

theorem dangling_intact : ∃ e g', build.runOn dangling = (.error e, g') ∧ dangling.recorder.pending ≠ [] ∧
    dangling.Intact g' ∧ build.runOn g' = (.error e, g') ∧
    (fetchBuilt.runOn dangling).1.isOk = true ∧ (fetchBuilt.runOn g').1 = (fetchBuilt.runOn dangling).1 := by
  have hstate : dangling.state = .built := by decide +kernel
  have hfails : (match (build.runOn dangling).1 with
      | .error e => e.aborts
      | .ok _ => true) = false := by decide +kernel
  rcases hrun : build.runOn dangling with ⟨e | report, g'⟩
  · rw [hrun] at hfails
    obtain ⟨-, -, hbuild⟩ := failures_leave_intact (g := dangling) rfl
    obtain ⟨hintact, hagain, hruns⟩ := hbuild e g' hstate hfails hrun
    exact ⟨e, g', rfl, by decide +kernel, hintact, hagain, by decide +kernel, hruns _ _⟩
  · rw [hrun] at hfails
    cases hfails

end Graph

end ComponentFlow
