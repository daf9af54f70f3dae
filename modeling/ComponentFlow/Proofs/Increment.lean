/-
  ComponentFlow.Proofs.Increment — builds in between make no difference. Recordings carried out in
  segments, each followed by a build, end in the artifact that one build after all of them makes
  (`builds_in_segments`), and a build with nothing new to resolve changes nothing
  (`build_again`).
-/
import ComponentFlow.Proofs.Build
import ComponentFlow.Proofs.Record
import ComponentFlow.Proofs.Resolve
import Mathlib.Algebra.GroupWithZero.Nat

namespace ComponentFlow

/-- Carries out recordings, then builds. -/
def Graph.recordAndBuild (xs : List Recording) : Effect Graph (List (List Placeholder) × BuildReport) := do
  let handed ← xs.mapM Recording.run
  return (handed, ← Graph.build)

/-- Makes a record of its own: a call of a method whose calls are never shared, or no call at all. -/
def Recording.Distinct (t : Tree) : Recording → Prop
  | .call id name _ => ∀ m, t.method id name = .ok m → m.memoized = false
  | .callAt scope name _ => ∀ id m, t.find? scope = some id → t.method id name = .ok m → m.memoized = false
  | .input .. | .raw .. => True

namespace Graph

variable {g g' h : Graph}

/-! ## Recording on two graphs -/

/-- The graph with more recorded. -/
def extended (g : Graph) (next : Nat) (feeds : Declared) (new : List Invocation) : Graph :=
  { g with recorder := { g.recorder with nextId := next, feeds, pending := g.recorder.pending ++ new } }

/-- At most one more record, with the next number, and no declaration lost. -/
structure Extends (r : Recorder) (next : Nat) (feeds : Declared) (new : List Invocation) : Prop where
  feeds : ∀ {name spec}, r.feeds.lookup name = some spec → feeds.lookup name = some spec
  new : new = [] ∧ next = r.nextId ∨ ∃ record, new = [record] ∧ record.id = r.nextId ∧ next = r.nextId + 1

/-- Two symbolic graphs that answer recordings alike. -/
structure Alike (g h : Graph) : Prop where
  mode : g.backend.mode = .symbolic
  id : h.id = g.id
  shape : h.tree.SameShape g.tree
  backend : h.backend = g.backend
  nextId : h.recorder.nextId = g.recorder.nextId
  feeds : h.recorder.feeds = g.recorder.feeds
  unbuilt : h.state ≠ .building
  /-- A method that may be called later on `g` may be called on `h`. -/
  built : h.state = .built → g.state = .built

theorem Alike.extended (hgh : Alike g h) (next : Nat) (feeds : Declared) (new : List Invocation) :
    Alike (g.extended next feeds new) (h.extended next feeds new) :=
  ⟨hgh.mode, hgh.id, hgh.shape, hgh.backend, rfl, rfl, hgh.unbuilt, hgh.built⟩

theorem Alike.declaredMethod (hgh : Alike g h) (id : NodeId) (name : String) :
    h.declaredMethod id name = g.declaredMethod id name := by
  unfold Graph.declaredMethod Graph.rootScope
  rw [hgh.shape.scope, hgh.shape.displayName, hgh.shape.name, hgh.shape.method]

theorem Alike.checkRecordable (hgh : Alike g h) {scope : String} {m : Signature}
    (hg : g.checkRecordable scope m = .ok ()) : h.checkRecordable scope m = .ok () := by
  unfold Graph.checkRecordable at hg ⊢
  split
  · next hbuilding => exact absurd hbuilding hgh.unbuilt
  · next hbuilt =>
    rw [hgh.built hbuilt] at hg
    exact hg
  · rfl

theorem Alike.prepareCall (hgh : Alike g h) {id : NodeId} {name : String} {supplied : List Value} {p : Prepared}
    (hp : g.prepareCall id name supplied = .ok p) : h.prepareCall id name supplied = .ok p := by
  unfold Graph.prepareCall at hp ⊢
  rw [hgh.declaredMethod, hgh.id, hgh.nextId]
  obtain ⟨⟨scope, m⟩, hm, hp⟩ := Outcome.bind_ok.mp hp
  obtain ⟨_, hrecordable, hp⟩ := Outcome.bind_ok.mp hp
  refine Outcome.bind_ok.mpr ⟨(scope, m), hm, Outcome.bind_ok.mpr ⟨(), hgh.checkRecordable hrecordable, hp⟩⟩

theorem Alike.prepareRaw (hgh : Alike g h) {id : NodeId} {name : String} {inputs : List Binding}
    {specs : List (Option TensorSpec)} {p : Prepared} (hp : g.prepareRaw id name inputs specs = .ok p) :
    h.prepareRaw id name inputs specs = .ok p := by
  unfold Graph.prepareRaw at hp ⊢
  rw [hgh.declaredMethod, requireSymbolic_ok (hgh.backend ▸ hgh.mode), Outcome.ok_bind]
  obtain ⟨_, -, hp⟩ := Outcome.bind_ok.mp hp
  obtain ⟨⟨scope, m⟩, hm, hp⟩ := Outcome.bind_ok.mp hp
  obtain ⟨_, hrecordable, hp⟩ := Outcome.bind_ok.mp hp
  exact Outcome.bind_ok.mpr ⟨(scope, m), hm, Outcome.bind_ok.mpr ⟨(), hgh.checkRecordable hrecordable, hp⟩⟩

/-- The record that both append. -/
theorem Alike.push (hgh : Alike g h) (id : NodeId) (scope name : String) (inputs : List Binding)
    (specs : List (Option TensorSpec)) :
    ∃ next feeds new, Extends g.recorder next feeds new ∧
      { g with recorder := (g.recorder.push g.id id scope name inputs specs false).2 } = g.extended next feeds new ∧
      { h with recorder := (h.recorder.push h.id id scope name inputs specs false).2 } = h.extended next feeds new ∧
      (h.recorder.push h.id id scope name inputs specs false).1 =
        (g.recorder.push g.id id scope name inputs specs false).1 := by
  refine ⟨g.recorder.nextId + 1, g.recorder.feeds, [_], ⟨fun hl => hl, .inr ⟨_, rfl, rfl, rfl⟩⟩, rfl, ?_, ?_⟩
  · simp [Graph.extended, Recorder.push, hgh.id, hgh.nextId, hgh.feeds]
  · simp only [Recorder.push, hgh.id, hgh.nextId]

/-- The declaration that both make. -/
theorem Alike.declare (hgh : Alike g h) {name : String} {spec : TensorSpec} {r : Recorder}
    (hr : g.recorder.declare name spec = .ok r) :
    ∃ feeds : Declared, (∀ {name spec}, g.recorder.feeds.lookup name = some spec → feeds.lookup name = some spec) ∧
      { g with recorder := r } = g.extended g.recorder.nextId feeds [] ∧
      ∃ r', h.recorder.declare name spec = .ok r' ∧
        { h with recorder := r' } = h.extended g.recorder.nextId feeds [] := by
  rcases Recorder.declare_ok.mp hr with ⟨hnew, rfl⟩ | ⟨hold, rfl⟩
  · refine ⟨g.recorder.feeds ++ [(name, spec)], lookup_append_of_some, ?_, _,
      Recorder.declare_ok.mpr (.inl ⟨hgh.feeds ▸ hnew, rfl⟩), ?_⟩
    · simp [Graph.extended]
    · simp [Graph.extended, ← hgh.nextId, hgh.feeds]
  · refine ⟨g.recorder.feeds, fun hl => hl, ?_, _, Recorder.declare_ok.mpr (.inr ⟨hgh.feeds ▸ hold, rfl⟩), ?_⟩
    · simp [Graph.extended]
    · simp [Graph.extended, ← hgh.nextId, ← hgh.feeds]

theorem Alike.call (hgh : Alike g h) {id : NodeId} {name : String} {supplied : List Value} {o : Outputs}
    (hdistinct : ∀ m, g.tree.method id name = .ok m → m.memoized = false)
    (hrun : (Graph.call id name supplied).runOn g = (.ok o, g')) :
    ∃ next feeds new, Extends g.recorder next feeds new ∧ g' = g.extended next feeds new ∧
      (Graph.call id name supplied).runOn h = (.ok o, h.extended next feeds new) := by
  have hmode : h.backend.mode = .symbolic := hgh.backend ▸ hgh.mode
  rw [call_runOn hgh.mode] at hrun
  rw [call_runOn hmode]
  split at hrun
  · cases hrun
  · next p hp =>
    obtain ⟨m, ins, hrecordable⟩ := prepareCall_ok hp
    have hmemo : p.method.memoized = false := hrecordable.method ▸ hdistinct m hrecordable.declared
    have hshared : ∀ g : Graph, g.shared? id p = none := fun g => by simp [shared?, hmemo]
    obtain ⟨next, feeds, new, hextends, hg, hh, houts⟩ := hgh.push id p.scope p.method.name p.inputs p.specs
    simp only [hshared, hmemo] at hrun
    cases hrun
    refine ⟨next, feeds, new, hextends, hg, ?_⟩
    simp only [hgh.prepareCall hp, hshared, hmemo, houts, hh]

/-- What one graph records, the other does. -/
theorem Alike.record (hgh : Alike g h) {x : Recording} (hx : x.Distinct g.tree) {ps : List Placeholder}
    (hrun : x.run.runOn g = (.ok ps, g')) :
    ∃ next feeds new, Extends g.recorder next feeds new ∧ g' = g.extended next feeds new ∧
      x.run.runOn h = (.ok ps, h.extended next feeds new) := by
  have hmode : h.backend.mode = .symbolic := hgh.backend ▸ hgh.mode
  cases x with
  | input name spec =>
    obtain ⟨p, hinput, rfl⟩ := Effect.bind_pure_ok.mp hrun
    rw [input_runOn hgh.mode] at hinput
    split at hinput
    · cases hinput
    · next r hr =>
      cases hinput
      obtain ⟨feeds, hsub, hg, r', hr', hh⟩ := hgh.declare hr
      refine ⟨g.recorder.nextId, feeds, [], ⟨hsub, .inl ⟨rfl, rfl⟩⟩, hg, Effect.bind_pure_ok.mpr ⟨_, ?_, rfl⟩⟩
      rw [input_runOn hmode, hr']
      simp only [hh]
      rw [hgh.id]
  | call id name supplied =>
    obtain ⟨o, hcall, rfl⟩ := Effect.bind_pure_ok.mp hrun
    obtain ⟨next, feeds, new, hextends, hg', hh⟩ := hgh.call hx hcall
    exact ⟨next, feeds, new, hextends, hg', Effect.bind_pure_ok.mpr ⟨o, hh, rfl⟩⟩
  | callAt scope name supplied =>
    obtain ⟨o, hcall, rfl⟩ := Effect.bind_pure_ok.mp hrun
    rw [callAt_runOn] at hcall
    split at hcall
    · next id hid =>
      obtain ⟨next, feeds, new, hextends, hg', hh⟩ := hgh.call (hx id · hid) hcall
      refine ⟨next, feeds, new, hextends, hg', Effect.bind_pure_ok.mpr ⟨o, ?_, rfl⟩⟩
      rw [callAt_runOn, hgh.shape.find, hid]
      exact hh
    · cases hcall
  | raw id name inputs specs =>
    obtain ⟨outputs, hraw, rfl⟩ := Effect.bind_pure_ok.mp hrun
    rw [recordWith_runOn] at hraw
    split at hraw
    · cases hraw
    · next p hp =>
      obtain ⟨next, feeds, new, hextends, hg, hh, houts⟩ := hgh.push id p.scope name p.inputs p.specs
      cases hraw
      refine ⟨next, feeds, new, hextends, hg, Effect.bind_pure_ok.mpr ⟨_, ?_, rfl⟩⟩
      rw [recordWith_runOn, hgh.prepareRaw hp]
      simp only [houts, hh]

/-! ## Building on one of them -/

/-- What the pending invocations would be resolved against if nothing had been built. -/
def scratch (g : Graph) : Resolution := { g.resolution with base := none }

/-- After a build it would be the same. -/
theorem scratch_within (g : Graph) {recorder : Recorder} {artifact : Option Artifact}
    (hfeeds : recorder.feeds = g.recorder.feeds) :
    Resolution.Within g.scratch (scratch { g with tree := g.builtTree, recorder, artifact }) where
  left := rfl
  right := rfl
  graph := rfl
  kernels := rfl
  tree := by
    have hbuilt := buildingTree_sameShape { g with tree := g.builtTree, recorder, artifact }
    exact g.buildingTree_sameShape.trans (g.builtTree_sameShape.symm.trans hbuilt.symm)
  feeds := by
    intro name spec hl
    show recorder.feeds.lookup name = some spec
    rw [hfeeds]
    exact hl

/-- `g` has built `built`, emitting so many nodes; `h` has recorded the same and built nothing. -/
structure Ahead (g h : Graph) (built : List Invocation) (emitted : Nat) : Prop where
  alike : Alike g h
  pending : h.recorder.pending = built ++ g.recorder.pending
  ids : (built ++ g.recorder.pending).map Invocation.id = List.range g.recorder.nextId
  artifact : h.artifact = none
  first : g.artifact = none → built = [] ∧ emitted = 0 ∧ h.tree = g.tree
  later : ∀ a, g.artifact = some a → g.scratch.run built = .ok (a, emitted) ∧ h.Buildable

theorem Ahead.built_nodup {built : List Invocation} {emitted : Nat} (hgh : Ahead g h built emitted) :
    ((built ++ g.recorder.pending).map Invocation.id).Nodup := hgh.ids ▸ List.nodup_range

theorem Ahead.record {built : List Invocation} {emitted : Nat} (hgh : Ahead g h built emitted) {x : Recording}
    (hx : x.Distinct g.tree) {ps : List Placeholder} (hrun : x.run.runOn g = (.ok ps, g')) :
    ∃ h', x.run.runOn h = (.ok ps, h') ∧ Ahead g' h' built emitted ∧ g'.tree = g.tree := by
  obtain ⟨next, feeds, new, hextends, rfl, hh⟩ := hgh.alike.record hx hrun
  refine ⟨_, hh, ⟨hgh.alike.extended next feeds new, ?_, ?_, hgh.artifact, hgh.first, fun a ha => ?_⟩, rfl⟩
  · simp [Graph.extended, hgh.pending]
  · have hids := hgh.ids
    rcases hextends.new with ⟨rfl, rfl⟩ | ⟨record, rfl, hid, rfl⟩
    · simpa [Graph.extended] using hids
    · simp only [Graph.extended, ← List.append_assoc]
      rw [List.map_append, hids, List.range_succ]
      simp [hid]
  · obtain ⟨hbuilt, hbuildable⟩ := hgh.later a ha
    have hnodup := (List.nodup_append.mp (List.map_append ▸ hgh.built_nodup)).1
    exact ⟨Resolution.run_mono (l := g.scratch) ⟨rfl, rfl, rfl, rfl, .refl _, hextends.feeds⟩ hnodup hbuilt,
      hbuildable.state, hbuildable.calls⟩

theorem Recording.distinct_congr {t u : Tree} (htu : t.SameShape u) (x : Recording) : x.Distinct t ↔ x.Distinct u := by
  cases x <;> simp only [Recording.Distinct, htu.method, htu.find]

theorem Ahead.recordAll {built : List Invocation} {emitted : Nat} (hgh : Ahead g h built emitted)
    {xs : List Recording} (hxs : ∀ x ∈ xs, x.Distinct g.tree) {pss : List (List Placeholder)}
    (hrun : (xs.mapM Recording.run).runOn g = (.ok pss, g')) :
    ∃ h', (xs.mapM Recording.run).runOn h = (.ok pss, h') ∧ Ahead g' h' built emitted ∧ g'.tree = g.tree := by
  induction xs generalizing g h pss with
  | nil =>
    cases hrun
    exact ⟨h, rfl, hgh, rfl⟩
  | cons x xs ih =>
    obtain ⟨hx, hxs⟩ := List.forall_mem_cons.mp hxs
    obtain ⟨ps, g₁, pss', hone, hall, rfl⟩ := Effect.mapM_cons_ok.mp hrun
    obtain ⟨h₁, hone', hgh₁, htree⟩ := hgh.record hx hone
    obtain ⟨h₂, hall', hgh₂, htree'⟩ := ih hgh₁ (htree ▸ hxs) hall
    exact ⟨h₂, Effect.mapM_cons_ok.mpr ⟨ps, h₁, pss', hone', hall', rfl⟩, hgh₂, htree'.trans htree⟩

/-- After a build of one, the other can still be built, and methods stay callable. -/
theorem Ahead.alike_built {built : List Invocation} {emitted : Nat} (hgh : Ahead g h built emitted)
    {recorder : Recorder} {artifact : Option Artifact} (hnext : recorder.nextId = g.recorder.nextId)
    (hfeeds : recorder.feeds = g.recorder.feeds) :
    Alike { g with tree := g.builtTree, recorder, artifact } h := by
  have halike := hgh.alike
  refine ⟨halike.mode, halike.id, halike.shape.trans g.builtTree_sameShape.symm, halike.backend,
    halike.nextId.trans hnext.symm, halike.feeds.trans hfeeds.symm, halike.unbuilt, fun hbuilt => ?_⟩
  have hg := halike.built hbuilt
  have htree : g.builtTree = g.tree := if_neg (by rw [hg]; decide)
  exact (congrArg Tree.state htree).trans hg

theorem Ahead.buildable {built : List Invocation} {emitted : Nat} (hgh : Ahead g h built emitted)
    (hg : g.Buildable) : h.Buildable := by
  rcases hartifact : g.artifact with _ | a
  · obtain ⟨-, -, htree⟩ := hgh.first hartifact
    exact ⟨hgh.alike.unbuilt, fun hunbuilt => htree ▸ hg.calls ((congrArg Tree.state htree).symm.trans hunbuilt)⟩
  · exact (hgh.later a hartifact).2

/-- A build takes over everything that is pending. -/
theorem Ahead.build {built : List Invocation} {emitted : Nat} (hgh : Ahead g h built emitted) {report : BuildReport}
    (hrun : Graph.build.runOn g = (.ok report, g')) :
    Ahead g' h (built ++ g.recorder.pending) (emitted + report.emitted) ∧
      report.resolved = g.recorder.pending.length ∧ g'.tree.SameShape g.tree := by
  obtain ⟨hbuildable, hcase⟩ := build_ok hrun
  have hnodup := hgh.built_nodup
  rcases hcase with ⟨hmust, rfl, rfl⟩ | ⟨-, a', m, hres, rfl, rfl⟩
  · obtain ⟨hartifact, hpending⟩ : g.artifact.isSome = true ∧ g.recorder.pending = [] := by
      simpa [mustResolve, hgh.alike.mode, ← Option.isSome_iff_ne_none] using hmust
    rw [hpending, List.append_nil] at hnodup ⊢
    refine ⟨⟨hgh.alike_built rfl rfl, ?_, ?_, hgh.artifact, fun hnone => ?_, fun a ha => ?_⟩, rfl,
      g.builtTree_sameShape⟩
    · simpa [hpending] using hgh.pending
    · simpa [hpending] using hgh.ids
    · rw [show g.artifact = none from hnone] at hartifact
      cases hartifact
    · obtain ⟨hbuilt, hh⟩ := hgh.later a ha
      exact ⟨Resolution.run_mono (g.scratch_within rfl) hnodup hbuilt, hh⟩
  · refine ⟨⟨hgh.alike_built rfl rfl, ?_, ?_, hgh.artifact, fun hnone => ?_, fun a ha => ?_⟩, rfl,
      g.builtTree_sameShape⟩
    · simpa [Recorder.take] using hgh.pending
    · simpa [Recorder.take] using hgh.ids
    · cases hnone
    · obtain rfl : a' = a := Option.some.inj ha
      refine ⟨Resolution.run_mono (g.scratch_within rfl) hnodup ?_, hgh.buildable hbuildable⟩
      rcases hartifact : g.artifact with _ | a
      · obtain ⟨rfl, rfl, -⟩ := hgh.first hartifact
        have hscratch : g.scratch = g.resolution := by simp [scratch, resolution, hartifact]
        simpa [hscratch] using hres
      · obtain ⟨hbuilt, -⟩ := hgh.later a hartifact
        have hbase : { g.scratch with base := some a } = g.resolution := by simp [scratch, resolution, hartifact]
        exact Resolution.run_append ⟨rfl, rfl, rfl, rfl, .refl _, fun hl => hl⟩ hnodup hbuilt (hbase ▸ hres)

/-- One build of what `h` has recorded makes what the builds of `g` have made. -/
theorem Ahead.finish {built : List Invocation} {emitted : Nat} (hgh : Ahead g h built emitted)
    (hpending : g.recorder.pending = []) {a : Artifact} (ha : g.artifact = some a) :
    ∃ h', Graph.build.runOn h = (.ok ⟨.symbolic, h.tree.walk.length, built.length, emitted⟩, h') ∧
      h'.artifact = some a := by
  have halike := hgh.alike
  have hnodup := hgh.built_nodup
  have hrecorded := hgh.pending
  obtain ⟨hbuilt, hbuildable⟩ := hgh.later a ha
  rw [hpending, List.append_nil] at hnodup hrecorded
  have hmust : h.mustResolve = true := by
    simp [mustResolve, halike.backend, halike.mode, hgh.artifact]
  have hwithin : Resolution.Within g.scratch h.resolution := by
    refine ⟨rfl, hgh.artifact, halike.id.symm, (congrArg Backend.kernels halike.backend).symm, ?_, fun hl => ?_⟩
    · exact g.buildingTree_sameShape.trans (halike.shape.symm.trans h.buildingTree_sameShape.symm)
    · have hfeeds : h.resolution.feeds = g.scratch.feeds := halike.feeds
      exact hfeeds ▸ hl
  have hrun : h.resolution.run h.recorder.pending = .ok (a, emitted) := by
    rw [hrecorded]
    exact Resolution.run_mono hwithin hnodup hbuilt
  have hbuild := build_resolved hbuildable hmust hrun
  rw [hrecorded, halike.backend, halike.mode] at hbuild
  exact ⟨_, hbuild, rfl⟩

theorem recordAndBuild_ok {xs : List Recording} {pss : List (List Placeholder)} {report : BuildReport} :
    (recordAndBuild xs).runOn g = (.ok (pss, report), g') ↔
      ∃ g₁, (xs.mapM Recording.run).runOn g = (.ok pss, g₁) ∧ Graph.build.runOn g₁ = (.ok report, g') := by
  unfold recordAndBuild
  simp only [Effect.bind_ok, Effect.runOn_pure, Prod.mk.injEq, Except.ok.injEq]
  constructor
  · intro h
    obtain ⟨_, g₁, hrecord, _, _, hbuild, ⟨rfl, rfl⟩, rfl⟩ := h
    exact ⟨g₁, hrecord, hbuild⟩
  · intro ⟨g₁, hrecord, hbuild⟩
    exact ⟨pss, g₁, hrecord, report, g', hbuild, ⟨rfl, rfl⟩, rfl⟩

/-- Segments on one graph, and their recordings alone on the other. -/
theorem Ahead.segments {built : List Invocation} {emitted : Nat} (hgh : Ahead g h built emitted)
    {segments : List (List Recording)} (hxs : ∀ segment ∈ segments, ∀ x ∈ segment, x.Distinct g.tree)
    {rs : List (List (List Placeholder) × BuildReport)} (hrun : (segments.mapM recordAndBuild).runOn g = (.ok rs, g')) :
    ∃ h' built', (segments.flatten.mapM Recording.run).runOn h = (.ok (rs.map Prod.fst).flatten, h') ∧
      Ahead g' h' built' (emitted + (rs.map fun r => r.2.emitted).sum) ∧
      built'.length = built.length + (rs.map fun r => r.2.resolved).sum ∧
      (segments ≠ [] → g'.Settled) := by
  induction segments generalizing g h built emitted rs with
  | nil =>
    cases hrun
    exact ⟨h, built, rfl, hgh, rfl, fun hne => absurd rfl hne⟩
  | cons segment rest ih =>
    obtain ⟨hsegment, hrest⟩ := List.forall_mem_cons.mp hxs
    obtain ⟨⟨pss, report⟩, g₂, rs', hone, hall, rfl⟩ := Effect.mapM_cons_ok.mp hrun
    obtain ⟨g₁, hrecord, hbuild⟩ := recordAndBuild_ok.mp hone
    obtain ⟨h₁, hrecord', hgh₁, htree⟩ := hgh.recordAll hsegment hrecord
    obtain ⟨hgh₂, hresolved, hshape⟩ := hgh₁.build hbuild
    have hdistinct : ∀ segment ∈ rest, ∀ x ∈ segment, x.Distinct g₂.tree := fun segment hs x hx =>
      (Recording.distinct_congr (htree ▸ hshape) x).mpr (hrest segment hs x hx)
    obtain ⟨h₃, built', hrecords, hgh₃, hcount, hlast⟩ := ih hgh₂ hdistinct hall
    refine ⟨h₃, built', ?_, ?_, ?_, fun _ => ?_⟩
    · simp only [List.flatten_cons, List.mapM_append]
      exact Effect.bind_ok.mpr ⟨pss, h₁, hrecord', Effect.bind_ok.mpr ⟨_, h₃, hrecords, rfl⟩⟩
    · simpa [Nat.add_assoc] using hgh₃
    · rw [hcount, List.length_append, ← hresolved]
      simp [Nat.add_assoc]
    · cases rest with
      | nil =>
        cases hall
        exact build_settled hgh₁.alike.mode hbuild
      | cons => exact hlast (List.cons_ne_nil _ _)

/-! ## All segments -/

/-- Recordings touch the recorder only. -/
theorem recordAll_keeps (hmode : g.backend.mode = .symbolic) {xs : List Recording} {pss : List (List Placeholder)}
    (hrun : (xs.mapM Recording.run).runOn g = (.ok pss, g')) : ∃ recorder, g' = { g with recorder } := by
  induction xs generalizing g pss with
  | nil =>
    cases hrun
    exact ⟨_, rfl⟩
  | cons x xs ih =>
    obtain ⟨ps, g₁, pss', hone, hall, rfl⟩ := Effect.mapM_cons_ok.mp hrun
    obtain ⟨r, rfl, -⟩ := Recording.step hmode hone
    obtain ⟨recorder, rfl⟩ := ih (g := { g with recorder := r }) hmode hall
    exact ⟨recorder, rfl⟩

theorem ahead_fresh (id : Nat) {tree : Tree} (k : Kernels) (hstate : tree.state ≠ .building) :
    Ahead (fresh id tree ⟨.symbolic, k⟩) (fresh id tree ⟨.symbolic, k⟩) [] 0 where
  alike := ⟨rfl, rfl, .refl _, rfl, rfl, rfl, hstate, fun h => h⟩
  pending := rfl
  ids := rfl
  artifact := rfl
  first := fun _ => ⟨rfl, rfl, rfl⟩
  later := by
    intro a ha
    cases ha

/-- Only a tree that is not being built can be built. -/
theorem state_of_segments {id : Nat} {tree : Tree} {k : Kernels} {segments : List (List Recording)}
    (hne : segments ≠ []) {rs : List (List (List Placeholder) × BuildReport)}
    (hrun : (segments.mapM recordAndBuild).runOn (fresh id tree ⟨.symbolic, k⟩) = (.ok rs, g)) :
    tree.state ≠ .building := by
  obtain ⟨segment, rest, rfl⟩ := List.exists_cons_of_ne_nil hne
  obtain ⟨⟨pss, report⟩, g₁, -, hone, -, -⟩ := Effect.mapM_cons_ok.mp hrun
  obtain ⟨g₂, hrecord, hbuild⟩ := recordAndBuild_ok.mp hone
  obtain ⟨recorder, rfl⟩ := recordAll_keeps rfl hrecord
  exact (build_ok hbuild).1.state

end Graph

/-- Recordings cut into segments, each followed by a build, make what one build after all of them
    makes: the same placeholders, and the same artifact with its nodes, feeds and wirings. The nodes
    emitted and the records resolved add up to those of the one build, and as long as nothing is
    recorded that is to be resolved, a further build changes nothing. -/
theorem builds_in_segments {id : Nat} {tree : Tree} {k : Kernels} {segments : List (List Recording)}
    (hne : segments ≠ []) (hdistinct : ∀ segment ∈ segments, ∀ x ∈ segment, x.Distinct tree)
    {rs : List (List (List Placeholder) × BuildReport)} {g : Graph}
    (hrun : (segments.mapM Graph.recordAndBuild).runOn (.fresh id tree ⟨.symbolic, k⟩) = (.ok rs, g)) :
    (∃ handed report g', (Graph.recordAndBuild segments.flatten).runOn (.fresh id tree ⟨.symbolic, k⟩) =
        (.ok (handed, report), g') ∧
      handed = (rs.map Prod.fst).flatten ∧ g.artifact.isSome = true ∧ g'.artifact = g.artifact ∧
      report.emitted = (rs.map fun r => r.2.emitted).sum ∧
      report.resolved = (rs.map fun r => r.2.resolved).sum) ∧
    ∀ (xs : List Recording) pss g', (xs.mapM Recording.run).runOn g = (.ok pss, g') → g'.recorder.pending = [] →
      Graph.build.runOn g' = (.ok ⟨.symbolic, g'.tree.walk.length, 0, 0⟩, g') := by
  have hahead := Graph.ahead_fresh id k (Graph.state_of_segments hne hrun)
  obtain ⟨h, built, hrecord, hgh, hcount, hsettled⟩ := hahead.segments hdistinct hrun
  have hg := hsettled hne
  obtain ⟨a, ha⟩ := Option.isSome_iff_exists.mp hg.artifact
  refine ⟨?_, fun xs pss g' hmore hpending => ?_⟩
  · obtain ⟨h', hbuild, hartifact⟩ := hgh.finish hg.pending ha
    refine ⟨_, _, h', Graph.recordAndBuild_ok.mpr ⟨h, hrecord, hbuild⟩, rfl, hg.artifact, hartifact.trans ha.symm,
      ?_, ?_⟩
    · simp
    · simpa using hcount
  · obtain ⟨recorder, rfl⟩ := Graph.recordAll_keeps hgh.alike.mode hmore
    have hagain := Graph.build_again (g := { g with recorder }) ⟨⟨hg.buildable.state, hg.buildable.calls⟩, hg.tree,
      hg.artifact, hpending⟩
    rw [hgh.alike.mode] at hagain
    exact hagain

/-- A component whose only method negates its input. -/
def negation : Tree where
  nodes := #[{
    name := "root"
    parent := none
    children := []
    state := .unbuilt
    component := {
      kind := "negation"
      config := .null
      methods := [{
        name := "negate"
        inputs := [Signature.required "x"]
        outputs := [⟨"y", .likeInput 0⟩]
        body := .straight [.apply (.unary .neg) [.input 0]] [.first 0] }] } }]
  frozen := false

/-- An input negated, nothing, and the result negated again. -/
def negations : List (List Recording) :=
  let s : TensorSpec := ⟨.f32, [.named "B"]⟩
  [[.input "x" s, .call 0 "negate" [.placeholder ⟨1, .feed "x", s⟩]], [],
    [.call 0 "negate" [.placeholder ⟨1, .output 0 0, s⟩]]]

theorem negations_in_segments :
    ∃ rs g, (negations.mapM Graph.recordAndBuild).runOn (.fresh 1 negation ⟨.symbolic, .reference⟩) = (.ok rs, g) ∧
      ∃ handed report g', (Graph.recordAndBuild negations.flatten).runOn (.fresh 1 negation ⟨.symbolic, .reference⟩) =
        (.ok (handed, report), g') ∧ g'.artifact = g.artifact ∧ report.emitted = 3 ∧ report.resolved = 2 := by
  have hsums : (match ((negations.mapM Graph.recordAndBuild).runOn (.fresh 1 negation ⟨.symbolic, .reference⟩)).1 with
      | .ok rs => (rs.map fun r => r.2.emitted).sum == 3 && (rs.map fun r => r.2.resolved).sum == 2
      | .error _ => false) = true := by decide +kernel
  rcases hrun : (negations.mapM Graph.recordAndBuild).runOn (.fresh 1 negation ⟨.symbolic, .reference⟩)
    with ⟨_ | rs, g⟩
  · rw [hrun] at hsums
    cases hsums
  · simp only [hrun, Bool.and_eq_true, beq_iff_eq] at hsums
    have hdistinct : ∀ segment ∈ negations, ∀ x ∈ segment, x.Distinct negation := by
      have hmethod : ∀ m, negation.method 0 "negate" = .ok m → m.memoized = false := by
        intro m hm
        cases hm
        rfl
      simpa [negations, Recording.Distinct] using hmethod
    obtain ⟨⟨handed, report, g', hone, -, -, hartifact, hemitted, hresolved⟩, -⟩ :=
      builds_in_segments (by decide) hdistinct hrun
    exact ⟨rs, g, rfl, handed, report, g', hone, hartifact, hemitted.trans hsums.1, hresolved.trans hsums.2⟩

end ComponentFlow
