/-
  ComponentFlow.Proofs.Ledger — the records of a session. Every record that is made is kept: it is
  pending, or it was built and has a wiring. Numbers are given out in order, and none of them is
  skipped, so wirings and pending records together carry all of them in order.

  - `Session.Accounted`: how the records made so far are found in a graph.
  - `Session.records_accounted`: it is so after all requests, failing ones included; an output is
    fetched exactly if its record is no longer pending.
-/
import ComponentFlow.Proofs.Formation

namespace ComponentFlow

namespace Session

variable {s : Session} {g : Graph}

/-! ## The records of a session -/

/-- Whether a request is a build that is aborted. It returns neither a report nor an error. -/
def aborts (s : Session) : Request → Bool
  | .build => match (Graph.build.runOn s.graph).1 with
    | .error e => e.aborts
    | .ok _ => false
  | _ => false

/-- Whether every request passes a check, each in the session as it is by then. -/
def throughout (check : Session → Request → Bool) (s : Session) : List Request → Bool
  | [] => true
  | request :: rest => check s request && (s.step request).throughout check rest

/-- Whether every request returns. -/
def unaborted (s : Session) (requests : List Request) : Bool :=
  s.throughout (fun s request => !s.aborts request) requests

/-- The records that a request appends to those that were pending. -/
def appended (s : Session) (request : Request) : List Invocation :=
  (s.step request).graph.recorder.pending.drop s.graph.recorder.pending.length

/-- The records that requests of a kind append, in order. -/
def recordsOf (kind : Request → Bool) (s : Session) : List Request → List Invocation
  | [] => []
  | request :: rest => (if kind request then s.appended request else []) ++ (s.step request).recordsOf kind rest

def isCall : Request → Bool
  | .record (.call ..) | .record (.callAt ..) => true
  | _ => false

/-- The records that calls append, in order. -/
def calls (s : Session) (requests : List Request) : List Invocation := s.recordsOf isCall requests

/-- All records, in order. -/
def records (s : Session) (requests : List Request) : List Invocation := s.recordsOf (fun _ => true) requests

/-- A record and the wiring that it was built to. -/
structure Becomes (r : Invocation) (w : Wiring) : Prop where
  id : w.id = r.id
  scope : w.scope = r.scope
  method : w.method = r.method
  outputs : w.outputs.map Option.isSome = r.outputs.map Option.isSome

theorem Becomes.length {r : Invocation} {w : Wiring} (h : Becomes r w) : w.outputs.length = r.outputs.length := by
  have hlength := congrArg List.length h.outputs
  rwa [List.length_map, List.length_map] at hlength

variable {made : List Invocation}

/-- These records were made so far: the first ones are built, the others are pending. -/
structure Accounted (made : List Invocation) (g : Graph) : Prop where
  ids : made.map Invocation.id = List.range g.recorder.nextId
  built : ∃ built, made = built ++ g.recorder.pending ∧ List.Forall₂ Becomes built g.wirings

theorem Accounted.of_eq {g' : Graph} (h : Accounted made g) (hnext : g'.recorder.nextId = g.recorder.nextId)
    (hpending : g'.recorder.pending = g.recorder.pending) (hwirings : g'.wirings = g.wirings) :
    Accounted made g' := by
  refine ⟨hnext ▸ h.ids, ?_⟩
  rw [hpending, hwirings]
  exact h.built

/-- All numbers are there, in order. -/
theorem Accounted.numbers (h : Accounted made g) : g.ids = List.range g.recorder.nextId := by
  obtain ⟨built, rfl, hbuilt⟩ := h.built
  have hids : g.wirings.map Wiring.id = built.map Invocation.id := by
    exact (map_eq_of_forall₂ hbuilt fun _ _ hw => hw.id.symm).symm
  rw [← h.ids, Graph.ids, hids, List.map_append]

/-! ## One request -/

/-- Everything that a request can do to a graph: which records it appends, and what it leaves. -/
inductive Steps (g : Graph) : Request → List Invocation → Graph → Prop
  | feeds {x : Recording} {feeds : List (String × TensorSpec)} : g.recorder.feeds <+: feeds →
      Steps g (.record x) [] { g with recorder := { g.recorder with feeds } }
  | record {x : Recording} {r : Invocation} {share : Bool} : x.Makes g r share →
      Steps g (.record x) [r] { g with recorder := g.recorder.append r share }
  | build {outcome : Outcome BuildReport} {g' : Graph} : (Graph.build.runOn g).1 = outcome → g.Builds outcome g' →
      Steps g .build [] g'
  | execute {fetches : List Placeholder} {feeds : Feeds} {tally : Tally} :
      Steps g (.execute fetches feeds) [] { g with tally }

theorem graph_record (s : Session) (x : Recording) : (s.step (.record x)).graph = (x.run.runOn s.graph).2 := by
  simp only [step]
  split <;> simp_all

theorem steps_record (hmode : s.graph.backend.mode = .symbolic) (x : Recording) :
    Steps s.graph (.record x) (s.appended (.record x)) (s.step (.record x)).graph := by
  have hleaves := Recording.run_leaves hmode x
  rw [appended, graph_record]
  generalize (x.run.runOn s.graph).2 = g' at hleaves
  cases hleaves with
  | feeds hfeeds =>
    rw [List.drop_length]
    exact .feeds hfeeds
  | @record r share hmakes =>
    have hnew : (s.graph.recorder.append r share).pending.drop s.graph.recorder.pending.length = [r] := List.drop_left
    rw [hnew]
    exact .record hmakes

/-- A build leaves what was pending, or nothing of it. -/
theorem steps_build (s : Session) : Steps s.graph .build (s.appended .build) (s.step .build).graph := by
  have hnone : s.appended .build = [] := by
    rw [appended, step]
    rcases s.graph.build_after.outcome with ⟨-, hsame | hempty⟩ | ⟨a, m, -, -, hempty⟩
    · rw [hsame, List.drop_length]
    · rw [hempty, List.drop_nil]
    · rw [hempty, List.drop_nil]
  rw [hnone]
  exact .build rfl s.graph.build_builds

theorem steps (hmode : s.graph.backend.mode = .symbolic) (request : Request) :
    Steps s.graph request (s.appended request) (s.step request).graph := by
  cases request with
  | record x => exact steps_record hmode x
  | build => exact steps_build s
  | execute fetches feeds =>
    simp only [appended, step, Graph.execute_runOn hmode]
    split <;> rw [List.drop_length] <;> exact .execute

/-- A wiring has a node exactly where its record has a placeholder. -/
theorem becomes_of_wired {r : Invocation} {P : Plan} {w : Wiring} {outs : List (Option Symbol)}
    (h : Resolution.Wired r P w outs) : Becomes r w := by
  refine ⟨h.id, h.scope, h.method, ?_⟩
  rw [h.outputs, List.map_map]
  refine (map_eq_of_forall₂ h.settled fun p o hsettled => ?_).symm
  cases hsettled <;> rfl

theorem id_of_makes {x : Recording} {r : Invocation} {share : Bool} (h : x.Makes g r share) :
    r.id = g.recorder.nextId := by
  cases h <;> rfl

theorem Accounted.record (h : Accounted made g) {x : Recording} {r : Invocation} {share : Bool}
    (hmakes : x.Makes g r share) : Accounted (made ++ [r]) { g with recorder := g.recorder.append r share } := by
  obtain ⟨built, hmade, hbuilt⟩ := h.built
  refine ⟨?_, built, ?_, hbuilt⟩
  · rw [List.map_append, h.ids, List.map_singleton, id_of_makes hmakes]
    exact List.range_succ.symm
  · rw [hmade, List.append_assoc]
    rfl

theorem Accounted.build (hvalid : s.Valid) (h : Accounted made s.graph) {outcome : Outcome BuildReport}
    (hbuilds : s.graph.Builds outcome g) (hreturns : ∀ e, outcome = .error e → e.aborts = false) :
    Accounted made g := by
  cases hbuilds with
  | refused | idle | unresolved => exact h.of_eq rfl rfl rfl
  | @resolved a m _ _ hrun =>
    obtain ⟨built, hmade, hbuilt⟩ := h.built
    obtain ⟨ws, hwirings, hws⟩ := (hvalid.made hrun).wirings
    refine ⟨h.ids, made, (List.append_nil _).symm, ?_⟩
    have hafter : a.wirings = s.graph.wirings ++ ws := hwirings
    rw [Graph.wirings, Option.map_some, Option.getD_some, hafter, hmade]
    refine List.rel_append hbuilt (hws.imp fun r w hwired => ?_)
    obtain ⟨outs, hw⟩ := hwired
    exact becomes_of_wired hw
  | aborted _ _ haborts =>
    have hreturned := haborts.symm.trans (hreturns _ rfl)
    cases hreturned

/-- What a request appends comes behind what was made before; nothing else is made or lost. -/
theorem Accounted.step (hvalid : s.Valid) (h : Accounted made s.graph) {request : Request}
    (hreturns : s.aborts request = false) : Accounted (made ++ s.appended request) (s.step request).graph := by
  have hsteps := steps hvalid.mode request
  generalize s.appended request = new, (s.step request).graph = g at hsteps
  cases hsteps with
  | feeds | execute =>
    rw [List.append_nil]
    exact h.of_eq rfl rfl rfl
  | record hmakes => exact h.record hmakes
  | build houtcome hbuilds =>
    rw [List.append_nil]
    refine h.build hvalid hbuilds fun e he => ?_
    simpa only [aborts, houtcome, he] using hreturns

theorem Accounted.after {requests : List Request} (hvalid : s.Valid) (h : Accounted made s.graph)
    (hreturns : s.unaborted requests = true) :
    Accounted (made ++ s.records requests) (s.after requests).graph := by
  induction requests generalizing s made with
  | nil => exact (List.append_nil made).symm ▸ h
  | cons request rest ih =>
    obtain ⟨hone, hrest⟩ : s.aborts request = false ∧ (s.step request).unaborted rest = true := by
      simpa [unaborted, throughout] using hreturns
    have hnext := ih (valid_after hvalid [request]) (h.step hvalid hone) hrest
    rwa [List.append_assoc] at hnext

theorem accounted_start (id : Nat) (tree : Tree) (k : Kernels) : Accounted [] (start id tree k).graph :=
  ⟨rfl, [], rfl, .nil⟩

/-! ## Numbers -/

/-- A build moves records to the artifact, or leaves them, or loses them. -/
theorem ids_build (hvalid : s.Valid) : (Graph.build.runOn s.graph).2.ids.Sublist s.graph.ids := by
  have hafter := s.graph.build_after
  generalize (Graph.build.runOn s.graph).2 = g at hafter
  rcases hafter.outcome with ⟨hartifact, hpending⟩ | ⟨a, m, hrun, hartifact, hpending⟩
  · rw [Graph.ids, Graph.wirings, hartifact]
    rcases hpending with hsame | hnone
    · rw [hsame]
      exact List.Sublist.refl _
    · rw [hnone]
      exact (List.Sublist.refl _).append (List.nil_sublist _)
  · obtain ⟨ws, hwirings, hws⟩ := (hvalid.made hrun).wirings
    have hall : a.wirings = s.graph.wirings ++ ws := hwirings
    have hids : g.ids = s.graph.ids := by
      simp [Graph.ids, Graph.wirings, hartifact, hpending, hall, hws.ids]
    rw [hids]

/-- Numbers are in order, and none is given twice, also where records were lost. -/
theorem numbers_step (hvalid : s.Valid) (h : s.graph.ids.Sublist (List.range s.graph.recorder.nextId))
    (request : Request) :
    (s.step request).graph.ids.Sublist (List.range (s.step request).graph.recorder.nextId) := by
  have hsteps := steps hvalid.mode request
  generalize s.appended request = new, hafter : (s.step request).graph = g at hsteps
  cases hsteps with
  | feeds | execute => exact h
  | @record x r share hmakes =>
    have hids : Graph.ids { s.graph with recorder := s.graph.recorder.append r share } =
        s.graph.ids ++ [s.graph.recorder.nextId] := by
      simp [Graph.ids, Graph.wirings, Recorder.append, id_of_makes hmakes]
    rw [hids]
    show List.Sublist _ (List.range (s.graph.recorder.nextId + 1))
    rw [List.range_succ]
    exact h.append (List.Sublist.refl _)
  | build =>
    rw [← hafter, step, s.graph.build_after.nextId]
    exact (ids_build hvalid).trans h

theorem numbers_after (hvalid : s.Valid) (h : s.graph.ids.Sublist (List.range s.graph.recorder.nextId))
    (requests : List Request) :
    (s.after requests).graph.ids.Sublist (List.range (s.after requests).graph.recorder.nextId) := by
  induction requests generalizing s with
  | nil => exact h
  | cons request rest ih => exact ih (valid_after hvalid [request]) (numbers_step hvalid h request)

/-! ## What can be fetched -/

/-- The artifact has a node for the placeholder, whatever is fed. -/
def Fetchable (g : Graph) (p : Placeholder) : Prop :=
  ∃ a v, g.artifact = some a ∧ v < a.nodes.size ∧ ∀ feeds, a.target feeds p = .ok (.node v)

theorem fetchable_of_built (hvalid : s.Valid) {p : Placeholder} (hp : p ∈ s.handed) {i k : Nat}
    (hsource : p.source = .output i k) (hi : i ∈ s.graph.wirings.map Wiring.id) : Fetchable s.graph p := by
  obtain ⟨a, w, ha, hw⟩ := Graph.wiring_some hi
  obtain ⟨hmem, hid⟩ := Artifact.wiring_found hw
  obtain ⟨hgraph, -, houtput⟩ := hvalid.promised p hp
  obtain ⟨v, spec, hv, hspec, -⟩ := (houtput i k hsource).wired a ha w hmem hid
  have hvalue : a.valueOf? p = some v := by
    simp [Artifact.valueOf?, hgraph.trans (hvalid.graph a ha).symm, hsource, Artifact.output?, hw, hv]
  exact ⟨a, v, ha, Plan.lt_of_spec hspec, fun feeds => by simp only [Artifact.target, hvalue]⟩

theorem built_of_fetchable {p : Placeholder} {i k : Nat} (hsource : p.source = .output i k)
    (h : Fetchable g p) : i ∈ g.wirings.map Wiring.id := by
  obtain ⟨a, v, ha, -, htarget⟩ := h
  have hvalue : a.valueOf? p ≠ none := by
    intro hnone
    have hfound := htarget []
    simp only [Artifact.target, hnone, hsource] at hfound
    cases hfound
  by_contra hpending
  have hwiring : a.wiring? i = none := by simpa [ha] using Graph.wiring_none.mpr hpending
  simp [Artifact.valueOf?, hsource, Artifact.output?, hwiring] at hvalue

/-- Whatever is asked of a graph, and whether that succeeds or fails: the records that were built and those
    that are pending stand in the order in which they were made, under the numbers `0, 1, …` that were given
    out; what is built is as it was recorded; and an output can be fetched if it is built, which is if it is no
    longer pending. Only a build that is aborted, and so returns nothing, loses records; even then the others
    stay in order. -/
theorem records_accounted (id : Nat) (tree : Tree) (k : Kernels) (requests : List Request) :
    let s := (start id tree k).after requests
    (s.graph.wirings.map Wiring.id ++ s.graph.recorder.pending.map Invocation.id).Sublist
        (List.range s.graph.recorder.nextId) ∧
      ((start id tree k).unaborted requests = true →
        s.graph.wirings.map Wiring.id ++ s.graph.recorder.pending.map Invocation.id =
            List.range s.graph.recorder.nextId ∧
          (∃ built, (start id tree k).records requests = built ++ s.graph.recorder.pending ∧
            List.Forall₂ Becomes built s.graph.wirings) ∧
          ∀ p ∈ s.handed, ∀ i j, p.source = .output i j →
            (Fetchable s.graph p ↔ i ∉ s.graph.recorder.pending.map Invocation.id)) := by
  intro s
  have hvalid : s.Valid := valid_after (valid_start id tree k) requests
  refine ⟨numbers_after (valid_start id tree k) (List.Sublist.refl _) requests, fun hreturns => ?_⟩
  have haccounted : Accounted ((start id tree k).records requests) s.graph :=
    (accounted_start id tree k).after (valid_start id tree k) hreturns
  refine ⟨haccounted.numbers, haccounted.built, fun p hp i j hsource => ?_⟩
  constructor
  · intro hfetchable hpending
    have hbuilt := built_of_fetchable hsource hfetchable
    exact (List.nodup_append.mp hvalid.nodup).2.2 i hbuilt i hpending rfl
  · intro hpending
    have hlt : i < s.graph.recorder.nextId := ((hvalid.promised p hp).output i j hsource).lt
    have hnumber : i ∈ s.graph.ids := haccounted.numbers ▸ List.mem_range.mpr hlt
    rcases List.mem_append.mp hnumber with hbuilt | hstill
    · exact fetchable_of_built hvalid hp hsource hbuilt
    · exact absurd hstill hpending

/-- A record of an input that is declared only after a build has failed for want of it; then a build that
    succeeds, and one more record. -/
def restored : List Request :=
  let s : TensorSpec := ⟨.f32, [.named "B"]⟩
  [.record (.input "x" s), .record (.call 0 "add" [.placeholder ⟨1, .feed "x", s⟩]), .build,
    .record (.raw 0 "add" [.feed "z"] [some s]), .build, .record (.call 0 "add" [.placeholder ⟨1, .output 0 0, s⟩]),
    .record (.input "z" s), .build, .record (.call 0 "add" [.placeholder ⟨1, .output 1 0, s⟩])]

/-- The output of that record. -/
def late : Placeholder := ⟨1, .output 1 0, ⟨.f32, [.named "B"]⟩⟩

/-- The output of the last record. -/
def last : Placeholder := ⟨1, .output 3 0, ⟨.f32, [.named "B"]⟩⟩

theorem restored_accounted :
    let s := (start 1 increment .reference).after restored
    s.graph.wirings.map Wiring.id = [0, 1, 2] ∧ s.graph.recorder.pending.map Invocation.id = [3] ∧
      (∃ built, (start 1 increment .reference).records restored = built ++ s.graph.recorder.pending ∧
        List.Forall₂ Becomes built s.graph.wirings) ∧
      Fetchable s.graph late ∧ ¬ Fetchable s.graph last := by
  have hreturns : (start 1 increment .reference).unaborted restored = true := by decide +kernel
  obtain ⟨-, hall⟩ := records_accounted 1 increment .reference restored
  obtain ⟨-, hbuilt, hfetchable⟩ := hall hreturns
  refine ⟨by decide +kernel, by decide +kernel, hbuilt, ?_, ?_⟩
  · exact (hfetchable late (by decide +kernel) 1 0 rfl).mpr (by decide +kernel)
  · rw [hfetchable last (by decide +kernel) 3 0 rfl]
    decide +kernel

end Session

end ComponentFlow
