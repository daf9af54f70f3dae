/-
  ComponentFlow.Proofs.Session — symbolic graphs that can be reached. A session sends requests to a
  graph and keeps every placeholder that is handed out. Whatever the requests, and whether they
  succeed or fail, records keep numbers of their own, the artifact stays well formed, and a
  placeholder stands for the same output for good (`Session.valid_after`).
-/
import ComponentFlow.Proofs.Build
import ComponentFlow.Proofs.Execute
import ComponentFlow.Proofs.Record
import ComponentFlow.Proofs.Resolve

namespace ComponentFlow

inductive Request where
  | record (x : Recording)
  | build
  | execute (fetches : List Placeholder) (feeds : Feeds)

structure Session where
  graph : Graph
  /-- The placeholders that were handed out, in order. -/
  handed : List Placeholder

namespace Session

variable {s : Session}

/-- A session with a symbolic graph on which nothing has been done. -/
def start (id : Nat) (tree : Tree) (k : Kernels) : Session := ⟨.fresh id tree ⟨.symbolic, k⟩, []⟩

def step (s : Session) : Request → Session
  | .record x =>
    match x.run.runOn s.graph with
    | (.ok ps, g) => ⟨g, s.handed ++ ps⟩
    | (.error _, g) => ⟨g, s.handed⟩
  | .build => ⟨(Graph.build.runOn s.graph).2, s.handed⟩
  | .execute fetches feeds => ⟨((Graph.execute fetches feeds).runOn s.graph).2, s.handed⟩

/-- After requests, one after the other. -/
def after (s : Session) (requests : List Request) : Session := requests.foldl step s

end Session

/-! ## What a placeholder stands for -/

theorem Artifact.wiring_found {a : Artifact} {i : Nat} {w : Wiring} (h : a.wiring? i = some w) :
    w ∈ a.wirings ∧ w.id = i :=
  ⟨List.mem_of_find?_eq_some h, by simpa using List.find?_some h⟩

namespace Graph

variable {g g' : Graph}

def wirings (g : Graph) : List Wiring := (g.artifact.map Artifact.wirings).getD []

theorem mem_wirings {w : Wiring} : w ∈ g.wirings ↔ ∃ a, g.artifact = some a ∧ w ∈ a.wirings := by
  rcases h : g.artifact with _ | a <;> simp [wirings, h]

/-- The numbers of all records, resolved or pending. -/
def ids (g : Graph) : List Nat := g.wirings.map Wiring.id ++ g.recorder.pending.map Invocation.id

theorem wiring_none {i : Nat} : (g.artifact.bind fun a => a.wiring? i) = none ↔ i ∉ g.wirings.map Wiring.id := by
  unfold wirings
  rcases g.artifact with _ | a
  · simp
  · simp [Artifact.wiring?, List.find?_eq_none]

/-- A record that was built has a wiring. -/
theorem wiring_some {i : Nat} (hi : i ∈ g.wirings.map Wiring.id) :
    ∃ a w, g.artifact = some a ∧ a.wiring? i = some w := by
  obtain ⟨w, hw⟩ := Option.ne_none_iff_exists'.mp fun hnone => wiring_none.mp hnone hi
  obtain ⟨a, ha, hfound⟩ := Option.bind_eq_some_iff.mp hw
  exact ⟨a, w, ha, hfound⟩

/-- An output stands in every record and every wiring of its number. -/
structure Stands (g : Graph) (p : Placeholder) (i k : Nat) : Prop where
  lt : i < g.recorder.nextId
  pending : ∀ r ∈ g.recorder.pending, r.id = i → r.outputs[k]? = some (some p)
  wired : ∀ a, g.artifact = some a → ∀ w ∈ a.wirings, w.id = i →
    ∃ v spec, w.outputs[k]? = some (some v) ∧ a.extend.spec? v = some spec ∧ p.spec.compatible spec = true

/-- What holds of a placeholder that was handed out: it is of this graph, and stands for an input that
    is declared with its spec, or for an output. -/
structure Promised (g : Graph) (p : Placeholder) : Prop where
  graph : p.graph = g.id
  feed : ∀ name, p.source = .feed name → g.recorder.feeds.lookup name = some p.spec
  output : ∀ i k, p.source = .output i k → g.Stands p i k

/-- A declared input is promised. -/
theorem Promised.input {name : String} {spec : TensorSpec} (h : g.recorder.feeds.lookup name = some spec) :
    g.Promised ⟨g.id, .feed name, spec⟩ where
  graph := rfl
  feed := by
    intro _ hname
    cases hname
    exact h
  output := by
    intro i k hik
    cases hik

/-- A promise lasts as long as declarations are kept and what stood still stands. -/
theorem Promised.transfer {p : Placeholder} (h : g.Promised p) (hid : g'.id = g.id)
    (hfeeds : ∀ {name spec}, g.recorder.feeds.lookup name = some spec → g'.recorder.feeds.lookup name = some spec)
    (hstands : ∀ {i k}, g.Stands p i k → g'.Stands p i k) : g'.Promised p where
  graph := h.graph.trans hid.symm
  feed := fun name hname => hfeeds (h.feed name hname)
  output := fun i k hik => hstands (h.output i k hik)

/-- More may be recorded, under numbers that were not given out before. -/
theorem Stands.later {p : Placeholder} {i k : Nat} {r : Recorder} (h : g.Stands p i k)
    (hnext : g.recorder.nextId ≤ r.nextId)
    (hpending : ∀ x ∈ r.pending, x ∈ g.recorder.pending ∨ x.id = g.recorder.nextId) :
    Stands { g with recorder := r } p i k where
  lt := Nat.lt_of_lt_of_le h.lt hnext
  pending := by
    intro x hx hid
    rcases hpending x hx with hold | hnew
    · exact h.pending x hold hid
    · have := h.lt
      omega
  wired := h.wired

end Graph

namespace Session

variable {s : Session}

/-- What holds of every session. -/
structure Valid (s : Session) : Prop where
  mode : s.graph.backend.mode = .symbolic
  nodup : s.graph.ids.Nodup
  lt : ∀ i ∈ s.graph.ids, i < s.graph.recorder.nextId
  graph : ∀ a, s.graph.artifact = some a → a.graph = s.graph.id
  wellFormed : ∀ a, s.graph.artifact = some a → a.extend.WellFormed s.graph.recorder.feeds
  handed : ∀ r ∈ s.graph.recorder.pending, ∀ p, some p ∈ r.outputs → p ∈ s.handed
  promised : ∀ p ∈ s.handed, s.graph.Promised p

theorem valid_start (id : Nat) (tree : Tree) (k : Kernels) : (start id tree k).Valid where
  mode := rfl
  nodup := .nil
  lt := fun i hi => by cases hi
  graph := fun a ha => by cases ha
  wellFormed := fun a ha => by cases ha
  handed := fun r hr => by cases hr
  promised := fun p hp => by cases hp

/-! ## Recording -/

theorem mem_allocate {graph i : Nat} {specs : List (Option TensorSpec)} {p : Placeholder}
    (h : some p ∈ Recorder.allocate graph i specs) : p.graph = graph ∧
      ∃ k, p.source = .output i k ∧ (Recorder.allocate graph i specs)[k]? = some (some p) := by
  obtain ⟨k, hk, hget⟩ := List.mem_iff_getElem.mp h
  have hget? : (Recorder.allocate graph i specs)[k]? = some (some p) := List.getElem?_eq_some_iff.mpr ⟨hk, hget⟩
  have hsource := hget?
  simp only [Recorder.allocate, List.getElem?_mapIdx, Option.map_eq_some_iff] at hsource
  obtain ⟨spec, -, s, rfl, rfl⟩ := hsource
  exact ⟨rfl, k, rfl, hget?⟩

/-- Whatever is promised may be handed out. -/
theorem Valid.handOut (h : s.Valid) {ps : List Placeholder} (hps : ∀ p ∈ ps, s.graph.Promised p) :
    Valid ⟨s.graph, s.handed ++ ps⟩ := by
  refine ⟨h.mode, h.nodup, h.lt, h.graph, h.wellFormed, fun r hr p hp => ?_, fun p hp => ?_⟩
  · exact List.mem_append_left _ (h.handed r hr p hp)
  · rcases List.mem_append.mp hp with hold | hnew
    · exact h.promised p hold
    · exact hps p hnew

/-- The graph with one more input. -/
def declaring (g : Graph) (name : String) (spec : TensorSpec) : Graph :=
  { g with recorder := { g.recorder with feeds := g.recorder.feeds ++ [(name, spec)] } }

theorem Valid.declare (h : s.Valid) (name : String) (spec : TensorSpec) :
    Valid ⟨declaring s.graph name spec, s.handed⟩ := by
  refine ⟨h.mode, h.nodup, h.lt, h.graph, fun a ha => (h.wellFormed a ha).declare lookup_append_of_some, h.handed,
    fun p hp => ?_⟩
  exact (h.promised p hp).transfer rfl lookup_append_of_some fun hstands => hstands.later (Nat.le_refl _) fun _ => .inl

section Push

variable {component : NodeId} {scope method : String} {inputs : List Binding} {specs : List (Option TensorSpec)}
  {share : Bool}

/-- The graph with one more record. -/
def pushing (g : Graph) (component : NodeId) (scope method : String) (inputs : List Binding)
    (specs : List (Option TensorSpec)) (share : Bool) : Graph :=
  { g with recorder := (g.recorder.push g.id component scope method inputs specs share).2 }

theorem ids_pushing (g : Graph) :
    (pushing g component scope method inputs specs share).ids = g.ids ++ [g.recorder.nextId] := by
  simp [pushing, Graph.ids, Graph.wirings, Recorder.push]

/-- What a new record hands out stands in this record, and nowhere else. -/
theorem Valid.promised_pushing (h : s.Valid) {p : Placeholder}
    (hp : some p ∈ Recorder.allocate s.graph.id s.graph.recorder.nextId specs) :
    (pushing s.graph component scope method inputs specs share).Promised p := by
  have hfresh : ∀ i ∈ s.graph.ids, i ≠ s.graph.recorder.nextId := fun i hi => Nat.ne_of_lt (h.lt i hi)
  obtain ⟨hgraph, k, hsource, hget⟩ := mem_allocate hp
  refine ⟨hgraph, fun name hname => by simp [hsource] at hname, fun i k' hik => ?_⟩
  obtain ⟨rfl, rfl⟩ : s.graph.recorder.nextId = i ∧ k = k' := by simpa [hsource] using hik
  refine ⟨Nat.lt_succ_self _, fun r hr hid => ?_, fun a ha w hw hid => ?_⟩
  · rcases List.mem_append.mp hr with hold | hnew
    · exact absurd hid (hfresh _ (List.mem_append_right _ (List.mem_map_of_mem hold)))
    · obtain rfl := List.mem_singleton.mp hnew
      exact hget
  · have hbuilt : w ∈ s.graph.wirings := Graph.mem_wirings.mpr ⟨a, ha, hw⟩
    exact absurd hid (hfresh _ (List.mem_append_left _ (List.mem_map_of_mem hbuilt)))

theorem Valid.push (h : s.Valid) : Valid ⟨pushing s.graph component scope method inputs specs share,
    s.handed ++ (Recorder.allocate s.graph.id s.graph.recorder.nextId specs).reduceOption⟩ := by
  refine ⟨h.mode, ?_, fun i hi => ?_, h.graph, h.wellFormed, fun r hr p hp => ?_, fun p hp => ?_⟩
  · rw [ids_pushing]
    refine List.nodup_append.mpr ⟨h.nodup, by simp, fun i hi j hj => ?_⟩
    rw [List.mem_singleton.mp hj]
    exact Nat.ne_of_lt (h.lt i hi)
  · show i < s.graph.recorder.nextId + 1
    rw [ids_pushing] at hi
    rcases List.mem_append.mp hi with hold | hnew
    · have := h.lt i hold
      omega
    · rw [List.mem_singleton.mp hnew]
      omega
  · rcases List.mem_append.mp hr with hold | hnew
    · exact List.mem_append_left _ (h.handed r hold p hp)
    · obtain rfl := List.mem_singleton.mp hnew
      exact List.mem_append_right _ (List.reduceOption_mem_iff.mpr hp)
  · rcases List.mem_append.mp hp with hold | hnew
    · refine (h.promised p hold).transfer rfl (fun hf => hf) fun hstands => ?_
      refine hstands.later (Nat.le_succ _) fun r hr => ?_
      rcases List.mem_append.mp hr with hr | hr
      · exact .inl hr
      · exact .inr (by rw [List.mem_singleton.mp hr])
    · exact h.promised_pushing (List.reduceOption_mem_iff.mp hnew)

end Push

theorem Valid.recorded (h : s.Valid) {ps : List Placeholder} {r : Recorder}
    (hstep : Recorder.Step s.graph.id s.graph.recorder ps r) :
    Valid ⟨{ s.graph with recorder := r }, s.handed ++ ps⟩ := by
  cases hstep with
  | declare hnew => exact (h.declare _ _).handOut (List.forall_mem_singleton.mpr (.input (lookup_snoc hnew)))
  | declared hold => exact h.handOut (List.forall_mem_singleton.mpr (.input hold))
  | push => exact h.push
  | @share earlier hmem =>
    exact h.handOut fun p hp => h.promised p (h.handed earlier hmem p (List.reduceOption_mem_iff.mp hp))

theorem Valid.record (h : s.Valid) (x : Recording) : (s.step (.record x)).Valid := by
  simp only [step]
  split
  · next ps g hrun =>
    obtain ⟨r, rfl, hstep⟩ := Recording.step h.mode hrun
    exact h.recorded hstep
  · next e g hrun =>
    obtain rfl := Recording.error h.mode hrun
    exact h

/-! ## Building -/

theorem Valid.fresh_resolution (h : s.Valid) : s.graph.resolution.Fresh [] s.graph.recorder.pending := by
  obtain ⟨-, hpending, hdisjoint⟩ := List.nodup_append.mp h.nodup
  refine ⟨hpending, fun r hr P => Resolution.outputs_none.mpr ⟨rfl, ?_⟩⟩
  show (s.graph.artifact.bind fun a => a.wiring? r.id) = none
  exact Graph.wiring_none.mpr fun hbuilt => hdisjoint r.id hbuilt r.id (List.mem_map_of_mem hr) rfl

theorem Valid.start_wellFormed (h : s.Valid) : s.graph.resolution.start.WellFormed s.graph.recorder.feeds := by
  unfold Resolution.start
  split
  · next a ha => exact h.wellFormed a ha
  · exact Plan.wellFormed_empty

theorem Valid.made (h : s.Valid) {a : Artifact} {m : Nat}
    (hrun : s.graph.resolution.run s.graph.recorder.pending = .ok (a, m)) :
    s.graph.resolution.Made s.graph.recorder.pending a :=
  Resolution.run_made h.start_wellFormed h.fresh_resolution hrun

/-- An output that was pending stands in the wiring of its record. -/
theorem stands_of_wired {records : List Invocation} {P : Plan} {ws : List Wiring}
    (h : Resolution.AllWired records P ws) {p : Placeholder} {i k : Nat}
    (hpending : ∀ r ∈ records, r.id = i → r.outputs[k]? = some (some p)) {w : Wiring} (hw : w ∈ ws) (hid : w.id = i) :
    ∃ v spec, w.outputs[k]? = some (some v) ∧ P.spec? v = some spec ∧ p.spec.compatible spec = true := by
  obtain ⟨r, hr, outs, hwired⟩ := forall₂_of_mem h.flip hw
  have hp := hpending r hr (hwired.id ▸ hid)
  obtain ⟨o, ho, hsettled⟩ := forall₂_getElem? hwired.settled hp
  cases hsettled with
  | @present _ sym hspec =>
    refine ⟨sym.value, sym.spec, ?_, hwired.has sym (List.mem_of_getElem? ho), hspec⟩
    simp [hwired.outputs, ho]

section Build

variable {g' : Graph} {a : Artifact} {m : Nat}

/-- A build that resolves nothing may lose records. -/
theorem Valid.unresolved (h : s.Valid) (hafter : s.graph.AfterBuild g') (hartifact : g'.artifact = s.graph.artifact)
    (hpending : g'.recorder.pending.Sublist s.graph.recorder.pending) : Valid ⟨g', s.handed⟩ := by
  obtain ⟨hid, -, hbackend, hnext, hfeeds, -⟩ := hafter
  have hids : g'.ids.Sublist s.graph.ids := by
    rw [Graph.ids, Graph.wirings, hartifact]
    exact (List.Sublist.refl _).append (hpending.map _)
  refine ⟨hbackend ▸ h.mode, h.nodup.sublist hids, fun i hi => hnext ▸ h.lt i (hids.subset hi), fun a ha => ?_,
    fun a ha => ?_, fun r hr => h.handed r (hpending.subset hr), fun p hp => ?_⟩
  · exact (h.graph a (hartifact ▸ ha)).trans hid.symm
  · exact hfeeds ▸ h.wellFormed a (hartifact ▸ ha)
  · refine (h.promised p hp).transfer hid (fun hf => hfeeds ▸ hf) fun hstands => ?_
    exact ⟨hnext ▸ hstands.lt, fun r hr => hstands.pending r (hpending.subset hr),
      fun a ha => hstands.wired a (hartifact ▸ ha)⟩

/-- What stood in the records that are resolved stands in their wirings. -/
theorem Valid.stands_resolved (h : s.Valid) (hafter : s.graph.AfterBuild g')
    (hrun : s.graph.resolution.run s.graph.recorder.pending = .ok (a, m)) (hartifact : g'.artifact = some a)
    (hpending : g'.recorder.pending = []) {p : Placeholder} {i k : Nat} (hstands : s.graph.Stands p i k) :
    g'.Stands p i k := by
  obtain ⟨-, -, -, hgrows, ws, hwirings, hws⟩ := h.made hrun
  refine ⟨hafter.nextId ▸ hstands.lt, fun r hr => by simp [hpending] at hr, fun b hb w hw hid => ?_⟩
  obtain rfl : a = b := Option.some.inj (hartifact.symm.trans hb)
  rw [hwirings] at hw
  rcases List.mem_append.mp hw with hw | hw
  · have hold : w ∈ s.graph.wirings := hw
    obtain ⟨base, hbase, hwired⟩ := Graph.mem_wirings.mp hold
    obtain ⟨v, spec, hv, hspec, hcompatible⟩ := hstands.wired base hbase w hwired hid
    have hstart : s.graph.resolution.start = base.extend := by
      simp only [Resolution.start, Graph.resolution, hbase]
    exact ⟨v, spec, hv, (hstart ▸ hgrows).spec hspec, hcompatible⟩
  · exact stands_of_wired hws hstands.pending hw hid

theorem Valid.resolved (h : s.Valid) (hafter : s.graph.AfterBuild g')
    (hrun : s.graph.resolution.run s.graph.recorder.pending = .ok (a, m)) (hartifact : g'.artifact = some a)
    (hpending : g'.recorder.pending = []) : Valid ⟨g', s.handed⟩ := by
  have hstands : ∀ {p i k}, s.graph.Stands p i k → g'.Stands p i k := h.stands_resolved hafter hrun hartifact hpending
  obtain ⟨hid, -, hbackend, hnext, hfeeds, -⟩ := hafter
  obtain ⟨hgraph, -, hwf, -, ws, hwirings, hws⟩ := h.made hrun
  have hids : g'.ids = s.graph.ids := by
    have hold : (s.graph.resolution.base.map Artifact.wirings).getD [] = s.graph.wirings := rfl
    rw [hold] at hwirings
    simp only [Graph.ids, Graph.wirings, hartifact, hpending, Option.map_some, Option.getD_some, hwirings,
      List.map_append, hws.ids, List.map_nil, List.append_nil]
  refine ⟨hbackend ▸ h.mode, hids ▸ h.nodup, fun i hi => hnext ▸ h.lt i (hids ▸ hi), fun b hb => ?_, fun b hb => ?_,
    fun r hr => by simp [hpending] at hr, fun p hp => (h.promised p hp).transfer hid (fun hf => hfeeds ▸ hf) hstands⟩
  · obtain rfl : a = b := Option.some.inj (hartifact.symm.trans hb)
    exact hgraph.trans hid.symm
  · obtain rfl : a = b := Option.some.inj (hartifact.symm.trans hb)
    rw [hfeeds]
    exact hwf

theorem Valid.build (h : s.Valid) : (s.step .build).Valid := by
  show Valid ⟨(Graph.build.runOn s.graph).2, s.handed⟩
  have hafter := s.graph.build_after
  rcases hafter.outcome with ⟨hartifact, hsame | hnone⟩ | ⟨a, m, hrun, hartifact, hpending⟩
  · exact h.unresolved hafter hartifact (by rw [hsame])
  · exact h.unresolved hafter hartifact (by simp [hnone])
  · exact h.resolved hafter hrun hartifact hpending

end Build

/-! ## Executing -/

theorem Valid.execute (h : s.Valid) (fetches : List Placeholder) (feeds : Feeds) :
    (s.step (.execute fetches feeds)).Valid := by
  have hkept : ∀ tally, Valid ⟨{ s.graph with tally }, s.handed⟩ := by
    intro tally
    refine ⟨h.mode, h.nodup, h.lt, h.graph, h.wellFormed, h.handed, fun p hp => ?_⟩
    exact (h.promised p hp).transfer rfl (fun hf => hf) fun hstands => ⟨hstands.lt, hstands.pending, hstands.wired⟩
  show Valid ⟨((Graph.execute fetches feeds).runOn s.graph).2, s.handed⟩
  rw [Graph.execute_runOn h.mode]
  split
  · exact h
  · exact hkept _

/-- Whatever is asked of a graph, and whatever fails. -/
theorem valid_after (h : s.Valid) (requests : List Request) : (s.after requests).Valid := by
  induction requests generalizing s with
  | nil => exact h
  | cons request rest ih =>
    have hstep : (s.step request).Valid := by
      cases request with
      | record x => exact h.record x
      | build => exact h.build
      | execute fetches feeds => exact h.execute fetches feeds
    exact ih hstep

end Session

end ComponentFlow
