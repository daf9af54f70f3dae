/-
  ComponentFlow.Proofs.Formation — how the artifact of a session comes about. It is the one that was
  there before, or it was made by resolving what was pending on top of that. A property that every
  resolution hands on therefore holds of the artifact whatever was asked of the graph
  (`Session.artifact_after`).

  - `Artifact.Sound`: what is well formed about an artifact, its nodes, its feeds and its wirings.
  - `Session.artifact_sound`: the artifact of every session is so, after failures as well.
-/
import ComponentFlow.Proofs.Session

namespace ComponentFlow

theorem Primitive.infer_arity {p : Primitive} {specs : List TensorSpec} {s : TensorSpec}
    (h : p.infer specs = .ok s) : specs.length = p.arity := by
  unfold infer at h
  split at h
  case h_19 => cases h
  all_goals rfl

namespace Session

/-! ## Properties of artifacts -/

/-- Handed on by every resolution against a tree of this shape: what is made has the property if
    what was extended had it. -/
def Inherited (tree : Tree) (k : Kernels) (I : Artifact → Prop) : Prop :=
  ∀ {r : Resolution} {records : List Invocation} {a : Artifact} {m : Nat}, r.tree.SameShape tree → r.kernels = k →
    r.Made records a → r.run records = .ok (a, m) → (∀ b, r.base = some b → I b) → I a

/-- A session with this tree and these kernels, and its artifact with the property. -/
structure Supports (tree : Tree) (k : Kernels) (I : Artifact → Prop) (s : Session) : Prop where
  valid : s.Valid
  shape : s.graph.tree.SameShape tree
  kernels : s.graph.backend.kernels = k
  artifact : ∀ a, s.graph.artifact = some a → I a

variable {tree : Tree} {k : Kernels} {I : Artifact → Prop} {s : Session}

theorem Supports.build (hI : Inherited tree k I) (h : Supports tree k I s) : Supports tree k I (s.step .build) := by
  have hafter := s.graph.build_after
  refine ⟨h.valid.build, hafter.shape.trans h.shape, hafter.backend ▸ h.kernels, ?_⟩
  intro a ha
  rcases hafter.outcome with ⟨hsame, -⟩ | ⟨b, m, hrun, hmade, -⟩
  · exact h.artifact a (hsame ▸ ha)
  · obtain rfl : b = a := Option.some.inj (hmade.symm.trans ha)
    exact hI (s.graph.buildingTree_sameShape.trans h.shape) h.kernels (h.valid.made hrun) hrun h.artifact

/-- Only builds touch the tree and the artifact. -/
theorem step_same (h : s.Valid) {request : Request} (hrequest : request ≠ .build) :
    (s.step request).graph.tree = s.graph.tree ∧ (s.step request).graph.backend = s.graph.backend ∧
      (s.step request).graph.artifact = s.graph.artifact := by
  cases request with
  | record x =>
    simp only [Session.step]
    split
    · next ps g hrun =>
      obtain ⟨r, rfl, -⟩ := Recording.step h.mode hrun
      exact ⟨rfl, rfl, rfl⟩
    · next e g hrun =>
      obtain rfl := Recording.error h.mode hrun
      exact ⟨rfl, rfl, rfl⟩
  | build => exact absurd rfl hrequest
  | execute fetches feeds =>
    simp only [Session.step, Graph.execute_runOn h.mode]
    split
    · exact ⟨rfl, rfl, rfl⟩
    · exact ⟨rfl, rfl, rfl⟩

theorem Supports.step (hI : Inherited tree k I) (h : Supports tree k I s) (request : Request) :
    Supports tree k I (s.step request) := by
  have hvalid : (s.step request).Valid := valid_after h.valid [request]
  by_cases hbuild : request = .build
  · subst hbuild
    exact h.build hI
  · obtain ⟨htree, hbackend, hartifact⟩ := step_same h.valid hbuild
    exact ⟨hvalid, htree ▸ h.shape, hbackend ▸ h.kernels, fun a ha => h.artifact a (hartifact ▸ ha)⟩

theorem Supports.after (hI : Inherited tree k I) (h : Supports tree k I s) (requests : List Request) :
    Supports tree k I (s.after requests) := by
  induction requests generalizing s with
  | nil => exact h
  | cons request rest ih => exact ih (h.step hI request)

theorem supports_start (id : Nat) (tree : Tree) (k : Kernels) (I : Artifact → Prop) :
    Supports tree k I (start id tree k) :=
  ⟨valid_start id tree k, .refl tree, rfl, fun a ha => by cases ha⟩

/-- What every resolution hands on holds of the artifact of every session. -/
theorem artifact_after (hI : Inherited tree k I) {id : Nat} {requests : List Request} {a : Artifact}
    (ha : ((start id tree k).after requests).graph.artifact = some a) : I a :=
  ((supports_start id tree k I).after hI requests).artifact a ha

end Session

/-! ## Well-formed artifacts -/

namespace Artifact

/-- The nodes behind the inputs and outputs of invocations are there. -/
def InRange (a : Artifact) : Prop :=
  ∀ w ∈ a.wirings, ∀ v, some v ∈ w.inputs ∨ some v ∈ w.outputs → v < a.nodes.size

/-- Every node stands behind its operands and has the spec that follows from theirs; graph inputs and
    the nodes that read them correspond; invocations have numbers of their own and lead to nodes. -/
structure Sound (declared : Declared) (a : Artifact) : Prop where
  before : a.Ordered
  primitive : ∀ {i : Nat} {n p}, a.nodes[i]? = some n → n.op = .primitive p →
    n.operands.length = p.arity ∧
      ∃ specs, List.Forall₂ (fun (o : Nat) s => a.nodes[o]?.map GraphNode.spec = some s) n.operands specs ∧
        p.infer specs = .ok n.spec
  constant : ∀ {i : Nat} {n t}, a.nodes[i]? = some n → n.op = .constant t → n.operands = [] ∧ n.spec = t.spec
  feed : ∀ {i : Nat} {n name}, a.nodes[i]? = some n → n.op = .feed name →
    n.operands = [] ∧ declared.lookup name = some n.spec
  feeds : ∀ {name i}, (name, i) ∈ a.feeds ↔ ∃ n, a.nodes[i]? = some n ∧ n.op = .feed name
  names : (a.feeds.map Prod.fst).Nodup
  values : a.InRange
  ids : (a.wirings.map Wiring.id).Nodup

theorem inRange_inherited (tree : Tree) (k : Kernels) : Session.Inherited tree k InRange := by
  intro r records a m _ _ hmade _ hbase w hw v hv
  obtain ⟨-, -, -, hgrows, ws, hwirings, hws⟩ := hmade
  rw [hwirings] at hw
  rcases List.mem_append.mp hw with hold | hnew
  · rcases hb : r.base with _ | b
    · simp [hb] at hold
    · -- Its nodes are the first ones of the artifact that goes on from it.
      have hstart : r.start = b.extend := by simp only [Resolution.start, hb]
      have hold' : w ∈ b.wirings := by simpa [hb] using hold
      have hsize : b.nodes.size ≤ a.nodes.size := (hstart ▸ hgrows : b.extend.Grows a.extend).size
      exact Nat.lt_of_lt_of_le (hbase b hb w hold' v hv) hsize
  · obtain ⟨record, -, outs, hwired⟩ := forall₂_of_mem hws.flip hnew
    rcases hv with hin | hout
    · exact hwired.inputs v hin
    · rw [hwired.outputs] at hout
      obtain ⟨o, ho, hov⟩ := List.mem_map.mp hout
      obtain ⟨s, rfl, rfl⟩ := Option.map_eq_some_iff.mp hov
      exact Plan.lt_of_spec (hwired.has s ho)

/-- Artifacts are run on the kernels of their session. -/
theorem kernels_inherited (tree : Tree) (k : Kernels) : Session.Inherited tree k fun a => a.kernels = k :=
  fun _ hk hmade _ _ => hmade.kernels.trans hk

variable {a : Artifact} {declared : Declared}

theorem sound_of_wellFormed (h : a.extend.WellFormed declared) (hvalues : a.InRange)
    (hids : (a.wirings.map Wiring.id).Nodup) : a.Sound declared where
  before := ordered_of_wellFormed h
  primitive := by
    intro i n p hn hp
    cases h.node hn with
    | constant | feed => cases hp
    | @primitive _ operands specs spec hoperands hinfer =>
      cases hp
      have hlength := hoperands.length_eq.trans (Primitive.infer_arity hinfer)
      exact ⟨hlength, specs, hoperands.imp fun _ _ ho => ho.2, hinfer⟩
  constant := by
    intro i n t hn ht
    cases h.node hn with
    | constant => cases ht; exact ⟨rfl, rfl⟩
    | feed | primitive => cases ht
  feed := by
    intro i n name hn hname
    cases h.node hn with
    | feed hdeclared => cases hname; exact ⟨rfl, hdeclared⟩
    | constant | primitive => cases hname
  feeds := by
    intro name i
    have hlookup : (name, i) ∈ a.feeds ↔ a.feeds.lookup name = some i := (lookup_iff_mem h.names).symm
    rw [hlookup]
    constructor
    · intro hfeed
      obtain ⟨spec, -, hnode⟩ := h.feed hfeed
      exact ⟨_, hnode, rfl⟩
    · intro ⟨n, hn, hname⟩
      cases h.node hn with
      | feed _ hfeed => cases hname; exact hfeed
      | constant | primitive => cases hname
  names := h.names
  values := hvalues
  ids := hids

end Artifact

namespace Session

/-- The artifact of a graph is well formed, whatever was asked of the graph, and whether that
    succeeded or failed. -/
theorem artifact_sound (id : Nat) (tree : Tree) (k : Kernels) (requests : List Request) {a : Artifact}
    (ha : ((start id tree k).after requests).graph.artifact = some a) :
    a.Sound ((start id tree k).after requests).graph.recorder.feeds := by
  have hvalid := valid_after (valid_start id tree k) requests
  have hids : (a.wirings.map Wiring.id).Nodup := by
    have hall := (List.nodup_append.mp hvalid.nodup).1
    simpa [Graph.wirings, ha] using hall
  exact Artifact.sound_of_wellFormed (hvalid.wellFormed a ha)
    (artifact_after (Artifact.inRange_inherited tree k) ha) hids

/-- A component whose only method adds one. -/
def increment : Tree where
  nodes := #[{
    name := "root"
    parent := none
    children := []
    state := .unbuilt
    component := {
      kind := "increment"
      config := .null
      methods := [{
        name := "add"
        inputs := [Signature.required "x"]
        outputs := [⟨"y", .likeInput 0⟩]
        body := .straight [.apply (.binary .add) [.input 0, .scalar 1]] [.first 0] }] } }]
  frozen := false

/-- An input, one added twice, a build, and a run that fails for want of the input. -/
def increments : List Request :=
  let s : TensorSpec := ⟨.f32, [.named "B"]⟩
  [.record (.input "x" s), .record (.call 0 "add" [.placeholder ⟨1, .feed "x", s⟩]),
    .record (.call 0 "add" [.placeholder ⟨1, .output 0 0, s⟩]), .build, .execute [⟨1, .output 1 0, s⟩] []]

theorem increments_sound : ∃ a, ((start 1 increment .reference).after increments).graph.artifact = some a ∧
    a.nodes.size = 5 ∧ a.Sound [("x", ⟨.f32, [.named "B"]⟩)] := by
  have hsize : ((start 1 increment .reference).after increments).graph.artifact.map (·.nodes.size) = some 5 := by
    decide +kernel
  have hfeeds : ((start 1 increment .reference).after increments).graph.recorder.feeds =
      [("x", ⟨.f32, [.named "B"]⟩)] := by decide +kernel
  obtain ⟨a, ha, hnodes⟩ := Option.map_eq_some_iff.mp hsize
  exact ⟨a, ha, hnodes, hfeeds ▸ artifact_sound 1 increment .reference increments ha⟩

end Session

end ComponentFlow
