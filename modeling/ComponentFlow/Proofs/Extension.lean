/-
  ComponentFlow.Proofs.Extension — later artifacts of a graph extend earlier ones. Nodes and wirings are
  only added, so a node keeps its value. An input that nothing read may be read later on; its value
  is then that of a node instead of what is fed, which is the same. So whatever could be fetched
  before is fetched from the later artifact with the same result (`Session.extension`).

  - `Artifact.Extends`: one artifact goes on from another.
  - `Artifact.Supplies`: what may be fetched from an artifact.
-/
import ComponentFlow.Proofs.Influence

namespace ComponentFlow

namespace Artifact

/-- Nodes, feeds and wirings are only added. -/
structure Extends (a b : Artifact) : Prop where
  graph : b.graph = a.graph
  kernels : b.kernels = a.kernels
  grows : a.extend.Grows b.extend
  wirings : a.wirings <+: b.wirings

/-- What may be fetched: the outputs it contains, and declared inputs, whether they are read or not. -/
inductive Supplies (a : Artifact) (declared : Declared) (p : Placeholder) : Prop
  | output {v} : a.valueOf? p = some v → Supplies a declared p
  | input {name} : p.source = .feed name → p.graph = a.graph → declared.lookup name = some p.spec →
      Supplies a declared p

variable {a b c : Artifact} {declared : Declared} {feeds : Feeds}

theorem Extends.refl (a : Artifact) : a.Extends a := ⟨rfl, rfl, .refl _, List.prefix_rfl⟩

theorem Extends.trans (h : a.Extends b) (h' : b.Extends c) : a.Extends c :=
  ⟨h'.graph.trans h.graph, h'.kernels.trans h.kernels, h.grows.trans h'.grows, h.wirings.trans h'.wirings⟩

theorem Extends.node (h : a.Extends b) {i : Nat} {n : GraphNode} (hn : a.nodes[i]? = some n) : b.nodes[i]? = some n :=
  h.grows.nodes hn

theorem Extends.nodes (h : a.Extends b) : a.nodes.toList <+: b.nodes.toList := by
  rw [List.prefix_iff_getElem?]
  intro i hi
  rw [Array.getElem?_toList, Array.getElem_toList]
  exact h.node (Array.getElem?_eq_getElem _)

/-- The first wiring of a number is still the first. -/
theorem Extends.wiring (h : a.Extends b) {i : Nat} {w : Wiring} (hw : a.wiring? i = some w) : b.wiring? i = some w := by
  obtain ⟨more, hmore⟩ := h.wirings
  unfold wiring? at hw ⊢
  rw [← hmore, List.find?_append, hw]
  rfl

theorem Extends.value (h : a.Extends b) {p : Placeholder} {v : Nat} (hv : a.valueOf? p = some v) :
    b.valueOf? p = some v := by
  unfold valueOf? at hv ⊢
  split at hv
  · cases hv
  · next hgraph =>
    rw [if_neg (h.graph ▸ hgraph)]
    rcases hsource : p.source with name | ⟨i, k⟩
    · rw [hsource] at hv
      exact h.grows.feeds hv
    · rw [hsource] at hv
      obtain ⟨w, hw, hout⟩ := Option.bind_eq_some_iff.mp hv
      exact Option.bind_eq_some_iff.mpr ⟨w, h.wiring hw, hout⟩

/-! ## Values -/

/-- What a placeholder means that a node computes. -/
theorem means_node {p : Placeholder} {v : Nat} (hv : a.valueOf? p = some v) {t : Tensor} :
    a.Means feeds p t ↔ a.Denotes feeds v t := by
  constructor
  · intro h
    cases h with
    | node hv' ht =>
      obtain rfl := Option.some.inj (hv.symm.trans hv')
      exact ht
    | fed hnone =>
      rw [hv] at hnone
      cases hnone
  · exact .node hv

/-- What an input means that nothing reads. -/
theorem means_fed {p : Placeholder} {name : String} (hv : a.valueOf? p = none) (hsource : p.source = .feed name)
    (hgraph : p.graph = a.graph) {t : Tensor} : a.Means feeds p t ↔ feeds.read name p.spec = .ok t := by
  constructor
  · intro h
    cases h with
    | node hv' =>
      rw [hv] at hv'
      cases hv'
    | fed _ hsource' _ hread =>
      cases hsource.symm.trans hsource'
      exact hread
  · exact .fed hv hsource hgraph

/-- A declared input means what is fed for it, whether there is a node for it or not. -/
theorem means_input (hwf : a.extend.WellFormed declared) {p : Placeholder} {name : String}
    (hsource : p.source = .feed name) (hgraph : p.graph = a.graph) (hdeclared : declared.lookup name = some p.spec)
    {t : Tensor} : a.Means feeds p t ↔ feeds.read name p.spec = .ok t := by
  rcases hv : a.valueOf? p with _ | v
  · exact means_fed hv hsource hgraph
  · have hlookup : a.feeds.lookup name = some v := by
      simpa [valueOf?, hgraph, hsource] using hv
    obtain ⟨spec, hspec, hn⟩ := hwf.feed hlookup
    obtain rfl := Option.some.inj (hdeclared.symm.trans hspec)
    rw [means_node hv, denotes_iff hn]

/-- Nodes keep their values, since what they are made of stands before them. -/
theorem Extends.denotes (h : a.Extends b) (ha : a.Ordered) {i : Nat} (hi : i < a.nodes.size) (t : Tensor) :
    b.Denotes feeds i t ↔ a.Denotes feeds i t := by
  induction i using Nat.strongRecOn generalizing t with
  | ind i ih =>
    have hn : a.nodes[i]? = some a.nodes[i] := Array.getElem?_eq_getElem hi
    have hoperands : ∀ ts, List.Forall₂ (b.Denotes feeds) a.nodes[i].operands ts ↔
        List.Forall₂ (a.Denotes feeds) a.nodes[i].operands ts := by
      intro ts
      refine forall₂_congr fun o ho u => ?_
      have hlt : o < i := ha i _ hn o ho
      exact ih o hlt (Nat.lt_trans hlt hi) u
    rw [denotes_iff hn, denotes_iff (h.node hn), h.kernels]
    simp only [hoperands]

/-- Whatever may be fetched keeps its value. -/
theorem Extends.means (h : a.Extends b) (ha : a.Ordered) (hb : b.extend.WellFormed declared) {p : Placeholder}
    (hleads : a.Leads [p]) (hp : a.Supplies declared p) (t : Tensor) : b.Means feeds p t ↔ a.Means feeds p t := by
  rcases hv : a.valueOf? p with _ | v
  · cases hp with
    | output hv' =>
      rw [hv] at hv'
      cases hv'
    | input hsource hgraph hdeclared =>
      rw [means_fed hv hsource hgraph, means_input hb hsource (hgraph.trans h.graph.symm) hdeclared]
  · have hlt : v < a.nodes.size := hleads v (by simp [asked, hv])
    rw [means_node hv, means_node (h.value hv)]
    exact h.denotes ha hlt t

end Artifact

namespace Session

variable {tree : Tree} {k : Kernels} {s : Session} {a : Artifact}

/-! ## Steps and runs -/

/-- A resolution goes on from the artifact there is. -/
theorem extends_made {r : Resolution} {records : List Invocation} {b : Artifact} (hbase : r.base = some a)
    (hgraph : a.graph = r.graph) (hkernels : a.kernels = r.kernels) (h : r.Made records b) : a.Extends b := by
  obtain ⟨hgraph', hkernels', -, hgrows, ws, hwirings, -⟩ := h
  have hstart : r.start = a.extend := by simp only [Resolution.start, hbase]
  refine ⟨hgraph'.trans hgraph.symm, hkernels'.trans hkernels.symm, hstart ▸ hgrows, ws, ?_⟩
  simp [hwirings, hbase]

/-- Whatever is asked of a graph, its next artifact extends the one there is. -/
theorem extends_step (h : Supports tree k (fun a => a.kernels = k) s) (ha : s.graph.artifact = some a)
    (request : Request) : ∃ b, (s.step request).graph.artifact = some b ∧ a.Extends b := by
  by_cases hbuild : request = .build
  · subst hbuild
    rcases s.graph.build_after.outcome with ⟨hsame, -⟩ | ⟨b, m, hrun, hb, -⟩
    · exact ⟨a, hsame.trans ha, .refl a⟩
    · have hkernels : a.kernels = s.graph.backend.kernels := (h.artifact a ha).trans h.kernels.symm
      exact ⟨b, hb, extends_made ha (h.valid.graph a ha) hkernels (h.valid.made hrun)⟩
  · exact ⟨a, (step_same h.valid hbuild).2.2.trans ha, .refl a⟩

theorem extends_after (h : Supports tree k (fun a => a.kernels = k) s) (ha : s.graph.artifact = some a)
    (requests : List Request) : ∃ b, (s.after requests).graph.artifact = some b ∧ a.Extends b := by
  induction requests generalizing s a with
  | nil => exact ⟨a, ha, .refl a⟩
  | cons request rest ih =>
    obtain ⟨b, hb, hextends⟩ := extends_step h ha request
    obtain ⟨c, hc, hmore⟩ := ih (h.step (Artifact.kernels_inherited tree k) request) hb
    exact ⟨c, hc, hextends.trans hmore⟩

theorem after_append (requests more : List Request) : s.after (requests ++ more) = (s.after requests).after more :=
  List.foldl_append

/-- Once there is an artifact, every later one has its nodes and wirings first, and fetches the same:
    outputs that it contains, and inputs that are declared by then, whether it reads them or not. Only
    errors may differ, since an input may be read by another node then. -/
theorem extension (id : Nat) (tree : Tree) (k : Kernels) (earlier later : List Request) {a : Artifact}
    (ha : ((start id tree k).after earlier).graph.artifact = some a) :
    ∃ b, ((start id tree k).after (earlier ++ later)).graph.artifact = some b ∧
      a.nodes.toList <+: b.nodes.toList ∧ a.wirings <+: b.wirings ∧
      ∀ fetches feeds, (∀ p ∈ fetches,
        a.Supplies ((start id tree k).after (earlier ++ later)).graph.recorder.feeds p) → ∀ tally tally' ts,
        ((a.execute fetches feeds).runOn tally).1 = .ok ts ↔ ((b.execute fetches feeds).runOn tally').1 = .ok ts := by
  have hsupports := (supports_start id tree k fun a => a.kernels = k).after (Artifact.kernels_inherited tree k) earlier
  obtain ⟨b, hb, hextends⟩ := extends_after hsupports ha later
  rw [← after_append] at hb
  refine ⟨b, hb, hextends.nodes, hextends.wirings, fun fetches feeds hfetches tally tally' ts => ?_⟩
  have hwf := (valid_after (valid_start id tree k) earlier).wellFormed a ha
  have hwf' := (valid_after (valid_start id tree k) (earlier ++ later)).wellFormed b hb
  rw [Artifact.execute_iff hwf (artifact_leads ha fetches), Artifact.execute_iff hwf' (artifact_leads hb fetches)]
  refine forall₂_congr fun p hp t => Iff.symm ?_
  exact hextends.means (Artifact.ordered_of_wellFormed hwf) hwf' (artifact_leads ha [p]) (hfetches p hp) t

/-- A graph with two inputs, of which only one is read so far. -/
def half : List Request :=
  let s : TensorSpec := ⟨.f32, [.named "B"]⟩
  [.record (.input "x" s), .record (.input "y" s), .record (.call 0 "add" [.placeholder ⟨1, .feed "x", s⟩]), .build]

/-- The other input is read as well. -/
def whole : List Request :=
  [.record (.call 0 "add" [.placeholder ⟨1, .feed "y", ⟨.f32, [.named "B"]⟩⟩]), .build]

/-- The sum, and the other input. -/
def sumAndInput : List Placeholder :=
  let s : TensorSpec := ⟨.f32, [.named "B"]⟩
  [⟨1, .output 0 0, s⟩, ⟨1, .feed "y", s⟩]

/-- Both are fetched alike, though the later artifact has a node for the input. -/
theorem half_extended : ∃ a b ts, ((start 1 increment .reference).after half).graph.artifact = some a ∧
    ((start 1 increment .reference).after (half ++ whole)).graph.artifact = some b ∧
    a.feeds = [("x", 0)] ∧ b.feeds = [("x", 0), ("y", 3)] ∧
    ts.map (fun t => t.data.toList.map Float32.toBits) = [[1], [0]].map (·.map Float32.toBits) ∧
    ∀ tally, ((b.execute sumAndInput [("x", .zeros ⟨[1]⟩), ("y", .zeros ⟨[1]⟩)]).runOn tally).1 = .ok ts := by
  have hrun : (((start 1 increment .reference).after half).graph.artifact.bind fun a =>
      ((a.execute sumAndInput [("x", .zeros ⟨[1]⟩), ("y", .zeros ⟨[1]⟩)]).runOn []).1.toOption.map fun ts =>
        (a.feeds, a.output? 0 0, ts.map fun t => t.data.toList.map Float32.toBits)) =
      some ([("x", 0)], some 2, [[1], [0]].map (·.map Float32.toBits)) := by decide +kernel
  have hfeeds : ((start 1 increment .reference).after (half ++ whole)).graph.artifact.map Artifact.feeds =
      some [("x", 0), ("y", 3)] := by decide +kernel
  have hdeclared : ((start 1 increment .reference).after (half ++ whole)).graph.recorder.feeds =
      [("x", ⟨.f32, [.named "B"]⟩), ("y", ⟨.f32, [.named "B"]⟩)] := by decide +kernel
  obtain ⟨a, ha, hfetched⟩ := Option.bind_eq_some_iff.mp hrun
  obtain ⟨ts, hts, hfound⟩ := Option.map_eq_some_iff.mp hfetched
  obtain ⟨hread, houtput, hdata⟩ : a.feeds = [("x", 0)] ∧ a.output? 0 0 = some 2 ∧
      ts.map (fun t => t.data.toList.map Float32.toBits) = [[1], [0]].map (·.map Float32.toBits) := by
    simpa using hfound
  obtain ⟨b, hb, -, -, hsame⟩ := extension 1 increment .reference half whole ha
  have hgraph : a.graph = 1 := (valid_after (valid_start 1 increment .reference) half).graph a ha
  refine ⟨a, b, ts, ha, hb, hread, by simpa [hb] using hfeeds, hdata, fun tally => ?_⟩
  refine (hsame sumAndInput _ (fun p hp => ?_) [] tally ts).mp (Outcome.toOption_ok.mp hts)
  rw [hdeclared]
  rcases List.mem_pair.mp hp with rfl | rfl
  · exact .output (show a.valueOf? _ = some 2 by simpa [Artifact.valueOf?, hgraph] using houtput)
  · exact .input rfl hgraph.symm rfl

end Session

end ComponentFlow
