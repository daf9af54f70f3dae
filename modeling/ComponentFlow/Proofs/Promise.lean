/-
  ComponentFlow.Proofs.Promise — what a placeholder's spec says of the tensor that is fetched for it.
  An input is admitted whole. The result of a call has the element type and the rank that were
  promised, and every extent, except along an axis that the compiled value leaves open
  (`Session.fetched_keeps`): there a build finds nothing to object to, and no run looks again. So the
  contract of a method can be broken unnoticed, where the same call in the immediate mode is refused
  (`Session.promise_broken`).
-/
import ComponentFlow.Kernel.Catalogue
import ComponentFlow.Proofs.Execute
import ComponentFlow.Proofs.Session

namespace ComponentFlow

/-- Axes that agree with axes that admit extents are fixed to these, or the latter are open. -/
theorem Dim.extent_of_allCompatible {as bs : List Dim} {ns : List Nat} (hab : allCompatible as bs = true)
    (hb : allAdmit bs ns = true) {axis n : Nat} (ha : as[axis]? = some (.fixed n)) :
    ns[axis]? = some n ∨ ∃ name, bs[axis]? = some (.named name) := by
  induction as generalizing bs ns axis with
  | nil => cases ha
  | cons a as ih =>
    obtain _ | ⟨b, bs⟩ := bs
    · cases hab
    obtain _ | ⟨m, ns⟩ := ns
    · cases hb
    simp only [allCompatible, allAdmit, Bool.and_eq_true] at hab hb
    cases axis with
    | succ axis => exact ih hab.2 hb.2 ha
    | zero =>
      cases ha
      cases b with
      | named name => exact .inr ⟨name, rfl⟩
      | fixed l =>
        have hl : n = l := by simpa [compatible] using hab.1
        have hm : l = m := by simpa [admits] using hb.1
        exact .inl (by rw [hl, hm]; rfl)

namespace TensorSpec

variable {a b : TensorSpec} {t : Tensor}

theorem dtype_of_compatible (hab : a.compatible b = true) (ht : b.admits t = true) : t.dtype = a.dtype := by
  simp only [compatible, admits, Bool.and_eq_true, beq_iff_eq] at hab ht
  exact ht.1.trans hab.1.symm

theorem rank_of_compatible (hab : a.compatible b = true) (ht : b.admits t = true) : t.shape.rank = a.rank := by
  simp only [compatible, admits, Bool.and_eq_true] at hab ht
  exact (Dim.length_of_allAdmit ht.2).symm.trans (Dim.length_of_allCompatible hab.2).symm

end TensorSpec

/-- What a tensor that is fetched for a placeholder keeps of its spec. -/
structure Artifact.Keeps (a : Artifact) (p : Placeholder) (t : Tensor) : Prop where
  dtype : t.dtype = p.spec.dtype
  rank : t.shape.rank = p.spec.rank
  extent : ∀ {axis n : Nat}, p.spec.dims[axis]? = some (.fixed n) → t.shape.dims[axis]? = some n ∨
    ∃ v node name, a.valueOf? p = some v ∧ a.nodes[v]? = some node ∧ node.spec.dims[axis]? = some (.named name)
  input : ∀ {name}, p.source = .feed name → p.spec.admits t = true

namespace Session

variable {s : Session} {a : Artifact} {p : Placeholder} {t : Tensor}

/-- What is admitted keeps everything. -/
theorem keeps_of_admits (h : p.spec.admits t = true) : a.Keeps p t where
  dtype := TensorSpec.dtype_of_compatible (TensorSpec.compatible_spec_iff.mpr h) (TensorSpec.admits_self t)
  rank := TensorSpec.rank_of_compatible (TensorSpec.compatible_spec_iff.mpr h) (TensorSpec.admits_self t)
  extent := by
    intro axis n hn
    have hfixed := Dim.fixed_at_of_allCover (TensorSpec.admits_iff_covers.mp h).2 hn
    exact .inl (by simpa [Tensor.spec, TensorSpec.ofShape] using hfixed)
  input := fun _ => h

/-- A value that fits its node keeps the spec that the node was held against. -/
theorem keeps_of_compatible {v : Nat} {n : GraphNode} (hv : a.valueOf? p = some v) (hn : a.nodes[v]? = some n)
    (hspec : p.spec.compatible n.spec = true) (ht : n.spec.admits t = true)
    (hinput : ∀ name, p.source ≠ .feed name) : a.Keeps p t where
  dtype := TensorSpec.dtype_of_compatible hspec ht
  rank := TensorSpec.rank_of_compatible hspec ht
  extent := by
    intro axis m hm
    simp only [TensorSpec.compatible, TensorSpec.admits, Bool.and_eq_true] at hspec ht
    rcases Dim.extent_of_allCompatible hspec.2 ht.2 hm with hextent | ⟨name, hname⟩
    · exact .inl hextent
    · exact .inr ⟨v, n, name, hv, hn, hname⟩
  input := fun hfeed => absurd hfeed (hinput _)

theorem keeps_of_returned (h : s.Valid) (hp : p ∈ s.handed) (ha : s.graph.artifact = some a) {feeds : Feeds}
    (ht : a.Returned feeds p t) : a.Keeps p t := by
  obtain ⟨hgraph, hfeed, houtput⟩ := h.promised p hp
  have hsame : p.graph = a.graph := hgraph.trans (h.graph a ha).symm
  cases ht with
  | fed _ _ hread => exact keeps_of_admits (Feeds.read_admits hread)
  | @node v n hv hn hadmits =>
    cases hsource : p.source with
    | feed name =>
      -- The node of a declared input has the spec that it was declared with.
      have hvalue : a.feeds.lookup name = some v := by simpa [Artifact.valueOf?, hsame, hsource] using hv
      obtain ⟨spec, hspec, hnode⟩ := (h.wellFormed a ha).feed hvalue
      obtain rfl : p.spec = spec := Option.some.inj ((hfeed name hsource).symm.trans hspec)
      obtain rfl : n = ⟨.feed name, [], p.spec⟩ := Option.some.inj (hn.symm.trans hnode)
      exact keeps_of_admits hadmits
    | output i k =>
      have hvalue : a.output? i k = some v := by simpa [Artifact.valueOf?, hsame, hsource] using hv
      obtain ⟨w, hw, hk⟩ := Option.bind_eq_some_iff.mp hvalue
      obtain ⟨hmem, hid⟩ := Artifact.wiring_found hw
      obtain ⟨v', spec, hv', hspec, hcompatible⟩ := (houtput i k hsource).wired a ha w hmem hid
      obtain rfl : v' = v := by simpa [hv'] using hk
      obtain rfl : n.spec = spec := by simpa [Plan.spec?, Artifact.extend, hn] using hspec
      exact keeps_of_compatible hv hn hcompatible hadmits fun name => by simp [hsource]

/-- Whatever a session has done, and on any kernels, a run that succeeds gives for each placeholder that was handed out
    a tensor of its element type and rank, and of its extents but for axes that the computing node leaves open; what is
    given for an input is admitted by its spec. -/
theorem fetched_keeps (id : Nat) (tree : Tree) (k : Kernels) (requests : List Request) {p : Placeholder}
    (hp : p ∈ ((start id tree k).after requests).handed) {fetches : List Placeholder} {feeds : Feeds}
    {ts : List Tensor} {g : Graph}
    (hrun : (Graph.execute fetches feeds).runOn ((start id tree k).after requests).graph = (.ok ts, g)) {j : Nat}
    (hj : fetches[j]? = some p) :
    ∃ a t, ((start id tree k).after requests).graph.artifact = some a ∧ ts[j]? = some t ∧ a.Keeps p t := by
  have hvalid := valid_after (valid_start id tree k) requests
  generalize (start id tree k).after requests = s at *
  rw [Graph.execute_runOn hvalid.mode] at hrun
  rcases ha : s.graph.artifact with _ | a
  · simp [ha] at hrun
  · simp only [ha, Prod.mk.injEq] at hrun
    have hreturned := Artifact.execute_returns (hvalid.wellFormed a ha) (Prod.ext hrun.1 rfl)
    obtain ⟨t, ht, hreturned⟩ := forall₂_getElem? hreturned hj
    exact ⟨a, t, rfl, ht, keeps_of_returned hvalid hp ha hreturned⟩

/-! ## A promise that is broken -/

/-- A component that hands its input on, and says of it that there are four elements. -/
def overstated : Tree where
  nodes := #[{
    name := "root"
    parent := none
    children := []
    state := .unbuilt
    component := {
      kind := "overstated"
      config := .null
      methods := [{
        name := "f"
        inputs := [Signature.required "x"]
        outputs := [⟨"y", .fixed ⟨.f32, [.fixed 4]⟩⟩]
        body := .straight [] [.input 0] }] } }]
  frozen := false

/-- The method called on an input of any length, and built. -/
def overstating : Session :=
  let x : Placeholder := ⟨1, .feed "x", ⟨.f32, [.named "B"]⟩⟩
  (start 1 overstated .reference).after
    [.record (.input "x" x.spec), .record (.call 0 "f" [.placeholder x]), .build]

/-- What the call handed out. -/
def overstatement : Placeholder := ⟨1, .output 0 0, ⟨.f32, [.fixed 4]⟩⟩

/-- Fetched for an input of three elements. -/
def overstatementRun : Outcome (List Tensor) × Graph :=
  (Graph.execute [overstatement] [("x", .zeros ⟨[3]⟩)]).runOn overstating.graph

/-- The run gives three elements for the four that were promised. Called with three elements at once, the method is
    refused for that. -/
theorem promise_broken : overstatement ∈ overstating.handed ∧
    (∃ t, overstatementRun.1 = .ok [t] ∧ overstatement.spec.admits t = false) ∧
    ((Graph.call 0 "f" [.tensor (.zeros ⟨[3]⟩)]).runOn (.fresh 1 overstated ⟨.immediate, .reference⟩)).1 =
      .error (.contractViolation "root" "f" (.differs "y" ⟨.f32, [.fixed 4]⟩ ⟨.f32, [.fixed 3]⟩)) := by
  refine ⟨by decide +kernel, ?_, rfl⟩
  have hrun : overstatementRun.1.toOption.map (·.map overstatement.spec.admits) = some [false] := by decide +kernel
  rcases hts : overstatementRun.1 with _ | ts
  · rw [hts] at hrun
    cases hrun
  · rw [hts] at hrun
    obtain ⟨t, rfl, ht⟩ := List.map_eq_singleton_iff.mp (Option.some.inj hrun)
    exact ⟨t, rfl, ht⟩

theorem overstatement_keeps : ∃ ts g a t, overstatementRun = (.ok ts, g) ∧ overstating.graph.artifact = some a ∧
    ts[0]? = some t ∧ a.Keeps overstatement t := by
  have hok : (match overstatementRun.1 with
      | .ok _ => true
      | .error _ => false) = true := by decide +kernel
  rcases hrun : overstatementRun with ⟨_ | ts, g⟩
  · rw [hrun] at hok
    cases hok
  · obtain ⟨a, t, ha, ht, hkeeps⟩ := fetched_keeps 1 overstated .reference
      [.record (.input "x" ⟨.f32, [.named "B"]⟩),
        .record (.call 0 "f" [.placeholder ⟨1, .feed "x", ⟨.f32, [.named "B"]⟩⟩]), .build]
      (p := overstatement) (by decide +kernel) (j := 0) hrun rfl
    exact ⟨ts, g, a, t, rfl, ha, ht, hkeeps⟩

end Session

end ComponentFlow
