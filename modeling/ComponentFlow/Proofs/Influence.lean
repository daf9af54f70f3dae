/-
  ComponentFlow.Proofs.Influence — what a run depends on. Two artifacts that agree on the nodes behind
  the fetched placeholders run alike, on feeds that agree on the inputs read there: they return the
  same, fail with the same error, and evaluate the same (`Artifact.execute_alike`).

  - `Artifact.Agrees`: what has to be the same.
  - `Session.execute_means`: runs of the artifact of a session find the values of what is fetched.
-/
import ComponentFlow.Proofs.Formation
import ComponentFlow.Proofs.Meaning

namespace ComponentFlow

namespace Artifact

open Relation (ReflTransGen)

/-- An artifact and feeds that agree with others on what these placeholders need. -/
structure Agrees (a : Artifact) (feeds : Feeds) (b : Artifact) (feeds' : Feeds) (fetches : List Placeholder) :
    Prop where
  ordered : b.Ordered
  graph : b.graph = a.graph
  kernels : b.kernels = a.kernels
  value : ∀ p ∈ fetches, b.valueOf? p = a.valueOf? p
  node : ∀ {i}, a.DependsOn (a.asked fetches) i → b.nodes[i]? = a.nodes[i]?
  /-- Inputs that are read. -/
  feed : ∀ {i n name}, a.DependsOn (a.asked fetches) i → a.nodes[i]? = some n → n.op = .feed name →
    feeds'.lookup name = feeds.lookup name
  /-- Inputs that are fetched and that nothing reads. -/
  fed : ∀ {p name}, p ∈ fetches → a.valueOf? p = none → p.source = .feed name → feeds'.lookup name = feeds.lookup name

variable {a b : Artifact} {feeds feeds' : Feeds} {fetches : List Placeholder} {marks marks' : Array Bool}

/-! ## What is fetched -/

theorem Agrees.asked (h : a.Agrees feeds b feeds' fetches) : b.asked fetches = a.asked fetches :=
  List.filterMap_congr h.value

theorem Agrees.target (h : a.Agrees feeds b feeds' fetches) {p : Placeholder} (hp : p ∈ fetches) :
    b.target feeds' p = a.target feeds p := by
  unfold Artifact.target
  rw [h.value p hp]
  rcases hv : a.valueOf? p with _ | v
  · rcases hsource : p.source with name | ⟨i, k⟩
    · simp only [h.graph, Feeds.read, h.fed hp hv hsource]
    · simp only [h.graph]
  · rfl

/-! ## What is needed -/

theorem Agrees.leads (h : a.Agrees feeds b feeds' fetches) (hleads : a.Leads fetches) : b.Leads fetches := by
  intro v hv
  rw [h.asked] at hv
  have hlt : v < a.nodes.size := hleads v hv
  have hn : b.nodes[v]? = some a.nodes[v] := (h.node ⟨v, hv, .refl⟩).trans (Array.getElem?_eq_getElem hlt)
  exact (Array.getElem?_eq_some_iff.mp hn).1

/-- Operands of a node that is needed are operands on both sides. -/
theorem Agrees.uses (h : a.Agrees feeds b feeds' fetches) {i o : Nat} (hi : a.DependsOn (a.asked fetches) i) :
    b.Uses i o ↔ a.Uses i o := by
  unfold Uses
  rw [h.node hi]

theorem Agrees.dependsOn (h : a.Agrees feeds b feeds' fetches) {i : Nat} :
    b.DependsOn (b.asked fetches) i ↔ a.DependsOn (a.asked fetches) i := by
  rw [h.asked]
  constructor
  · intro ⟨v, hv, hreach⟩
    induction hreach with
    | refl => exact ⟨v, hv, .refl⟩
    | tail _ huses ih =>
      obtain ⟨w, hw, hreach⟩ := ih
      exact ⟨w, hw, hreach.tail ((h.uses ⟨w, hw, hreach⟩).mp huses)⟩
  · intro ⟨v, hv, hreach⟩
    refine ⟨v, hv, ?_⟩
    induction hreach with
    | refl => exact .refl
    | tail hreach huses ih => exact ih.tail ((h.uses ⟨v, hv, hreach⟩).mpr huses)

theorem Agrees.marked (h : a.Agrees feeds b feeds' fetches) (hmarks : a.Marks fetches marks)
    (hmarks' : b.Marks fetches marks') {i : Nat} : Marked marks' i ↔ Marked marks i := by
  rw [hmarks'.marked, hmarks.marked, h.dependsOn]

/-! ## Evaluation -/

/-- Values that are the same where there are marks. -/
def Same (marks : Array Bool) (values values' : Array (Option Tensor)) : Prop :=
  ∀ {i}, Marked marks i → ∃ v, values[i]? = some v ∧ values'[i]? = some v

theorem Same.set {values values' : Array (Option Tensor)} (h : Same marks values values') (i : Nat) (t : Tensor) :
    Same marks (values.setIfInBounds i (some t)) (values'.setIfInBounds i (some t)) := by
  intro j hj
  obtain ⟨v, hv, hv'⟩ := h hj
  have hlt := (Array.getElem?_eq_some_iff.mp hv).1
  have hlt' := (Array.getElem?_eq_some_iff.mp hv').1
  simp only [Array.getElem?_setIfInBounds]
  by_cases hij : i = j
  · subst hij
    exact ⟨some t, by simp [hlt], by simp [hlt']⟩
  · exact ⟨v, by simp [hij, hv], by simp [hij, hv']⟩

theorem nodeValue_alike (h : a.Agrees feeds b feeds' fetches) (hmarks : a.Marks fetches marks)
    {values values' : Array (Option Tensor)} (hsame : Same marks values values') {i : Nat} {n : GraphNode}
    (hn : a.nodes[i]? = some n) (hm : Marked marks i) :
    nodeValue b.kernels feeds' values' i n = nodeValue a.kernels feeds values i n := by
  unfold nodeValue
  rcases hop : n.op with t | name | p
  · rfl
  · simp only [Feeds.read, h.feed ((hmarks.marked i).mp hm) hn hop]
  · have hoperands : n.operands.mapM (operandValue values' i) = n.operands.mapM (operandValue values i) := by
      refine Outcome.mapM_congr fun o ho => ?_
      obtain ⟨v, hv, hv'⟩ := hsame (hmarks.closed hm ⟨n, hn, ho⟩)
      simp only [operandValue, entry, hv, hv']
    simp only [hoperands, h.kernels]

theorem Marks.unmarked (h : a.Marks fetches marks) {i : Nat} (hi : i < a.nodes.size) (hm : ¬ Marked marks i) :
    marks[i]? = some false := by
  have hsize := h.size
  rcases hmark : marks[i]? with _ | _ | _
  · have := Array.getElem?_eq_none_iff.mp hmark
    omega
  · rfl
  · exact absurd hmark hm

/-- Nodes that are left when there are no more marks are left out. -/
theorem evaluate_idle (hmarks : a.Marks fetches marks) {k : Kernels} {rest : List GraphNode} {i : Nat}
    {values : Array (Option Tensor)} (hrest : a.nodes.toList.drop i = rest) (h : ∀ j, i ≤ j → ¬ Marked marks j) :
    evaluate k feeds marks i rest values = pure values := by
  induction rest generalizing i with
  | nil => rfl
  | cons n rest ih =>
    obtain ⟨hn, hrest'⟩ := next_node hrest
    have hmark := hmarks.unmarked (Array.getElem?_eq_some_iff.mp hn).1 (h i (Nat.le_refl i))
    rw [evaluate_unmarked hmark]
    exact ih hrest' fun j hj => h j (by omega)

/-- Behind the last node there are no marks. -/
theorem Marks.end (h : a.Marks fetches marks) {i : Nat} (hrest : a.nodes.toList.drop i = []) {j : Nat} (hj : i ≤ j) :
    ¬ Marked marks j := by
  intro hm
  have hsize := h.size
  have hlast : a.nodes.size ≤ i := by simpa using hrest
  have := (Array.getElem?_eq_some_iff.mp hm).1
  omega

/-- Both runs go on alike behind their evaluations. -/
theorem evaluate_alike {β : Type} (h : a.Agrees feeds b feeds' fetches) (hmarks : a.Marks fetches marks)
    (hmarks' : b.Marks fetches marks') {f f' : Array (Option Tensor) → Effect Tally β}
    (hf : ∀ {values values'}, Same marks values values' → f' values' = f values) {i : Nat} {rest rest' : List GraphNode}
    (hrest : a.nodes.toList.drop i = rest) (hrest' : b.nodes.toList.drop i = rest')
    {values values' : Array (Option Tensor)} (hsame : Same marks values values') :
    evaluate b.kernels feeds' marks' i rest' values' >>= f' = evaluate a.kernels feeds marks i rest values >>= f := by
  have hmarked := fun j => h.marked hmarks hmarks' (i := j)
  -- One side may have more nodes than the other, but none of them is marked.
  have hidle : ∀ {i rest rest' values values'}, a.nodes.toList.drop i = rest → b.nodes.toList.drop i = rest' →
      Same marks values values' → (∀ j, i ≤ j → ¬ Marked marks j) →
      evaluate b.kernels feeds' marks' i rest' values' >>= f' = evaluate a.kernels feeds marks i rest values >>= f := by
    intro i rest rest' values values' hrest hrest' hsame hnone
    rw [evaluate_idle hmarks hrest hnone, evaluate_idle hmarks' hrest' fun j hj => mt (hmarked j).mp (hnone j hj),
      pure_bind, pure_bind, hf hsame]
  induction rest generalizing i rest' values values' with
  | nil => exact hidle hrest hrest' hsame fun j => hmarks.end hrest
  | cons n rest ih =>
    cases rest' with
    | nil => exact hidle hrest hrest' hsame fun j hj => mt (hmarked j).mpr (hmarks'.end hrest' hj)
    | cons n' rest' =>
      obtain ⟨hn, htail⟩ := next_node hrest
      obtain ⟨hn', htail'⟩ := next_node hrest'
      by_cases hm : Marked marks i
      · obtain rfl : n' = n := by
          have hnode := h.node ((hmarks.marked i).mp hm)
          rw [hn, hn'] at hnode
          exact Option.some.inj hnode
        rw [evaluate_marked hm, evaluate_marked ((hmarked i).mpr hm), nodeValue_alike h hmarks hsame hn hm, bind_assoc,
          bind_assoc]
        exact bind_congr fun t => ih htail htail' (hsame.set i t)
      · rw [evaluate_unmarked (hmarks.unmarked (Array.getElem?_eq_some_iff.mp hn).1 hm),
          evaluate_unmarked (hmarks'.unmarked (Array.getElem?_eq_some_iff.mp hn').1 (mt (hmarked i).mp hm))]
        exact ih htail htail' hsame

theorem evaluateAll_alike {β : Type} (h : a.Agrees feeds b feeds' fetches) (hmarks : a.Marks fetches marks)
    (hmarks' : b.Marks fetches marks') {f f' : Array (Option Tensor) → Effect Tally β}
    (hf : ∀ {values values'}, Same marks values values' → f' values' = f values) :
    b.evaluateAll feeds' marks' >>= f' = a.evaluateAll feeds marks >>= f := by
  refine evaluate_alike h hmarks hmarks' hf List.drop_zero List.drop_zero fun {i} hm => ?_
  have hlt := (Array.getElem?_eq_some_iff.mp hm).1
  have hlt' := (Array.getElem?_eq_some_iff.mp ((h.marked hmarks hmarks').mpr hm)).1
  rw [hmarks.size] at hlt
  rw [hmarks'.size] at hlt'
  exact ⟨none, by simp [hlt], by simp [hlt']⟩

/-- What was evaluated is found alike. -/
theorem fetched_alike {values values' : Array (Option Tensor)} (h : Same marks values values') {target : Target}
    (htarget : ∀ v, target.node? = some v → Marked marks v) : fetched values' target = fetched values target := by
  cases target with
  | fed t => rfl
  | node v =>
    obtain ⟨o, ho, ho'⟩ := h (htarget v rfl)
    simp only [fetched, entry, ho, ho']

/-- Runs that agree on what is needed come out the same. -/
theorem execute_alike (h : a.Agrees feeds b feeds' fetches) (ha : a.Ordered) (hleads : a.Leads fetches)
    (tally : Tally) : (b.execute fetches feeds').runOn tally = (a.execute fetches feeds).runOn tally := by
  obtain ⟨marks, hmarks, hrun⟩ := execute_marks ha hleads
  obtain ⟨marks', hmarks', hrun'⟩ := execute_marks h.ordered (h.leads hleads)
  have htargets : fetches.mapM (b.target feeds') = fetches.mapM (a.target feeds) :=
    Outcome.mapM_congr fun p hp => h.target hp
  rw [hrun, hrun', htargets, Effect.runOn_bind, Effect.runOn_bind, Effect.runOn_ofOutcome]
  rcases hfound : fetches.mapM (a.target feeds) with e | targets
  · rfl
  · dsimp only
    rw [evaluateAll_alike h hmarks hmarks' fun hsame => ?_]
    congr 1
    refine Outcome.mapM_congr fun target htarget => fetched_alike hsame fun v hv => ?_
    exact hmarks.asked (mem_asked (Outcome.mapM_ok.mp hfound) htarget hv)

/-- What can be fetched from a well-formed artifact is there. -/
theorem leads_of_wellFormed {declared : Declared} (hwf : a.extend.WellFormed declared) (h : a.InRange)
    (fetches : List Placeholder) : a.Leads fetches := by
  intro v hv
  obtain ⟨p, -, hp⟩ := List.mem_filterMap.mp hv
  unfold valueOf? at hp
  split at hp
  · cases hp
  · rcases hsource : p.source with name | ⟨i, k⟩
    · rw [hsource] at hp
      obtain ⟨spec, -, hn⟩ := hwf.feed hp
      exact (Array.getElem?_eq_some_iff.mp hn).1
    · rw [hsource] at hp
      obtain ⟨w, hw, hout⟩ := Option.bind_eq_some_iff.mp hp
      rw [Option.join_eq_some_iff] at hout
      exact h w (List.mem_of_find?_eq_some hw) v (.inr (List.mem_of_getElem? hout))

end Artifact

namespace Session

/-- Whatever is fetched from the artifact of a session is there. -/
theorem artifact_leads {id : Nat} {tree : Tree} {k : Kernels} {requests : List Request} {a : Artifact}
    (ha : ((start id tree k).after requests).graph.artifact = some a) (fetches : List Placeholder) :
    a.Leads fetches :=
  Artifact.leads_of_wellFormed ((valid_after (valid_start id tree k) requests).wellFormed a ha)
    (artifact_after (Artifact.inRange_inherited tree k) ha) fetches

/-- Runs of the artifact of a session, with any kernels that answer the same when asked the same. They
    succeed if and only if everything that is fetched has a value, and return these values; so what is
    fetched together is what is fetched one by one, and nothing else counts. -/
theorem execute_means (id : Nat) (tree : Tree) (k : Kernels) (requests : List Request) {a : Artifact}
    (ha : ((start id tree k).after requests).graph.artifact = some a) (fetches : List Placeholder) (feeds : Feeds)
    (tally : Tally) : a.kernels = k ∧
    (∀ ts, ((a.execute fetches feeds).runOn tally).1 = .ok ts ↔ List.Forall₂ (a.Means feeds) fetches ts) ∧
    ((∃ ts, ((a.execute fetches feeds).runOn tally).1 = .ok ts) ↔ ∀ p ∈ fetches, ∃ t, a.Means feeds p t) ∧
    (∀ more ts, ((a.execute (fetches ++ more) feeds).runOn tally).1 = .ok ts ↔
      ∃ us vs, ((a.execute fetches feeds).runOn tally).1 = .ok us ∧ ((a.execute more feeds).runOn tally).1 = .ok vs ∧
        ts = us ++ vs) ∧
    ∀ b feeds', a.Agrees feeds b feeds' fetches →
      (b.execute fetches feeds').runOn tally = (a.execute fetches feeds).runOn tally := by
  have hwf := (valid_after (valid_start id tree k) requests).wellFormed a ha
  have hkernels : a.kernels = k := artifact_after (Artifact.kernels_inherited tree k) ha
  have hmeans : ∀ fetches ts, ((a.execute fetches feeds).runOn tally).1 = .ok ts ↔
      List.Forall₂ (a.Means feeds) fetches ts := fun fetches ts =>
    Artifact.execute_iff hwf (artifact_leads ha fetches)
  refine ⟨hkernels, hmeans fetches, ?_, fun more ts => ?_, fun b feeds' hagrees => ?_⟩
  · simp only [hmeans]
    constructor
    · intro ⟨ts, h⟩ p hp
      obtain ⟨t, -, ht⟩ := forall₂_of_mem h hp
      exact ⟨t, ht⟩
    · intro h
      exact forall₂_exists h
  · simp only [hmeans]
    exact forall₂_append
  · exact Artifact.execute_alike hagrees (Artifact.ordered_of_wellFormed hwf) (artifact_leads ha fetches) tally

/-- The sum that was taken twice, the one before it, and again the one taken twice. -/
def sums : List Placeholder :=
  let s : TensorSpec := ⟨.f32, [.named "B"]⟩
  [⟨1, .output 1 0, s⟩, ⟨1, .output 0 0, s⟩, ⟨1, .output 1 0, s⟩]

theorem increments_mean : ∃ a ts, ((start 1 increment .reference).after increments).graph.artifact = some a ∧
    ts.map (fun t => t.data.toList.map Float32.toBits) = [[2, 2], [1, 1], [2, 2]].map (·.map Float32.toBits) ∧
    List.Forall₂ (a.Means [("x", .zeros ⟨[2]⟩)]) sums ts := by
  have hrun : (((start 1 increment .reference).after increments).graph.artifact.bind fun a =>
      ((a.execute sums [("x", .zeros ⟨[2]⟩)]).runOn []).1.toOption).map
        (fun ts => ts.map fun t => t.data.toList.map Float32.toBits) =
      some ([[2, 2], [1, 1], [2, 2]].map (·.map Float32.toBits)) := by decide +kernel
  obtain ⟨ts, hfound, hdata⟩ := Option.map_eq_some_iff.mp hrun
  obtain ⟨a, ha, hts⟩ := Option.bind_eq_some_iff.mp hfound
  refine ⟨a, ts, ha, hdata, ((execute_means 1 increment .reference increments ha sums _ []).2.1 ts).mp ?_⟩
  rcases hok : ((a.execute sums [("x", .zeros ⟨[2]⟩)]).runOn []).1 with e | us
  · rw [hok] at hts
    cases hts
  · rw [hok] at hts
    cases hts
    rfl

end Session

end ComponentFlow
