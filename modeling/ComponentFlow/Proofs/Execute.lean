/-
  ComponentFlow.Proofs.Execute — what running an artifact returns. Nodes are evaluated one after the
  other, and what each of them keeps holds in the end (`Artifact.evaluate_along`); so whatever is
  evaluated for a node fits the node's spec (`Artifact.execute_returns`).
-/
import ComponentFlow.Graph.Basic
import ComponentFlow.Proofs.Covering
import ComponentFlow.Proofs.Immediate
import ComponentFlow.Proofs.Plan

namespace ComponentFlow

theorem Feeds.read_admits {f : Feeds} {name : String} {spec : TensorSpec} {t : Tensor} (h : f.read name spec = .ok t) :
    spec.admits t = true := by
  unfold Feeds.read at h
  split at h
  · cases h
  · split at h
    · next hadmits =>
      cases h
      exact hadmits
    · cases h

namespace Artifact

variable {a : Artifact} {declared : Declared} {feeds : Feeds} {marks : Array Bool} {tally tally' : Tally}

/-- The operands of every node stand before it. -/
def Ordered (a : Artifact) : Prop := ∀ (i : Nat) n, a.nodes[i]? = some n → ∀ o ∈ n.operands, o < i

theorem ordered_of_wellFormed {declared : Declared} (h : a.extend.WellFormed declared) : a.Ordered := by
  intro i n hn o ho
  cases h.node hn with
  | constant | feed => cases ho
  | primitive hoperands =>
    obtain ⟨_, -, hlt, -⟩ := forall₂_of_mem hoperands ho
    exact hlt

/-! ## Positions -/

theorem entry_ok {α : Type} {xs : Array α} {i : Nat} {x : α} : entry xs i = .ok x ↔ xs[i]? = some x := by
  unfold entry
  rcases xs[i]? with _ | y <;> simp

theorem operandValue_ok {values : Array (Option Tensor)} {i o : Nat} {t : Tensor} :
    operandValue values i o = .ok t ↔ values[o]? = some (some t) := by
  unfold operandValue
  rw [Outcome.bind_ok]
  constructor
  · intro ⟨v, hv, ht⟩
    cases v with
    | none => cases ht
    | some u =>
      cases ht
      exact entry_ok.mp hv
  · intro h
    exact ⟨some t, entry_ok.mpr h, rfl⟩

theorem fetched_ok {values : Array (Option Tensor)} {v : Nat} {t : Tensor} :
    fetched values (.node v) = .ok t ↔ values[v]? = some (some t) := by
  simp only [fetched]
  rw [Outcome.bind_ok]
  constructor
  · intro ⟨o, ho, ht⟩
    cases o with
    | none => cases ht
    | some u =>
      cases ht
      exact entry_ok.mp ho
  · intro h
    exact ⟨some t, entry_ok.mpr h, rfl⟩

/-! ## Evaluation, node by node -/

/-- The node that is next, and those that are left behind it. -/
theorem next_node {i : Nat} {n : GraphNode} {rest : List GraphNode} (h : a.nodes.toList.drop i = n :: rest) :
    a.nodes[i]? = some n ∧ a.nodes.toList.drop (i + 1) = rest := by
  constructor
  · rw [← Array.getElem?_toList, ← List.head?_drop, h]
    rfl
  · rw [← List.drop_drop, h]
    rfl

section Evaluate

variable {k : Kernels} {i : Nat} {n : GraphNode} {rest : List GraphNode} {values : Array (Option Tensor)}

/-- A node that is marked is evaluated. -/
theorem evaluate_marked (h : marks[i]? = some true) : evaluate k feeds marks i (n :: rest) values =
    nodeValue k feeds values i n >>= fun t =>
      evaluate k feeds marks (i + 1) rest (values.setIfInBounds i (some t)) := by
  have hentry : entry marks i = .ok true := entry_ok.mpr h
  rw [evaluate, hentry]
  rfl

/-- A node that is not marked is left out. -/
theorem evaluate_unmarked (h : marks[i]? = some false) :
    evaluate k feeds marks i (n :: rest) values = evaluate k feeds marks (i + 1) rest values := by
  have hentry : entry marks i = .ok false := entry_ok.mpr h
  rw [evaluate, hentry]
  rfl

end Evaluate

/-- What holds of the values before a node, and is kept by the value of each node that is marked,
    holds of all values in the end, unless a node fails. -/
theorem evaluate_along {k : Kernels} {I : Nat → Array (Option Tensor) → Prop} {E : GraphError → Prop}
    (hmarks : ∀ {i : Nat} {n}, a.nodes[i]? = some n → marks[i]? = none → E (.fault (.indexOutOfRange marks.size i)))
    (hskip : ∀ {i : Nat} {values}, I i values → marks[i]? = some false → I (i + 1) values)
    (hnode : ∀ {i : Nat} {values n} (tally), I i values → a.nodes[i]? = some n → marks[i]? = some true →
      ((nodeValue k feeds values i n).runOn tally).1.Ends (fun t => I (i + 1) (values.setIfInBounds i (some t))) E)
    {rest : List GraphNode} {i : Nat} {values : Array (Option Tensor)} (hrest : a.nodes.toList.drop i = rest)
    (h : I i values) (tally : Tally) :
    ((evaluate k feeds marks i rest values).runOn tally).1.Ends (I (i + rest.length)) E := by
  induction rest generalizing i values tally with
  | nil => exact h
  | cons n rest ih =>
    obtain ⟨hn, hrest'⟩ := next_node hrest
    have hlength : i + 1 + rest.length = i + (n :: rest).length := by
      rw [List.length_cons]
      omega
    rcases hmark : marks[i]? with _ | _ | _
    · unfold evaluate
      rw [Effect.runOn_bind, Effect.runOn_ofOutcome]
      simp only [entry, hmark]
      exact hmarks hn hmark
    · rw [evaluate_unmarked hmark]
      exact hlength ▸ ih hrest' (hskip h hmark) tally
    · have hvalue := hnode tally h hn hmark
      rw [evaluate_marked hmark, Effect.runOn_bind]
      rcases hrun : (nodeValue k feeds values i n).runOn tally with ⟨_ | t, tally'⟩
      · rw [hrun] at hvalue
        exact hvalue
      · rw [hrun] at hvalue
        exact hlength ▸ ih hrest' hvalue tally'

/-- The same of all nodes, from the first one on. -/
theorem evaluateAll_along {I : Nat → Array (Option Tensor) → Prop} {E : GraphError → Prop}
    (hmarks : ∀ {i : Nat} {n}, a.nodes[i]? = some n → marks[i]? = none → E (.fault (.indexOutOfRange marks.size i)))
    (hskip : ∀ {i : Nat} {values}, I i values → marks[i]? = some false → I (i + 1) values)
    (hnode : ∀ {i : Nat} {values n} (tally), I i values → a.nodes[i]? = some n → marks[i]? = some true →
      ((nodeValue a.kernels feeds values i n).runOn tally).1.Ends
        (fun t => I (i + 1) (values.setIfInBounds i (some t))) E)
    (hstart : I 0 (Array.replicate a.nodes.size none)) (tally : Tally) :
    ((a.evaluateAll feeds marks).runOn tally).1.Ends (I a.nodes.size) E := by
  have hall := evaluate_along (k := a.kernels) (I := I) (E := E) hmarks hskip hnode List.drop_zero hstart tally
  rwa [Nat.zero_add] at hall

/-! ## Specs of values -/

/-- Every value there is fits its node. -/
def Fits (a : Artifact) (values : Array (Option Tensor)) : Prop :=
  ∀ (i : Nat) t, values[i]? = some (some t) → ∃ n, a.nodes[i]? = some n ∧ n.spec.admits t = true

theorem Fits.set {values : Array (Option Tensor)} (h : a.Fits values) {i : Nat} {n : GraphNode} {t : Tensor}
    (hn : a.nodes[i]? = some n) (ht : n.spec.admits t = true) : a.Fits (values.setIfInBounds i (some t)) := by
  intro j u hj
  rw [Array.getElem?_setIfInBounds] at hj
  split at hj
  · next hij =>
    subst hij
    split at hj
    · cases hj
      exact ⟨n, hn, ht⟩
    · cases hj
  · exact h j u hj

theorem nodeValue_admits {i : Nat} {n : GraphNode} {k : Kernels} {values : Array (Option Tensor)} {P : Plan}
    (hn : Plan.NodeSound declared P i n) {t : Tensor}
    (h : (nodeValue k feeds values i n).runOn tally = (.ok t, tally')) : n.spec.admits t = true := by
  cases hn with
  | constant t =>
    cases h
    exact TensorSpec.admits_self _
  | feed =>
    simp only [nodeValue, Effect.runOn_ofOutcome, Prod.mk.injEq] at h
    exact Feeds.read_admits h.1
  | primitive =>
    obtain ⟨_, _, -, h⟩ := Effect.bind_ok.mp h
    exact (Kernels.evaluate_ok.mp h).2.2

theorem evaluateAll_fits (hwf : a.extend.WellFormed declared) {values : Array (Option Tensor)}
    (h : (a.evaluateAll feeds marks).runOn tally = (.ok values, tally')) : a.Fits values := by
  have hstart : a.Fits (Array.replicate a.nodes.size none) := by
    intro i t hi
    simp [Array.getElem?_replicate] at hi
  have hnode : ∀ {i : Nat} {values n} (tally), a.Fits values → a.nodes[i]? = some n → marks[i]? = some true →
      ((nodeValue a.kernels feeds values i n).runOn tally).1.Ends (fun t => a.Fits (values.setIfInBounds i (some t)))
        fun _ => True := by
    intro i values n tally hfits hn _
    rcases hrun : (nodeValue a.kernels feeds values i n).runOn tally with ⟨_ | t, tally'⟩
    · trivial
    · exact hfits.set hn (nodeValue_admits (hwf.node hn) hrun)
  have hends := evaluateAll_along (I := fun _ => a.Fits) (fun _ _ => trivial) (fun h _ => h) hnode hstart tally
  rw [h] at hends
  exact hends

/-- What is returned for a placeholder: a value that fits its node, or the value that was fed for an
    input that nothing reads. -/
inductive Returned (a : Artifact) (feeds : Feeds) (p : Placeholder) (t : Tensor) : Prop
  | node {v n} : a.valueOf? p = some v → a.nodes[v]? = some n → n.spec.admits t = true → Returned a feeds p t
  | fed {name} : a.valueOf? p = none → p.source = .feed name → feeds.read name p.spec = .ok t → Returned a feeds p t

theorem target_returned {p : Placeholder} {target : Target} {values : Array (Option Tensor)} {t : Tensor}
    (hfits : a.Fits values) (htarget : a.target feeds p = .ok target) (ht : fetched values target = .ok t) :
    a.Returned feeds p t := by
  unfold Artifact.target at htarget
  split at htarget
  · next v hv =>
    cases htarget
    obtain ⟨n, hn, hadmits⟩ := hfits v t (fetched_ok.mp ht)
    exact .node hv hn hadmits
  · next hnone =>
    split at htarget
    · next name hsource =>
      split at htarget
      · obtain ⟨u, hu, rfl⟩ := Outcome.map_ok.mp htarget
        cases ht
        exact .fed hnone hsource hu
      · cases htarget
    · cases htarget

theorem execute_returns (hwf : a.extend.WellFormed declared) {fetches : List Placeholder} {ts : List Tensor}
    (h : (a.execute fetches feeds).runOn tally = (.ok ts, tally')) : List.Forall₂ (a.Returned feeds) fetches ts := by
  unfold execute at h
  obtain ⟨targets, tally₁, htargets, h⟩ := Effect.bind_ok.mp h
  obtain ⟨marks, tally₂, -, h⟩ := Effect.bind_ok.mp h
  obtain ⟨values, tally₃, hvalues, h⟩ := Effect.bind_ok.mp h
  simp only [Effect.runOn_ofOutcome, Prod.mk.injEq] at htargets h
  have hfits : a.Fits values := evaluateAll_fits hwf hvalues
  exact forall₂_comp (Outcome.mapM_ok.mp htargets.1) (Outcome.mapM_ok.mp h.1)
    fun _ _ _ htarget ht => target_returned hfits htarget ht

end Artifact

/-- Running the artifact of a graph counts evaluations, and changes nothing else. -/
theorem Graph.execute_runOn {g : Graph} (hmode : g.backend.mode = .symbolic) (fetches : List Placeholder)
    (feeds : Feeds) : (execute fetches feeds).runOn g = match g.artifact with
      | none => (.error (.notBuilt g.rootScope), g)
      | some a =>
        let run := (a.execute fetches feeds).runOn g.tally
        (run.1, { g with tally := run.2 }) := by
  have hsymbolic : g.requireSymbolic = .ok () := by simp [requireSymbolic, hmode]
  unfold execute counting
  simp only [Effect.runOn_bind, Effect.runOn_reading, hsymbolic, Effect.runOn_get]
  cases hartifact : g.artifact with
  | none => rfl
  | some a =>
    simp only [Effect.runOn_within]
    rw [← hartifact]

end ComponentFlow
