/-
  ComponentFlow.Proofs.Meaning — what the nodes of an artifact mean. The value of a node is that of its
  operands put through its primitive; a run, which evaluates the nodes it needs from the first to the
  last, finds these values (`Artifact.execute_iff`).

  - `Artifact.Denotes`: the value of a node, by recursion over its operands.
  - `Artifact.Means`: the value of a placeholder.
  - `Artifact.evaluate_means`: a run that fails does so at a node that is needed and has no value.
-/
import ComponentFlow.Proofs.Demand

namespace ComponentFlow.Artifact

open Relation (ReflTransGen)

/-- The value of a node: the tensor of a constant, what is fed for an input and admitted by its spec, or
    what the kernels make of the values of the operands, if the spec of the node admits that. -/
inductive Denotes (a : Artifact) (feeds : Feeds) : Nat → Tensor → Prop
  | constant {i : Nat} {n t} : a.nodes[i]? = some n → n.op = .constant t → Denotes a feeds i t
  | feed {i : Nat} {n name t} : a.nodes[i]? = some n → n.op = .feed name → feeds.read name n.spec = .ok t →
      Denotes a feeds i t
  | primitive {i : Nat} {n p ts t} : a.nodes[i]? = some n → n.op = .primitive p → n.operands.length = ts.length →
      (∀ {j o : Nat} {u}, n.operands[j]? = some o → ts[j]? = some u → Denotes a feeds o u) →
      a.kernels.execute p ts = .ok t → n.spec.admits t = true → Denotes a feeds i t

/-- The value of a placeholder: that of the node that computes it, or what is fed for an input that
    nothing reads. -/
inductive Means (a : Artifact) (feeds : Feeds) (p : Placeholder) : Tensor → Prop
  | node {v t} : a.valueOf? p = some v → a.Denotes feeds v t → Means a feeds p t
  | fed {name t} : a.valueOf? p = none → p.source = .feed name → p.graph = a.graph →
      feeds.read name p.spec = .ok t → Means a feeds p t

variable {a : Artifact} {declared : Declared} {feeds : Feeds} {marks : Array Bool} {values : Array (Option Tensor)}
  {fetches : List Placeholder} {tally : Tally}

/-! ## Values by recursion -/

/-- What a node denotes, in terms of its operands. -/
theorem denotes_iff {i : Nat} {n : GraphNode} (hn : a.nodes[i]? = some n) {t : Tensor} :
    a.Denotes feeds i t ↔ match n.op with
      | .constant u => t = u
      | .feed name => feeds.read name n.spec = .ok t
      | .primitive p => ∃ ts, List.Forall₂ (a.Denotes feeds) n.operands ts ∧ a.kernels.execute p ts = .ok t ∧
          n.spec.admits t = true := by
  constructor
  · intro h
    cases h with
    | constant hn' hop =>
      obtain rfl := Option.some.inj (hn.symm.trans hn')
      rw [hop]
    | feed hn' hop hread =>
      obtain rfl := Option.some.inj (hn.symm.trans hn')
      rw [hop]
      exact hread
    | @primitive _ _ p ts _ hn' hop hlength hoperands hexecute hadmits =>
      obtain rfl := Option.some.inj (hn.symm.trans hn')
      rw [hop]
      exact ⟨ts, forall₂_of_getElem? hlength hoperands, hexecute, hadmits⟩
  · intro h
    rcases hop : n.op with u | name | p
    · rw [hop] at h
      exact h ▸ .constant hn hop
    · rw [hop] at h
      exact .feed hn hop h
    · rw [hop] at h
      obtain ⟨ts, hoperands, hexecute, hadmits⟩ := h
      refine .primitive hn hop hoperands.length_eq ?_ hexecute hadmits
      intro j o u ho hu
      obtain ⟨u', hu', hdenotes⟩ := forall₂_getElem? hoperands ho
      obtain rfl := Option.some.inj (hu.symm.trans hu')
      exact hdenotes

theorem denotes_node {i : Nat} {t : Tensor} (h : a.Denotes feeds i t) : ∃ n, a.nodes[i]? = some n := by
  cases h with
  | constant hn | feed hn | primitive hn => exact ⟨_, hn⟩

theorem Denotes.unique {i : Nat} {t t' : Tensor} (h : a.Denotes feeds i t) (h' : a.Denotes feeds i t') : t = t' := by
  induction h generalizing t' with
  | constant hn hop =>
    rw [denotes_iff hn, hop] at h'
    exact h'.symm
  | feed hn hop hread =>
    rw [denotes_iff hn, hop] at h'
    exact Except.ok.inj (hread.symm.trans h')
  | @primitive i n p ts t hn hop hlength hoperands hexecute _ ih =>
    rw [denotes_iff hn, hop] at h'
    obtain ⟨ts', hoperands', hexecute', -⟩ := h'
    have hsame : List.Forall₂ Eq ts ts' := by
      refine forall₂_of_getElem? (hlength.symm.trans hoperands'.length_eq) ?_
      intro j u u' hu hu'
      obtain ⟨o, ho, hdenotes⟩ := forall₂_getElem? hoperands'.flip hu'
      exact ih ho hu hdenotes
    rw [List.forall₂_eq_eq_eq] at hsame
    subst hsame
    exact Except.ok.inj (hexecute.symm.trans hexecute')

/-- What a node with a value depends on has values. -/
theorem denotes_behind (hwf : a.extend.WellFormed declared) {v i : Nat} {t : Tensor} (h : a.Denotes feeds v t)
    (hreach : ReflTransGen a.Uses v i) : ∃ u, a.Denotes feeds i u := by
  induction hreach with
  | refl => exact ⟨t, h⟩
  | tail _ huses ih =>
    obtain ⟨u, hu⟩ := ih
    obtain ⟨n, hn, ho⟩ := huses
    cases hwf.node hn with
    | constant | feed => cases ho
    | primitive =>
      obtain ⟨ts, hoperands, -⟩ := (denotes_iff hn).mp hu
      obtain ⟨w, -, hw⟩ := forall₂_of_mem hoperands ho
      exact ⟨w, hw⟩

/-! ## Evaluation -/

/-- Every marked node before `i` has its value. -/
structure Evaluated (a : Artifact) (feeds : Feeds) (marks : Array Bool) (i : Nat) (values : Array (Option Tensor)) :
    Prop where
  size : values.size = a.nodes.size
  value : ∀ {j}, j < i → Marked marks j → ∃ t, values[j]? = some (some t) ∧ a.Denotes feeds j t

theorem Evaluated.skip {i : Nat} (h : a.Evaluated feeds marks i values) (hmark : marks[i]? = some false) :
    a.Evaluated feeds marks (i + 1) values where
  size := h.size
  value := by
    intro j hj hm
    rcases Nat.lt_succ_iff_lt_or_eq.mp hj with hlt | rfl
    · exact h.value hlt hm
    · rw [Marked, hmark] at hm
      cases hm

theorem Evaluated.set {i : Nat} {t : Tensor} (h : a.Evaluated feeds marks i values) (ht : a.Denotes feeds i t) :
    a.Evaluated feeds marks (i + 1) (values.setIfInBounds i (some t)) where
  size := Array.size_setIfInBounds.trans h.size
  value := by
    intro j hj hm
    rw [Array.getElem?_setIfInBounds]
    by_cases hij : i = j
    · subst hij
      obtain ⟨n, hn⟩ := denotes_node ht
      have hlt : i < values.size := h.size ▸ (Array.getElem?_eq_some_iff.mp hn).1
      exact ⟨t, by simp [hlt], ht⟩
    · rw [if_neg hij]
      exact h.value (by omega) hm

/-- The operands of a marked node are marked and stand before it. -/
theorem operands_evaluated (ha : a.Ordered) (hmarks : a.Marks fetches marks) {i : Nat} {n : GraphNode}
    (h : a.Evaluated feeds marks i values) (hn : a.nodes[i]? = some n) (hm : Marked marks i) :
    ∃ ts, n.operands.mapM (operandValue values i) = .ok ts ∧ List.Forall₂ (a.Denotes feeds) n.operands ts := by
  have hall : ∀ o ∈ n.operands, ∃ t, operandValue values i o = .ok t ∧ a.Denotes feeds o t := by
    intro o ho
    obtain ⟨t, ht, hdenotes⟩ := h.value (ha i n hn o ho) (hmarks.closed hm ⟨n, hn, ho⟩)
    exact ⟨t, operandValue_ok.mpr ht, hdenotes⟩
  obtain ⟨ts, hts⟩ := forall₂_exists hall
  exact ⟨ts, Outcome.mapM_ok.mpr (hts.imp fun _ _ h => h.1), hts.imp fun _ _ h => h.2⟩

/-- A node is evaluated to what it denotes. -/
theorem nodeValue_iff (ha : a.Ordered) (hmarks : a.Marks fetches marks) {i : Nat} {n : GraphNode}
    (h : a.Evaluated feeds marks i values) (hn : a.nodes[i]? = some n) (hm : Marked marks i) {t : Tensor}
    (tally : Tally) : ((nodeValue a.kernels feeds values i n).runOn tally).1 = .ok t ↔
      a.Denotes feeds i t := by
  rw [denotes_iff hn, Effect.ok_iff]
  unfold nodeValue
  rcases n.op with u | name | p
  · simp [eq_comm]
  · simp
  · obtain ⟨ts, hrun, hts⟩ := operands_evaluated ha hmarks h hn hm
    simp only [hrun]
    constructor
    · intro ⟨tally', hvalue⟩
      obtain ⟨ts', _, hrun', hvalue⟩ := Effect.bind_ok.mp hvalue
      cases hrun'
      exact ⟨ts, hts, (Kernels.evaluate_ok.mp hvalue).2⟩
    · intro ⟨ts', hts', hexecute⟩
      have hunique : Relator.RightUnique (a.Denotes feeds) := fun _ _ _ => Denotes.unique
      obtain rfl : ts = ts' := List.right_unique_forall₂' hunique hts hts'
      exact ⟨_, Effect.bind_ok.mpr ⟨ts, tally, rfl, Kernels.evaluate_ok.mpr ⟨rfl, hexecute⟩⟩⟩

/-- A run finds the values of all nodes that are marked, or fails where one of these does. -/
theorem evaluate_means (ha : a.Ordered) (hmarks : a.Marks fetches marks) {E : GraphError → Prop}
    (herror : ∀ {i : Nat} {n values tally e}, a.nodes[i]? = some n → Marked marks i → a.Evaluated feeds marks i values →
      ((nodeValue a.kernels feeds values i n).runOn tally).1 = .error e → E e) (tally : Tally) :
    ((a.evaluateAll feeds marks).runOn tally).1.Ends (a.Evaluated feeds marks a.nodes.size) E := by
  have hstart : a.Evaluated feeds marks 0 (Array.replicate a.nodes.size none) :=
    ⟨Array.size_replicate, fun hj => absurd hj (Nat.not_lt_zero _)⟩
  have hsize := hmarks.size
  have hthere : ∀ {i : Nat} {n}, a.nodes[i]? = some n → marks[i]? = none →
      E (.fault (.indexOutOfRange marks.size i)) := by
    intro i n hn hmark
    have hlt := (Array.getElem?_eq_some_iff.mp hn).1
    have hout := Array.getElem?_eq_none_iff.mp hmark
    omega
  refine evaluateAll_along hthere (fun h hmark => h.skip hmark) (fun {i values n} tally h hn hm => ?_) hstart tally
  rcases hvalue : ((nodeValue a.kernels feeds values i n).runOn tally).1 with e | t
  · exact herror hn hm h hvalue
  · exact h.set ((nodeValue_iff ha hmarks h hn hm tally).mp hvalue)

/-! ## Fetched values -/

theorem target_node {p : Placeholder} {v : Nat} : a.target feeds p = .ok (.node v) ↔ a.valueOf? p = some v := by
  unfold target
  rcases a.valueOf? p with _ | w
  · rcases p.source with name | ⟨i, k⟩
    · by_cases hgraph : p.graph = a.graph
      · rcases hread : feeds.read name p.spec with e | t <;> simp [hgraph, hread, Functor.map, Except.map]
      · simp [hgraph]
    · simp
  · simp

/-- What is found at a target. -/
def Gives (a : Artifact) (feeds : Feeds) : Target → Tensor → Prop
  | .node v, t => a.Denotes feeds v t
  | .fed u, t => u = t

theorem means_iff {p : Placeholder} {t : Tensor} :
    a.Means feeds p t ↔ ∃ target, a.target feeds p = .ok target ∧ a.Gives feeds target t := by
  constructor
  · intro h
    cases h with
    | @node v _ hv ht => exact ⟨.node v, target_node.mpr hv, ht⟩
    | fed hnone hsource hgraph hread =>
      refine ⟨.fed t, ?_, rfl⟩
      simp only [target, hnone, hsource, hgraph, if_true, hread]
      rfl
  · intro ⟨target, htarget, ht⟩
    cases target with
    | node v => exact .node (target_node.mp htarget) ht
    | fed u =>
      cases ht
      unfold Artifact.target at htarget
      split at htarget
      · cases htarget
      · next hnone =>
        split at htarget
        · next name hsource =>
          split at htarget
          · next hgraph =>
            obtain ⟨_, hread, ⟨⟩⟩ := Outcome.map_ok.mp htarget
            exact .fed hnone hsource hgraph hread
          · cases htarget
        · cases htarget

theorem target_node? {p : Placeholder} {target : Target} (h : a.target feeds p = .ok target) :
    target.node? = a.valueOf? p := by
  rcases hv : a.valueOf? p with _ | v
  · cases target with
    | node v =>
      rw [target_node.mp h] at hv
      cases hv
    | fed t => rfl
  · obtain rfl := Except.ok.inj (h.symm.trans (target_node.mpr hv))
    rfl

/-- Targets name the nodes behind the placeholders. -/
theorem asked_of_targets {targets : List Target}
    (h : List.Forall₂ (fun p target => a.target feeds p = .ok target) fetches targets) :
    targets.filterMap Target.node? = a.asked fetches := by
  unfold asked
  induction h with
  | nil => rfl
  | cons htarget _ ih => rw [List.filterMap_cons, List.filterMap_cons, target_node? htarget, ih]

theorem mem_asked {targets : List Target}
    (h : List.Forall₂ (fun p target => a.target feeds p = .ok target) fetches targets) {target : Target}
    (htarget : target ∈ targets) {v : Nat} (hv : target.node? = some v) : v ∈ a.asked fetches :=
  asked_of_targets h ▸ List.mem_filterMap.mpr ⟨target, htarget, hv⟩

/-- A run finds its targets, marks what they depend on, evaluates that, and looks the targets up. -/
theorem execute_marks (ha : a.Ordered) (hleads : a.Leads fetches) :
    ∃ marks, a.Marks fetches marks ∧ ∀ (feeds : Feeds) (tally : Tally), (a.execute fetches feeds).runOn tally =
      (Effect.ofOutcome (fetches.mapM (a.target feeds)) >>= fun targets =>
        a.evaluateAll feeds marks >>= fun values => Effect.ofOutcome (targets.mapM (fetched values))).runOn tally := by
  obtain ⟨marks, hneeded, hmarks⟩ := needed_marks ha hleads
  refine ⟨marks, hmarks, fun feeds tally => ?_⟩
  simp only [execute, Effect.runOn_bind, Effect.runOn_ofOutcome]
  rcases htargets : fetches.mapM (a.target feeds) with e | targets
  · rfl
  · simp only [asked_of_targets (Outcome.mapM_ok.mp htargets), hneeded]

section Fetched

variable {targets : List Target} (hleads : a.Leads fetches) (hmarks : a.Marks fetches marks)
  (hvalues : a.Evaluated feeds marks a.nodes.size values)
  (htargets : List.Forall₂ (fun p target => a.target feeds p = .ok target) fetches targets)

include hleads hmarks hvalues htargets

/-- The nodes that are asked for are evaluated. -/
theorem target_evaluated {v : Nat} (hv : .node v ∈ targets) :
    ∃ t, values[v]? = some (some t) ∧ a.Denotes feeds v t := by
  have hasked : v ∈ a.asked fetches := mem_asked htargets hv rfl
  exact hvalues.value (hleads v hasked) (hmarks.asked hasked)

/-- What is found at the targets once what they depend on is evaluated. -/
theorem fetched_gives {ts : List Tensor} :
    targets.mapM (fetched values) = .ok ts ↔ List.Forall₂ (a.Gives feeds) targets ts := by
  rw [Outcome.mapM_ok]
  refine forall₂_congr fun target htarget t => ?_
  cases target with
  | fed u => simp [fetched, Gives]
  | node v =>
    obtain ⟨u, hu, hdenotes⟩ := target_evaluated hleads hmarks hvalues htargets htarget
    rw [fetched_ok, hu]
    simp only [Gives, Option.some.injEq]
    constructor
    · intro heq
      exact heq ▸ hdenotes
    · intro h
      exact hdenotes.unique h

/-- Something is. -/
theorem fetched_something : ∃ ts, targets.mapM (fetched values) = .ok ts := by
  have hall : ∀ target ∈ targets, ∃ t, a.Gives feeds target t := by
    intro target htarget
    cases target with
    | fed u => exact ⟨u, rfl⟩
    | node v =>
      obtain ⟨t, -, ht⟩ := target_evaluated hleads hmarks hvalues htargets htarget
      exact ⟨t, ht⟩
  obtain ⟨ts, hts⟩ := forall₂_exists hall
  exact ⟨ts, (fetched_gives hleads hmarks hvalues htargets).mpr hts⟩

end Fetched

/-- Where everything that is fetched has a value, so has everything it needs. -/
theorem denotes_marked (hwf : a.extend.WellFormed declared) {ts : List Tensor}
    (hmarks : a.Marks fetches marks) (h : List.Forall₂ (a.Means feeds) fetches ts) {i : Nat} (hi : Marked marks i) :
    ∃ t, a.Denotes feeds i t := by
  obtain ⟨v, hv, hreach⟩ := (hmarks.marked i).mp hi
  obtain ⟨p, hp, hpv⟩ := List.mem_filterMap.mp hv
  obtain ⟨t, -, hmeans⟩ := forall₂_of_mem h hp
  cases hmeans with
  | node hv' ht =>
    obtain rfl := Option.some.inj (hpv.symm.trans hv')
    exact denotes_behind hwf ht hreach
  | fed hnone =>
    rw [hpv] at hnone
    cases hnone

/-- A run succeeds if and only if everything that is fetched has a value, and returns these values. -/
theorem execute_iff (hwf : a.extend.WellFormed declared) (hleads : a.Leads fetches)
    {ts : List Tensor} :
    ((a.execute fetches feeds).runOn tally).1 = .ok ts ↔ List.Forall₂ (a.Means feeds) fetches ts := by
  have ha := ordered_of_wellFormed hwf
  obtain ⟨marks, hmarks, hrun⟩ := execute_marks ha hleads
  have hends : ((a.evaluateAll feeds marks).runOn tally).1.Ends (a.Evaluated feeds marks a.nodes.size)
      fun _ => ∃ i, Marked marks i ∧ ∀ t, ¬ a.Denotes feeds i t := by
    refine evaluate_means ha hmarks (fun {i n values tally e} hn hm h hvalue => ?_) tally
    refine ⟨i, hm, fun t ht => ?_⟩
    rw [(nodeValue_iff ha hmarks h hn hm tally).mpr ht] at hvalue
    cases hvalue
  rw [hrun]
  constructor
  · intro h
    obtain ⟨tally', h⟩ := Effect.ok_iff.mp h
    obtain ⟨targets, _, htargets, h⟩ := Effect.bind_ok.mp h
    obtain ⟨values, _, hvalues, hfetched⟩ := Effect.bind_ok.mp h
    simp only [Effect.runOn_ofOutcome, Prod.mk.injEq] at htargets hfetched
    obtain ⟨htargets, rfl⟩ := htargets
    rw [hvalues] at hends
    have hfound := Outcome.mapM_ok.mp htargets
    have hgives := (fetched_gives hleads hmarks hends hfound).mp hfetched.1
    exact forall₂_comp hfound hgives fun p target t htarget ht => means_iff.mpr ⟨target, htarget, ht⟩
  · intro h
    obtain ⟨targets, hfound, hgives⟩ := forall₂_split (h.imp fun _ _ => means_iff.mp)
    rw [Effect.runOn_bind, Effect.runOn_ofOutcome, Outcome.mapM_ok.mpr hfound]
    dsimp only
    rw [Effect.runOn_bind]
    rcases hvalues : (a.evaluateAll feeds marks).runOn tally with ⟨e | values, tally'⟩
    · rw [hvalues] at hends
      obtain ⟨i, hi, hnone⟩ := hends
      obtain ⟨t, ht⟩ := denotes_marked hwf hmarks h hi
      exact absurd ht (hnone t)
    · rw [hvalues] at hends
      exact (fetched_gives hleads hmarks hends hfound).mpr hgives

end ComponentFlow.Artifact
