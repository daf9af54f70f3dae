/-
  ComponentFlow.Proofs.Staging — staging a method for values that are known. While a body runs at
  once on tensors it can be staged on a plan beside, every node of which is given its value: what is
  a tensor there is a tensor here, or the symbol of a node with that value (`Lockstep.staged`).
  Inference on the plan says no more than inference on the tensors, so that it fails nowhere else.
-/
import ComponentFlow.Proofs.Inference
import ComponentFlow.Proofs.Meaning
import ComponentFlow.Proofs.Plan

namespace ComponentFlow

/-! ## Plans with values -/

/-- The value of a node, given those of all nodes. -/
inductive GraphNode.Yields (k : Kernels) (feeds : Feeds) (values : List Tensor) : GraphNode → Tensor → Prop
  | constant {t operands spec} : Yields k feeds values ⟨.constant t, operands, spec⟩ t
  | feed {name operands spec t} : feeds.read name spec = .ok t → Yields k feeds values ⟨.feed name, operands, spec⟩ t
  | primitive {p operands spec ts t} : List.Forall₂ (fun (o : Nat) t => values[o]? = some t) operands ts →
      k.execute p ts = .ok t → spec.admits t = true → Yields k feeds values ⟨.primitive p, operands, spec⟩ t

/-- A plan, and a value for each of its nodes. -/
structure Valuation where
  plan : Plan
  values : List Tensor

namespace Valuation

variable {declared : Declared} {k : Kernels} {feeds : Feeds} {w w' w'' : Valuation}

/-- Nodes are only added, with their values. -/
structure Grows (w w' : Valuation) : Prop where
  plan : w.plan.Grows w'.plan
  values : w.values <+: w'.values

theorem Grows.refl (w : Valuation) : w.Grows w := ⟨.refl _, List.prefix_refl _⟩

theorem Grows.trans (h : w.Grows w') (h' : w'.Grows w'') : w.Grows w'' :=
  ⟨h.plan.trans h'.plan, h.values.trans h'.values⟩

theorem Grows.value (h : w.Grows w') {i : Nat} {t : Tensor} (hi : w.values[i]? = some t) : w'.values[i]? = some t :=
  getElem?_of_isPrefix h.values hi

/-- The plan is well formed, and the values are those of its nodes. -/
structure Sound (declared : Declared) (k : Kernels) (feeds : Feeds) (w : Valuation) : Prop where
  wellFormed : w.plan.WellFormed declared
  size : w.values.length = w.plan.nodes.size
  node : ∀ (i : Nat) n, w.plan.nodes[i]? = some n → ∃ t, w.values[i]? = some t ∧ n.Yields k feeds w.values t

theorem Yields.grow {n : GraphNode} {t : Tensor} (h : n.Yields k feeds w.values t) (hgrows : w.Grows w') :
    n.Yields k feeds w'.values t := by
  cases h with
  | constant => exact .constant
  | feed hread => exact .feed hread
  | primitive hoperands hexecute hadmits =>
    exact .primitive (hoperands.imp fun _ _ => hgrows.value) hexecute hadmits

/-- One more node, and its value. -/
theorem Sound.extend (h : w.Sound declared k feeds) {P : Plan} {n : GraphNode} {t : Tensor} (hplan : w.plan.Grows P)
    (hwf : P.WellFormed declared) (hnodes : P.nodes = w.plan.nodes.push n) (hn : n.Yields k feeds w.values t) :
    w.Grows ⟨P, w.values ++ [t]⟩ ∧ Sound declared k feeds ⟨P, w.values ++ [t]⟩ ∧
      (w.values ++ [t])[w.plan.nodes.size]? = some t := by
  have hgrows : w.Grows ⟨P, w.values ++ [t]⟩ := ⟨hplan, List.prefix_append _ _⟩
  have hlast : (w.values ++ [t])[w.plan.nodes.size]? = some t := by simp [← h.size]
  refine ⟨hgrows, ⟨hwf, by simp [hnodes, h.size], fun i m hm => ?_⟩, hlast⟩
  simp only [hnodes, Array.getElem?_push] at hm
  split at hm
  · next hi =>
    cases hm
    exact ⟨t, hi ▸ hlast, Yields.grow hn hgrows⟩
  · obtain ⟨u, hu, hyields⟩ := h.node i m hm
    exact ⟨u, hgrows.value hu, Yields.grow hyields hgrows⟩

/-- The values are what the nodes of the artifact denote. -/
theorem Sound.denotes {a : Artifact} {values : List Tensor} (h : Sound declared a.kernels feeds ⟨a.extend, values⟩)
    {i : Nat} {t : Tensor} (ht : values[i]? = some t) : a.Denotes feeds i t := by
  induction i using Nat.strongRecOn generalizing t with
  | _ i ih =>
    have hlt : i < a.nodes.size := h.size ▸ (List.getElem?_eq_some_iff.mp ht).1
    have hn : a.nodes[i]? = some a.nodes[i] := Array.getElem?_eq_getElem hlt
    obtain ⟨u, hu, hyields⟩ := h.node i _ hn
    obtain rfl : t = u := Option.some.inj (ht.symm.trans hu)
    have hbefore := Artifact.ordered_of_wellFormed h.wellFormed i _ hn
    rw [Artifact.denotes_iff hn]
    generalize a.nodes[i] = n at hyields hbefore
    cases hyields with
    | constant => rfl
    | feed hread => exact hread
    | primitive hoperands hexecute hadmits =>
      refine ⟨_, forall₂_of_getElem? hoperands.length_eq fun ho hu => ?_, hexecute, hadmits⟩
      obtain ⟨u', hu', hvalue⟩ := forall₂_getElem? hoperands ho
      obtain rfl := Option.some.inj (hu.symm.trans hu')
      exact ih _ (hbefore _ (List.mem_of_getElem? ho)) hvalue

/-- What is fetched is the value of the node behind it. -/
theorem Sound.execute {a : Artifact} {values : List Tensor} (h : Sound declared a.kernels feeds ⟨a.extend, values⟩)
    {fetches : List Placeholder} {ts : List Tensor}
    (hts : List.Forall₂ (fun p t => ∃ i : Nat, a.valueOf? p = some i ∧ values[i]? = some t) fetches ts)
    (tally : Tally) : ((a.execute fetches feeds).runOn tally).1 = .ok ts := by
  have hleads : a.Leads fetches := by
    intro v hv
    obtain ⟨p, hp, hpv⟩ := List.mem_filterMap.mp hv
    obtain ⟨t, -, i, hi, ht⟩ := forall₂_of_mem hts hp
    obtain rfl := Option.some.inj (hpv.symm.trans hi)
    exact h.size ▸ (List.getElem?_eq_some_iff.mp ht).1
  refine (Artifact.execute_iff h.wellFormed hleads).mpr (hts.imp fun p t hp => ?_)
  obtain ⟨i, hi, ht⟩ := hp
  exact .node hi (h.denotes ht)

/-! ## Symbols with values -/

/-- A symbol names a node that has this value. -/
structure Denotes (w : Valuation) (s : Symbol) (t : Tensor) : Prop where
  has : w.plan.Has s
  value : w.values[s.value]? = some t
  admits : s.spec.admits t = true

theorem Denotes.grow {s : Symbol} {t : Tensor} (h : w.Denotes s t) (hgrows : w.Grows w') : w'.Denotes s t :=
  ⟨hgrows.plan.has h.has, hgrows.value h.value, h.admits⟩

/-- What is a concrete value at once, and what it is while staging. -/
inductive Stages (w : Valuation) : Value → Value → Prop
  | tensor (t : Tensor) : Stages w (.tensor t) (.tensor t)
  | symbol {t : Tensor} {s : Symbol} : w.Denotes s t → Stages w (.tensor t) (.symbol s)
  | absent : Stages w .absent .absent

theorem Stages.grow {v v' : Value} (h : w.Stages v v') (hgrows : w.Grows w') : w'.Stages v v' := by
  cases h with
  | tensor t => exact .tensor t
  | symbol h => exact .symbol (h.grow hgrows)
  | absent => exact .absent

theorem Stages.covered {v v' : Value} (h : w.Stages v v') : CoveredBy v.spec? v'.spec? := by
  cases h with
  | tensor t => exact .present (TensorSpec.covers_refl _)
  | symbol h => exact .present (TensorSpec.admits_iff_covers.mp h.admits)
  | absent => exact .absent

theorem Stages.dtype {v v' : Value} (h : w.Stages v v') : Body.dtypeOf v = Body.dtypeOf v' := by
  cases h with
  | tensor t => rfl
  | symbol h => exact (TensorSpec.admits_iff_covers.mp h.admits).1.symm
  | absent => rfl

theorem Stages.absence {v v' : Value} (h : w.Stages v v') : v.isAbsent = v'.isAbsent := by
  cases h <;> rfl

end Valuation

/-- Values at once on one side, a plan with the same values on the other. -/
def Coupling.staged (declared : Declared) (k : Kernels) (feeds : Feeds) : Coupling Tally Plan where
  World := Valuation
  Grows := Valuation.Grows
  refl := Valuation.Grows.refl
  trans := Valuation.Grows.trans
  Holds w _ P := P = w.plan ∧ w.Sound declared k feeds

namespace Plan

variable {declared : Declared} {k : Kernels} {feeds : Feeds} {w : Valuation}

/-- A tensor is staged as a constant. -/
theorem constant_staged (t : Tensor) : (Coupling.staged declared k feeds).Follows w (pure t) (constant t)
    fun w' t s => w'.Denotes s t := by
  intro tally P hholds u tally' hrun
  obtain ⟨rfl, hsound⟩ := hholds
  cases hrun
  obtain ⟨hgrows, hsound', hvalue⟩ := hsound.extend (grows_append _ _)
    (hsound.wellFormed.append (.constant t)) rfl (.constant (t := t))
  exact ⟨_, _, _, hgrows, push_runOn _ _ _ _, ⟨rfl, hsound'⟩, has_append _ _, hvalue, TensorSpec.admits_self t⟩

/-- An input is staged as the value that it will be fed. -/
theorem feed_staged {name : String} {spec : TensorSpec} (hspec : declared.lookup name = some spec) {t : Tensor}
    (ht : feeds.read name spec = .ok t) : (Coupling.staged declared k feeds).Follows w (pure t) (feed name spec)
      fun w' t s => w'.Denotes s t := by
  intro tally P hholds u tally' hrun
  obtain ⟨rfl, hsound⟩ := hholds
  cases hrun
  have hadmits : spec.admits t = true := Feeds.read_admits ht
  unfold feed
  simp only [Effect.runOn_bind, Effect.runOn_get]
  rcases hfeed : w.plan.feeds.lookup name with _ | i
  · obtain ⟨hgrows, hsound', hvalue⟩ := hsound.extend (grows_appendFeed _ name spec)
      (hsound.wellFormed.appendFeed hspec hfeed) rfl (.feed ht)
    exact ⟨_, ⟨w.plan.nodes.size, spec⟩, w.plan.appendFeed name spec, hgrows, rfl, ⟨rfl, hsound'⟩,
      has_append _ _, hvalue, hadmits⟩
  · obtain ⟨spec', hspec', hnode⟩ := hsound.wellFormed.feed hfeed
    obtain rfl : spec = spec' := Option.some.inj (hspec.symm.trans hspec')
    have hhas : w.plan.Has ⟨i, spec⟩ := by simp [Has, spec?, hnode]
    simp only [Option.bind_some, hhas.symbol, Effect.runOn_pure]
    obtain ⟨u, hu, hyields⟩ := hsound.node i _ hnode
    cases hyields with
    | feed hread =>
      obtain rfl : t = u := by simpa [ht] using hread
      exact ⟨w, _, _, .refl w, rfl, ⟨rfl, hsound⟩, hhas, hu, hadmits⟩

theorem operand_staged (p : Primitive) {t : Tensor} {v : Value} (h : w.Stages (.tensor t) v) :
    (Coupling.staged declared k feeds).Follows w (pure t) (operand p v) fun w' t s => w'.Denotes s t := by
  cases h with
  | tensor => exact constant_staged t
  | symbol h => exact Coupling.follows_pure h

/-- A primitive is staged on operands wherever it can be evaluated on their values. -/
theorem primitive_staged {p : Primitive} {ts : List Tensor} {ss : List Symbol}
    (h : List.Forall₂ (fun t s => w.Denotes s t) ts ss) {spec : TensorSpec}
    (hspec : p.infer (ts.map Tensor.spec) = .ok spec) {t : Tensor} (hexecute : k.execute p ts = .ok t)
    (hadmits : spec.admits t = true) : (Coupling.staged declared k feeds).Follows w (pure t) (primitive p ss)
      fun w' t s => w'.Denotes s t := by
  intro tally P hholds u tally' hrun
  obtain ⟨rfl, hsound⟩ := hholds
  cases hrun
  have hcovers : List.Forall₂ TensorSpec.Covers (ss.map Symbol.spec) (ts.map Tensor.spec) :=
    List.forall₂_map_left_iff.mpr (List.forall₂_map_right_iff.mpr
      (h.flip.imp fun _ _ hs => TensorSpec.admits_iff_covers.mp hs.admits))
  obtain ⟨spec', hspec', hcovers'⟩ := Primitive.infer_covers hcovers hspec
  have hadmits' : spec'.admits t = true := TensorSpec.admits_of_covers hcovers' hadmits
  have hnode : NodeSound declared w.plan w.plan.nodes.size ⟨.primitive p, ss.map Symbol.value, spec'⟩ := by
    refine .primitive ?_ hspec'
    refine List.forall₂_map_left_iff.mpr (List.forall₂_map_right_iff.mpr (List.forall₂_same.mpr fun s hs => ?_))
    obtain ⟨u, -, hdenotes⟩ := forall₂_of_mem h.flip hs
    exact ⟨lt_of_spec hdenotes.has, hdenotes.has⟩
  have hyields : GraphNode.Yields k feeds w.values ⟨.primitive p, ss.map Symbol.value, spec'⟩ t :=
    .primitive (List.forall₂_map_left_iff.mpr (h.flip.imp fun _ _ hs => hs.value)) hexecute hadmits'
  obtain ⟨hgrows, hsound', hvalue⟩ := hsound.extend (grows_append _ _) (hsound.wellFormed.append hnode) rfl hyields
  refine ⟨_, ⟨w.plan.nodes.size, spec'⟩, _, hgrows, ?_, ⟨rfl, hsound'⟩, has_append _ _, hvalue, hadmits'⟩
  exact Effect.bind_ok.mpr ⟨spec', w.plan, by simp [Outcome.ofShape_ok.mpr hspec'], push_runOn _ _ _ _⟩

/-- Applying a primitive at once and staging it; the operands are staged first. -/
theorem apply_staged (p : Primitive) {vs vs' : List Value} (h : List.Forall₂ w.Stages vs vs') :
    (Coupling.staged declared k feeds).Follows w ((Handler.immediate k).apply p vs) (Handler.symbolic.apply p vs')
      Valuation.Stages := by
  intro tally P hholds v tally' hrun
  obtain ⟨ts, spec, t, rfl, hspec, hexecute, hadmits, rfl, -⟩ := Handler.immediate_ok.mp hrun
  have hstaged : (Coupling.staged declared k feeds).Follows w (pure ts) (vs'.mapM (operand p))
      fun w' => List.Forall₂ fun t s => w'.Denotes s t :=
    Coupling.follows_each (fun _ _ _ _ hgrows h => h.grow hgrows) (List.forall₂_map_left_iff.mp h)
      fun w' t v hgrows hv => operand_staged p (hv.grow hgrows)
  obtain ⟨w₁, ss, P₁, hgrows₁, hoperands, hholds₁, hss⟩ := hstaged tally P hholds ts tally rfl
  obtain ⟨w₂, s, P₂, hgrows₂, hprimitive, hholds₂, hs⟩ :=
    primitive_staged hss hspec hexecute hadmits tally P₁ hholds₁ t tally rfl
  refine ⟨w₂, .symbol s, P₂, hgrows₁.trans hgrows₂, ?_, hholds₂, .symbol hs⟩
  exact Effect.bind_ok.mpr ⟨ss, P₁, hoperands, Effect.bind_ok.mpr ⟨s, P₂, hprimitive, rfl⟩⟩

end Plan

/-- Methods at once on values, and staged on a plan with the same values. -/
def Lockstep.staged (declared : Declared) (k : Kernels) (feeds : Feeds) :
    Lockstep (Coupling.staged declared k feeds) (Handler.immediate k) Handler.symbolic where
  Rel := Valuation.Stages
  lasting := fun _ _ _ _ hgrows h => h.grow hgrows
  absent := fun _ => .absent
  tensor := fun _ t => .tensor t
  dtype := fun h => h.dtype
  absence := fun h => h.absence
  apply := fun p _ _ h => Plan.apply_staged p h
  Permits m := m.plain = true
  foreign := fun hm hp => absurd hp (Method.not_foreign hm)
  check := by
    intro m w scope ins ins' outs outs' hm hins houts hcheck
    refine Signature.checkOutputs_covered (Method.ruled_of_plain hm) ?_ (houts.imp fun _ _ h => h.covered) hcheck
    exact List.forall₂_map_left_iff.mpr (List.forall₂_map_right_iff.mpr (hins.imp fun _ _ h => h.covered))

/-- A call that gives something at once is staged with what it gives. -/
theorem Tree.invoke_staged {declared : Declared} {k : Kernels} {feeds : Feeds} {w : Valuation} {t : Tree}
    (ht : t.plain = true) {id : NodeId} {name : String} {vs vs' : List Value} {o : Outputs}
    (hgives : t.Gives k id name vs o) (h : List.Forall₂ w.Stages vs vs') :
    (Coupling.staged declared k feeds).Follows w (pure o) (t.invoke .symbolic id name vs')
      fun w' o o' => List.Forall₂ w'.Stages o.values o'.values := by
  intro tally P hholds o' tally' hrun
  cases hrun
  obtain ⟨tally₁, hinvoke⟩ := hgives tally
  obtain ⟨w', o', P', hgrows, hrun, hholds', ho⟩ := Lockstep.invoke_follows (l := .staged declared k feeds)
    (fun _ _ _ hm => Tree.plain_method ht hm) id name h tally P hholds o tally₁ hinvoke
  exact ⟨w', o', P', hgrows, hrun, hholds', ho.2⟩

end ComponentFlow
