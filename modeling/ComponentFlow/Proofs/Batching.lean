/-
  ComponentFlow.Proofs.Batching — policies evaluate states independently of how these are batched. Layers hand
  on tensors whose rows come from single rows, whatever the layers are and however stacks of them are nested;
  their contracts name the axis over the rows, so they hold of all batches or of none. From layers this
  goes on to stacks by induction on how a network is made (`Layers.DenseNetwork.rowwise`), and from networks to
  the scores and the actions of a policy (`Policy.batches_apart`).

  - `Layers.DenseNetwork`: dense layers, and networks stacked of such.
-/
import ComponentFlow.Proofs.Choosing
import ComponentFlow.Proofs.Rowwise
import ComponentFlow.Proofs.Stacking

namespace ComponentFlow

/-- A primitive that is evaluated on all three batches, or fails on all three, is applied to all or to none. -/
theorem Handler.apply_rowwise {p : Primitive} (hp : p.bounded = true) {m q : Nat} {rest : List Nat}
    {xs ys zs : List Tensor}
    (h : AllOrNone (Tensor.Stacks m q rest) (Kernel.execute p xs) (Kernel.execute p ys) (Kernel.execute p zs)) :
    AllOrNone (Value.Stacks m q rest) ((Handler.immediate .reference).apply p (xs.map .tensor)).outcome
      ((Handler.immediate .reference).apply p (ys.map .tensor)).outcome
      ((Handler.immediate .reference).apply p (zs.map .tensor)).outcome := by
  have happlied : ∀ ts v, ((Handler.immediate .reference).apply p (ts.map .tensor)).outcome = .ok v ↔
      ∃ t, Kernel.execute p ts = .ok t ∧ True ∧ v = .tensor t := by
    intro ts v
    rw [Handler.reference_ok hp]
    constructor
    · rintro ⟨ts', t, hts, ht, hv⟩
      obtain rfl : ts = ts' := List.map_injective_iff.mpr (fun _ _ heq => Value.tensor.inj heq) hts
      exact ⟨t, ht, trivial, hv⟩
    · rintro ⟨t, ht, -, hv⟩
      exact ⟨ts, t, rfl, ht, hv⟩
  exact h.restrict (happlied xs) (happlied ys) (happlied zs) (fun _ => ⟨Iff.rfl, Iff.rfl⟩) .tensors

/-! ## Contracts -/

/-- A spec with a named axis over the rows is met by a batch exactly if it is met by parts of it. -/
theorem Value.Stacks.meets {m q : Nat} {rest : List Nat} {a b c : Value} (h : Stacks m q rest a b c) (dtype : DType)
    (symbol : String) (dims : List Dim) :
    (Meets (some ⟨dtype, .named symbol :: dims⟩) a.spec? ↔ Meets (some ⟨dtype, .named symbol :: dims⟩) c.spec?) ∧
      (Meets (some ⟨dtype, .named symbol :: dims⟩) b.spec? ↔ Meets (some ⟨dtype, .named symbol :: dims⟩) c.spec?) := by
  have hmeets : ∀ {t : Tensor} {n : Nat}, t.shape.dims = n :: rest →
      (Meets (some ⟨dtype, .named symbol :: dims⟩) (Value.tensor t).spec? ↔
        dtype = t.dtype ∧ Dim.allCompatible dims (rest.map .fixed) = true) := by
    intro t n ht
    have hspec : (Value.tensor t).spec? = some ⟨t.dtype, .fixed n :: rest.map .fixed⟩ := by
      simp only [spec?, Tensor.spec, TensorSpec.ofShape, ht, List.map_cons]
    simp [hspec, meets_present, TensorSpec.compatible, Dim.allCompatible, Dim.compatible]
  cases h with
  | tensors h =>
    rw [hmeets h.upper, hmeets h.lower, hmeets h.both, h.dtype_upper, h.dtype_lower]
    exact ⟨Iff.rfl, Iff.rfl⟩

namespace Layers

/-- The rules of dense layers and of networks stacked of them. -/
inductive Steady : OutputRule → Prop
  | like : Steady (.likeInput 0)
  | fixed (units : Nat) : Steady (.fixed ⟨.f32, [batch, .fixed units]⟩)

theorem Steady.andThen {prev next : OutputRule} (hprev : Steady prev) (hnext : Steady next) :
    Steady (prev.andThen next) := by
  cases hnext with
  | like => exact hprev
  | fixed units => exact .fixed units

/-- Three batches of rows with one axis, the last of them one behind the other. -/
def Rows (m q : Nat) (a b c : Value) : Prop := ∃ n, Value.Stacks m q [n] a b c

/-- Such a rule is kept by what comes of a batch exactly if it is kept by what comes of parts of it. -/
theorem Steady.kept {rule : OutputRule} (h : Steady rule) {m q : Nat} {x y z a b c : Value} (hins : Rows m q x y z)
    (houts : Rows m q a b c) : (rule.Kept [x.spec?] a ↔ rule.Kept [z.spec?] c) ∧
      (rule.Kept [y.spec?] b ↔ rule.Kept [z.spec?] c) := by
  obtain ⟨n, hins⟩ := hins
  obtain ⟨n', houts⟩ := houts
  cases h with
  | fixed units =>
    simp only [OutputRule.kept_fixed]
    exact houts.meets .f32 "B" [.fixed units]
  | like =>
    have hkept : ∀ {t u : Tensor} {r : Nat}, t.shape.dims = [r, n] → u.shape.dims = [r, n'] →
        (OutputRule.Kept (.likeInput 0) [(Value.tensor t).spec?] (.tensor u) ↔ t.dtype = u.dtype ∧ n = n') := by
      intro t u r ht hu
      simp [OutputRule.kept_like, Value.spec?, meets_present, TensorSpec.compatible, Tensor.spec, TensorSpec.ofShape,
        ht, hu, Dim.allCompatible, Dim.compatible]
    cases hins with
    | tensors hins =>
      cases houts with
      | tensors houts =>
        rw [hkept hins.upper houts.upper, hkept hins.lower houts.lower, hkept hins.both houts.both,
          hins.dtype_upper, hins.dtype_lower, houts.dtype_upper, houts.dtype_lower]
        exact ⟨Iff.rfl, Iff.rfl⟩

/-! ## Layers -/

section Layer

variable {t : Tree} {depth : Nat} {id : NodeId} {m q : Nat} {x y z : Value}

/-- What a layer hands on for `v`. -/
def handsOn (t : Tree) (depth : Nat) (id : NodeId) (v : Value) : Outcome Value := do
  (← t.answer .reference depth id call [v]).first

/-- Layers that hand on rows for rows, with calls nested at most `depth` deep. -/
def HandsOnRows (t : Tree) (depth : Nat) (id : NodeId) : Prop := ∀ {m q x y z}, Rows m q x y z →
  AllOrNone (Rows m q) (handsOn t depth id x) (handsOn t depth id y) (handsOn t depth id z)

/-- A layer whose body makes one value of its input, and whose contract is steady. -/
theorem handsOn_rows {a : Assembly} (h : t.Bears id a) {method : Method} {rule : OutputRule}
    (hm : a.component.method? call = some method) (hin : method.inputs = [Signature.required "x"])
    (hout : method.outputs = [⟨"y", rule⟩]) (hrule : Steady rule) {made : Value → Outcome Value}
    (hrun : ∀ v, (method.body.run (t.site .reference depth id) [v]).outcome = (do return [← made v]))
    (hmade : AllOrNone (Rows m q) (made x) (made y) (made z)) (hins : Rows m q x y z) :
    AllOrNone (Rows m q) (handsOn t (depth + 1) id x) (handsOn t (depth + 1) id y) (handsOn t (depth + 1) id z) := by
  have hanswer : ∀ v w, handsOn t (depth + 1) id v = .ok w ↔ ∃ y, made v = .ok y ∧ rule.Kept [v.spec?] y ∧ w = y := by
    intro v w
    have hins : method.completeInputs (t.displayName id) [v] = .ok [v] := by
      unfold Signature.completeInputs
      rw [hin]
      rfl
    have hcheck : ∀ y, method.checkOutputs (t.displayName id) [v.spec?] [y] = .ok () ↔ rule.Kept [v.spec?] y := by
      intro y
      rw [Signature.checkOutputs_kept, hout]
      simp
    constructor
    · intro hw
      obtain ⟨o, ho, hw⟩ := Outcome.bind_ok.mp hw
      obtain ⟨_, _, hins', hvalues, hkept, rfl⟩ := (h.answer_ok hm).mp ho
      cases hins.symm.trans hins'
      rw [hrun] at hvalues
      obtain ⟨y, hy, ⟨⟩⟩ := Outcome.bind_ok.mp hvalues
      cases hw
      exact ⟨_, hy, (hcheck _).mp hkept, rfl⟩
    · rintro ⟨_, hw, hkept, rfl⟩
      refine Outcome.bind_ok.mpr ⟨_, (h.answer_ok hm).mpr ⟨[v], [w], hins, ?_, (hcheck w).mpr hkept, rfl⟩, rfl⟩
      rw [hrun, hw]
      rfl
  exact hmade.restrict (hanswer x) (hanswer y) (hanswer z) (hrule.kept hins) fun hrows => hrows

end Layer

/-! ## Dense layers -/

section Dense

variable {config : DenseConfig} {weight : Tensor} {bias : Option Tensor}

/-- The parameters of a dense layer fit each other. -/
structure FitDense (units : Nat) (weight : Tensor) (bias : Option Tensor) : Prop where
  weight : ∃ n, weight.shape.dims = [n, units]
  bias : ∀ b ∈ bias, b.shape.dims = [units]

theorem dense_fit (config : DenseConfig) (generator : Random.Generator) :
    ∃ weight bias, dense config generator = denseOf config weight bias ∧ FitDense config.units weight bias := by
  refine ⟨_, _, rfl, ⟨config.inFeatures, rfl⟩, fun b hb => ?_⟩
  split at hb
  · cases hb
    rfl
  · cases hb

theorem denseWith_fit {activation : Activation} {c : Component} (h : denseWith weight bias activation = .ok c) :
    ∃ config : DenseConfig, c = denseOf config weight bias ∧ FitDense config.units weight bias := by
  unfold denseWith at h
  split at h
  · next n units hdims =>
    cases bias with
    | none =>
      cases h
      exact ⟨_, rfl, ⟨n, hdims⟩, fun _ hb => nomatch hb⟩
    | some b =>
      by_cases hb : b.shape.dims = [units]
      · simp only [hb, ne_eq, not_true_eq_false, if_false] at h
        cases h
        exact ⟨_, rfl, ⟨n, hdims⟩, fun b' hb' => by cases hb'; exact hb⟩
      · simp only [hb, ne_eq, not_false_eq_true, if_true] at h
        cases h
  · cases h

variable {site : Site Tally}

def biased (site : Site Tally) (bias : Option Tensor) (v : Value) : Outcome Value :=
  match bias with
  | some b => (site.handler.apply (.binary .add) [v, .tensor b]).outcome
  | none => .ok v

def activated (site : Site Tally) (op : Option UnaryOp) (v : Value) : Outcome Value :=
  match op with
  | some op => (site.handler.apply (.unary op) [v]).outcome
  | none => .ok v

/-- What a dense layer makes of `v`. -/
def denseValue (site : Site Tally) (config : DenseConfig) (weight : Tensor) (bias : Option Tensor) (v : Value) :
    Outcome Value := do
  let product ← (site.handler.apply .matMul [v, .tensor weight]).outcome
  let sum ← biased site bias product
  activated site config.activation.op? sum

theorem run_dense (h : site.Settled) (v : Value) :
    (Body.run site (.straight (.apply .matMul [.input 0, .literal weight] :: denseSteps bias config.activation)
      [.first (denseSteps bias config.activation).length]) [v]).outcome =
      (do return [← denseValue site config weight bias v]) := by
  rw [Body.outcome_run]
  unfold denseValue denseSteps biased activated
  cases bias <;> rcases config.activation.op? with _ | op
  all_goals
    simp only [Body.outcome_runSteps h, Body.outcome_runSteps_nil, Step.apply, Body.outcome_perform_apply,
      List.mapM_cons, List.mapM_nil, Frame.resolve, Frame.orBadReference, List.nil_append, List.cons_append,
      List.append_nil, List.length_nil, List.length_cons, List.getElem?_cons_zero, List.getElem?_cons_succ,
      Outcome.ok_bind, Outputs.first_cons, bind_assoc, pure_bind]

theorem denseValue_rows (h : site.handler = .immediate .reference) (hfit : FitDense config.units weight bias)
    {m q : Nat} {x y z : Value} (hrows : Rows m q x y z) : AllOrNone (Rows m q)
      (denseValue site config weight bias x) (denseValue site config weight bias y)
      (denseValue site config weight bias z) := by
  obtain ⟨⟨n, hweight⟩, hbias⟩ := hfit
  obtain ⟨k, ⟨hrows⟩⟩ := hrows
  unfold denseValue biased activated
  rw [h]
  refine (Handler.apply_rowwise rfl (Kernel.matMul_rowwise hrows hweight)).bind fun hproduct =>
    AllOrNone.bind (R := Value.Stacks m q [config.units]) ?_ fun hsum => ?_
  · cases bias with
    | none => exact .all hproduct
    | some b =>
      cases hproduct with
      | tensors hproduct => exact Handler.apply_rowwise rfl (Kernel.bias_rowwise hproduct (hbias b rfl) .add)
  · cases config.activation.op? with
    | none => exact .all ⟨_, hsum⟩
    | some op =>
      cases hsum with
      | tensors hsum => exact (Handler.apply_rowwise rfl (Kernel.unary_rowwise hsum op)).imp fun hrows => ⟨_, hrows⟩

/-- Everything that a layer needs to work on rows. -/
structure Rowwise (a : Assembly) : Prop where
  rule : ∀ {rule}, a.component.leadingRule call = .ok rule → Steady rule
  rows : ∀ {t : Tree} {id : NodeId} {title : String}, t.Bears id (a.renamed title) →
    ∀ depth, HandsOnRows t depth id

theorem handsOnRows_zero (t : Tree) (id : NodeId) : HandsOnRows t 0 id := fun _ => .none _ _ _

theorem denseOf_rowwise (name : String) (hfit : FitDense config.units weight bias) :
    Rowwise (.leaf name (denseOf config weight bias)) where
  rule := by
    intro rule hrule
    cases hrule
    exact .fixed config.units
  rows := by
    intro t id title h depth
    cases depth with
    | zero => exact handsOnRows_zero t id
    | succ depth =>
      intro m q x y z hrows
      exact handsOn_rows h rfl rfl rfl (.fixed config.units) (run_dense (t.settled_site _ depth id))
        (denseValue_rows rfl hfit hrows) hrows

end Dense

/-! ## Stacks -/

section Stacks

variable {site : Site Tally} {method : String}

/-- What enters step `i` of a stack. -/
def entering : Nat → Ref
  | 0 => .input 0
  | k + 1 => .first k

theorem stackBody_eq (method : String) (names : List String) : stackBody method names =
    .straight (names.zipIdx.map fun p => .call p.1 method [entering p.2]) [entering names.length] := by
  refine congr (congrArg Body.straight (List.map_congr_left fun p _ => ?_)) ?_
  · obtain ⟨name, i⟩ := p
    cases i <;> rfl
  · cases names.length <;> rfl

/-- What the layer of this name makes of `v`. -/
def threaded (site : Site Tally) (method : String) (v : Value) (name : String) : Outcome Value := do
  (← (site.call name method [v]).outcome).first

/-- A stack threads its input through its layers. -/
theorem run_stackBody (h : site.Settled) (names : List String) (v : Value) :
    ((stackBody method names).run site [v]).outcome = (do return [← names.foldlM (threaded site method) v]) := by
  -- What enters the next step is what the last one gave, which nothing has looked at yet.
  have hsteps : ∀ results, (do
      let later ← (Body.runSteps site [v] results
        ((names.zipIdx results.length).map fun p => .call p.1 method [entering p.2])).outcome
      [entering (results.length + names.length)].mapM (Frame.resolve ⟨[v], later⟩)) = (do
        let y ← Frame.resolve ⟨[v], results⟩ (entering results.length)
        return [← names.foldlM (threaded site method) y]) := by
    induction names with
    | nil =>
      intro results
      simp only [List.zipIdx_nil, List.map_nil, Body.outcome_runSteps_nil, Outcome.ok_bind, List.length_nil,
        Nat.add_zero, List.mapM_cons, List.mapM_nil, List.foldlM_nil, pure_bind]
    | cons name rest ih =>
      intro results
      have hlast : ∀ out, Frame.resolve ⟨[v], results ++ [out]⟩ (entering (results.length + 1)) = out.first := by
        intro out
        simp [entering, Frame.resolve, Frame.orBadReference]
      have hrest : ∀ out, _ := fun out => ih (results ++ [out])
      simp only [List.length_append, List.length_cons, List.length_nil, Nat.zero_add, hlast] at hrest
      simp only [List.zipIdx_cons, List.map_cons, Body.outcome_runSteps h, Step.call, Body.perform_call, List.mapM_cons,
        List.mapM_nil, bind_assoc, pure_bind, List.length_cons, List.foldlM_cons, threaded]
      refine bind_congr fun y => bind_congr fun out => ?_
      rw [← Nat.add_assoc, Nat.add_right_comm]
      simpa only [Step.call, List.mapM_cons, List.mapM_nil, pure_bind] using hrest out
  have hall := hsteps []
  rw [List.length_nil, Nat.zero_add] at hall
  rw [stackBody_eq, Body.outcome_run]
  exact hall

variable {t : Tree} {id : NodeId} {depth m q : Nat} {x y z : Value} {layers : List Assembly} {s s' : Stacked}

/-- Children that hand on rows, one after the other. -/
theorem threaded_rows {names : List String} (h : ∀ name ∈ names, ∃ below, t.child? id name = some below ∧
    HandsOnRows t depth below) (hrows : Rows m q x y z) : AllOrNone (Rows m q)
      (names.foldlM (threaded (t.site .reference depth id) call) x)
      (names.foldlM (threaded (t.site .reference depth id) call) y)
      (names.foldlM (threaded (t.site .reference depth id) call) z) := by
  induction names generalizing x y z with
  | nil => exact .all hrows
  | cons name rest ih =>
    obtain ⟨⟨below, hchild, hbelow⟩, hrest⟩ := List.forall_mem_cons.mp h
    have hthreaded : ∀ v, threaded (t.site .reference depth id) call v name = handsOn t depth below v := by
      intro v
      unfold threaded handsOn
      rw [Tree.outcome_call hchild]
    simp only [List.foldlM_cons, hthreaded]
    exact (hbelow hrows).bind fun hnext => ih hrest hnext

/-- Layers that work on rows, stacked so far. -/
structure Stacked.Rowwise (s : Stacked) : Prop where
  rule : Steady s.rule
  layers : ∀ part ∈ s.layers, ∃ layer name, Layers.Rowwise layer ∧ part = layer.renamed name

theorem Stacked.Rowwise.addAll (h : s.Rowwise) (hlayers : ∀ layer ∈ layers, Layers.Rowwise layer)
    (hfold : layers.foldlM (Stacked.add .network) s = .ok s') : s'.Rowwise := by
  induction layers generalizing s with
  | nil =>
    cases hfold
    exact h
  | cons layer rest ih =>
    obtain ⟨hlayer, hrest⟩ := List.forall_mem_cons.mp hlayers
    rw [List.foldlM_cons] at hfold
    obtain ⟨_, hadd, hfold⟩ := Outcome.bind_ok.mp hfold
    obtain ⟨-, rule, hrule, rfl⟩ := Stacked.add_ok.mp hadd
    refine ih ⟨h.rule.andThen (hlayer.rule hrule), ?_⟩ hrest hfold
    exact List.forall_mem_append.mpr ⟨h.layers, List.forall_mem_singleton.mpr ⟨layer, _, hlayer, rfl⟩⟩

theorem stack_rowwise {a : Assembly} (hlayers : ∀ layer ∈ layers, Rowwise layer)
    (h : stack .network layers = .ok a) (name : String) : Rowwise (a.renamed name) := by
  obtain ⟨s, hfold, rfl⟩ := stack_ok.mp h
  have hempty : ({} : Stacked).Rowwise := ⟨.like, fun _ hpart => nomatch hpart⟩
  have hstacked : s.Rowwise := hempty.addAll hlayers hfold
  refine ⟨fun hrule => ?_, fun {t id title} hbears depth => ?_⟩
  · have hown : (stackComponent .network s.rule s.names).leadingRule call = .ok s.rule :=
      leadingRule_stackComponent s.rule s.names
    cases hown.symm.trans hrule
    exact hstacked.rule
  · cases depth with
    | zero => exact handsOnRows_zero t id
    | succ depth =>
      intro m q x y z hrows
      refine handsOn_rows hbears rfl rfl rfl hstacked.rule (run_stackBody (t.settled_site _ depth id) s.names)
        (threaded_rows (fun child hchild => ?_) hrows) hrows
      obtain ⟨part, hpart, rfl⟩ := List.mem_map.mp hchild
      obtain ⟨layer, title', hlayer, rfl⟩ := hstacked.layers part hpart
      obtain ⟨below, hbelow, hpartBears⟩ := hbears.child hpart
      exact ⟨below, hbelow, hlayer.rows hpartBears depth⟩

end Stacks

/-- Dense layers with weights that are given, or drawn from any generator, and networks stacked of dense layers and of
    such networks. -/
inductive DenseNetwork : Assembly → Prop
  | drawn (name : String) (config : DenseConfig) (generator : Random.Generator) :
      DenseNetwork (.leaf name (dense config generator))
  | given (name : String) {weight : Tensor} {bias : Option Tensor} {activation : Activation} {c : Component} :
      denseWith weight bias activation = .ok c → DenseNetwork (.leaf name c)
  | stacked (name : String) {layers : List Assembly} {a : Assembly} : (∀ layer ∈ layers, DenseNetwork layer) →
      stack .network layers = .ok a → DenseNetwork (a.renamed name)

theorem DenseNetwork.rowwise {a : Assembly} (h : DenseNetwork a) : Rowwise a := by
  induction h with
  | drawn name config generator =>
    obtain ⟨weight, bias, hdense, hfit⟩ := dense_fit config generator
    exact hdense ▸ denseOf_rowwise name hfit
  | given name hgiven =>
    obtain ⟨config, rfl, hfit⟩ := denseWith_fit hgiven
    exact denseOf_rowwise name hfit
  | stacked name _ hstack ih => exact stack_rowwise ih hstack name

/-! ## Policies -/

namespace Policy

/-- The scores of two batches of states, and those of one behind the other. -/
def ScoreRows (m q : Nat) (s s' s'' : Scores) : Prop := ∃ n, Value.Stacks m q [n] s.logits s'.logits s''.logits ∧
  Value.Stacks m q [n] s.parameters s'.parameters s''.parameters ∧ Value.Stacks m q [n] s.logs s'.logs s''.logs

/-- These outputs of the last call hold those of the first call and then those of the second. Beside them there are
    only the internal states, which are absent. -/
structure OutputRows (m q : Nat) (outputs : List String) (o o' o'' : Outputs) : Prop where
  stacked : ∀ name ∈ outputs, ∃ rest a b c, o.output name = .ok a ∧ o'.output name = .ok b ∧
    o''.output name = .ok c ∧ Value.Stacks m q rest a b c
  others : ∀ r ∈ [o, o', o''], r.names = outputs ++ ["last_internal_states"] ∧
    r.output "last_internal_states" = .ok .absent

section Batches

variable {network adapter : Assembly} {t : Tree} {depth : Nat} {id : NodeId} {m q n : Nat} {x y z : Value}
  {title : String}

theorem ScoreRows.fit {s s' s'' : Scores} (h : ScoreRows m q s s' s'') (n : Nat) :
    (s.Fit n ↔ s''.Fit n) ∧ (s'.Fit n ↔ s''.Fit n) := by
  obtain ⟨_, hlogits, hparameters, hlogs⟩ := h
  have hmeets : ∀ {w a b c}, Value.Stacks m q [w] a b c → _ := fun h => h.meets .f32 "B" [.fixed n]
  simp only [Scores.Fit, List.forall_mem_cons, List.not_mem_nil, false_imp_iff, implies_true, and_true]
  exact ⟨and_congr (hmeets hlogits).1 (and_congr (hmeets hparameters).1 (hmeets hlogs).1),
    and_congr (hmeets hlogits).2 (and_congr (hmeets hparameters).2 (hmeets hlogs).2)⟩

variable (h : t.Bears id (.mk title (component n) [network.renamed networkChild, adapter.renamed adapterChild]))
  (hnetwork : Rowwise network) (hadapter : Rowwise adapter) (hrows : Rows m q x y z)
include h hnetwork hadapter hrows

theorem scores_rows : AllOrNone (ScoreRows m q) (scores (t.site .reference depth id) x)
    (scores (t.site .reference depth id) y) (scores (t.site .reference depth id) z) := by
  obtain ⟨below, hbelow, hbelowBears⟩ := h.child List.mem_cons_self
  obtain ⟨above, habove, haboveBears⟩ := h.child (List.mem_cons_of_mem _ (List.mem_singleton_self _))
  have hscores : ∀ v, scores (t.site .reference depth id) v = (do
      let features ← handsOn t depth below v
      let logits ← handsOn t depth above features
      let parameters ← ((Handler.immediate .reference).apply (.softmax 1) [logits]).outcome
      let logs ← ((Handler.immediate .reference).apply (.logSoftmax 1) [logits]).outcome
      return ⟨logits, parameters, logs⟩) := by
    intro v
    have hnetworkCall : ∀ v, ((t.site .reference depth id).call networkChild call [v]).outcome = _ := fun v =>
      Tree.outcome_call hbelow
    have hadapterCall : ∀ v, ((t.site .reference depth id).call adapterChild call [v]).outcome = _ := fun v =>
      Tree.outcome_call habove
    simp only [scores, hnetworkCall, hadapterCall, handsOn, bind_assoc]
    rfl
  rw [hscores, hscores, hscores]
  refine (hnetwork.rows hbelowBears depth hrows).bind fun hfeatures => ?_
  refine (hadapter.rows haboveBears depth hfeatures).bind fun hlogits => ?_
  obtain ⟨w, ⟨hlogits⟩⟩ := hlogits
  refine (Handler.apply_rowwise rfl (Kernel.softmax_rowwise hlogits false rfl)).bind fun hparameters => ?_
  refine (Handler.apply_rowwise rfl (Kernel.softmax_rowwise hlogits true rfl)).bind fun hlogs => ?_
  exact .all ⟨w, .tensors hlogits, hparameters, hlogs⟩

theorem getDistribution_rows : AllOrNone (OutputRows m q ["logits", "parameters", "log_probs"])
    (t.answer .reference (depth + 1) id getDistribution [x]) (t.answer .reference (depth + 1) id getDistribution [y])
    (t.answer .reference (depth + 1) id getDistribution [z]) := by
  have hextra : ([] : List Value).length ≤ 1 := Nat.zero_le _
  have hanswer : ∀ v o, t.answer .reference (depth + 1) id getDistribution [v] = .ok o ↔ _ := fun v o =>
    answer_getDistribution h hextra
  refine (scores_rows h hnetwork hadapter hrows).restrict (hanswer x) (hanswer y) (hanswer z) (fun hs => hs.fit n)
    fun {s s' s''} hs => ?_
  obtain ⟨_, hlogits, hparameters, hlogs⟩ := hs
  constructor <;> simp only [List.forall_mem_cons, List.not_mem_nil, false_imp_iff, implies_true, and_true]
  · exact ⟨⟨_, _, _, _, rfl, rfl, rfl, hlogits⟩, ⟨_, _, _, _, rfl, rfl, rfl, hparameters⟩,
      ⟨_, _, _, _, rfl, rfl, rfl, hlogs⟩⟩
  · exact ⟨⟨rfl, rfl⟩, ⟨rfl, rfl⟩, ⟨rfl, rfl⟩⟩

theorem getAction_rows : AllOrNone (OutputRows m q ["action", "logits", "parameters", "log_probs"])
    (t.answer .reference (depth + 1) id getAction [x]) (t.answer .reference (depth + 1) id getAction [y])
    (t.answer .reference (depth + 1) id getAction [z]) := by
  let choice (v : Value) : Outcome (Value × Scores) := do
    let s ← scores (t.site .reference depth id) v
    return (← picked (t.site .reference depth id) s.logits, s)
  have hanswer : ∀ v o, t.answer .reference (depth + 1) id getAction [v] = .ok o ↔ ∃ c, choice v = .ok c ∧
      (FitAction c.1 ∧ c.2.Fit n) ∧ o = Outputs.of (getActionMethod n).toSignature (c.1 :: c.2.values) := by
    intro v o
    have hextra : ([] : List Value).length ≤ 1 := Nat.zero_le _
    rw [answer_getAction h hextra]
    constructor
    · rintro ⟨s, a, hs, ha, hfita, hfit, rfl⟩
      exact ⟨(a, s), Outcome.bind_ok.mpr ⟨s, hs, Outcome.bind_ok.mpr ⟨a, ha, rfl⟩⟩, ⟨hfita, hfit⟩, rfl⟩
    · rintro ⟨_, hc, ⟨hfita, hfit⟩, rfl⟩
      obtain ⟨s, hs, hc⟩ := Outcome.bind_ok.mp hc
      obtain ⟨a, ha, ⟨⟩⟩ := Outcome.bind_ok.mp hc
      exact ⟨s, a, hs, ha, hfita, hfit, rfl⟩
  have hchoice : AllOrNone (fun c c' c'' => Value.Stacks m q [] c.1 c'.1 c''.1 ∧ ScoreRows m q c.2 c'.2 c''.2)
      (choice x) (choice y) (choice z) := by
    refine (scores_rows h hnetwork hadapter hrows).bind fun {s s' s''} hs => ?_
    have hlogits : ∃ w, Value.Stacks m q [w] s.logits s'.logits s''.logits := hs.imp fun _ hs => hs.1
    obtain ⟨w, hlogits⟩ := hlogits
    have hpicked : AllOrNone (Value.Stacks m q []) (picked (t.site .reference depth id) s.logits)
        (picked (t.site .reference depth id) s'.logits) (picked (t.site .reference depth id) s''.logits) := by
      cases s; cases s'; cases s''
      cases hlogits with
      | tensors hlogits => exact Handler.apply_rowwise rfl (Kernel.argMax_rowwise hlogits)
    exact hpicked.bind fun ha => .all ⟨ha, hs⟩
  refine hchoice.restrict (hanswer x) (hanswer y) (hanswer z) (fun {c c' c''} hc => ?_) fun {c c' c''} hc => ?_
  · obtain ⟨ha, hs⟩ := hc
    have hmeets := ha.meets .i32 "B" []
    exact ⟨and_congr hmeets.1 (hs.fit n).1, and_congr hmeets.2 (hs.fit n).2⟩
  · obtain ⟨ha, _, hlogits, hparameters, hlogs⟩ := hc
    constructor <;> simp only [List.forall_mem_cons, List.not_mem_nil, false_imp_iff, implies_true, and_true]
    · exact ⟨⟨_, _, _, _, rfl, rfl, rfl, ha⟩, ⟨_, _, _, _, rfl, rfl, rfl, hlogits⟩,
        ⟨_, _, _, _, rfl, rfl, rfl, hparameters⟩, ⟨_, _, _, _, rfl, rfl, rfl, hlogs⟩⟩
    · exact ⟨⟨rfl, rfl⟩, ⟨rfl, rfl⟩, ⟨rfl, rfl⟩⟩

end Batches

/-- The methods that take states, and what they give for each of them. -/
def perState : List (String × List String) :=
  [(getAction, ["action", "logits", "parameters", "log_probs"]),
    (getDistribution, ["logits", "parameters", "log_probs"])]

/-- A policy of dense layers, however these are stacked and nested, called on two batches of states and on one
    behind the other. The last call succeeds exactly if the other two do, and each output holds what the first call gave
    for the first states and then what the second call gave for the others. -/
theorem batches_apart {network adapter policy : Assembly} (hnetwork : DenseNetwork network)
    (hadapter : DenseNetwork adapter) (hpolicy : withAdapter network adapter = .ok policy) {title : String} {g : Graph}
    {id : NodeId} (h : g.Hosts .reference id (policy.renamed title)) {m q n : Nat} {x y z : Tensor}
    (hstates : Tensor.Stacks m q [n] x y z) {method : String} {outputs : List String}
    (hmethod : (method, outputs) ∈ perState) :
    let run (t : Tensor) := ((Graph.call id method [.tensor t]).runOn g).1
    ((∃ o, run z = .ok o) ↔ (∃ o, run x = .ok o) ∧ ∃ o, run y = .ok o) ∧
    ∀ o o' o'', run x = .ok o → run y = .ok o' → run z = .ok o'' → OutputRows m q outputs o o' o'' := by
  intro run
  obtain ⟨actions, -, rfl⟩ := withAdapter_ok hpolicy
  obtain ⟨depth, hdepth⟩ := Nat.exists_eq_add_of_le' h.bears.size_pos
  have hrows : Rows m q (.tensor x) (.tensor y) (.tensor z) := ⟨n, .tensors hstates⟩
  have hanswers : AllOrNone (OutputRows m q outputs) (g.tree.answer .reference g.tree.size id method [.tensor x])
      (g.tree.answer .reference g.tree.size id method [.tensor y])
      (g.tree.answer .reference g.tree.size id method [.tensor z]) := by
    rw [hdepth]
    rcases List.mem_pair.mp hmethod with ⟨⟨⟩⟩ | ⟨⟨⟩⟩
    · exact getAction_rows h.bears hnetwork.rowwise hadapter.rowwise hrows
    · exact getDistribution_rows h.bears hnetwork.rowwise hadapter.rowwise hrows
  obtain ⟨offered, hoffered⟩ : ∃ offered, (component actions).method? method = some offered := by
    rcases List.mem_pair.mp hmethod with ⟨⟨⟩⟩ | ⟨⟨⟩⟩ <;> exact ⟨_, rfl⟩
  have hrun : ∀ t o, run t = .ok o ↔ ∃ o', g.tree.answer .reference g.tree.size id method [.tensor t] = .ok o' ∧
      ((∃ scope, g.tree.scope? id = some scope) ∧ (Graph.prepare.runOn g).1 = .ok ()) ∧ o = o' := by
    intro t o
    have hplain : ∀ v ∈ [Value.tensor t], Graph.isRecorded v = false := List.forall_mem_singleton.mpr rfl
    refine (h.call hoffered).trans ⟨fun ⟨hscope, hprepare, _, ho⟩ => ⟨o, ho, ⟨hscope, hprepare⟩, rfl⟩, ?_⟩
    rintro ⟨_, ho, ⟨hscope, hprepare⟩, rfl⟩
    exact ⟨hscope, hprepare, hplain, ho⟩
  have hruns := hanswers.restrict (hrun x) (hrun y) (hrun z) (fun _ => ⟨Iff.rfl, Iff.rfl⟩) fun hrows => hrows
  refine ⟨hruns.ok_iff, fun o o' o'' hx hy hz => ?_⟩
  rw [hx, hy, hz] at hruns
  cases hruns with
  | all hrows => exact hrows

/-- A layer of three units in a stack of its own. -/
def inner : Outcome Assembly :=
  stack .network [.leaf denseKind (dense { inFeatures := 2, units := 3, activation := .tanh })]

/-- The stack above and one more layer behind it. -/
def nested (inner : Assembly) : Outcome Assembly :=
  stack .network [inner.renamed "inner", .leaf denseKind (dense { inFeatures := 3, units := 2, activation := .relu })]

def oneState : Tensor := .ones ⟨[1, 2]⟩

def twoStates : Tensor := .zeros ⟨[2, 2]⟩

/-- The one state, and then the two. -/
def threeStates : Tensor := ⟨.f32, ⟨[3, 2]⟩, oneState.data ++ twoStates.data, rfl⟩

theorem nested_batches : ∃ inside network policy t o o' o'', inner = .ok inside ∧ nested inside = .ok network ∧
    withAdapter (network.renamed "nested") (freshAdapter 2 2 7) = .ok policy ∧
    Tree.ofAssembly (policy.renamed "policy") = .ok t ∧
    ((Graph.call Tree.root getAction [.tensor oneState]).runOn (.fresh 0 t ⟨.immediate, .reference⟩)).1 = .ok o ∧
    ((Graph.call Tree.root getAction [.tensor twoStates]).runOn (.fresh 0 t ⟨.immediate, .reference⟩)).1 = .ok o' ∧
    ((Graph.call Tree.root getAction [.tensor threeStates]).runOn (.fresh 0 t ⟨.immediate, .reference⟩)).1 = .ok o'' ∧
    OutputRows 1 2 ["action", "logits", "parameters", "log_probs"] o o' o'' := by
  have hrun : (do
      let inside ← inner
      let network ← nested inside
      let policy ← withAdapter (network.renamed "nested") (freshAdapter 2 2 7)
      let t ← Tree.ofAssembly (policy.renamed "policy")
      ((Graph.call Tree.root getAction [.tensor threeStates]).runOn
        (.fresh 0 t ⟨.immediate, .reference⟩)).1).toOption.isSome = true := by
    decide +kernel
  obtain ⟨o'', ho''⟩ := Option.isSome_iff_exists.mp hrun
  obtain ⟨inside, hinside, ho''⟩ := Outcome.bind_ok.mp (Outcome.toOption_ok.mp ho'')
  obtain ⟨network, hnetwork, ho''⟩ := Outcome.bind_ok.mp ho''
  obtain ⟨policy, hpolicy, ho''⟩ := Outcome.bind_ok.mp ho''
  obtain ⟨t, ht, ho''⟩ := Outcome.bind_ok.mp ho''
  have hinner : DenseNetwork (inside.renamed "inner") :=
    .stacked "inner" (List.forall_mem_singleton.mpr (.drawn denseKind _ _)) hinside
  have hnested : DenseNetwork (network.renamed "nested") :=
    .stacked "nested" (List.forall_mem_cons.mpr ⟨hinner, List.forall_mem_singleton.mpr (.drawn denseKind _ _)⟩) hnetwork
  obtain ⟨hboth, hrows⟩ := batches_apart hnested (.drawn adapterChild _ _) hpolicy (Graph.hosts_fresh ht .reference 0)
    (⟨rfl, rfl, rfl, rfl, rfl, rfl⟩ : Tensor.Stacks 1 2 [2] oneState twoStates threeStates) List.mem_cons_self
  obtain ⟨⟨o, ho⟩, o', ho'⟩ := hboth.mp ⟨o'', ho''⟩
  exact ⟨inside, network, policy, t, o, o', o'', hinside, hnetwork, hpolicy, ht, ho, ho', ho'', hrows _ _ _ ho ho' ho''⟩

end Policy

end Layers

end ComponentFlow
