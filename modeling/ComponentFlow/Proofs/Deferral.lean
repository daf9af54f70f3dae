/-
  ComponentFlow.Proofs.Deferral — one call at once and recorded. Where a call runs at once it can be
  recorded, the record is logged with what the call gave, and the placeholders that are handed out
  await exactly that (`Graph.call_deferred`). A record that is shared gave the same before.
-/
import ComponentFlow.Proofs.Build
import ComponentFlow.Proofs.Record
import ComponentFlow.Proofs.Replay

namespace ComponentFlow

/-! ## Calls that run at once -/

namespace Graph

variable {g g' : Graph} {k : Kernels} {id : NodeId} {name : String} {vs : List Value} {o : Outputs}

theorem concrete_of_not_recorded {v : Value} (h : isRecorded v = false) : v.Concrete := by
  cases v with
  | tensor t => exact .tensor t
  | absent => exact .absent
  | placeholder | symbol => cases h

/-- The build before the first call. -/
def prepare : Effect Graph Unit := do
  let g ← get
  match g.state with
  | .building => throw (.reentrantBuild g.rootScope)
  | .unbuilt => discard build
  | .built => pure ()

theorem callNow_eq : callNow id name vs = (do
    prepare
    if vs.any isRecorded then throw (.modeMismatch .symbolic .immediate)
    let g ← get
    counting (g.tree.invoke (.immediate g.backend.kernels) id name vs)) := by
  unfold callNow prepare
  simp only [bind_assoc]
  congr 1
  funext g
  rcases g.state with _ | _ | _ <;> rfl

theorem prepare_ok (hmode : g.backend.mode = .immediate) (h : prepare.runOn g = (.ok (), g')) :
    (g.state = .unbuilt → g.tree.checkCalls g.tree.walk = .ok ()) ∧ g'.backend = g.backend ∧
      g'.tree.SameShape g.tree := by
  obtain ⟨g₁, g₂, hget, h⟩ := Effect.bind_ok.mp h
  cases hget
  rcases hstate : g.state with _ | _ | _
  · rw [hstate] at h
    obtain ⟨report, hbuild, -⟩ := Effect.map_ok.mp h
    obtain ⟨hbuildable, ⟨-, -, rfl⟩ | ⟨hmust, -⟩⟩ := build_ok hbuild
    · exact ⟨fun _ => hbuildable.calls hstate, rfl, g.builtTree_sameShape⟩
    · simp [mustResolve, hmode] at hmust
  · rw [hstate] at h
    cases h
  · rw [hstate] at h
    cases h
    refine ⟨fun hunbuilt => ?_, rfl, .refl _⟩
    cases hunbuilt

/-- What a call that runs at once was and did. -/
structure CalledNow (g g' : Graph) (k : Kernels) (id : NodeId) (name : String) (vs : List Value) (o : Outputs) :
    Prop where
  attached : ∃ scope, g.tree.scope? id = some scope
  gave : ∃ tally tally', (g.tree.invoke (.immediate k) id name vs).runOn tally = (.ok o, tally')
  concrete : ∀ v ∈ vs, v.Concrete
  checked : g.state = .unbuilt → g.tree.checkCalls g.tree.walk = .ok ()
  backend : g'.backend = g.backend
  shape : g'.tree.SameShape g.tree

theorem call_now (hbackend : g.backend = ⟨.immediate, k⟩) (h : (call id name vs).runOn g = (.ok o, g')) :
    CalledNow g g' k id name vs o := by
  obtain ⟨⟨scope, m⟩, g₁, hm, h⟩ := Effect.bind_ok.mp h
  simp only [Effect.runOn_reading, Prod.mk.injEq] at hm
  obtain ⟨hm, rfl⟩ := hm
  have hattached : ∃ scope, g.tree.scope? id = some scope := by
    unfold declaredMethod at hm
    split at hm
    · cases hm
    · next scope hscope => exact ⟨scope, hscope⟩
  obtain ⟨_, g₁, hget, h⟩ := Effect.bind_ok.mp h
  cases hget
  simp only [hbackend, callNow_eq] at h
  obtain ⟨_, g₁, hprepare, h⟩ := Effect.bind_ok.mp h
  obtain ⟨hchecked, hbackend', hshape⟩ := prepare_ok (by rw [hbackend]) hprepare
  split at h
  · cases h
  · next hrecorded =>
    obtain ⟨_, g₂, hget, h⟩ := Effect.bind_ok.mp h
    cases hget
    rw [hbackend', hbackend] at h
    simp only [counting, Effect.runOn_within, Prod.mk.injEq] at h
    obtain ⟨hgave, rfl⟩ := h
    rw [hshape.invoke] at hgave
    refine ⟨hattached, ⟨g₁.tally, _, Prod.ext hgave rfl⟩, fun v hv => ?_, hchecked, hbackend', hshape⟩
    refine concrete_of_not_recorded (Bool.eq_false_iff.mpr fun hv' => hrecorded ?_)
    exact List.any_eq_true.mpr ⟨v, hv, hv'⟩

end Graph

/-! ## Calls that are recorded -/

section

variable {graph : Nat} {t : Tree} {k : Kernels} {declared : Declared} {feeds : Feeds} {log log' : Log} {v v' : Value}

/-- An output at once, and what was handed out for it. -/
inductive Awaits (graph : Nat) (log : Log) : Value → Value → Prop
  | output {i j : Nat} {vs : List Value} {spec : TensorSpec} {t : Tensor} : log[i]? = some vs →
      vs[j]? = some (.tensor t) → spec.admits t = true →
      Awaits graph log (.tensor t) (.placeholder ⟨graph, .output i j, spec⟩)
  | absent : Awaits graph log .absent .absent

/-- What is passed to a call at once, and when it is recorded. -/
inductive Passes (graph : Nat) (declared : Declared) (feeds : Feeds) (log : Log) : Value → Value → Prop
  | literal (t : Tensor) : Passes graph declared feeds log (.tensor t) (.tensor t)
  | input {name spec t} : declared.lookup name = some spec → feeds.read name spec = .ok t →
      Passes graph declared feeds log (.tensor t) (.placeholder ⟨graph, .feed name, spec⟩)
  | earlier {v v' : Value} : Awaits graph log v v' → Passes graph declared feeds log v v'

theorem Awaits.grow (h : Awaits graph log v v') (hgrows : log <+: log') : Awaits graph log' v v' := by
  cases h with
  | output hi hj hspec => exact .output (getElem?_of_isPrefix hgrows hi) hj hspec
  | absent => exact .absent

theorem Passes.grow (h : Passes graph declared feeds log v v') (hgrows : log <+: log') :
    Passes graph declared feeds log' v v' := by
  cases h with
  | literal t => exact .literal t
  | input hspec hread => exact .input hspec hread
  | earlier h => exact .earlier (h.grow hgrows)

theorem Passes.concrete (h : Passes graph declared feeds log v v') : v.Concrete := by
  cases h with
  | literal t => exact .tensor t
  | input => exact .tensor _
  | earlier h =>
    cases h with
    | output => exact .tensor _
    | absent => exact .absent

theorem Passes.covered (h : Passes graph declared feeds log v v') : CoveredBy v.spec? v'.spec? := by
  cases h with
  | literal t => exact .present (TensorSpec.covers_refl _)
  | input _ hread => exact .present (TensorSpec.admits_iff_covers.mp (Feeds.read_admits hread))
  | earlier h =>
    cases h with
    | output _ _ hspec => exact .present (TensorSpec.admits_iff_covers.mp hspec)
    | absent => exact .absent

/-- What is passed is bound, and the binding stands for it. -/
theorem Passes.binding (h : Passes graph declared feeds log v v') (next : Nat) :
    ∃ b, b.Means declared feeds log v ∧ Binding.ofValue graph next v' = .ok b := by
  cases h with
  | literal t => exact ⟨.literal t, .literal t, rfl⟩
  | @input name spec t hspec hread => exact ⟨.feed name, .feed hspec hread, by simp [Binding.ofValue]⟩
  | earlier h =>
    cases h with
    | @output i j vs spec t hi hj _ => exact ⟨.output i j, .output hi hj, by simp [Binding.ofValue]⟩
    | absent => exact ⟨.absent, .absent, rfl⟩

/-- What is handed out awaits what is logged. -/
theorem awaits_of_allocated {i : Nat} {specs : List (Option TensorSpec)} {vs : List Value} (hi : log[i]? = some vs)
    (hconcrete : ∀ v ∈ vs, v.Concrete) (h : List.Forall₂ (fun s v => Meets s (Value.spec? v)) specs vs) :
    List.Forall₂ (Awaits graph log) vs ((Recorder.allocate graph i specs).map Value.ofPlaceholder?) := by
  obtain ⟨hlength, hmeets⟩ := List.forall₂_iff_get.mp h
  refine List.forall₂_iff_get.mpr ⟨by simp [Recorder.allocate, hlength], fun j hj hj' => ?_⟩
  have hlt : j < specs.length := hlength ▸ hj
  have hmeet := hmeets j hlt hj
  have hlogged : vs[j]? = some vs[j] := List.getElem?_eq_getElem hj
  simp only [List.get_eq_getElem, Recorder.allocate, List.getElem_map, List.getElem_mapIdx] at hmeet ⊢
  have hconcrete' := hconcrete vs[j] (List.getElem_mem hj)
  generalize specs[j] = s at hmeet ⊢
  generalize vs[j] = v at hmeet hlogged hconcrete' ⊢
  cases hconcrete' with
  | tensor t =>
    cases hmeet with
    | present hspec => exact .output hi hlogged (TensorSpec.compatible_spec_iff.mp hspec)
  | absent =>
    cases hmeet
    exact .absent

/-- A graph that runs calls at once. -/
structure Now (t : Tree) (k : Kernels) (g : Graph) : Prop where
  backend : g.backend = ⟨.immediate, k⟩
  tree : g.tree.SameShape t

/-- A graph that has recorded what is logged, and has not been built. -/
structure Later (graph : Nat) (t : Tree) (k : Kernels) (declared : Declared) (feeds : Feeds) (log : Log) (g : Graph) :
    Prop where
  id : g.id = graph
  tree : g.tree = t
  backend : g.backend = ⟨.symbolic, k⟩
  artifact : g.artifact = none
  inputs : g.recorder.feeds = declared
  nextId : g.recorder.nextId = log.length
  logged : Logged graph t k declared feeds [] g.recorder.pending log

/-- The same calls, at once on one graph and recorded on another. -/
def Coupling.deferred (graph : Nat) (t : Tree) (k : Kernels) (declared : Declared) (feeds : Feeds) :
    Coupling Graph Graph where
  World := Log
  Grows := List.IsPrefix
  refl := List.prefix_refl
  trans := List.IsPrefix.trans
  Holds log g g' := Now t k g ∧ Later graph t k declared feeds log g'

/-- Results of a call, and what was handed out for them. -/
def AwaitsAll (graph : Nat) (log : Log) (o o' : Outputs) : Prop :=
  o.names = o'.names ∧ List.Forall₂ (Awaits graph log) o.values o'.values

theorem awaitsAll_of_allocated {i : Nat} {specs : List (Option TensorSpec)} {m : Signature} {o : Outputs}
    (hnames : o.names = m.outputNames) (hi : log[i]? = some o.values) (hconcrete : ∀ v ∈ o.values, v.Concrete)
    (h : List.Forall₂ (fun s v => Meets s (Value.spec? v)) specs o.values) :
    AwaitsAll graph log o (Graph.placeholders m (Recorder.allocate graph i specs)) :=
  ⟨hnames, awaits_of_allocated hi hconcrete h⟩

/-- A call that could run at once can be recorded: what it takes, and what its method gives. -/
structure Deferrable (g : Graph) (graph : Nat) (t : Tree) (k : Kernels) (declared : Declared) (feeds : Feeds)
    (log : Log) (id : NodeId) (name : String) (vs' : List Value) (o : Outputs) (p : Graph.Prepared) : Prop where
  prepared : g.prepareCall id name vs' = .ok p
  method : p.method.name = name
  names : o.names = p.method.outputNames
  meets : List.Forall₂ (fun s v => Meets s (Value.spec? v)) p.specs o.values
  concrete : ∀ v ∈ o.values, v.Concrete
  gives : ∃ ins, List.Forall₂ (Binding.Means declared feeds log) p.inputs ins ∧ t.Gives k id name ins o

theorem deferrable (ht : t.plain = true) (hstate : t.state = .unbuilt) {g g₁ g' : Graph} (hnow : Now t k g)
    (hlater : Later graph t k declared feeds log g') {id : NodeId} {name : String} {vs vs' : List Value} {o : Outputs}
    (hcalled : g.CalledNow g₁ k id name vs o) (h : List.Forall₂ (Passes graph declared feeds log) vs vs') :
    ∃ p, Deferrable g' graph t k declared feeds log id name vs' o p := by
  obtain ⟨⟨scope, hscope⟩, ⟨tally, tally', hgave⟩, -, -, -, -⟩ := hcalled
  rw [hnow.tree.invoke] at hgave
  rw [hnow.tree.scope] at hscope
  obtain ⟨m, ins, hm, hins, hcheck, hnames, hgave⟩ := Tree.invoke_ok hgave
  have hdisplay : t.displayName id = scope := by rw [Tree.displayName, hscope, Option.getD_some]
  rw [hdisplay] at hins hcheck
  obtain ⟨ins', hins', hpasses⟩ := Signature.completeInputs_follows (R := Passes graph declared feeds log)
    (.earlier .absent) .literal h hins
  have hconcrete : ∀ v ∈ ins, v.Concrete := fun v hv => by
    obtain ⟨_, -, hpass⟩ := forall₂_of_mem hpasses hv
    exact hpass.concrete
  obtain ⟨hgives, houts⟩ := Tree.invoke_repeats ht hconcrete hgave
  obtain ⟨specs, hspecs, hmeets⟩ := Signature.checkOutputs_ok.mp hcheck
  obtain ⟨specs', hspecs', hcovered⟩ := Signature.inferOutputs_covered (Method.ruled_of_plain (Tree.plain_method ht hm))
    (List.forall₂_map_left_iff.mpr (List.forall₂_map_right_iff.mpr (hpasses.imp fun _ _ hp => hp.covered))) hspecs
  obtain ⟨bs, hmeans, hbs⟩ := forall₂_split (hpasses.imp fun _ _ hp => hp.binding g'.recorder.nextId)
  refine ⟨⟨scope, m.toSignature, bs, specs'⟩, ?_, Tree.name_of_method hm, hnames, ?_, houts, ins, hmeans.flip, hgives⟩
  · have hdeclared : g'.declaredMethod id name = .ok (scope, m.toSignature) := by
      unfold Graph.declaredMethod
      rw [hlater.tree]
      simp only [hscope, hm]
      rfl
    have hrecordable : g'.checkRecordable scope m.toSignature = .ok () := by
      simp only [Graph.checkRecordable, Graph.state, hlater.tree, hstate]
    have hbindings : ins'.mapM (Binding.ofValue g'.id g'.recorder.nextId) = .ok bs := by
      rw [hlater.id]
      exact Outcome.mapM_ok.mpr hbs.flip
    simp only [Graph.prepareCall, hdeclared, hrecordable, hins', hspecs', hbindings, Outcome.ok_bind]
  · refine forall₂_comp hcovered.flip hmeets fun s' s v hs hv => ?_
    exact hv.covered hs (CoveredBy.refl _)

/-- A new record is logged behind the others. -/
theorem Later.push {g : Graph} (hlater : Later graph t k declared feeds log g) {id : NodeId} {name : String}
    {vs' : List Value} {o : Outputs} {p : Graph.Prepared}
    (hp : Deferrable g graph t k declared feeds log id name vs' o p) (share : Bool) :
    Later graph t k declared feeds (log ++ [o.values])
      { g with recorder := (g.recorder.push g.id id p.scope p.method.name p.inputs p.specs share).2 } where
  id := hlater.id
  tree := hlater.tree
  backend := hlater.backend
  artifact := hlater.artifact
  inputs := hlater.inputs
  nextId := by simp [Recorder.push, hlater.nextId]
  logged := by
    obtain ⟨ins, hmeans, hgives⟩ := hp.gives
    refine hlater.logged.snoc ⟨hlater.nextId, ⟨ins, o, hmeans, ?_, rfl⟩, ⟨p.specs, ?_, hp.meets⟩⟩
    · show t.Gives k id p.method.name ins o
      rw [hp.method]
      exact hgives
    · show Recorder.allocate g.id g.recorder.nextId p.specs = _
      rw [hlater.id]

/-- A record that a call would repeat has given what the call gives. -/
theorem Later.shared {g : Graph} (hlater : Later graph t k declared feeds log g) {id : NodeId} {name : String}
    {vs' : List Value} {o : Outputs} {p : Graph.Prepared}
    (hp : Deferrable g graph t k declared feeds log id name vs' o p) {outputs : List (Option Placeholder)}
    (h : g.shared? id p = some outputs) : AwaitsAll graph log o (Graph.placeholders p.method outputs) := by
  unfold Graph.shared? at h
  split at h
  · obtain ⟨earlier, hmem, rfl, hrepeats⟩ := Recorder.mem_of_shared h
    simp only [Invocation.repeats, Bool.and_eq_true, beq_iff_eq] at hrepeats
    obtain ⟨⟨hcomponent, hmethod⟩, hinputs⟩ := hrepeats
    obtain ⟨before, vs, hbefore, hlogged, -, ⟨ins₀, o₀, hmeans₀, hgives₀, rfl⟩, ⟨specs₀, hspecs₀, hmeets₀⟩⟩ :=
      hlater.logged.gives hmem
    obtain ⟨ins, hmeans, hgives⟩ := hp.gives
    rw [Binding.eq_of_allIdentical hinputs] at hmeans₀
    have hins : ins₀ = ins := List.right_unique_forall₂' (fun _ _ _ hv hv' => hv.unique hv')
      (hmeans₀.imp fun _ _ hb => hb.grow hbefore) hmeans
    rw [hcomponent, hmethod, hp.method, hins] at hgives₀
    obtain rfl := hgives₀.unique hgives
    rw [hspecs₀]
    exact awaitsAll_of_allocated hp.names hlogged hp.concrete hmeets₀
  · cases h

/-- A call that runs at once can be recorded, and what is handed out awaits its results. -/
theorem Graph.call_deferred (ht : t.plain = true) (hstate : t.state = .unbuilt) {vs vs' : List Value}
    (h : List.Forall₂ (Passes graph declared feeds log) vs vs') (id : NodeId) (name : String) :
    (Coupling.deferred graph t k declared feeds).Follows log (call id name vs) (call id name vs')
      (AwaitsAll graph) := by
  intro g g' hholds o g₁ hrun
  obtain ⟨hnow, hlater⟩ := hholds
  have hcalled := call_now hnow.backend hrun
  have hnow' : Now t k g₁ := ⟨hcalled.backend.trans hnow.backend, hcalled.shape.trans hnow.tree⟩
  obtain ⟨p, hp⟩ := deferrable ht hstate hnow hlater hcalled h
  have hcall := call_runOn (g := g') (by rw [hlater.backend]) id name vs'
  simp only [hp.prepared] at hcall
  rcases hshared : g'.shared? id p with _ | outputs
  · simp only [hshared] at hcall
    have hlogged : (log ++ [o.values])[g'.recorder.nextId]? = some o.values := by simp [hlater.nextId]
    refine ⟨log ++ [o.values], _, _, List.prefix_append _ _, hcall, ⟨hnow', hlater.push hp _⟩, ?_⟩
    rw [hlater.id]
    exact awaitsAll_of_allocated hp.names hlogged hp.concrete hp.meets
  · simp only [hshared] at hcall
    exact ⟨log, _, g', List.prefix_refl _, hcall, ⟨hnow', hlater⟩, hlater.shared hp hshared⟩

end

end ComponentFlow
