/-
  ComponentFlow.Proofs.Program — the same calls at once and later. A program declares inputs and makes
  calls on literals, on its inputs and on what came out before. Where it runs at once on values that
  its inputs admit, it can also be recorded and built, and what is then fetched for these values is
  what came out at once, tensor by tensor (`Program.later_as_now`).
-/
import ComponentFlow.Agreement
import ComponentFlow.Proofs.Deferral

namespace ComponentFlow

/-- What is passed to a call of a program. -/
inductive Argument where
  | literal (t : Tensor)
  /-- An input of the program, by position. -/
  | input (index : Nat)
  | omitted
  /-- An output of an earlier call, both by position. -/
  | output (call index : Nat)

/-- A call of a method of a node. -/
structure Call where
  component : NodeId
  method : String
  args : List Argument

structure Program where
  inputs : List CallInput
  calls : List Call

namespace Program

/-- The value that an argument stands for. -/
def argument (inputs : List Value) (results : List Outputs) : Argument → Outcome Value
  | .literal t => .ok (.tensor t)
  | .input index => Frame.orBadReference inputs[index]?
  | .omitted => .ok .absent
  | .output call index => Frame.orBadReference (results[call]?.bind fun o => o.values[index]?)

/-- Makes calls behind those that gave `results`, and gives the results of all. -/
def perform (inputs : List Value) : List Outputs → List Call → Effect Graph (List Outputs)
  | results, [] => return results
  | results, c :: rest => do
    let args ← Effect.ofOutcome (c.args.mapM (argument inputs results))
    let o ← Graph.call c.component c.method args
    perform inputs (results ++ [o]) rest

def declare (input : CallInput) : Effect Graph Value := do
  return .placeholder (← Graph.input input.name input.spec)

/-- Makes the calls on the values of the inputs. -/
def runNow (x : Program) : Effect Graph (List Outputs) :=
  perform (x.inputs.map fun input => .tensor input.value) [] x.calls

/-- Declares the inputs, makes the calls on them, and builds. -/
def runLater (x : Program) : Effect Graph (List Outputs) := do
  let inputs ← x.inputs.mapM declare
  let results ← perform inputs [] x.calls
  discard Graph.build
  return results

def declared (x : Program) : Declared := x.inputs.map fun input => (input.name, input.spec)

def feeds (x : Program) : Feeds := x.inputs.map fun input => (input.name, input.value)

/-- The inputs have names of their own and admit their values, and something is called. -/
structure Valid (x : Program) : Prop where
  names : (x.inputs.map CallInput.name).Nodup
  admits : ∀ input ∈ x.inputs, input.spec.admits input.value = true
  calls : x.calls ≠ []

end Program

/-- What was handed out, and what came out at once: nothing in either case, or a tensor that is fetched. -/
inductive Graph.Delivers (g : Graph) (feeds : Feeds) : Value → Value → Prop
  | absent : Delivers g feeds .absent .absent
  | fetched {p t} : ((execute [p] feeds).runOn g).1 = .ok [t] → Delivers g feeds (.placeholder p) (.tensor t)

namespace Program

variable {x : Program} {graph : Nat} {t : Tree} {k : Kernels} {declared : Declared} {feeds : Feeds} {log : Log}
  {inputs inputs' : List Value} {results results' : List Outputs} {calls : List Call}

/-! ## Inputs -/

theorem lookup_of_nodup {α β : Type} {name : α → String} {f : α → β} {as : List α} (h : (as.map name).Nodup) {a : α}
    (ha : a ∈ as) : (as.map fun a => (name a, f a)).lookup (name a) = some (f a) := by
  have hnames : ((as.map fun a => (name a, f a)).map Prod.fst).Nodup := by
    rw [List.map_map]
    exact h
  exact (lookup_iff_mem hnames).mpr (List.mem_map_of_mem ha)

/-- The graph with more inputs. -/
def withInputs (g : Graph) (more : Declared) : Graph :=
  { g with recorder := { g.recorder with feeds := g.recorder.feeds ++ more } }

theorem declare_runOn {g : Graph} (hmode : g.backend.mode = .symbolic) {input : CallInput}
    (hnew : g.recorder.feeds.lookup input.name = none) : (declare input).runOn g =
      (.ok (.placeholder ⟨g.id, .feed input.name, input.spec⟩), withInputs g [(input.name, input.spec)]) := by
  unfold declare
  simp only [Effect.runOn_bind, Graph.input_runOn hmode, Recorder.declare, hnew]
  rfl

theorem declare_all {g : Graph} (hmode : g.backend.mode = .symbolic) {inputs : List CallInput}
    (hnames : (inputs.map CallInput.name).Nodup) (hnew : ∀ input ∈ inputs, g.recorder.feeds.lookup input.name = none) :
    (inputs.mapM declare).runOn g =
      (.ok (inputs.map fun input => .placeholder ⟨g.id, .feed input.name, input.spec⟩),
        withInputs g (inputs.map fun input => (input.name, input.spec))) := by
  induction inputs generalizing g with
  | nil => simp [withInputs]
  | cons input rest ih =>
    simp only [List.map_cons, List.nodup_cons] at hnames
    obtain ⟨hinput, hrest⟩ := List.forall_mem_cons.mp hnew
    have hnew' : ∀ later ∈ rest,
        (withInputs g [(input.name, input.spec)]).recorder.feeds.lookup later.name = none := by
      intro later hlater
      have hne : later.name ≠ input.name := fun heq => hnames.1 (heq ▸ List.mem_map_of_mem hlater)
      exact (lookup_snoc_of_ne hne).trans (hrest later hlater)
    have hrun := ih (g := withInputs g [(input.name, input.spec)]) hmode hnames.2 hnew'
    simp only [List.mapM_cons, Effect.runOn_bind, declare_runOn hmode hinput, hrun]
    simp [withInputs]

/-! ## Calls -/

theorem argument_deferred (hinputs : List.Forall₂ (Passes graph declared feeds log) inputs inputs')
    (hresults : List.Forall₂ (AwaitsAll graph log) results results') {a : Argument} {v : Value}
    (hv : argument inputs results a = .ok v) :
    ∃ v', argument inputs' results' a = .ok v' ∧ Passes graph declared feeds log v v' := by
  cases a with
  | literal t =>
    cases hv
    exact ⟨_, rfl, .literal t⟩
  | omitted =>
    cases hv
    exact ⟨_, rfl, .earlier .absent⟩
  | input index => exact Lockstep.orBadReference_follows hinputs hv
  | output call index =>
    simp only [argument] at hv ⊢
    rcases hcall : results[call]? with _ | o
    · rw [hcall] at hv
      cases hv
    · obtain ⟨o', ho', hawaits⟩ := forall₂_getElem? hresults hcall
      rw [hcall] at hv
      rw [ho']
      obtain ⟨v', hv', h⟩ := Lockstep.orBadReference_follows hawaits.2 hv
      exact ⟨v', hv', .earlier h⟩

/-- Calls that are made at once can be recorded. -/
theorem perform_deferred (ht : t.plain = true) (hstate : t.state = .unbuilt)
    (hinputs : List.Forall₂ (Passes graph declared feeds log) inputs inputs')
    (hresults : List.Forall₂ (AwaitsAll graph log) results results') :
    (Coupling.deferred graph t k declared feeds).Follows log (perform inputs results calls)
      (perform inputs' results' calls) fun log' => List.Forall₂ (AwaitsAll graph log') := by
  induction calls generalizing log results results' with
  | nil => exact Coupling.follows_pure hresults
  | cons c rest ih =>
    have hargs : (Coupling.deferred graph t k declared feeds).Follows log
        (Effect.ofOutcome (c.args.mapM (argument inputs results)))
        (Effect.ofOutcome (c.args.mapM (argument inputs' results')))
        fun log' => List.Forall₂ (Passes graph declared feeds log') :=
      Coupling.follows_ofOutcome fun vs hvs => Outcome.mapM_follows (List.forall₂_same.mpr fun _ _ => rfl)
        (fun _ _ _ hsame v hv => hsame ▸ argument_deferred hinputs hresults hv) hvs
    refine hargs.bind fun log₁ vs vs' h₁ hvs => ?_
    refine (Graph.call_deferred ht hstate hvs c.component c.method).bind fun log₂ o o' h₂ ho => ?_
    have hgrows : log <+: log₂ := h₁.trans h₂
    refine ih (hinputs.imp fun _ _ h => h.grow hgrows) (List.rel_append ?_ (.cons ho .nil))
    exact hresults.imp fun _ _ h => ⟨h.1, h.2.imp fun _ _ hv => hv.grow hgrows⟩

/-- The first call finds out whether the calls that the tree declares lead anywhere. -/
theorem checked_of_performed {g g' : Graph} (hbackend : g.backend = ⟨.immediate, k⟩) (hstate : g.state = .unbuilt)
    (hcalls : calls ≠ []) {outs : List Outputs} (h : (perform inputs results calls).runOn g = (.ok outs, g')) :
    g.tree.checkCalls g.tree.walk = .ok () := by
  cases calls with
  | nil => exact absurd rfl hcalls
  | cons c rest =>
    obtain ⟨args, g₁, hargs, h⟩ := Effect.bind_ok.mp h
    obtain ⟨o, g₂, hcall, -⟩ := Effect.bind_ok.mp h
    simp only [Effect.runOn_ofOutcome, Prod.mk.injEq] at hargs
    obtain ⟨-, rfl⟩ := hargs
    exact (Graph.call_now hbackend hcall).checked hstate

/-! ## Whole programs -/

theorem inputs_passed (hx : x.Valid) :
    List.Forall₂ (Passes graph x.declared x.feeds []) (x.inputs.map fun input => .tensor input.value)
      (x.inputs.map fun input => .placeholder ⟨graph, .feed input.name, input.spec⟩) := by
  refine List.forall₂_map_left_iff.mpr (List.forall₂_map_right_iff.mpr (List.forall₂_same.mpr fun input hinput => ?_))
  refine .input (lookup_of_nodup hx.names hinput) ?_
  have hlookup : x.feeds.lookup input.name = some input.value := lookup_of_nodup hx.names hinput
  simp [Feeds.read, hlookup, hx.admits input hinput]

/-- What the artifact of a graph delivers for an output can be fetched. -/
theorem delivers_output {g : Graph} (hmode : g.backend.mode = .symbolic) {a : Artifact} (ha : g.artifact = some a)
    {values : List Tensor} (hsound : Valuation.Sound declared a.kernels feeds ⟨a.extend, values⟩) {i j : Nat}
    {w : Wiring} (hw : a.wiring? i = some w) {o : Option Nat} (ho : w.outputs[j]? = some o) {u : Tensor}
    (hu : Resolution.Delivers values (.tensor u) o) (spec : TensorSpec) :
    g.Delivers feeds (.placeholder ⟨a.graph, .output i j, spec⟩) (.tensor u) := by
  cases hu with
  | @tensor n _ hn =>
    have hvalue : a.valueOf? ⟨a.graph, .output i j, spec⟩ = some n := by
      simp [Artifact.valueOf?, Artifact.output?, hw, ho]
    refine .fetched ?_
    rw [Graph.execute_runOn hmode, ha]
    exact hsound.execute (.cons ⟨n, hvalue, hn⟩ .nil) g.tally

/-- Everything that was recorded is built, and every output is delivered. -/
theorem build_deferred (ht : t.plain = true) (hstate : t.state = .unbuilt) (hcalls : t.checkCalls t.walk = .ok ())
    {g : Graph} (hlater : Later graph t k declared feeds log g) :
    ∃ report g', Graph.build.runOn g = (.ok report, g') ∧
      ∀ v v', Awaits graph log v v' → g'.Delivers feeds v' v := by
  obtain ⟨hid, htree, hbackend, hartifact, hinputs, -, hlogged⟩ := hlater
  have hgstate : g.state = .unbuilt := by rw [Graph.state, htree, hstate]
  have hbuildable : g.Buildable := by
    refine ⟨by simp [hgstate], fun _ => ?_⟩
    rw [htree]
    exact hcalls
  have hmust : g.mustResolve = true := by simp [Graph.mustResolve, hbackend, hartifact]
  have hshape : g.resolution.tree.SameShape t := htree ▸ g.buildingTree_sameShape
  rw [← hinputs] at hlogged
  obtain ⟨a, m, values, hrun, hgraph, hkernels, hsound, hdeliver⟩ :=
    Resolution.run_staged (r := g.resolution) ht hshape hartifact hlogged
  refine ⟨_, _, Graph.build_resolved hbuildable hmust hrun, fun v v' h => ?_⟩
  cases h with
  | absent => exact .absent
  | @output i j vs spec u hi hj hspec =>
    obtain ⟨w, hw, houts⟩ := hdeliver i vs hi
    rw [Nat.zero_add] at hw
    obtain ⟨o, ho, hu⟩ := forall₂_getElem? houts hj
    have hmode : g.backend.mode = .symbolic := by rw [hbackend]
    have hkernels' : a.kernels = k := by rw [hkernels, Graph.resolution, hbackend]
    obtain rfl : a.graph = graph := hgraph.trans hid
    rw [← hkernels'] at hsound
    refine delivers_output ?_ rfl hsound hw ho hu spec
    exact hmode

/-- What runs at once call by call can be recorded, built and fetched, with the same results. Nothing is
    assumed of the kernels but that they answer the same when asked the same. -/
theorem later_as_now (now later : Nat) {t : Tree} (k : Kernels) (ht : t.plain = true) (hstate : t.state = .unbuilt)
    {x : Program} (hx : x.Valid) {outs : List Outputs} {g : Graph}
    (h : x.runNow.runOn (.fresh now t ⟨.immediate, k⟩) = (.ok outs, g)) :
    ∃ outs' g', x.runLater.runOn (.fresh later t ⟨.symbolic, k⟩) = (.ok outs', g') ∧
      List.Forall₂ (fun o o' => o.names = o'.names ∧ List.Forall₂ (g'.Delivers x.feeds) o'.values o.values)
        outs outs' := by
  have hdeclare := declare_all (g := .fresh later t ⟨.symbolic, k⟩) rfl hx.names fun _ _ => rfl
  have hnow : Now t k (.fresh now t ⟨.immediate, k⟩) := ⟨rfl, .refl t⟩
  have hlater : Later later t k x.declared x.feeds [] (withInputs (.fresh later t ⟨.symbolic, k⟩) x.declared) :=
    ⟨rfl, rfl, rfl, rfl, rfl, rfl, .nil⟩
  obtain ⟨log, outs', g₁, -, hperform, ⟨-, hlater'⟩, hawaits⟩ :=
    perform_deferred ht hstate (inputs_passed hx) .nil _ _ ⟨hnow, hlater⟩ outs g h
  have hcalls : t.checkCalls t.walk = .ok () :=
    checked_of_performed (g := .fresh now t ⟨.immediate, k⟩) rfl hstate hx.calls h
  obtain ⟨report, g', hbuild, hdeliver⟩ := build_deferred ht hstate hcalls hlater'
  refine ⟨outs', g', ?_, hawaits.imp fun o o' ho => ⟨ho.1, (ho.2.imp fun v v' => hdeliver v v').flip⟩⟩
  refine Effect.bind_ok.mpr ⟨_, _, hdeclare, Effect.bind_ok.mpr ⟨outs', g₁, hperform, ?_⟩⟩
  exact Effect.bind_ok.mpr ⟨(), g', Effect.map_ok.mpr ⟨report, hbuild, rfl⟩, rfl⟩

/-- A component that has its child add a number, one unless another is given, and negates the sum. -/
def shifter : Tree where
  nodes := #[{
      name := "root"
      parent := none
      children := [("inner", 1)]
      state := .unbuilt
      component := {
        kind := "shifter"
        config := .null
        methods := [{
          name := "run"
          inputs := [Signature.required "x"]
          outputs := [⟨"y", .likeInput 0⟩, ⟨"none", .absent⟩]
          memoized := true
          calls := [("inner", "shift")]
          body := .straight [.call "inner" "shift" [.input 0], .apply (.unary .neg) [.first 0]] [.first 1, .absent] }] } }, {
      name := "inner"
      parent := some 0
      children := []
      state := .unbuilt
      component := {
        kind := "inner"
        config := .null
        methods := [{
          name := "shift"
          inputs := [Signature.required "x", Signature.inputOr "by" (.scalar 1)]
          outputs := [⟨"y", .likeInputAs 0 .f32⟩]
          body := .straight [.apply (.binary .add) [.input 0, .input 1]] [.first 0] }] } }]
  frozen := false

/-- The method on an input, the same call again, and its result passed on to the child. -/
def shifts : Program where
  inputs := [⟨"x", ⟨.f32, [.named "B"]⟩, .zeros ⟨[2]⟩⟩]
  calls := [⟨0, "run", [.input 0]⟩, ⟨0, "run", [.input 0]⟩, ⟨1, "shift", [.output 1 0, .literal (.scalar 2)]⟩]

theorem shifts_later_as_now : ∃ outs g,
    shifts.runNow.runOn (.fresh 1 shifter ⟨.immediate, .reference⟩) = (.ok outs, g) ∧
    ∃ outs' g', shifts.runLater.runOn (.fresh 2 shifter ⟨.symbolic, .reference⟩) = (.ok outs', g') ∧
      List.Forall₂ (fun o o' => o.names = o'.names ∧ List.Forall₂ (g'.Delivers shifts.feeds) o'.values o.values)
        outs outs' := by
  have hok : (match (shifts.runNow.runOn (.fresh 1 shifter ⟨.immediate, .reference⟩)).1 with
      | .ok outs => outs.length == 3
      | .error _ => false) = true := by decide +kernel
  rcases hrun : shifts.runNow.runOn (.fresh 1 shifter ⟨.immediate, .reference⟩) with ⟨_ | outs, g⟩
  · rw [hrun] at hok
    cases hok
  · have hvalid : shifts.Valid := ⟨by decide, by decide +kernel, by simp [shifts]⟩
    exact ⟨outs, g, rfl, later_as_now 1 2 .reference (by decide +kernel) (by decide +kernel) hvalid hrun⟩

end Program

end ComponentFlow
