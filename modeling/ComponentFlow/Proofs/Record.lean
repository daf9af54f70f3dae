/-
  ComponentFlow.Proofs.Record — what recording does to a symbolic graph. Everything that a call is
  refused for is found out before the recorder is touched (`Graph.call_runOn`,
  `Graph.recordWith_runOn`), so that a recording either fails and leaves the graph as it was, or
  takes the recorder one step further (`Recording.step`). The record that it appends, if any, is that
  of its call, or the one that was given raw (`Recording.run_leaves`).
-/
import ComponentFlow.Graph.Basic
import ComponentFlow.Proofs.Effect
import ComponentFlow.Proofs.Shape
import Mathlib.Data.List.ReduceOption

namespace ComponentFlow

theorem Tree.name_of_method {t : Tree} {id : NodeId} {name : String} {m : Method} (h : t.method id name = .ok m) :
    m.name = name := by
  unfold Tree.method at h
  dsimp only at h
  split at h
  · cases h
  · split at h
    · next hfind =>
      cases h
      simpa using List.find?_some hfind
    · cases h

namespace Graph

variable {g : Graph}

/-- A graph on which nothing has been done. -/
def fresh (id : Nat) (tree : Tree) (backend : Backend) : Graph := { id, tree, backend }

theorem requireSymbolic_ok (hmode : g.backend.mode = .symbolic) : g.requireSymbolic = .ok () := by
  simp [requireSymbolic, hmode]

theorem input_runOn (hmode : g.backend.mode = .symbolic) (name : String) (spec : TensorSpec) :
    (input name spec).runOn g = match g.recorder.declare name spec with
      | .error e => (.error e, g)
      | .ok r => (.ok ⟨g.id, .feed name, spec⟩, { g with recorder := r }) := by
  have hsymbolic := requireSymbolic_ok hmode
  unfold input
  rcases hdeclare : g.recorder.declare name spec with e | r
  · simp [Effect.runOn_bind, hsymbolic, hdeclare]
  · simp only [Effect.runOn_bind, Effect.runOn_reading, hsymbolic, Effect.runOn_get, Effect.runOn_ofOutcome, hdeclare]
    rfl

/-- A call that may be recorded: its scope, its declaration, its bindings and the specs of its
    outputs. -/
structure Prepared where
  scope : String
  method : Signature
  inputs : List Binding
  specs : List (Option TensorSpec)

def prepareCall (g : Graph) (id : NodeId) (name : String) (supplied : List Value) : Outcome Prepared := do
  let (scope, m) ← g.declaredMethod id name
  g.checkRecordable scope m
  let inputs ← m.completeInputs scope supplied
  let specs ← m.inferOutputs (inputs.map Value.spec?)
  let bindings ← inputs.mapM (Binding.ofValue g.id g.recorder.nextId)
  .ok ⟨scope, m, bindings, specs⟩

/-- The earlier outputs that a call may share. -/
def shared? (g : Graph) (id : NodeId) (p : Prepared) : Option (List (Option Placeholder)) :=
  if p.method.memoized then g.recorder.sharedOutputs? id p.method.name p.inputs else none

theorem call_runOn (hmode : g.backend.mode = .symbolic) (id : NodeId) (name : String) (supplied : List Value) :
    (call id name supplied).runOn g = match g.prepareCall id name supplied with
      | .error e => (.error e, g)
      | .ok p => match g.shared? id p with
        | some outputs => (.ok (placeholders p.method outputs), g)
        | none =>
          let pushed := g.recorder.push g.id id p.scope p.method.name p.inputs p.specs p.method.memoized
          (.ok (placeholders p.method pushed.1), { g with recorder := pushed.2 }) := by
  unfold call prepareCall recordCall shared?
  rcases hm : g.declaredMethod id name with e | ⟨scope, m⟩
  · simp [Effect.runOn_bind, hm]
  rcases hrecordable : g.checkRecordable scope m with e | ⟨⟩
  · simp [Effect.runOn_bind, hm, hmode, hrecordable]
  rcases hinputs : m.completeInputs scope supplied with e | inputs
  · simp [Effect.runOn_bind, hm, hmode, hrecordable, hinputs]
  rcases hspecs : m.inferOutputs (inputs.map Value.spec?) with e | specs
  · simp [Effect.runOn_bind, hm, hmode, hrecordable, hinputs, hspecs]
  rcases hbindings : inputs.mapM (Binding.ofValue g.id g.recorder.nextId) with e | bindings
  · simp [Effect.runOn_bind, hm, hmode, hrecordable, hinputs, hspecs, hbindings]
  simp only [Effect.runOn_bind, Effect.runOn_reading, Effect.runOn_get, Effect.runOn_ofOutcome, hm, hmode,
    hrecordable, hinputs, hspecs, hbindings, Outcome.ok_bind]
  rcases if m.memoized then g.recorder.sharedOutputs? id m.name bindings else none with _ | outputs <;> rfl

theorem callAt_runOn (scope name : String) (supplied : List Value) :
    (callAt scope name supplied).runOn g = match g.tree.find? scope with
      | some id => (call id name supplied).runOn g
      | none => (.error (.unknownComponent g.rootScope scope), g) := by
  unfold callAt
  simp only [Effect.runOn_bind, Effect.runOn_get]
  rcases g.tree.find? scope with _ | id <;> rfl

def prepareRaw (g : Graph) (id : NodeId) (name : String) (inputs : List Binding)
    (specs : List (Option TensorSpec)) : Outcome Prepared := do
  g.requireSymbolic
  let (scope, m) ← g.declaredMethod id name
  g.checkRecordable scope m
  if inputs.length ≠ m.inputs.length then .error (.arityMismatch scope name m.inputs.length inputs.length)
  else if specs.length ≠ m.outputs.length then
    .error (.contractViolation scope name (.specCount m.outputs.length specs.length))
  else .ok ⟨scope, m, inputs, specs⟩

theorem recordWith_runOn (id : NodeId) (name : String) (inputs : List Binding) (specs : List (Option TensorSpec)) :
    (recordWith id name inputs specs).runOn g = match g.prepareRaw id name inputs specs with
      | .error e => (.error e, g)
      | .ok p =>
        let pushed := g.recorder.push g.id id p.scope name p.inputs p.specs false
        (.ok pushed.1, { g with recorder := pushed.2 }) := by
  unfold recordWith prepareRaw
  rcases hsymbolic : g.requireSymbolic with e | ⟨⟩
  · simp [Effect.runOn_bind, hsymbolic]
  rcases hm : g.declaredMethod id name with e | ⟨scope, m⟩
  · simp [Effect.runOn_bind, hsymbolic, hm]
  rcases hrecordable : g.checkRecordable scope m with e | ⟨⟩
  · simp [Effect.runOn_bind, hsymbolic, hm, hrecordable]
  by_cases hinputs : inputs.length = m.inputs.length
  · by_cases hspecs : specs.length = m.outputs.length
    · simp only [Effect.runOn_bind, Effect.runOn_reading, hsymbolic, hm, hrecordable, hinputs, hspecs,
        Outcome.ok_bind, ne_eq, not_true_eq_false, if_false]
      rfl
    · simp [Effect.runOn_bind, hsymbolic, hm, hrecordable, hinputs, hspecs]
  · simp [Effect.runOn_bind, hsymbolic, hm, hrecordable, hinputs]

/-! ## What may be recorded -/

section Prepared

variable {id : NodeId} {name scope : String} {supplied : List Value} {inputs : List Binding}
  {specs : List (Option TensorSpec)} {p : Prepared}

theorem declaredMethod_ok {sig : Signature} : g.declaredMethod id name = .ok (scope, sig) ↔
    g.tree.scope? id = some scope ∧ ∃ m, g.tree.method id name = .ok m ∧ sig = m.toSignature := by
  unfold declaredMethod
  rcases g.tree.scope? id with _ | found
  · simp
  · rcases g.tree.method id name with e | m
    · simp
    · simp [eq_comm]

/-- The checks that a call has passed when it is recorded. -/
structure Recordable (g : Graph) (id : NodeId) (name : String) (supplied : List Value) (p : Prepared) (m : Method)
    (ins : List Value) : Prop where
  scope : g.tree.scope? id = some p.scope
  declared : g.tree.method id name = .ok m
  method : p.method = m.toSignature
  state : g.checkRecordable p.scope p.method = .ok ()
  inputs : p.method.completeInputs p.scope supplied = .ok ins
  specs : p.method.inferOutputs (ins.map Value.spec?) = .ok p.specs
  bindings : ins.mapM (Binding.ofValue g.id g.recorder.nextId) = .ok p.inputs

theorem prepareCall_ok (hp : g.prepareCall id name supplied = .ok p) : ∃ m ins, Recordable g id name supplied p m ins := by
  unfold prepareCall at hp
  obtain ⟨⟨scope, sig⟩, hsig, hp⟩ := Outcome.bind_ok.mp hp
  obtain ⟨_, hstate, hp⟩ := Outcome.bind_ok.mp hp
  obtain ⟨ins, hins, hp⟩ := Outcome.bind_ok.mp hp
  obtain ⟨specs, hspecs, hp⟩ := Outcome.bind_ok.mp hp
  obtain ⟨bindings, hbindings, hp⟩ := Outcome.bind_ok.mp hp
  cases hp
  obtain ⟨hscope, m, hm, rfl⟩ := declaredMethod_ok.mp hsig
  exact ⟨m, ins, hscope, hm, rfl, hstate, hins, hspecs, hbindings⟩

theorem prepareRaw_ok (hp : g.prepareRaw id name inputs specs = .ok p) :
    ∃ m, g.tree.method id name = .ok m ∧ specs.length = m.outputs.length ∧ p.inputs = inputs ∧ p.specs = specs := by
  unfold prepareRaw at hp
  obtain ⟨_, -, hp⟩ := Outcome.bind_ok.mp hp
  obtain ⟨⟨scope, sig⟩, hsig, hp⟩ := Outcome.bind_ok.mp hp
  obtain ⟨_, -, hp⟩ := Outcome.bind_ok.mp hp
  obtain ⟨-, m, hm, rfl⟩ := declaredMethod_ok.mp hsig
  split at hp
  · cases hp
  · split at hp
    · cases hp
    · next hspecs =>
      cases hp
      exact ⟨m, hm, not_not.mp hspecs, rfl, rfl⟩

end Prepared

end Graph

/-- What is asked of a graph between builds. -/
inductive Recording where
  | input (name : String) (spec : TensorSpec)
  | call (id : NodeId) (method : String) (inputs : List Value)
  | callAt (scope method : String) (inputs : List Value)
  | raw (id : NodeId) (method : String) (inputs : List Binding) (specs : List (Option TensorSpec))

/-- Carries out a recording, and gives the placeholders that are handed out. -/
def Recording.run : Recording → Effect Graph (List Placeholder)
  | .input name spec => do return [← Graph.input name spec]
  | .call id method inputs => do return (← Graph.call id method inputs).values.filterMap Value.placeholder?
  | .callAt scope method inputs => do
    return (← Graph.callAt scope method inputs).values.filterMap Value.placeholder?
  | .raw id method inputs specs => do return (← Graph.recordWith id method inputs specs).reduceOption

theorem Recorder.declare_ok {r r' : Recorder} {name : String} {spec : TensorSpec} :
    r.declare name spec = .ok r' ↔ r.feeds.lookup name = none ∧ r' = { r with feeds := r.feeds ++ [(name, spec)] } ∨
      r.feeds.lookup name = some spec ∧ r' = r := by
  unfold declare
  rcases r.feeds.lookup name with _ | declared
  · simp [eq_comm]
  · by_cases hsame : declared = spec
    · simp [hsame, eq_comm]
    · simp [hsame]

/-- One step of a recorder, and what it hands out: an input is declared, or was declared before; an
    invocation is appended, or an earlier one is shared. -/
inductive Recorder.Step (graph : Nat) (r : Recorder) : List Placeholder → Recorder → Prop
  | declare {name spec} : r.feeds.lookup name = none →
      Step graph r [⟨graph, .feed name, spec⟩] { r with feeds := r.feeds ++ [(name, spec)] }
  | declared {name spec} : r.feeds.lookup name = some spec → Step graph r [⟨graph, .feed name, spec⟩] r
  | push (component scope method inputs specs share) :
      Step graph r (Recorder.allocate graph r.nextId specs).reduceOption
        (r.push graph component scope method inputs specs share).2
  | share {earlier} : earlier ∈ r.pending → Step graph r earlier.outputs.reduceOption r

theorem Graph.placeholders_handed (m : Signature) (outputs : List (Option Placeholder)) :
    (Graph.placeholders m outputs).values.filterMap Value.placeholder? = outputs.reduceOption := by
  simp only [Graph.placeholders, Outputs.of, List.filterMap_map, List.reduceOption]
  congr 1
  funext p
  cases p <;> rfl

/-- A shared record is one of those that are pending, and the call would repeat it. -/
theorem Recorder.mem_of_shared {r : Recorder} {component : NodeId} {method : String} {inputs : List Binding}
    {outputs : List (Option Placeholder)} (h : r.sharedOutputs? component method inputs = some outputs) :
    ∃ earlier ∈ r.pending, earlier.outputs = outputs ∧ earlier.repeats component method inputs = true := by
  obtain ⟨id, -, hid⟩ := List.exists_of_findSome?_eq_some h
  split at hid
  · next earlier hfind =>
    split at hid
    · next hrepeats => exact ⟨earlier, List.mem_of_find?_eq_some hfind, Option.some.inj hid, hrepeats⟩
    · cases hid
  · cases hid

namespace Recording

variable {g g' : Graph}

theorem call_step (hmode : g.backend.mode = .symbolic) {id : NodeId} {name : String} {supplied : List Value}
    {o : Outputs} (h : (Graph.call id name supplied).runOn g = (.ok o, g')) :
    ∃ r, g' = { g with recorder := r } ∧
      Recorder.Step g.id g.recorder (o.values.filterMap Value.placeholder?) r := by
  rw [Graph.call_runOn hmode] at h
  split at h
  · cases h
  · next p hp =>
    split at h
    · next outputs hshared =>
      cases h
      unfold Graph.shared? at hshared
      split at hshared
      · obtain ⟨earlier, hmem, rfl, -⟩ := Recorder.mem_of_shared hshared
        refine ⟨g.recorder, rfl, ?_⟩
        rw [Graph.placeholders_handed]
        exact .share hmem
      · cases hshared
    · cases h
      refine ⟨_, rfl, ?_⟩
      rw [Graph.placeholders_handed]
      exact .push ..

/-- A recording that succeeds takes the recorder one step further and touches nothing else. -/
theorem step (hmode : g.backend.mode = .symbolic) {x : Recording} {ps : List Placeholder}
    (h : x.run.runOn g = (.ok ps, g')) :
    ∃ r, g' = { g with recorder := r } ∧ Recorder.Step g.id g.recorder ps r := by
  cases x with
  | input name spec =>
    obtain ⟨p, hinput, rfl⟩ := Effect.bind_pure_ok.mp h
    rw [Graph.input_runOn hmode] at hinput
    split at hinput
    · cases hinput
    · next r hdeclare =>
      cases hinput
      rcases Recorder.declare_ok.mp hdeclare with ⟨hnew, rfl⟩ | ⟨hold, rfl⟩
      · exact ⟨_, rfl, .declare hnew⟩
      · exact ⟨_, rfl, .declared hold⟩
  | call id name supplied =>
    obtain ⟨o, hcall, rfl⟩ := Effect.bind_pure_ok.mp h
    exact call_step hmode hcall
  | callAt scope name supplied =>
    obtain ⟨o, hcall, rfl⟩ := Effect.bind_pure_ok.mp h
    rw [Graph.callAt_runOn] at hcall
    split at hcall
    · exact call_step hmode hcall
    · cases hcall
  | raw id name inputs specs =>
    obtain ⟨outputs, hraw, rfl⟩ := Effect.bind_pure_ok.mp h
    rw [Graph.recordWith_runOn] at hraw
    split at hraw
    · cases hraw
    · cases hraw
      exact ⟨_, rfl, .push ..⟩

theorem call_error (hmode : g.backend.mode = .symbolic) {id : NodeId} {name : String} {supplied : List Value}
    {e : GraphError} (h : (Graph.call id name supplied).runOn g = (.error e, g')) : g' = g := by
  rw [Graph.call_runOn hmode] at h
  split at h
  · cases h
    rfl
  · split at h <;> cases h

/-- A recording that fails leaves the graph as it was. -/
theorem error (hmode : g.backend.mode = .symbolic) {x : Recording} {e : GraphError}
    (h : x.run.runOn g = (.error e, g')) : g' = g := by
  cases x with
  | input name spec =>
    have hinput := Effect.bind_pure_error h
    rw [Graph.input_runOn hmode] at hinput
    split at hinput
    · cases hinput
      rfl
    · cases hinput
  | call id name supplied => exact call_error hmode (Effect.bind_pure_error h)
  | callAt scope name supplied =>
    have hcall := Effect.bind_pure_error h
    rw [Graph.callAt_runOn] at hcall
    split at hcall
    · exact call_error hmode hcall
    · cases hcall
      rfl
  | raw id name inputs specs =>
    have hraw := Effect.bind_pure_error h
    rw [Graph.recordWith_runOn] at hraw
    split at hraw
    · cases hraw
      rfl
    · cases hraw

end Recording

/-! ## What a recording makes -/

/-- One more record, which later calls may share or not. -/
def Recorder.append (r : Recorder) (x : Invocation) (share : Bool) : Recorder :=
  { r with
    nextId := r.nextId + 1
    pending := r.pending ++ [x]
    shared := if share then r.shared ++ [x.id] else r.shared }

/-- The record of a call of node `id`. -/
def Graph.invocation (g : Graph) (id : NodeId) (name : String) (p : Prepared) : Invocation :=
  ⟨g.recorder.nextId, id, p.scope, name, p.inputs, Recorder.allocate g.id g.recorder.nextId p.specs⟩

namespace Recording

variable {g : Graph} {x : Recording}

/-- The node, the method and the inputs of a recording that is a call. -/
def call? (t : Tree) : Recording → Option (NodeId × String × List Value)
  | .call id name supplied => some (id, name, supplied)
  | .callAt scope name supplied => (t.find? scope).map fun id => (id, name, supplied)
  | _ => none

/-- The record that a recording appends, and whether later calls may share it. -/
inductive Makes (g : Graph) (x : Recording) : Invocation → Bool → Prop
  | call {id : NodeId} {name : String} {supplied : List Value} {p : Graph.Prepared} :
      x.call? g.tree = some (id, name, supplied) → g.prepareCall id name supplied = .ok p → g.shared? id p = none →
      Makes g x (g.invocation id p.method.name p) p.method.memoized
  | raw {id : NodeId} {name : String} {inputs : List Binding} {specs : List (Option TensorSpec)}
      {p : Graph.Prepared} : x = .raw id name inputs specs → g.prepareRaw id name inputs specs = .ok p →
      Makes g x (g.invocation id name p) false

/-- Everything that a recording can leave behind: more declared inputs, or one more record. -/
inductive Leaves (g : Graph) (x : Recording) : Graph → Prop
  | feeds {feeds : List (String × TensorSpec)} : g.recorder.feeds <+: feeds →
      Leaves g x { g with recorder := { g.recorder with feeds } }
  | record {r : Invocation} {share : Bool} : Makes g x r share →
      Leaves g x { g with recorder := g.recorder.append r share }

/-- A recording that is a call hands out what the call gives. -/
theorem run_of_call {id : NodeId} {name : String} {supplied : List Value}
    (hcall : x.call? g.tree = some (id, name, supplied)) : x.run.runOn g =
      (do return (← Graph.call id name supplied).values.filterMap Value.placeholder? : Effect Graph _).runOn g := by
  cases x with
  | input | raw => cases hcall
  | call =>
    cases hcall
    rfl
  | callAt scope =>
    obtain ⟨_, hfind, hsame⟩ := Option.map_eq_some_iff.mp hcall
    cases hsame
    simp only [run, Effect.runOn_bind, Graph.callAt_runOn, hfind]

theorem run_call (hmode : g.backend.mode = .symbolic) {id : NodeId} {name : String} {supplied : List Value}
    (hcall : x.call? g.tree = some (id, name, supplied)) : x.run.runOn g =
      match g.prepareCall id name supplied with
      | .error e => (.error e, g)
      | .ok p => match g.shared? id p with
        | some outputs => (.ok outputs.reduceOption, g)
        | none =>
          let r := g.invocation id p.method.name p
          (.ok r.outputs.reduceOption, { g with recorder := g.recorder.append r p.method.memoized }) := by
  rw [run_of_call hcall, Effect.runOn_bind, Graph.call_runOn hmode]
  rcases g.prepareCall id name supplied with e | p
  · rfl
  · dsimp only
    rcases g.shared? id p with _ | outputs
    · simp only [Effect.runOn_pure, Graph.placeholders_handed]
      rfl
    · simp only [Effect.runOn_pure, Graph.placeholders_handed]

theorem Leaves.same : Leaves g x g := .feeds (List.prefix_refl g.recorder.feeds)

theorem leaves_call (hmode : g.backend.mode = .symbolic) {id : NodeId} {name : String} {supplied : List Value}
    (hcall : x.call? g.tree = some (id, name, supplied)) : Leaves g x (x.run.runOn g).2 := by
  rw [run_call hmode hcall]
  rcases hp : g.prepareCall id name supplied with e | p
  · exact .same
  · dsimp only
    rcases hshared : g.shared? id p with _ | outputs
    · exact .record (.call hcall hp hshared)
    · exact .same

theorem run_leaves (hmode : g.backend.mode = .symbolic) (x : Recording) : Leaves g x (x.run.runOn g).2 := by
  cases x with
  | input name spec =>
    rw [run, Effect.runOn_bind, Graph.input_runOn hmode]
    rcases hdeclare : g.recorder.declare name spec with e | r
    · exact .same
    · rcases Recorder.declare_ok.mp hdeclare with ⟨-, rfl⟩ | ⟨-, rfl⟩
      · exact .feeds (List.prefix_append _ _)
      · exact .same
  | call id name supplied => exact leaves_call hmode rfl
  | callAt scope name supplied =>
    rcases hfind : g.tree.find? scope with _ | id
    · rw [run, Effect.runOn_bind, Graph.callAt_runOn, hfind]
      exact .same
    · have hcall : (callAt scope name supplied).call? g.tree = some (id, name, supplied) := by
        rw [call?, hfind, Option.map_some]
      exact leaves_call hmode hcall
  | raw id name inputs specs =>
    rw [run, Effect.runOn_bind, Graph.recordWith_runOn]
    rcases hp : g.prepareRaw id name inputs specs with e | p
    · exact .same
    · exact .record (.raw rfl hp)

end Recording

end ComponentFlow
