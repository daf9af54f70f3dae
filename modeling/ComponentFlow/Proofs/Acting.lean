/-
  ComponentFlow.Proofs.Acting — the two methods of an actor choose the same action. One asks the policy for an
  action, the other for the scores and then for the action of these. Both come to the same acts: the state
  that the preprocessor makes, the scores of the policy for it, the action picked from them, and what
  exploration puts in its place (`Actor.answer_actGreedily`, `Actor.answer_actWithProbabilities`). So one method
  succeeds where the other does, and they agree on what both return (`Actor.methods_agree`).
-/
import ComponentFlow.Layers.Actor
import ComponentFlow.Proofs.Choosing
import ComponentFlow.Proofs.Construction

namespace ComponentFlow

/-- Completing inputs depends on the name of a method in errors only. -/
theorem Signature.completeInputs_congr {m m' : Signature} (hinputs : m.inputs = m'.inputs) {scope : String}
    {vs ins : List Value} : m.completeInputs scope vs = .ok ins ↔ m'.completeInputs scope vs = .ok ins := by
  have hdefaults : ∀ (slots : List InputSlot) (filled : Nat) (rest : List Value),
      m.fillDefaults scope filled slots = .ok rest ↔ m'.fillDefaults scope filled slots = .ok rest := by
    intro slots
    induction slots with
    | nil => exact fun _ _ => Iff.rfl
    | cons slot slots ih =>
      intro filled rest
      unfold fillDefaults
      split
      · simp
      · simp only [Outcome.map_ok, ih]
      · simp only [Outcome.map_ok, ih]
  unfold completeInputs
  dsimp only
  rw [hinputs]
  split
  · simp
  · simp only [Outcome.map_ok, hdefaults]

namespace Layers.Actor

open Policy (Scores)

/-- What an actor comes to: the state it made, its scores, the action picked from them, and the one taken. -/
structure Acts where
  state : Value
  scores : Scores
  picked : Value
  action : Value

/-! ## Bodies -/

section Bodies

variable {site : Site Tally} {explores : Bool} {contract : Contract} {x i step flag : Value}

/-- The state that the preprocessor makes. -/
def prepared (site : Site Tally) (x : Value) : Outcome Value := do
  (← (site.call preprocessorChild preprocess [x]).outcome).first

/-- What exploration puts in the place of an action, if there is any. -/
def explored (explores : Bool) (site : Site Tally) (action step flag : Value) : Outcome Value :=
  if explores then do (← (site.call explorationChild getAction [action, step, flag]).outcome).first else .ok action

variable (h : site.Settled)
include h

theorem run_actGreedily : ((actGreedilyMethod explores contract).body.run site [x, i, step, flag]).outcome = (do
    let state ← prepared site x
    let chosen ← (site.call policyChild getAction [state, i]).outcome
    let action ← explored explores site (← chosen.output "action") step flag
    return [state, action, ← chosen.output "last_internal_states"]) := by
  cases explores
  all_goals
    refine (Body.outcome_run _ _).trans ?_
    simp only [Body.outcome_runSteps h, Body.outcome_runSteps_nil, Step.call,
      Body.perform_call, if_true, Bool.false_eq_true, if_false, List.mapM_cons, List.mapM_nil, Frame.resolve,
      Frame.orBadReference, List.nil_append, List.cons_append, List.getElem?_cons_zero, List.getElem?_cons_succ,
      Outcome.ok_bind, bind_assoc, pure_bind, prepared, explored]
    refine bind_congr fun made => ?_
    rcases made.first with e | state
    · rfl
    · simp only [Outcome.ok_bind]

theorem run_actWithProbabilities :
    ((actWithProbabilitiesMethod explores contract).body.run site [x, i, step, flag]).outcome = (do
      let state ← prepared site x
      let scored ← (site.call policyChild getDistribution [state, i]).outcome
      let logits ← scored.output "logits"
      let parameters ← scored.output "parameters"
      let chosen ← (site.call policyChild pickAction [logits, parameters]).outcome
      let action ← explored explores site (← chosen.output "action") step flag
      return [state, action, parameters, ← scored.output "last_internal_states"]) := by
  cases explores
  all_goals
    refine (Body.outcome_run _ _).trans ?_
    simp only [Body.outcome_runSteps h, Body.outcome_runSteps_nil, Step.call,
      Body.perform_call, if_true, Bool.false_eq_true, if_false, List.mapM_cons, List.mapM_nil, Frame.resolve,
      Frame.orBadReference, List.nil_append, List.cons_append, List.getElem?_cons_zero, List.getElem?_cons_succ,
      Outcome.ok_bind, bind_assoc, pure_bind, prepared, explored]
    refine bind_congr fun made => ?_
    rcases made.first with e | state
    · rfl
    simp only [Outcome.ok_bind]
    refine bind_congr fun scored => bind_congr fun logits => ?_
    rcases scored.output "parameters" with e | parameters
    · rfl
    · simp only [Outcome.ok_bind]

end Bodies

/-! ## Acts -/

/-- What an actor and its policy come to at their places. -/
def acts (explores : Bool) (site policySite : Site Tally) (x step flag : Value) : Outcome Acts := do
  let state ← prepared site x
  let scores ← Policy.scores policySite state
  let picked ← Policy.picked policySite scores.logits
  let action ← explored explores site picked step flag
  return ⟨state, scores, picked, action⟩

theorem acts_ok {explores : Bool} {site policySite : Site Tally} {x step flag : Value} {c : Acts} :
    acts explores site policySite x step flag = .ok c ↔ prepared site x = .ok c.state ∧
      Policy.scores policySite c.state = .ok c.scores ∧ Policy.picked policySite c.scores.logits = .ok c.picked ∧
      explored explores site c.picked step flag = .ok c.action := by
  simp only [acts, Outcome.bind_ok, pure, Except.pure, Except.ok.injEq]
  constructor
  · rintro ⟨state, hstate, s, hs, a, ha, action, haction, rfl⟩
    exact ⟨hstate, hs, ha, haction⟩
  · rintro ⟨hstate, hs, ha, haction⟩
    exact ⟨_, hstate, _, hs, _, ha, _, haction, rfl⟩

/-- The contract of an actor whose policy has `n` actions. -/
def contractWith (preprocessed : OutputRule) (n : Nat) : Contract :=
  ⟨preprocessed, Policy.actionRule, Policy.perAction n, .absent⟩

theorem contractOf_policy {preprocessor : Component} {n : Nat} {contract : Contract}
    (h : contractOf preprocessor (Policy.component n) = .ok contract) :
    ∃ preprocessed, contract = contractWith preprocessed n := by
  obtain ⟨preprocessed, -, h⟩ := Outcome.bind_ok.mp h
  obtain ⟨action, haction, h⟩ := Outcome.bind_ok.mp h
  obtain ⟨probabilities, hprobabilities, h⟩ := Outcome.bind_ok.mp h
  obtain ⟨internal, hinternal, h⟩ := Outcome.bind_ok.mp h
  cases haction
  cases hprobabilities
  cases hinternal
  cases h
  exact ⟨preprocessed, rfl⟩

section Checks

variable {explores : Bool} {preprocessed : OutputRule} {n : Nat} {scope : String} {ins : List (Option TensorSpec)}
  {state action : Value}

theorem check_actGreedily : (actGreedilyMethod explores (contractWith preprocessed n)).checkOutputs scope ins
    [state, action, .absent] = .ok () ↔ preprocessed.Kept ins state ∧ Policy.FitAction action := by
  simp [Signature.checkOutputs_kept, actGreedilyMethod, contractWith, Policy.actionRule, OutputRule.kept_fixed,
    OutputRule.kept_absent, meets_absent, Policy.FitAction]

theorem check_actWithProbabilities {s : Scores} (hfit : s.Fit n) :
    (actWithProbabilitiesMethod explores (contractWith preprocessed n)).checkOutputs scope ins
      [state, action, s.parameters, .absent] = .ok () ↔ preprocessed.Kept ins state ∧ Policy.FitAction action := by
  have hparameters : Meets (some ⟨.f32, [batch, .fixed n]⟩) s.parameters.spec? := hfit _ (by simp)
  simp [Signature.checkOutputs_kept, actWithProbabilitiesMethod, contractWith, Policy.actionRule, Policy.perAction,
    OutputRule.kept_fixed, OutputRule.kept_absent, meets_absent, Policy.FitAction, hparameters]

end Checks

/-! ## Answers -/

section Answers

variable {t : Tree} {k : Kernels} {depth : Nat} {id p : NodeId} {explores : Bool} {preprocessed : OutputRule} {n : Nat}
  {vs : List Value} {o : Outputs}

/-- What both methods of the actor at `id` come to, whose policy is at `p`. -/
structure Does (t : Tree) (k : Kernels) (depth : Nat) (id p : NodeId) (explores : Bool) (preprocessed : OutputRule)
    (n : Nat) (vs : List Value) (c : Acts) : Prop where
  acts : ∃ x i step flag, (actGreedilyMethod explores (contractWith preprocessed n)).completeInputs (t.displayName id)
    vs = .ok [x, i, step, flag] ∧
    Actor.acts explores (t.site k (depth + 1) id) (t.site k depth p) x step flag = .ok c ∧
    preprocessed.Kept ([x, i, step, flag].map Value.spec?) c.state
  picked : Policy.FitAction c.picked
  scores : c.scores.Fit n
  action : Policy.FitAction c.action

theorem Does.unique {c c' : Acts} (h : Does t k depth id p explores preprocessed n vs c)
    (h' : Does t k depth id p explores preprocessed n vs c') : c = c' := by
  obtain ⟨⟨x, i, step, flag, hins, hacts, -⟩, -, -, -⟩ := h
  obtain ⟨⟨x', i', step', flag', hins', hacts', -⟩, -, -, -⟩ := h'
  cases hins.symm.trans hins'
  exact Except.ok.inj (hacts.symm.trans hacts')

/-- The inputs of an actor are four. -/
theorem inputs_completed {m : Signature} (hm : m.inputs = inputs) {scope : String} {ins : List Value}
    (h : m.completeInputs scope vs = .ok ins) : ∃ x i step flag, ins = [x, i, step, flag] := by
  have hlength : ins.length = 4 := (Signature.length_completeInputs h).trans (congrArg List.length hm)
  match ins, hlength with
  | [x, i, step, flag], _ => exact ⟨x, i, step, flag, rfl⟩

variable {title title' : String} {children children' : List Assembly}
  (hactor : t.Bears id (.mk title (component explores (contractWith preprocessed n)) children))
  (hpolicy : t.Bears p (.mk title' (Policy.component n) children')) (hchild : t.child? id policyChild = some p)
include hactor hpolicy hchild

theorem answer_actGreedily : t.answer k (depth + 2) id actGreedily vs = .ok o ↔ ∃ c,
    Does t k depth id p explores preprocessed n vs c ∧
      o = Outputs.of (actGreedilyMethod explores (contractWith preprocessed n)).toSignature
        [c.state, c.action, .absent] := by
  have hm : (component explores (contractWith preprocessed n)).method? actGreedily =
      some (actGreedilyMethod explores (contractWith preprocessed n)) := rfl
  have hone : ∀ i : Value, [i].length ≤ 1 := fun _ => Nat.le_refl _
  rw [hactor.answer_ok hm]
  constructor
  · rintro ⟨ins, values, hins, hrun, hcheck, rfl⟩
    obtain ⟨x, i, step, flag, rfl⟩ := inputs_completed rfl hins
    rw [run_actGreedily (t.settled_site k _ id)] at hrun
    obtain ⟨state, hstate, hrun⟩ := Outcome.bind_ok.mp hrun
    obtain ⟨chosen, hchosen, hrun⟩ := Outcome.bind_ok.mp hrun
    rw [Tree.outcome_call hchild, Policy.answer_getAction hpolicy (hone i)] at hchosen
    obtain ⟨s, a, hs, ha, hpicked, hfit, rfl⟩ := hchosen
    obtain ⟨_, ⟨⟩, hrun⟩ := Outcome.bind_ok.mp hrun
    obtain ⟨action, hexplored, hrun⟩ := Outcome.bind_ok.mp hrun
    obtain ⟨_, ⟨⟩, ⟨⟩⟩ := Outcome.bind_ok.mp hrun
    obtain ⟨hkept, haction⟩ := check_actGreedily.mp hcheck
    exact ⟨⟨state, s, a, action⟩, ⟨⟨x, i, step, flag, hins, acts_ok.mpr ⟨hstate, hs, ha, hexplored⟩, hkept⟩, hpicked,
      hfit, haction⟩, rfl⟩
  · rintro ⟨c, ⟨⟨x, i, step, flag, hins, hacts, hkept⟩, hpicked, hfit, haction⟩, rfl⟩
    obtain ⟨hstate, hs, ha, hexplored⟩ := acts_ok.mp hacts
    have hchosen := (Policy.answer_getAction hpolicy (hone i)).mpr ⟨c.scores, c.picked, hs, ha, hpicked, hfit, rfl⟩
    refine ⟨_, [c.state, c.action, .absent], hins, ?_, check_actGreedily.mpr ⟨hkept, haction⟩, rfl⟩
    have hname : (Outputs.of (Policy.getActionMethod n).toSignature (c.picked :: c.scores.values)).output "action" =
        .ok c.picked := rfl
    rw [run_actGreedily (t.settled_site k _ id), hstate, Outcome.ok_bind, Tree.outcome_call hchild, hchosen,
      Outcome.ok_bind, hname, Outcome.ok_bind, hexplored]
    rfl

theorem answer_actWithProbabilities : t.answer k (depth + 2) id actWithProbabilities vs = .ok o ↔ ∃ c,
    Does t k depth id p explores preprocessed n vs c ∧
      o = Outputs.of (actWithProbabilitiesMethod explores (contractWith preprocessed n)).toSignature
        [c.state, c.action, c.scores.parameters, .absent] := by
  have hm : (component explores (contractWith preprocessed n)).method? actWithProbabilities =
      some (actWithProbabilitiesMethod explores (contractWith preprocessed n)) := rfl
  have hsame : (actWithProbabilitiesMethod explores (contractWith preprocessed n)).inputs =
      (actGreedilyMethod explores (contractWith preprocessed n)).inputs := rfl
  have hone : ∀ i : Value, [i].length ≤ 1 := fun _ => Nat.le_refl _
  rw [hactor.answer_ok hm]
  constructor
  · rintro ⟨ins, values, hins, hrun, hcheck, rfl⟩
    obtain ⟨x, i, step, flag, rfl⟩ := inputs_completed rfl hins
    rw [run_actWithProbabilities (t.settled_site k _ id)] at hrun
    obtain ⟨state, hstate, hrun⟩ := Outcome.bind_ok.mp hrun
    obtain ⟨scored, hscored, hrun⟩ := Outcome.bind_ok.mp hrun
    rw [Tree.outcome_call hchild, Policy.answer_getDistribution hpolicy (hone i)] at hscored
    obtain ⟨s, hs, hfit, rfl⟩ := hscored
    obtain ⟨_, ⟨⟩, hrun⟩ := Outcome.bind_ok.mp hrun
    obtain ⟨_, ⟨⟩, hrun⟩ := Outcome.bind_ok.mp hrun
    obtain ⟨chosen, hchosen, hrun⟩ := Outcome.bind_ok.mp hrun
    rw [Tree.outcome_call hchild, Policy.answer_pickAction hpolicy] at hchosen
    obtain ⟨a, ha, hpicked, rfl⟩ := hchosen
    obtain ⟨_, ⟨⟩, hrun⟩ := Outcome.bind_ok.mp hrun
    obtain ⟨action, hexplored, hrun⟩ := Outcome.bind_ok.mp hrun
    obtain ⟨_, ⟨⟩, ⟨⟩⟩ := Outcome.bind_ok.mp hrun
    obtain ⟨hkept, haction⟩ := (check_actWithProbabilities hfit).mp hcheck
    exact ⟨⟨state, s, a, action⟩, ⟨⟨x, i, step, flag, (Signature.completeInputs_congr hsame).mp hins,
      acts_ok.mpr ⟨hstate, hs, ha, hexplored⟩, hkept⟩, hpicked, hfit, haction⟩, rfl⟩
  · rintro ⟨c, ⟨⟨x, i, step, flag, hins, hacts, hkept⟩, hpicked, hfit, haction⟩, rfl⟩
    obtain ⟨hstate, hs, ha, hexplored⟩ := acts_ok.mp hacts
    have hscored := (Policy.answer_getDistribution hpolicy (hone i)).mpr ⟨c.scores, hs, hfit, rfl⟩
    have hchosen : t.answer k (depth + 1) p pickAction [c.scores.logits, c.scores.parameters] = _ :=
      (Policy.answer_pickAction hpolicy).mpr ⟨c.picked, ha, hpicked, rfl⟩
    refine ⟨_, [c.state, c.action, c.scores.parameters, .absent], (Signature.completeInputs_congr hsame).mpr hins, ?_,
      (check_actWithProbabilities hfit).mpr ⟨hkept, haction⟩, rfl⟩
    have hlogits : (Outputs.of (Policy.getDistributionMethod n).toSignature c.scores.values).output "logits" =
        .ok c.scores.logits := rfl
    have hparameters : (Outputs.of (Policy.getDistributionMethod n).toSignature c.scores.values).output "parameters" =
        .ok c.scores.parameters := rfl
    have hname : (Outputs.of Policy.pickActionMethod.toSignature [c.picked]).output "action" = .ok c.picked := rfl
    rw [run_actWithProbabilities (t.settled_site k _ id), hstate, Outcome.ok_bind, Tree.outcome_call hchild, hscored,
      Outcome.ok_bind, hlogits, Outcome.ok_bind, hparameters, Outcome.ok_bind, Tree.outcome_call hchild, hchosen,
      Outcome.ok_bind, hname, Outcome.ok_bind, hexplored]
    rfl

end Answers

/-! ## Both methods -/

/-- Below an actor stands its policy. -/
theorem ofParts_bears {preprocessor network adapter policy actor : Assembly} {exploration : Option Assembly}
    {name title : String} (hpolicy : Policy.withAdapter network adapter = .ok policy)
    (hactor : ofParts preprocessor (policy.renamed name) exploration = .ok actor) {t : Tree} {id : NodeId}
    (h : t.Bears id (actor.renamed title)) : ∃ p n preprocessed children children',
      t.child? id policyChild = some p ∧ t.Bears p (.mk policyChild (Policy.component n) children') ∧
      actor.renamed title = .mk title (component exploration.isSome (contractWith preprocessed n)) children := by
  obtain ⟨n, -, rfl⟩ := Policy.withAdapter_ok hpolicy
  obtain ⟨-, -, -, contract, hcontract, rfl⟩ := ofParts_ok hactor
  obtain ⟨preprocessed, rfl⟩ := contractOf_policy hcontract
  obtain ⟨p, hchild, hbears⟩ := h.child (List.mem_append_left _ (List.mem_cons_of_mem _ (List.mem_singleton_self _)))
  exact ⟨p, n, preprocessed, _, _, hchild, hbears, rfl⟩

/-- The two methods of an actor, whatever its preprocessor, its policy's network and adapter and its exploration are,
    called on the same inputs. One succeeds exactly if the other does. Both return the same state, the same action and
    the same internal states, and the probabilities that one of them returns are the parameters that the policy
    gives for this state. -/
theorem methods_agree {preprocessor network adapter policy actor : Assembly} {exploration : Option Assembly}
    {name title : String} (hpolicy : Policy.withAdapter network adapter = .ok policy)
    (hactor : ofParts preprocessor (policy.renamed name) exploration = .ok actor) {g : Graph} {k : Kernels}
    {id : NodeId} (h : g.Hosts k id (actor.renamed title)) (vs : List Value) :
    let greedy := ((Graph.call id actGreedily vs).runOn g).1
    let full := ((Graph.call id actWithProbabilities vs).runOn g).1
    ((∃ o, greedy = .ok o) ↔ ∃ o, full = .ok o) ∧ ∀ o o', greedy = .ok o → full = .ok o' →
      (∀ output ∈ ["preprocessed_state", "action", "last_internal_states"],
        ∃ v, o.output output = .ok v ∧ o'.output output = .ok v) ∧
      ∃ p state scored v, g.tree.child? id policyChild = some p ∧ o.output "preprocessed_state" = .ok state ∧
        g.tree.Gives k p getDistribution [state] scored ∧
        (Graph.isRecorded state = false → ((Graph.call p getDistribution [state]).runOn g).1 = .ok scored) ∧
        scored.output "parameters" = .ok v ∧ o'.output "action_probs" = .ok v := by
  intro greedy full
  obtain ⟨p, n, preprocessed, children, children', hchild, hbears, hname⟩ := ofParts_bears hpolicy hactor h.bears
  rw [hname] at h
  obtain ⟨depth, hdepth⟩ := Nat.exists_eq_add_of_le' (h.bears.forest.two_le hchild)
  have hgreedy : ∀ {o}, greedy = .ok o ↔ _ := h.call (m := actGreedilyMethod exploration.isSome _) rfl
  have hfull : ∀ {o}, full = .ok o ↔ _ := h.call (m := actWithProbabilitiesMethod exploration.isSome _) rfl
  simp only [hdepth, answer_actGreedily h.bears hbears hchild] at hgreedy
  simp only [hdepth, answer_actWithProbabilities h.bears hbears hchild] at hfull
  refine ⟨⟨?_, ?_⟩, fun o o' ho ho' => ?_⟩
  · rintro ⟨o, ho⟩
    obtain ⟨hscope, hprepare, hvs, c, hdoes, -⟩ := hgreedy.mp ho
    exact ⟨_, hfull.mpr ⟨hscope, hprepare, hvs, c, hdoes, rfl⟩⟩
  · rintro ⟨o, ho⟩
    obtain ⟨hscope, hprepare, hvs, c, hdoes, -⟩ := hfull.mp ho
    exact ⟨_, hgreedy.mpr ⟨hscope, hprepare, hvs, c, hdoes, rfl⟩⟩
  · obtain ⟨⟨scope, hscope⟩, hprepare, hvs, c, hdoes, rfl⟩ := hgreedy.mp ho
    obtain ⟨-, -, -, c', hdoes', rfl⟩ := hfull.mp ho'
    obtain rfl := hdoes.unique hdoes'
    obtain ⟨⟨x, i, step, flag, -, hacts, -⟩, -, hfit, -⟩ := hdoes
    have hanswer : g.tree.answer k (depth + 1) p getDistribution [c.state] = _ :=
      (Policy.answer_getDistribution hbears (Nat.zero_le _)).mpr ⟨c.scores, (acts_ok.mp hacts).2.1, hfit, rfl⟩
    have hdeep := Tree.answer_mono (Nat.le_of_succ_le (Nat.le_of_eq hdepth.symm)) hanswer
    have hunder : g.tree.Under p Tree.root :=
      .head (h.bears.forest.child_iff.mp hchild).1 (h.bears.forest.scope_isSome.mp (Option.isSome_of_eq_some hscope))
    have hplace := Option.isSome_iff_exists.mp (h.bears.forest.scope_isSome.mpr hunder)
    have hosts : g.Hosts k p (.mk policyChild (Policy.component n) children') := ⟨h.backend, hbears⟩
    have hcall : ∀ {out}, ((Graph.call p getDistribution [c.state]).runOn g).1 = .ok out ↔ _ :=
      hosts.call (m := Policy.getDistributionMethod n) rfl
    refine ⟨?_, p, c.state, _, c.scores.parameters, hchild, rfl, Tree.answer_gives.mp hdeep, fun hstate => ?_, rfl, rfl⟩
    · simp only [List.forall_mem_cons, List.not_mem_nil, false_imp_iff, implies_true, and_true]
      exact ⟨⟨_, rfl, rfl⟩, ⟨_, rfl, rfl⟩, ⟨_, rfl, rfl⟩⟩
    · exact hcall.mpr ⟨hplace, hprepare, List.forall_mem_singleton.mpr hstate, hdeep⟩

/-- A policy for two features and two actions. -/
def reflexes : Outcome Assembly :=
  Policy.withAdapter (.leaf denseKind (dense { inFeatures := 2, units := 3, activation := .relu }))
    (Policy.freshAdapter 3 2 7)

/-- An actor that scales what it sees and explores, on top of a policy. -/
def scout (policy : Assembly) : Outcome Assembly := do
  let exploration ← Exploration.ofSchedule ⟨2, 1, 0, 10, 5⟩
  ofParts (.leaf scaleKind (scale 2)) (policy.renamed "reflexes") (some (.leaf Exploration.kind exploration))

/-- One observation of two features. -/
def glimpse : List Value := [.tensor (Tensor.ones ⟨[1, 2]⟩)]

theorem scout_agrees : ∃ policy actor t o o' v, reflexes = .ok policy ∧ scout policy = .ok actor ∧
    Tree.ofAssembly (actor.renamed "scout") = .ok t ∧
    ((Graph.call Tree.root actGreedily glimpse).runOn (.fresh 0 t ⟨.immediate, .reference⟩)).1 = .ok o ∧
    ((Graph.call Tree.root actWithProbabilities glimpse).runOn (.fresh 0 t ⟨.immediate, .reference⟩)).1 = .ok o' ∧
    o.output "action" = .ok v ∧ o'.output "action" = .ok v := by
  have hrun : (do
      let policy ← reflexes
      let actor ← scout policy
      let t ← Tree.ofAssembly (actor.renamed "scout")
      ((Graph.call Tree.root actGreedily glimpse).runOn (.fresh 0 t ⟨.immediate, .reference⟩)).1).toOption.isSome =
        true := by
    decide +kernel
  obtain ⟨o, ho⟩ := Option.isSome_iff_exists.mp hrun
  obtain ⟨policy, hpolicy, ho⟩ := Outcome.bind_ok.mp (Outcome.toOption_ok.mp ho)
  obtain ⟨actor, hactor, ho⟩ := Outcome.bind_ok.mp ho
  obtain ⟨t, ht, ho⟩ := Outcome.bind_ok.mp ho
  have hparts := hactor
  obtain ⟨exploration, -, hparts⟩ := Outcome.bind_ok.mp hparts
  obtain ⟨hboth, hsame⟩ := methods_agree hpolicy hparts (Graph.hosts_fresh ht .reference 0) glimpse
  obtain ⟨o', ho'⟩ := hboth.mp ⟨o, ho⟩
  obtain ⟨v, hv, hv'⟩ := (hsame o o' ho ho').1 "action" (by simp)
  exact ⟨policy, actor, t, o, o', v, hpolicy, hactor, ht, ho, ho', hv, hv'⟩

end Layers.Actor

end ComponentFlow
