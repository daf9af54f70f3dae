/-
  ComponentFlow.Proofs.Choosing — what policies answer. Both methods that score the actions go through the
  same steps, and pick the first of the largest logits where they pick; nothing in their contracts depends
  on an input. So a policy chooses an action exactly if it gives the scores and picks from them
  (`Policy.answer_getAction`).
-/
import ComponentFlow.Layers.Policy
import ComponentFlow.Proofs.Answer

namespace ComponentFlow.Layers.Policy

/-- What the network and the adapter give for a state: a logit for each action, the probabilities of the
    logits, and their logarithms. -/
structure Scores where
  logits : Value
  parameters : Value
  logs : Value

namespace Scores

def values (s : Scores) : List Value := [s.logits, s.parameters, s.logs, .absent]

/-- As a policy with `n` actions promises them. -/
def Fit (n : Nat) (s : Scores) : Prop := ∀ v ∈ [s.logits, s.parameters, s.logs],
  Meets (some ⟨.f32, [batch, .fixed n]⟩) v.spec?

end Scores

/-- An action as policies promise it. -/
def FitAction (v : Value) : Prop := Meets (some ⟨.i32, [batch]⟩) v.spec?

/-! ## Bodies -/

section Bodies

variable {site : Site Tally} {x : Value} {rest : List Value}

/-- What the steps come to that the two methods share. -/
def scores (site : Site Tally) (x : Value) : Outcome Scores := do
  let features ← (← (site.call networkChild call [x]).outcome).first
  let logits ← (← (site.call adapterChild call [features]).outcome).first
  let parameters ← (site.handler.apply (.softmax 1) [logits]).outcome
  let logs ← (site.handler.apply (.logSoftmax 1) [logits]).outcome
  return ⟨logits, parameters, logs⟩

/-- The action for these logits. -/
def picked (site : Site Tally) (logits : Value) : Outcome Value := (site.handler.apply (.argMax 1) [logits]).outcome

variable (h : site.Settled)
include h

theorem run_behind_scores {more : List Step} {returns : List Ref} {next : Scores → Outcome (List Value)}
    (hnext : ∀ features logits s, logits.first = .ok s.logits → (do
      let results ← (Body.runSteps site (x :: rest)
        [features, logits, ⟨[], [s.parameters]⟩, ⟨[], [s.logs]⟩] more).outcome
      returns.mapM (Frame.resolve ⟨x :: rest, results⟩)) = next s) :
    (Body.run site (.straight (distributionSteps ++ more) returns) (x :: rest)).outcome = scores site x >>= next := by
  rw [Body.outcome_run]
  simp only [distributionSteps, scores, Body.outcome_runSteps h, Step.call, Step.apply,
    Body.outcome_perform_apply, Body.perform_call, List.mapM_cons, List.mapM_nil, Frame.resolve, Frame.orBadReference,
    List.nil_append, List.cons_append, List.getElem?_cons_zero, List.getElem?_cons_succ, Outcome.ok_bind, bind_assoc,
    pure_bind]
  refine bind_congr fun features => bind_congr fun f => bind_congr fun logits => ?_
  rcases hl : logits.first with e | l
  · rfl
  · simp only [Outcome.ok_bind]
    exact bind_congr fun p => bind_congr fun q => hnext features logits ⟨l, p, q⟩ hl

theorem run_getDistribution (n : Nat) : ((getDistributionMethod n).body.run site (x :: rest)).outcome = (do
    let s ← scores site x
    return s.values) := by
  have hbody : (getDistributionMethod n).body =
      .straight (distributionSteps ++ []) [.first 1, .first 2, .first 3, .absent] := rfl
  rw [hbody]
  refine run_behind_scores h fun features logits s hl => ?_
  simp [Body.runSteps, Frame.resolve, Frame.orBadReference, hl, Scores.values]
  rfl

theorem run_getAction (n : Nat) : ((getActionMethod n).body.run site (x :: rest)).outcome = (do
    let s ← scores site x
    let a ← picked site s.logits
    return a :: s.values) := by
  refine run_behind_scores h fun features logits s hl => ?_
  simp only [Body.outcome_runSteps h, Step.apply, Body.outcome_perform_apply, List.mapM_cons, List.mapM_nil,
    Frame.resolve, Frame.orBadReference, List.getElem?_cons_zero, List.getElem?_cons_succ, Outcome.ok_bind, hl,
    bind_assoc, pure_bind]
  refine bind_congr fun a => ?_
  simp [Body.runSteps, hl, Scores.values]
  rfl

theorem run_pickAction {logits parameters : Value} : (pickActionMethod.body.run site [logits, parameters]).outcome =
    (do let a ← picked site logits; return [a]) := by
  refine (Body.outcome_run _ _).trans ?_
  simp only [Body.outcome_runSteps h, Step.apply, Body.outcome_perform_apply, List.mapM_cons,
    List.mapM_nil, Frame.resolve, Frame.orBadReference, List.getElem?_cons_zero, Outcome.ok_bind, bind_assoc,
    pure_bind]
  exact bind_congr fun a => rfl

end Bodies

/-! ## Contracts -/

section Contracts

variable {n : Nat} {scope : String} {ins : List (Option TensorSpec)} {a : Value} {s : Scores}

theorem check_getDistribution : (getDistributionMethod n).checkOutputs scope ins s.values = .ok () ↔ s.Fit n := by
  simp [Signature.checkOutputs_kept, getDistributionMethod, distributionOutputs, perAction, OutputRule.kept_fixed,
    OutputRule.kept_absent, meets_absent, Scores.Fit, Scores.values]

theorem check_getAction :
    (getActionMethod n).checkOutputs scope ins (a :: s.values) = .ok () ↔ FitAction a ∧ s.Fit n := by
  simp [Signature.checkOutputs_kept, getActionMethod, distributionOutputs, perAction, actionRule,
    OutputRule.kept_fixed, OutputRule.kept_absent, meets_absent, Scores.Fit, Scores.values, FitAction]

theorem check_pickAction : pickActionMethod.checkOutputs scope ins [a] = .ok () ↔ FitAction a := by
  simp [Signature.checkOutputs_kept, pickActionMethod, actionRule, OutputRule.kept_fixed, FitAction]

end Contracts

/-! ## Answers -/

section Answers

variable {network adapter policy : Assembly} {t : Tree} {k : Kernels} {depth : Nat} {id : NodeId} {x i : Value}
  {o : Outputs} {n : Nat}

/-- Everything about a policy but the number of actions is the same for all networks and adapters. -/
theorem withAdapter_ok (h : withAdapter network adapter = .ok policy) :
    ∃ n, fixedWidth adapter = .ok n ∧
      policy = .mk policyKind (component n) [network.renamed networkChild, adapter.renamed adapterChild] := by
  unfold withAdapter at h
  obtain ⟨⟨⟩, -, h⟩ := Outcome.bind_ok.mp h
  obtain ⟨⟨⟩, -, h⟩ := Outcome.bind_ok.mp h
  obtain ⟨n, hn, h⟩ := Outcome.bind_ok.mp h
  cases h
  exact ⟨n, hn, rfl⟩

/-- Internal states may be there or left out. -/
theorem completeInputs_states {m : Signature} (hm : m.inputs = distributionInputs) {extra : List Value}
    (hextra : extra.length ≤ 1) (scope : String) (x : Value) :
    ∃ rest, m.completeInputs scope (x :: extra) = .ok (x :: rest) := by
  unfold Signature.completeInputs
  rw [hm]
  match extra, hextra with
  | [], _ => exact ⟨[.absent], rfl⟩
  | [i], _ => exact ⟨[i], rfl⟩

variable {title : String} {children : List Assembly} (h : t.Bears id (.mk title (component n) children))
  {extra : List Value} (hextra : extra.length ≤ 1)
include h

include hextra in
theorem answer_getDistribution : t.answer k (depth + 1) id getDistribution (x :: extra) = .ok o ↔ ∃ s,
    scores (t.site k depth id) x = .ok s ∧ s.Fit n ∧ o = Outputs.of (getDistributionMethod n).toSignature s.values := by
  have hm : (component n).method? getDistribution = some (getDistributionMethod n) := rfl
  obtain ⟨rest, hins⟩ := completeInputs_states (m := (getDistributionMethod n).toSignature) rfl hextra
    (t.displayName id) x
  rw [h.answer_ok hm]
  constructor
  · rintro ⟨_, _, hins', hrun, hcheck, rfl⟩
    cases hins.symm.trans hins'
    rw [run_getDistribution (t.settled_site k depth id)] at hrun
    obtain ⟨s, hs, hvalues⟩ := Outcome.bind_ok.mp hrun
    cases hvalues
    exact ⟨s, hs, check_getDistribution.mp hcheck, rfl⟩
  · rintro ⟨s, hs, hfit, rfl⟩
    refine ⟨_, s.values, hins, ?_, check_getDistribution.mpr hfit, rfl⟩
    rw [run_getDistribution (t.settled_site k depth id), hs]
    rfl

include hextra in
theorem answer_getAction : t.answer k (depth + 1) id getAction (x :: extra) = .ok o ↔ ∃ s a,
    scores (t.site k depth id) x = .ok s ∧ picked (t.site k depth id) s.logits = .ok a ∧ FitAction a ∧ s.Fit n ∧
      o = Outputs.of (getActionMethod n).toSignature (a :: s.values) := by
  have hm : (component n).method? getAction = some (getActionMethod n) := rfl
  obtain ⟨rest, hins⟩ := completeInputs_states (m := (getActionMethod n).toSignature) rfl hextra (t.displayName id) x
  rw [h.answer_ok hm]
  constructor
  · rintro ⟨_, _, hins', hrun, hcheck, rfl⟩
    cases hins.symm.trans hins'
    rw [run_getAction (t.settled_site k depth id)] at hrun
    obtain ⟨s, hs, hrun⟩ := Outcome.bind_ok.mp hrun
    obtain ⟨a, ha, hvalues⟩ := Outcome.bind_ok.mp hrun
    cases hvalues
    obtain ⟨hfita, hfit⟩ := check_getAction.mp hcheck
    exact ⟨s, a, hs, ha, hfita, hfit, rfl⟩
  · rintro ⟨s, a, hs, ha, hfita, hfit, rfl⟩
    refine ⟨_, a :: s.values, hins, ?_, check_getAction.mpr ⟨hfita, hfit⟩, rfl⟩
    rw [run_getAction (t.settled_site k depth id), hs, Outcome.ok_bind, ha]
    rfl

theorem answer_pickAction {logits parameters : Value} :
    t.answer k (depth + 1) id pickAction [logits, parameters] = .ok o ↔ ∃ a,
      picked (t.site k depth id) logits = .ok a ∧ FitAction a ∧ o = Outputs.of pickActionMethod.toSignature [a] := by
  have hm : (component n).method? pickAction = some pickActionMethod := rfl
  have hins : pickActionMethod.completeInputs (t.displayName id) [logits, parameters] = .ok [logits, parameters] := rfl
  rw [h.answer_ok hm]
  constructor
  · rintro ⟨_, _, hins', hrun, hcheck, rfl⟩
    cases hins.symm.trans hins'
    rw [run_pickAction (t.settled_site k depth id)] at hrun
    obtain ⟨a, ha, hvalues⟩ := Outcome.bind_ok.mp hrun
    cases hvalues
    exact ⟨a, ha, check_pickAction.mp hcheck, rfl⟩
  · rintro ⟨a, ha, hfit, rfl⟩
    refine ⟨_, [a], hins, ?_, check_pickAction.mpr hfit, rfl⟩
    rw [run_pickAction (t.settled_site k depth id), ha]
    rfl

end Answers

end ComponentFlow.Layers.Policy
