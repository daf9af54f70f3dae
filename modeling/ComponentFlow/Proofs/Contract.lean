/-
  ComponentFlow.Proofs.Contract — contracts under less precise specs. The rules of a method that
  derives nothing by a function of its own give specs that cover each other for inputs whose specs
  do, and outputs that keep a contract keep the wider one (`Signature.checkOutputs_covered`).
-/
import ComponentFlow.Component.Basic
import ComponentFlow.Proofs.Covering
import ComponentFlow.Proofs.Lockstep

namespace ComponentFlow

/-- The spec of a value that may be absent says no less than another one. -/
inductive CoveredBy : Option TensorSpec → Option TensorSpec → Prop
  | absent : CoveredBy none none
  | present {s s' : TensorSpec} : s'.Covers s → CoveredBy (some s) (some s')

theorem CoveredBy.refl (s : Option TensorSpec) : CoveredBy s s := by
  cases s with
  | none => exact .absent
  | some s => exact .present (TensorSpec.covers_refl s)

/-- What was produced meets what was expected. -/
inductive Meets : Option TensorSpec → Option TensorSpec → Prop
  | absent : Meets none none
  | present {s s' : TensorSpec} : s.compatible s' = true → Meets (some s) (some s')

theorem Meets.covered {e e' p p' : Option TensorSpec} (h : Meets e p) (he : CoveredBy e e') (hp : CoveredBy p p') :
    Meets e' p' := by
  cases h with
  | absent =>
    cases he
    cases hp
    exact .absent
  | present h =>
    cases he with
    | present he =>
      cases hp with
      | present hp => exact .present (TensorSpec.compatible_mono he hp h)

namespace OutputRule

/-- Whether a rule is a function that nothing is known of. -/
def isDerived : OutputRule → Bool
  | .derived _ => true
  | _ => false

variable {ins ins' : List (Option TensorSpec)}

theorem inputSpec_covered (h : List.Forall₂ CoveredBy ins ins') {i : Nat} {s : Option TensorSpec}
    (hs : inputSpec ins i = .ok s) : ∃ s', inputSpec ins' i = .ok s' ∧ CoveredBy s s' := by
  unfold inputSpec at hs ⊢
  rcases hi : ins[i]? with _ | x
  · rw [hi] at hs
    cases hs
  · rw [hi] at hs
    cases hs
    obtain ⟨s', hs', hcovered⟩ := forall₂_getElem? h hi
    exact ⟨s', by rw [hs'], hcovered⟩

theorem apply_covered {rule : OutputRule} (hrule : rule.isDerived = false) (h : List.Forall₂ CoveredBy ins ins')
    {s : Option TensorSpec} (hs : rule.apply ins = .ok s) : ∃ s', rule.apply ins' = .ok s' ∧ CoveredBy s s' := by
  cases rule with
  | likeInput i => exact inputSpec_covered h hs
  | likeInputAs i dtype =>
    obtain ⟨x, hx, hs⟩ := Outcome.bind_ok.mp hs
    obtain ⟨x', hx', hcovered⟩ := inputSpec_covered h hx
    cases hs
    refine ⟨x'.map (·.withDType dtype), Outcome.bind_ok.mpr ⟨x', hx', rfl⟩, ?_⟩
    cases hcovered with
    | absent => exact .absent
    | present hcovers => exact .present (TensorSpec.covers_withDType hcovers dtype)
  | fixed spec =>
    cases hs
    exact ⟨some spec, rfl, .present (TensorSpec.covers_refl spec)⟩
  | absent =>
    cases hs
    exact ⟨none, rfl, .absent⟩
  | derived derive => cases hrule

end OutputRule

namespace Signature

variable {m : Signature} {scope : String} {ins ins' : List (Option TensorSpec)} {outs outs' : List Value}

/-- Whether no rule is a function of its own. -/
def ruled (m : Signature) : Bool := m.outputs.all fun slot => !slot.rule.isDerived

theorem inferOutputs_covered (hm : m.ruled = true) (h : List.Forall₂ CoveredBy ins ins')
    {specs : List (Option TensorSpec)} (hspecs : m.inferOutputs ins = .ok specs) :
    ∃ specs', m.inferOutputs ins' = .ok specs' ∧ List.Forall₂ CoveredBy specs specs' := by
  unfold inferOutputs at hspecs ⊢
  refine Outcome.mapM_follows (List.forall₂_same.mpr fun _ _ => rfl) ?_ hspecs
  intro slot slot' hslot hsame s hs
  subst hsame
  have hrule : slot.rule.isDerived = false := by simpa using List.all_eq_true.mp hm slot hslot
  exact OutputRule.apply_covered hrule h hs

theorem outputViolation_none {slot : OutputSlot} {e p : Option TensorSpec} :
    outputViolation slot e p = none ↔ Meets e p := by
  constructor
  · intro h
    cases e with
    | none =>
      cases p with
      | none => exact .absent
      | some _ => cases h
    | some s =>
      cases p with
      | none => cases h
      | some s' =>
        simp only [outputViolation] at h
        split at h
        · next hcompatible => exact .present hcompatible
        · cases h
  · intro h
    cases h with
    | absent => rfl
    | present h => simp [outputViolation, h]

theorem firstViolation_none {slots : List OutputSlot} {specs : List (Option TensorSpec)} {vs : List Value}
    (hspecs : specs.length = slots.length) (hvs : vs.length = slots.length) :
    firstViolation slots specs vs = none ↔ List.Forall₂ (fun s v => Meets s v.spec?) specs vs := by
  induction slots generalizing specs vs with
  | nil =>
    obtain rfl := List.length_eq_zero_iff.mp hspecs
    obtain rfl := List.length_eq_zero_iff.mp hvs
    simp [firstViolation]
  | cons slot slots ih =>
    obtain _ | ⟨s, specs⟩ := specs
    · cases hspecs
    obtain _ | ⟨v, vs⟩ := vs
    · cases hvs
    simp only [List.length_cons, Nat.add_right_cancel_iff] at hspecs hvs
    have hhead : Meets s v.spec? ↔ outputViolation slot s v.spec? = none := outputViolation_none.symm
    rw [List.forall₂_cons, hhead, ← ih hspecs hvs, firstViolation]
    rcases outputViolation slot s v.spec? with _ | violation <;> simp

/-- The outputs of a method keep its contract. -/
theorem checkOutputs_ok : m.checkOutputs scope ins outs = .ok () ↔
    ∃ specs, m.inferOutputs ins = .ok specs ∧ List.Forall₂ (fun s v => Meets s v.spec?) specs outs := by
  have hcount : ∀ {specs}, m.inferOutputs ins = .ok specs → specs.length = m.outputs.length :=
    fun h => (Outcome.mapM_ok.mp h).length_eq.symm
  unfold checkOutputs
  by_cases hlength : outs.length = m.outputs.length
  · rcases hinfer : m.inferOutputs ins with e | specs
    · simp [hlength, bind, Except.bind]
    · have hnone := firstViolation_none (hcount hinfer) hlength
      simp only [hlength, ne_eq, not_true_eq_false, if_false, Outcome.ok_bind, Except.ok.injEq, exists_eq_left',
        ← hnone]
      rcases firstViolation m.outputs specs outs with _ | v <;> simp
  · refine ⟨fun h => ?_, fun ⟨specs, hspecs, h⟩ => absurd (h.length_eq.symm.trans (hcount hspecs)) hlength⟩
    simp [hlength, bind, Except.bind] at h

theorem checkOutputs_covered (hm : m.ruled = true) (hins : List.Forall₂ CoveredBy ins ins')
    (houts : List.Forall₂ (fun v v' => CoveredBy (Value.spec? v) (Value.spec? v')) outs outs')
    (h : m.checkOutputs scope ins outs = .ok ()) : m.checkOutputs scope ins' outs' = .ok () := by
  obtain ⟨specs, hspecs, hmeets⟩ := checkOutputs_ok.mp h
  obtain ⟨specs', hspecs', hcovered⟩ := inferOutputs_covered hm hins hspecs
  have hmeets' : List.Forall₂ (fun s v' => ∃ p, Meets s p ∧ CoveredBy p v'.spec?) specs outs' :=
    forall₂_comp hmeets houts fun s v v' hs hv => ⟨v.spec?, hs, hv⟩
  refine checkOutputs_ok.mpr ⟨specs', hspecs', forall₂_comp hcovered.flip hmeets' ?_⟩
  intro s' s v' hs hv'
  obtain ⟨p, hmeets, hp⟩ := hv'
  exact hmeets.covered hs hp

end Signature

/-! ## Plain methods -/

/-- Whether a reference brings a placeholder in from elsewhere. -/
def Ref.isForeign : Ref → Bool
  | .foreign _ => true
  | _ => false

/-- A method whose rules are no functions of their own, and whose body works on its inputs, on literals and
    on what came before. -/
def Method.plain (m : Method) : Bool := m.ruled && m.body.refs.all fun r => !r.isForeign

theorem Method.ruled_of_plain {m : Method} (h : m.plain = true) : m.ruled = true :=
  (Bool.and_eq_true_iff.mp h).1

theorem Method.not_foreign {m : Method} (h : m.plain = true) {p : Placeholder} : .foreign p ∉ m.body.refs := by
  intro hp
  have hforeign := List.all_eq_true.mp (Bool.and_eq_true_iff.mp h).2 _ hp
  cases hforeign

/-- A tree of which all methods are plain. -/
def Tree.plain (t : Tree) : Bool := t.nodes.all fun n => n.component.methods.all Method.plain

/-- What is checked of all methods is so of every method that can be called. -/
theorem Tree.all_methods {t : Tree} {check : Method → Bool}
    (h : (t.nodes.all fun n => n.component.methods.all check) = true) {id : NodeId} {name : String} {m : Method}
    (hm : t.method id name = .ok m) : check m = true := by
  unfold Tree.method at hm
  dsimp only at hm
  split at hm
  · cases hm
  · next c hc =>
    split at hm
    · next m' hfind =>
      cases hm
      obtain ⟨n, hn, rfl⟩ := Option.map_eq_some_iff.mp hc
      obtain ⟨i, hi, rfl⟩ := Array.getElem?_eq_some_iff.mp hn
      have hnode := Array.all_eq_true.mp h _ i
      exact List.all_eq_true.mp hnode m (List.mem_of_find?_eq_some hfind)
    · cases hm

theorem Tree.plain_method {t : Tree} (h : t.plain = true) {id : NodeId} {name : String} {m : Method}
    (hm : t.method id name = .ok m) : m.plain = true :=
  all_methods h hm

end ComponentFlow
