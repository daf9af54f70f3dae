/-
  ComponentFlow.Proofs.Completing — which inputs a call may leave out. Slots that must be supplied and slots with a
  default stand in any order; the check up front looks at the first kind only as far as they lead, and filling in
  stops at the first such slot among those left out. The check is no restriction of its own: where it fails filling
  would stop at once, with the same count (`Signature.completeInputs_eq`).

  - `InputDefault.fallback?`: what stands in for an input that is left out.
  - `Signature.Stops`: where filling in stops.
  - `Signature.completed_exactly`: when a call is complete, what it is completed to, and which counts an error has.
    The count reported includes the defaults filled in before the slot that has none
    (`Signature.defaultFirst_miscounted`).
-/
import ComponentFlow.Proofs.Immediate
import Mathlib.Data.List.TakeWhile

namespace ComponentFlow

/-- What stands in for an input that is left out, if anything does. -/
def InputDefault.fallback? : InputDefault → Option Value
  | .required => none
  | .value t => some (.tensor t)
  | .absent => some .absent

theorem InputDefault.fallback_isSome (d : InputDefault) : d.fallback?.isSome = !d.isRequired := by cases d <;> rfl

namespace Signature

variable {m : Signature} {scope : String} {supplied ins vs : List Value} {slots : List InputSlot} {filled : Nat}

/-! ## Filling in -/

/-- Each of the slots has its own default. -/
def Defaults (slots : List InputSlot) (vs : List Value) : Prop :=
  List.Forall₂ (fun slot v => slot.default.fallback? = some v) slots vs

/-- Among these slots, behind `n` that have a default, stands one that has none. -/
def Stops (slots : List InputSlot) (n : Nat) : Prop :=
  ∃ before slot rest, slots = before ++ slot :: rest ∧ before.length = n ∧
    (∀ s ∈ before, s.default.isRequired = false) ∧ slot.default.isRequired = true

theorem Stops.cons {slot : InputSlot} {n : Nat} (hslot : slot.default.isRequired = false) (h : Stops slots n) :
    Stops (slot :: slots) (n + 1) := by
  obtain ⟨before, stop, rest, rfl, rfl, hbefore, hstop⟩ := h
  exact ⟨slot :: before, stop, rest, rfl, rfl, List.forall_mem_cons.mpr ⟨hslot, hbefore⟩, hstop⟩

theorem Stops.exists_required {n : Nat} (h : Stops slots n) : ∃ slot ∈ slots, slot.default.isRequired = true := by
  obtain ⟨before, slot, rest, rfl, -, -, hslot⟩ := h
  exact ⟨slot, by simp, hslot⟩

/-- A slot with a default, and what the slots behind it come to. -/
theorem fillDefaults_cons {slot : InputSlot} {v : Value} (h : slot.default.fallback? = some v) :
    m.fillDefaults scope filled (slot :: slots) = (v :: ·) <$> m.fillDefaults scope (filled + 1) slots := by
  obtain ⟨name, default⟩ := slot
  cases default <;> cases h <;> rfl

theorem fillDefaults_required {slot : InputSlot} (h : slot.default.isRequired = true) :
    m.fillDefaults scope filled (slot :: slots) = .error (m.arityError scope filled) := by
  obtain ⟨name, default⟩ := slot
  cases default <;> cases h
  rfl

/-- Either all slots have a default, or filling in stops and says how far it came. -/
theorem fillDefaults_cases (m : Signature) (scope : String) (filled : Nat) (slots : List InputSlot) :
    (∃ vs, m.fillDefaults scope filled slots = .ok vs ∧ Defaults slots vs) ∨
      ∃ n, Stops slots n ∧ m.fillDefaults scope filled slots = .error (m.arityError scope (filled + n)) := by
  induction slots generalizing filled with
  | nil => exact .inl ⟨[], rfl, .nil⟩
  | cons slot slots ih =>
    rcases hrequired : slot.default.isRequired with _ | _
    · obtain ⟨v, hv⟩ : ∃ v, slot.default.fallback? = some v :=
        Option.isSome_iff_exists.mp (by rw [InputDefault.fallback_isSome, hrequired]; rfl)
      rcases ih (filled + 1) with ⟨vs, hvs, hdefaults⟩ | ⟨n, hstops, herror⟩
      · refine .inl ⟨v :: vs, ?_, .cons hv hdefaults⟩
        rw [fillDefaults_cons hv, hvs]
        rfl
      · refine .inr ⟨n + 1, hstops.cons hrequired, ?_⟩
        rw [fillDefaults_cons hv, herror, Nat.add_assoc, Nat.add_comm 1 n]
        rfl
    · exact .inr ⟨0, ⟨[], slot, slots, rfl, rfl, by simp, hrequired⟩, fillDefaults_required hrequired⟩

theorem Defaults.not_required (h : Defaults slots vs) : ∀ slot ∈ slots, slot.default.isRequired = false := by
  intro slot hslot
  obtain ⟨v, -, hv⟩ := forall₂_of_mem h hslot
  have hsome : slot.default.fallback?.isSome = true := by rw [hv]; rfl
  rw [InputDefault.fallback_isSome] at hsome
  simpa using hsome

/-! ## Completing -/

/-- Of the slots that lead and must be supplied, the first one left out is where filling in would stop. -/
theorem stops_at_once (h : supplied.length < (m.inputs.takeWhile fun slot => slot.default.isRequired).length) :
    ∃ slot rest, m.inputs.drop supplied.length = slot :: rest ∧ slot.default.isRequired = true := by
  have hprefix := List.takeWhile_prefix (l := m.inputs) fun slot => slot.default.isRequired
  have hlt : supplied.length < m.inputs.length := Nat.lt_of_lt_of_le h hprefix.length_le
  refine ⟨m.inputs[supplied.length], m.inputs.drop (supplied.length + 1), List.drop_eq_getElem_cons hlt, ?_⟩
  rw [← hprefix.getElem h]
  exact List.mem_takeWhile_imp (p := fun slot : InputSlot => slot.default.isRequired) (List.getElem_mem h)

/-- Calls are refused for too many inputs; the rest is filling in. -/
theorem completeInputs_eq (m : Signature) (scope : String) (supplied : List Value) :
    m.completeInputs scope supplied =
      if m.inputs.length < supplied.length then .error (m.arityError scope supplied.length)
      else (supplied ++ ·) <$> m.fillDefaults scope supplied.length (m.inputs.drop supplied.length) := by
  unfold completeInputs
  dsimp only
  by_cases hmany : m.inputs.length < supplied.length
  · rw [if_pos (.inr hmany), if_pos hmany]
  · by_cases hfew : supplied.length < (m.inputs.takeWhile fun slot => slot.default.isRequired).length
    · obtain ⟨slot, rest, hdrop, hrequired⟩ := stops_at_once hfew
      rw [if_pos (.inl hfew), if_neg hmany, hdrop, fillDefaults_required hrequired]
      rfl
    · rw [if_neg (not_or.mpr ⟨hfew, hmany⟩), if_neg hmany]

/-- A call is complete if it has no more inputs than there are slots and every slot left out has a default. It then
    has one input per slot, those supplied and then the default of each slot left out. Otherwise the counts of slots and
    of inputs are reported: those supplied if they are too many, and else those supplied and the defaults that
    stand before the slot that has none. -/
theorem completed_exactly (m : Signature) (scope : String) (supplied : List Value) :
    ((∃ ins, m.completeInputs scope supplied = .ok ins) ↔ supplied.length ≤ m.inputs.length ∧
      ∀ slot ∈ m.inputs.drop supplied.length, slot.default.isRequired = false) ∧
    (∀ ins, m.completeInputs scope supplied = .ok ins → ins.length = m.inputs.length ∧
      ∃ vs, ins = supplied ++ vs ∧ Defaults (m.inputs.drop supplied.length) vs) ∧
    (∀ e, m.completeInputs scope supplied = .error e → ∃ got, e = .arityMismatch scope m.name m.inputs.length got ∧
      (m.inputs.length < supplied.length ∧ got = supplied.length ∨
        ∃ n, Stops (m.inputs.drop supplied.length) n ∧ got = supplied.length + n)) := by
  rw [completeInputs_eq]
  by_cases hmany : m.inputs.length < supplied.length
  · rw [if_pos hmany]
    refine ⟨⟨nofun, fun h => absurd h.1 (Nat.not_le.mpr hmany)⟩, nofun, fun e he => ?_⟩
    cases he
    exact ⟨_, rfl, .inl ⟨hmany, rfl⟩⟩
  · rw [if_neg hmany]
    have hle : supplied.length ≤ m.inputs.length := Nat.le_of_not_lt hmany
    rcases m.fillDefaults_cases scope supplied.length (m.inputs.drop supplied.length) with
      ⟨vs, hvs, hdefaults⟩ | ⟨n, hstops, herror⟩
    · rw [hvs]
      refine ⟨⟨fun _ => ⟨hle, hdefaults.not_required⟩, fun _ => ⟨_, rfl⟩⟩, fun ins hins => ?_, nofun⟩
      cases hins
      refine ⟨?_, vs, rfl, hdefaults⟩
      rw [List.length_append, ← List.Forall₂.length_eq hdefaults, List.length_drop, Nat.add_sub_cancel' hle]
    · rw [herror]
      refine ⟨⟨nofun, fun h => ?_⟩, nofun, fun e he => ?_⟩
      · obtain ⟨slot, hslot, hrequired⟩ := hstops.exists_required
        rw [h.2 slot hslot] at hrequired
        cases hrequired
      · cases he
        exact ⟨_, rfl, .inr ⟨n, hstops, rfl⟩⟩

/-- An input with a default, and then one without. -/
def defaultFirst : Signature where
  name := "m"
  inputs := [inputOr "a" (.scalar 1), required "b"]

/-- A call without inputs is reported as one with one input. -/
theorem defaultFirst_miscounted :
    defaultFirst.completeInputs "scope" [] = .error (.arityMismatch "scope" "m" 2 1) ∧
      defaultFirst.completeInputs "scope" [] ≠ .error (.arityMismatch "scope" "m" 2 ([] : List Value).length) := by
  have hrun : defaultFirst.completeInputs "scope" [] = .error (.arityMismatch "scope" "m" 2 1) := rfl
  refine ⟨hrun, ?_⟩
  rw [hrun]
  simp

end Signature

end ComponentFlow
