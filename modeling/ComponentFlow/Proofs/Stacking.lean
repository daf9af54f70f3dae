/-
  ComponentFlow.Proofs.Stacking — what stacking layers comes to: each layer is checked, its contract is
  put behind those before it, and it gets a name that none of them has. Candidates for a name are
  told apart by their numbers, so one more of them than there are names is enough to find a fresh
  one (`Layers.freshName_found`).
-/
import ComponentFlow.Layers.Stack
import ComponentFlow.Proofs.Effect
import ComponentFlow.Proofs.Scope
import Mathlib.Data.List.Nodup

namespace ComponentFlow

theorem Capability.check_ok {c : Capability} {component : Component} :
    c.check component = .ok () ↔ ∀ m ∈ c.methods, component.declares m = true := by
  unfold check
  split
  · next hnone => simpa [List.filter_eq_nil_iff] using hnone
  · next hsome =>
    simp only [reduceCtorEq, false_iff]
    intro hall
    exact hsome (by simpa [List.filter_eq_nil_iff] using hall)

namespace Layers

/-! ## Names -/

theorem repr_injective {i j : Nat} (h : Nat.repr i = Nat.repr j) : i = j := by
  have hdigits : Nat.toDigits 10 i = Nat.toDigits 10 j := by rw [← Nat.toList_repr, h, Nat.toList_repr]
  rw [← Nat.ofDigitChars_ten_toDigits (n := i), hdigits, Nat.ofDigitChars_ten_toDigits]

theorem toList_candidateName (base : String) (k : Nat) :
    (candidateName base (k + 1)).toList = base.toList ++ '-' :: (Nat.repr (k + 1)).toList := by
  have hname : candidateName base (k + 1) = base ++ "-" ++ Nat.repr (k + 1) := by
    rw [← Nat.toString_eq_repr]
    rfl
  rw [hname, String.toList_append, String.toList_append, List.append_assoc]
  rfl

theorem candidateName_injective (base : String) : Function.Injective (candidateName base) := by
  have hlonger : ∀ k, candidateName base (k + 1) ≠ base := by
    intro k h
    have hlength := congrArg (fun name => name.toList.length) h
    simp [toList_candidateName] at hlength
  intro i j h
  cases i with
  | zero =>
    cases j with
    | zero => rfl
    | succ j => exact absurd h.symm (hlonger j)
  | succ i =>
    cases j with
    | zero => exact absurd h (hlonger i)
    | succ j =>
      have hlists := congrArg String.toList h
      rw [toList_candidateName, toList_candidateName, List.append_cancel_left_eq, List.cons.injEq] at hlists
      exact repr_injective (String.toList_inj.mp hlists.2)

/-- Candidates that are taken are no more than there are names taken. -/
theorem candidates_taken_le {base : String} {taken : List String} {k : Nat}
    (h : ∀ j < k, candidateName base j ∈ taken) : k ≤ taken.length := by
  have hsub : (List.range k).map (candidateName base) ⊆ taken := by
    intro name hname
    obtain ⟨j, hj, rfl⟩ := List.mem_map.mp hname
    exact h j (List.mem_range.mp hj)
  have hnodup : ((List.range k).map (candidateName base)).Nodup :=
    List.Nodup.map (candidateName_injective base) List.nodup_range
  have hlength := (List.subperm_of_subset hnodup hsub).length_le
  rwa [List.length_map, List.length_range] at hlength

/-- Among one more candidates than there are names taken, one is free. -/
theorem exists_candidate_free (base : String) (taken : List String) :
    ∃ k < taken.length + 1, candidateName base k ∉ taken := by
  by_contra hall
  push Not at hall
  have hlength := candidates_taken_le hall
  omega

/-- The name that is chosen is the first candidate that is not taken. -/
theorem freshName_found (base : String) (taken : List String) :
    ∃ k, freshName base taken = candidateName base k ∧ candidateName base k ∉ taken ∧
      ∀ j < k, candidateName base j ∈ taken := by
  have hfound : ((List.range (taken.length + 1)).find? fun k => !taken.contains (candidateName base k)).isSome := by
    obtain ⟨k, hk, hname⟩ := exists_candidate_free base taken
    rw [List.find?_isSome]
    exact ⟨k, List.mem_range.mpr hk, by simpa using hname⟩
  obtain ⟨k, hk⟩ := Option.isSome_iff_exists.mp hfound
  have hname : freshName base taken = candidateName base k := by
    unfold freshName
    rw [List.find?_map, Function.comp_def, hk]
    rfl
  obtain ⟨hfree, -, hearlier⟩ := List.find?_range_eq_some.mp hk
  refine ⟨k, hname, by simpa using hfree, fun j hj => ?_⟩
  simpa using hearlier j hj

/-- Numbers behind an allowed name leave it allowed. -/
theorem named_candidateName {base : String} (h : Tree.nameFault? base = none) (k : Nat) :
    Tree.nameFault? (candidateName base k) = none := by
  cases k with
  | zero => exact h
  | succ k =>
    obtain ⟨hne, hchars⟩ := Tree.nameFault_none.mp h
    refine Tree.nameFault_none.mpr ⟨fun heq => ?_, fun c hc => ?_⟩
    · have hlength := congrArg (fun name => name.toList.length) heq
      simp [toList_candidateName] at hlength
    · rw [toList_candidateName, Nat.toList_repr] at hc
      rcases List.mem_append.mp hc with hbase | hnumber
      · exact hchars c hbase
      · rcases List.mem_cons.mp hnumber with rfl | hdigit
        · exact ⟨by decide, by decide⟩
        · have hrange := Char.isDigit_iff_toNat.mp (Nat.isDigit_of_mem_toDigits (by decide) (by decide) hdigit)
          have hlast : '9'.toNat = 57 := rfl
          refine ⟨by omega, ?_⟩
          rintro rfl
          exact absurd hrange.1 (by decide)

variable {role : StackRole} {s s' : Stacked} {layer : Assembly} {layers : List Assembly}

theorem Stacked.add_ok : s.add role layer = .ok s' ↔ role.capability.check layer.component = .ok () ∧
    ∃ rule, layer.component.leadingRule role.method = .ok rule ∧
      s' = ⟨s.rule.andThen rule, s.layers ++ [layer.renamed (freshName layer.name s.names)]⟩ := by
  unfold Stacked.add
  rw [Outcome.bind_ok]
  simp only [Outcome.bind_ok, pure, Except.pure, Except.ok.injEq]
  constructor
  · rintro ⟨⟨⟩, hcheck, rule, hrule, rfl⟩
    exact ⟨hcheck, rule, hrule, rfl⟩
  · rintro ⟨hcheck, rule, hrule, rfl⟩
    exact ⟨(), hcheck, rule, hrule, rfl⟩

theorem stack_ok {a : Assembly} : stack role layers = .ok a ↔ ∃ s, layers.foldlM (Stacked.add role) {} = .ok s ∧
    .mk role.kind (stackComponent role s.rule s.names) s.layers = a := by
  unfold stack
  simp only [Outcome.bind_ok, pure, Except.pure, Except.ok.injEq]

/-- The component of a layer promises this under the rule of its first output. -/
def Promises (role : StackRole) (layer : Assembly) (rule : OutputRule) : Prop :=
  layer.component.leadingRule role.method = .ok rule

theorem rules_unique {rules rules' : List OutputRule} (h : List.Forall₂ (Promises role) layers rules)
    (h' : List.Forall₂ (Promises role) layers rules') : rules = rules' := by
  have hunique : Relator.RightUnique (Promises role) := fun _ _ _ hrule hrule' =>
    Except.ok.inj (hrule.symm.trans hrule')
  exact List.right_unique_forall₂' hunique h h'

/-- Layers put their rules one behind the other. -/
theorem rule_of_layers (h : layers.foldlM (Stacked.add role) s = .ok s') :
    ∃ rules, List.Forall₂ (Promises role) layers rules ∧ s'.rule = rules.foldl OutputRule.andThen s.rule := by
  induction layers generalizing s with
  | nil =>
    cases h
    exact ⟨[], .nil, rfl⟩
  | cons layer rest ih =>
    rw [List.foldlM_cons] at h
    obtain ⟨t, hadd, hrest⟩ := Outcome.bind_ok.mp h
    obtain ⟨-, rule, hrule, rfl⟩ := Stacked.add_ok.mp hadd
    obtain ⟨rules, hrules, hfold⟩ := ih hrest
    exact ⟨rule :: rules, .cons hrule hrules, hfold⟩

theorem leadingRule_stackComponent (rule : OutputRule) (names : List String) :
    (stackComponent role rule names).leadingRule role.method = .ok rule := by
  simp [Component.leadingRule, Component.method?, stackComponent]

end Layers

end ComponentFlow
