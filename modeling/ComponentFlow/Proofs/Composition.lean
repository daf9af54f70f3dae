/-
  ComponentFlow.Proofs.Composition — the contract of a stack against those of its layers. Rules that say
  themselves what comes out of a stage compose: the rule of the stack gives what the rules of the
  layers give one after the other. A derived rule does not. It is applied to the input of the stack,
  whatever layers stand before it, and what stands behind it is lost unless it is constant
  (`Layers.stack_composes`).

  - `OutputRule.through`: what comes out of stages one behind another.
-/
import ComponentFlow.Layers.Preprocess
import ComponentFlow.Proofs.Stacking
import ComponentFlow.Script.Definition

namespace ComponentFlow

namespace OutputRule

/-- The rules of stages with a single input that are not derived. -/
inductive Plain : OutputRule → Prop
  | likeInput : Plain (.likeInput 0)
  | likeInputAs (dtype : DType) : Plain (.likeInputAs 0 dtype)
  | fixed (spec : TensorSpec) : Plain (.fixed spec)
  | absent : Plain .absent

/-- Promises the same whatever the input is. -/
def constant : OutputRule → Bool
  | .fixed _ | .absent => true
  | _ => false

/-- What comes out of stages one behind another, each of which gets what the one before gave. -/
def through (rules : List OutputRule) (x : Option TensorSpec) : Outcome (Option TensorSpec) :=
  rules.foldlM (fun s rule => rule.apply [s]) x

/-- The rule of stages one behind another. -/
def composed (rules : List OutputRule) : OutputRule := rules.foldl andThen (.likeInput 0)

variable {prev next : OutputRule} {rules : List OutputRule} {x y : Option TensorSpec}
  {f : List (Option TensorSpec) → Outcome (Option TensorSpec)}

theorem through_cons (rule : OutputRule) (rules : List OutputRule) (x : Option TensorSpec) :
    through (rule :: rules) x = rule.apply [x] >>= through rules := rfl

/-! ## Two stages -/

theorem Plain.andThen (hprev : prev.Plain) (hnext : next.Plain) : (prev.andThen next).Plain := by
  cases hnext with
  | likeInput => exact hprev
  | likeInputAs dtype =>
    cases hprev with
    | likeInput | likeInputAs => exact .likeInputAs dtype
    | fixed spec => exact .fixed _
    | absent => exact .absent
  | fixed spec => exact .fixed spec
  | absent => exact .absent

/-- The second stage gets what the first one gives. -/
theorem Plain.apply_andThen (hprev : prev.Plain) (hnext : next.Plain) (x : Option TensorSpec) :
    (prev.andThen next).apply [x] = prev.apply [x] >>= fun s => next.apply [s] := by
  cases hnext with
  | likeInput => cases hprev <;> rfl
  | likeInputAs dtype =>
    cases hprev with
    | likeInput | fixed | absent => rfl
    | likeInputAs => cases x <;> rfl
  | fixed | absent => cases hprev <;> rfl

/-! ## Any number of stages -/

theorem Plain.apply_foldl (hprev : prev.Plain) (hrules : ∀ rule ∈ rules, rule.Plain) (x : Option TensorSpec) :
    (rules.foldl OutputRule.andThen prev).apply [x] = prev.apply [x] >>= through rules := by
  induction rules generalizing prev with
  | nil =>
    show prev.apply [x] = prev.apply [x] >>= pure
    rw [bind_pure]
  | cons rule rest ih =>
    obtain ⟨hrule, hrest⟩ := List.forall_mem_cons.mp hrules
    calc (rest.foldl OutputRule.andThen (prev.andThen rule)).apply [x]
        = (prev.andThen rule).apply [x] >>= through rest := ih (hprev.andThen hrule) hrest
      _ = (prev.apply [x] >>= fun s => rule.apply [s]) >>= through rest := by rw [hprev.apply_andThen hrule]
      _ = prev.apply [x] >>= through (rule :: rest) := bind_assoc _ _ _

/-- Behind a constant rule nothing is left of the input. -/
theorem through_constant (hrules : ∀ rule ∈ rules, rule.Plain) (h : rules.any constant = true)
    (x y : Option TensorSpec) : through rules x = through rules y := by
  induction rules generalizing x y with
  | nil => cases h
  | cons rule rest ih =>
    obtain ⟨hrule, hrest⟩ := List.forall_mem_cons.mp hrules
    rw [through_cons, through_cons]
    cases hrule with
    | likeInput => exact ih hrest h x y
    | likeInputAs dtype => exact ih hrest h _ _
    | fixed | absent => rfl

/-- A derived rule stays what it is, up to a constant one behind it. -/
theorem apply_behind_derived (hrules : ∀ rule ∈ rules, rule.Plain) (x : Option TensorSpec) :
    (rules.foldl andThen (.derived f)).apply [x] =
      if rules.any constant then through rules x else f [x] := by
  induction rules with
  | nil => rfl
  | cons rule rest ih =>
    obtain ⟨hrule, hrest⟩ := List.forall_mem_cons.mp hrules
    cases hrule with
    | likeInput => exact ih hrest
    | likeInputAs dtype =>
      have hcast : through (.likeInputAs 0 dtype :: rest) x = through rest (x.map (·.withDType dtype)) := rfl
      rw [hcast]
      refine (ih hrest).trans ?_
      rw [List.any_cons, show constant (.likeInputAs 0 dtype) = false from rfl, Bool.false_or]
      split
      · next hconstant => exact through_constant hrest hconstant _ _
      · rfl
    | fixed spec => exact (Plain.fixed spec).apply_foldl hrest x
    | absent => exact Plain.absent.apply_foldl hrest x

/-- Rules compose where none of them is derived. -/
theorem apply_composed (hrules : ∀ rule ∈ rules, rule.Plain) (x : Option TensorSpec) :
    (composed rules).apply [x] = through rules x :=
  Plain.likeInput.apply_foldl hrules x

/-- A derived rule forgets what stands before it. -/
theorem composed_derived (before after : List OutputRule) :
    composed (before ++ .derived f :: after) = after.foldl andThen (.derived f) := by
  rw [composed, List.foldl_append]
  rfl

/-- Stages that hand on the spec of their input do nothing to it. -/
theorem through_alike (hrules : ∀ rule ∈ rules, rule = .likeInput 0) (x : Option TensorSpec) :
    through rules x = .ok x := by
  induction rules with
  | nil => rfl
  | cons rule rest ih =>
    obtain ⟨rfl, hrest⟩ := List.forall_mem_cons.mp hrules
    exact ih hrest

theorem any_constant_alike (hrules : ∀ rule ∈ rules, rule = .likeInput 0) : rules.any constant = false := by
  rw [List.any_eq_false]
  intro rule hrule
  rw [hrules rule hrule]
  exact Bool.false_ne_true

/-- Rules compose where the only one that changes anything is derived. -/
theorem apply_composed_alone {before after : List OutputRule} (hbefore : ∀ rule ∈ before, rule = .likeInput 0)
    (hafter : ∀ rule ∈ after, rule = .likeInput 0) (x : Option TensorSpec) :
    (composed (before ++ .derived f :: after)).apply [x] = through (before ++ .derived f :: after) x := by
  have hplain : ∀ rule ∈ after, rule.Plain := fun rule hrule => hafter rule hrule ▸ .likeInput
  have hbehind : through after = pure := funext (through_alike hafter)
  have hthrough : through (before ++ .derived f :: after) x = f [x] := by
    calc through (before ++ .derived f :: after) x
        = through before x >>= through (.derived f :: after) := List.foldlM_append
      _ = through (.derived f :: after) x := by rw [through_alike hbefore, Outcome.ok_bind]
      _ = f [x] >>= through after := through_cons _ _ _
      _ = f [x] := by rw [hbehind, bind_pure]
  rw [composed_derived, apply_behind_derived hplain, any_constant_alike hafter, hthrough]
  rfl

end OutputRule

namespace Layers

open OutputRule (through constant)

/-- What a stack promises, by the rules of its layers. It is what comes out of one layer after the other if
    no rule is derived, or if all others hand on their input. Otherwise the last derived rule is
    applied to the input of the stack, and what stands before it counts for nothing; what stands
    behind it counts only if something there is constant. -/
theorem stack_composes (role : StackRole) (layers : List Assembly) {a : Assembly} (h : stack role layers = .ok a) :
    ∃ rules declared, List.Forall₂ (Promises role) layers rules ∧ Promises role a declared ∧
      ((∀ rule ∈ rules, rule.Plain) → ∀ x, declared.apply [x] = through rules x) ∧
      ∀ before f after, rules = before ++ .derived f :: after →
        ((∀ rule ∈ before ++ after, rule = .likeInput 0) → ∀ x, declared.apply [x] = through rules x) ∧
        ((∀ rule ∈ after, rule.Plain) → ∀ x,
          declared.apply [x] = if after.any constant then through after x else f [x]) := by
  obtain ⟨s, hlayers, rfl⟩ := stack_ok.mp h
  obtain ⟨rules, hrules, hrule⟩ := rule_of_layers hlayers
  refine ⟨rules, s.rule, hrules, leadingRule_stackComponent _ _, ?_, ?_⟩
  · intro hplain x
    rw [hrule]
    exact OutputRule.apply_composed hplain x
  · intro before f after hsplit
    rw [hrule, hsplit]
    constructor
    · intro halike x
      obtain ⟨hbefore, hafter⟩ := List.forall_mem_append.mp halike
      exact OutputRule.apply_composed_alone hbefore hafter x
    · intro hplain x
      rw [← OutputRule.apply_behind_derived hplain x, ← OutputRule.composed_derived before after]
      rfl

/-- Scales, then converts. -/
def scaleThenConvert : List Assembly := [.leaf scaleKind (scale 2), .leaf toFloatKind toFloat]

theorem scaleThenConvert_composes : ∃ a declared, stack .preprocessor scaleThenConvert = .ok a ∧
    Promises .preprocessor a declared ∧
    declared.apply [some ⟨.i32, [.fixed 3]⟩] = .ok (some ⟨.f32, [.fixed 3]⟩) := by
  have hstack : (stack .preprocessor scaleThenConvert).toOption.isSome = true := by decide +kernel
  obtain ⟨a, ha⟩ := Option.isSome_iff_exists.mp hstack
  have hok := Outcome.toOption_ok.mp ha
  obtain ⟨rules, declared, hrules, hdeclared, hcompose, -⟩ := stack_composes .preprocessor scaleThenConvert hok
  obtain rfl : rules = [.likeInput 0, .likeInputAs 0 .f32] := rules_unique hrules (.cons rfl (.cons rfl .nil))
  have hplain : ∀ rule ∈ [OutputRule.likeInput 0, .likeInputAs 0 .f32], rule.Plain :=
    List.forall_mem_cons.mpr ⟨.likeInput, List.forall_mem_singleton.mpr (.likeInputAs .f32)⟩
  exact ⟨a, declared, hok, hdeclared, hcompose hplain _⟩

/-- Sums over the second axis. -/
def dropping : Component :=
  preprocessing "drop" .null (.derived Script.dropLast) (.reduce .sum (some 1) false) []

/-- Drops an axis, then converts. -/
def dropThenConvert : List Assembly := [.leaf "drop" dropping, .leaf toFloatKind toFloat]

/-- The stack promises integers, though its last layer converts them. -/
theorem derived_not_composed : ∃ a rules declared, stack .preprocessor dropThenConvert = .ok a ∧
    List.Forall₂ (Promises .preprocessor) dropThenConvert rules ∧ Promises .preprocessor a declared ∧
    declared.apply [some ⟨.i32, [.fixed 2, .fixed 3]⟩] = .ok (some ⟨.i32, [.fixed 2]⟩) ∧
    through rules (some ⟨.i32, [.fixed 2, .fixed 3]⟩) = .ok (some ⟨.f32, [.fixed 2]⟩) := by
  have hstack : (stack .preprocessor dropThenConvert).toOption.isSome = true := by decide +kernel
  obtain ⟨a, ha⟩ := Option.isSome_iff_exists.mp hstack
  have hok := Outcome.toOption_ok.mp ha
  obtain ⟨s, hlayers, rfl⟩ := stack_ok.mp hok
  obtain ⟨rules, hrules, hrule⟩ := rule_of_layers hlayers
  obtain rfl : rules = [.derived Script.dropLast, .likeInputAs 0 .f32] :=
    rules_unique hrules (.cons rfl (.cons rfl .nil))
  refine ⟨_, _, s.rule, hok, hrules, leadingRule_stackComponent _ _, ?_, rfl⟩
  rw [hrule]
  rfl

end Layers

end ComponentFlow
