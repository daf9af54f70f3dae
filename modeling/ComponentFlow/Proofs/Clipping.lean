/-
  ComponentFlow.Proofs.Clipping — what a layer that clips makes of its bounds. It takes any pair that is not
  inverted, and a pair with NaN in it is not; the kernel then wants the bounds in order. So such a layer can be
  built, and aborts on the first tensor with an element (`Layers.clip_answers`). Where the bounds are in order
  every number is moved between them, and coerced to the element type only then, which may move it out again.

  - `Scalar.Within`: a value between two bounds.
  - `Scalar.coerce_clamp`: a value of the type ends outside only as a bound that the type lacks.
-/
import ComponentFlow.Layers.Preprocess
import ComponentFlow.Proofs.Answer
import ComponentFlow.Proofs.Construction

namespace ComponentFlow

/-! ## Moving a value between bounds -/

namespace Scalar

variable {lo hi x : Float32}

/-- Neither below the lower bound nor above the upper one, and a number as they are. -/
def Within (lo hi x : Float32) : Prop := lo ≤ x ∧ x ≤ hi

/-- Bounds that are not inverted have no order only if one is NaN. -/
theorem unordered_iff (h : ¬ lo > hi) : ¬ lo ≤ hi ↔ lo.isNaN = true ∨ hi.isNaN = true := by
  rw [← Decidable.not_iff_not, not_not, not_or, Bool.not_eq_true, Bool.not_eq_true]
  exact ⟨numbers_of_le, fun hnumbers => le_of_not_gt hnumbers.1 hnumbers.2 h⟩

theorem clamp_cases (h : lo ≤ hi) (hx : x.isNaN = false) : (x < lo ∧ clamp lo hi x = lo) ∨
    (x > hi ∧ clamp lo hi x = hi) ∨ (Within lo hi x ∧ clamp lo hi x = x) := by
  obtain ⟨hlo, hhi⟩ := numbers_of_le h
  unfold clamp
  by_cases hbelow : x < lo
  · refine .inl ⟨hbelow, ?_⟩
    rw [if_pos hbelow, if_neg (not_lt_of_le h)]
  · rw [if_neg hbelow]
    by_cases habove : x > hi
    · exact .inr (.inl ⟨habove, if_pos habove⟩)
    · exact .inr (.inr ⟨⟨le_of_not_gt hlo hx hbelow, le_of_not_gt hx hhi habove⟩, if_neg habove⟩)

theorem within_clamp (h : lo ≤ hi) (hx : x.isNaN = false) : Within lo hi (clamp lo hi x) := by
  obtain ⟨hlo, hhi⟩ := numbers_of_le h
  obtain ⟨-, hclamp⟩ | ⟨-, hclamp⟩ | ⟨hwithin, hclamp⟩ := clamp_cases h hx <;> rw [hclamp]
  · exact ⟨le_refl hlo, h⟩
  · exact ⟨h, le_refl hhi⟩
  · exact hwithin

/-- A value of the type that lies outside once it is clamped and coerced lay beyond a bound that is none. -/
theorem coerce_clamp {dtype : DType} (h : lo ≤ hi) (hx : x.isNaN = false) (hvalue : dtype.coerce x = x)
    (houtside : ¬ Within lo hi (dtype.coerce (clamp lo hi x))) :
    (x < lo ∧ dtype.coerce lo ≠ lo) ∨ (x > hi ∧ dtype.coerce hi ≠ hi) := by
  have hwithin : Within lo hi (clamp lo hi x) := within_clamp h hx
  obtain ⟨hbelow, hclamp⟩ | ⟨habove, hclamp⟩ | ⟨-, hclamp⟩ := clamp_cases h hx <;>
    rw [hclamp] at houtside hwithin
  · exact .inl ⟨hbelow, fun hlo => houtside (hlo.symm ▸ hwithin)⟩
  · exact .inr ⟨habove, fun hhi => houtside (hhi.symm ▸ hwithin)⟩
  · exact absurd (hvalue.symm ▸ hwithin) houtside

end Scalar

/-! ## The kernel -/

namespace Kernel

variable {lo hi : Float32} {a : Tensor}

/-- The tensor with every element clamped and coerced. -/
def clipped (lo hi : Float32) (a : Tensor) : Tensor :=
  ⟨a.dtype, a.shape, (a.data.map (Scalar.clamp lo hi)).map a.dtype.coerce,
    Array.size_map.trans (Array.size_map.trans a.size_eq)⟩

theorem infer_clip (h : ¬ lo > hi) : (Primitive.clip lo hi).infer [a.spec] = .ok a.spec := if_neg h

theorem execute_clip (h : ¬ lo > hi) (hclips : lo ≤ hi ∨ a.isEmpty) :
    execute (.clip lo hi) [a] = .ok (clipped lo hi a) := by
  have hinfer : (Primitive.clip lo hi).infer ([a].map Tensor.spec) = .ok (.ofShape a.dtype a.shape) := infer_clip h
  exact execute_computed hinfer (if_pos hclips) (Array.size_map.trans a.size_eq)

theorem execute_clip_unordered (h : ¬ lo > hi) (hunordered : ¬ (lo ≤ hi ∨ a.isEmpty)) :
    execute (.clip lo hi) [a] = .error (.fault (.unorderedBounds lo hi)) := by
  have hcompute : compute (.clip lo hi) [a] a.shape = .error (.fault (.unorderedBounds lo hi)) := if_neg hunordered
  have hshape : a.spec.shape? = some a.shape := TensorSpec.shape_of_eq rfl
  simp only [execute, List.map_cons, List.map_nil, infer_clip h, hshape, hcompute, bind, Except.bind]

end Kernel

/-! ## The layer -/

namespace Layers

open Scalar (Within clamp)

section Preprocessing

variable {kind title : String} {config : Json} {rule : OutputRule} {p : Primitive} {g : Graph} {id : NodeId}
  {a : Tensor}

/-- The method of a layer of one primitive. -/
def preprocessMethod (rule : OutputRule) (p : Primitive) : Method where
  name := preprocess
  inputs := [Signature.required "x"]
  outputs := [⟨"y", rule⟩]
  body := .straight [.apply p [.input 0]] [.first 0]

theorem method_preprocess : (preprocessing kind config rule p []).method? preprocess = some (preprocessMethod rule p) :=
  rfl

theorem inputs_preprocess (scope : String) (v : Value) :
    (preprocessMethod rule p).completeInputs scope [v] = .ok [v] := rfl

theorem run_preprocess {site : Site Tally} (hsite : site.Settled) (rule : OutputRule) (p : Primitive) (v : Value) :
    ((preprocessMethod rule p).body.run site [v]).outcome = (do
      let out ← (site.handler.apply p [v]).outcome
      return [out]) := by
  refine (Body.outcome_run _ _).trans ?_
  simp only [Body.outcome_runSteps hsite, Body.outcome_runSteps_nil, Step.apply,
    Body.outcome_perform_apply, List.mapM_cons, List.mapM_nil, Frame.resolve, Frame.orBadReference,
    List.nil_append, List.getElem?_cons_zero, Outcome.ok_bind, pure_bind]
  cases (site.handler.apply p [v]).outcome <;> rfl

variable (h : g.Hosts .reference id (.leaf title (preprocessing kind config rule p []))) (hbuildable : g.Buildable)
  (hunder : g.tree.Under id Tree.root)
include h hbuildable hunder

/-- A layer of one primitive gives what the kernel does, if that has the inferred spec and keeps the contract. -/
theorem preprocess_gives {t : Tensor} (hinfer : p.infer [a.spec] = .ok t.spec) (ht : Kernel.execute p [a] = .ok t)
    (hkept : rule.Kept [some a.spec] (.tensor t)) :
    ((Graph.call id preprocess [.tensor a]).runOn g).1 = .ok ⟨["y"], [.tensor t]⟩ := by
  have hoperands : p.infer ([a].map Tensor.spec) = .ok t.spec := hinfer
  have happly : ((Handler.immediate .reference).apply p [.tensor a]).outcome = .ok (.tensor t) :=
    Handler.immediate_gives hoperands ht
  have hrecorded : ∀ v ∈ [Value.tensor a], Graph.isRecorded v = false := List.forall_mem_singleton.mpr rfl
  refine h.call_of_run hbuildable hunder method_preprocess hrecorded (inputs_preprocess · (.tensor a))
    (fun site hsite hhandler => ?_) (.cons hkept .nil)
  rw [run_preprocess hsite, hhandler, happly]
  rfl

theorem preprocess_fails {spec : TensorSpec} {e : KernelError} (hinfer : p.infer [a.spec] = .ok spec)
    (he : Kernel.execute p [a] = .error e) :
    ((Graph.call id preprocess [.tensor a]).runOn g).1 = .error (.ofKernel e) := by
  have hoperands : p.infer ([a].map Tensor.spec) = .ok spec := hinfer
  have happly : ((Handler.immediate .reference).apply p [.tensor a]).outcome = .error (.ofKernel e) :=
    Handler.immediate_fails hoperands he
  have hrecorded : ∀ v ∈ [Value.tensor a], Graph.isRecorded v = false := List.forall_mem_singleton.mpr rfl
  have hrun : ∀ site : Site Tally, site.Settled → site.handler = .immediate .reference →
      ((preprocessMethod rule p).body.run site [.tensor a]).outcome = .error (.ofKernel e) := by
    intro site hsite hhandler
    rw [run_preprocess hsite, hhandler, happly]
    rfl
  obtain ⟨scope, hcall⟩ :=
    h.call_run hbuildable hunder method_preprocess hrecorded (inputs_preprocess · (.tensor a)) hrun
  exact hcall

end Preprocessing

variable {lo hi : Float32} {component : Component}

theorem clip_ok (h : clip lo hi = .ok component) : ¬ lo > hi ∧ component = preprocessing clipKind
    (.object [("max", Json.ofSingle hi), ("min", Json.ofSingle lo)]) (.likeInput 0) (.clip lo hi) [] := by
  unfold clip at h
  split at h
  · cases h
  · next hle => exact ⟨hle, (Except.ok.inj h).symm⟩

/-- Wherever a layer with accepted bounds stands in a graph on the reference kernels that can be built, a call with a
    tensor aborts if one of the bounds is NaN and there is an element, and otherwise gives every element clamped and
    coerced to the element type. With bounds in order clamping keeps numbers between them; what is outside after the
    coercion lay beyond a bound that is no value of the element type. -/
theorem clip_answers (hclip : clip lo hi = .ok component) {title : String} {g : Graph} {id : NodeId}
    (h : g.Hosts .reference id (.leaf title component)) (hbuildable : g.Buildable)
    (hunder : g.tree.Under id Tree.root) (a : Tensor) :
    let answer := ((Graph.call id preprocess [.tensor a]).runOn g).1
    (¬ lo ≤ hi ↔ lo.isNaN = true ∨ hi.isNaN = true) ∧
    (¬ lo ≤ hi → a.isEmpty = false → answer = .error (.fault (.unorderedBounds lo hi))) ∧
    (lo ≤ hi ∨ a.isEmpty = true → ∃ r, answer = .ok ⟨["y"], [.tensor r]⟩ ∧ r.spec = a.spec ∧
      ∀ i : Nat, r.data[i]? = a.data[i]?.map fun x => a.dtype.coerce (clamp lo hi x)) ∧
    (lo ≤ hi → ∀ x : Float32, x.isNaN = false → Within lo hi (clamp lo hi x) ∧
      (a.dtype.coerce x = x → ¬ Within lo hi (a.dtype.coerce (clamp lo hi x)) →
        (x < lo ∧ a.dtype.coerce lo ≠ lo) ∨ (x > hi ∧ a.dtype.coerce hi ≠ hi))) := by
  obtain ⟨hle, rfl⟩ := clip_ok hclip
  intro answer
  refine ⟨Scalar.unordered_iff hle, fun hunordered hfull => ?_, fun hclips => ?_, fun hordered x hx =>
    ⟨Scalar.within_clamp hordered hx, Scalar.coerce_clamp hordered hx⟩⟩
  · have hfails : ¬ (lo ≤ hi ∨ a.isEmpty = true) := by
      rw [hfull]
      exact fun hor => hor.elim hunordered Bool.false_ne_true
    exact preprocess_fails h hbuildable hunder (Kernel.infer_clip hle) (Kernel.execute_clip_unordered hle hfails)
  · refine ⟨Kernel.clipped lo hi a, ?_, rfl, fun i => ?_⟩
    · exact preprocess_gives h hbuildable hunder (Kernel.infer_clip hle) (Kernel.execute_clip hle hclips)
        ⟨_, rfl, .present (TensorSpec.compatible_refl _)⟩
    · simp [Kernel.clipped, Function.comp_def]

/-! ## Layers on their own -/

/-- Not a number. -/
def nan : Float32 := Float32.ofBits 0x7fc00000

theorem clip_hosted (hclip : clip lo hi = .ok component) : ∃ t, Tree.ofAssembly (.leaf clipKind component) = .ok t ∧
    (Graph.fresh 0 t ⟨.immediate, .reference⟩).Hosts .reference Tree.root (.leaf clipKind component) ∧
    (Graph.fresh 0 t ⟨.immediate, .reference⟩).Buildable :=
  Graph.exists_host (Assembly.sound_leaf (by decide) (clip_solitary hclip)) .reference 0

/-- Above the bounds, not a number, and between them. -/
def mixed : Tensor := ⟨.f32, ⟨[3]⟩, #[2, nan, 0], rfl⟩

theorem mixed_clipped : ∃ component t r, clip (-1) 1 = .ok component ∧
    Tree.ofAssembly (.leaf clipKind component) = .ok t ∧
    ((Graph.call Tree.root preprocess [.tensor mixed]).runOn (.fresh 0 t ⟨.immediate, .reference⟩)).1 =
      .ok ⟨["y"], [.tensor r]⟩ ∧
    r.data[0]? = some 1 ∧ r.data[1]? = some nan ∧ r.data[2]? = some 0 := by
  obtain ⟨component, hclip⟩ : ∃ component, clip (-1) 1 = .ok component := ⟨_, if_neg (by decide +kernel)⟩
  obtain ⟨t, ht, hhosts, hbuildable⟩ := clip_hosted hclip
  have hordered : (-1 : Float32) ≤ 1 := by decide +kernel
  have habove : clamp (-1) 1 2 = 1 := by decide +kernel
  have hnan : clamp (-1) 1 nan = nan := by decide +kernel
  have hbetween : clamp (-1) 1 0 = 0 := by decide +kernel
  obtain ⟨-, -, hanswer, -⟩ := clip_answers hclip hhosts hbuildable .refl mixed
  obtain ⟨r, hcall, -, hdata⟩ := hanswer (.inl hordered)
  exact ⟨component, t, r, hclip, ht, hcall, (hdata 0).trans (congrArg some habove),
    (hdata 1).trans (congrArg some hnan), (hdata 2).trans (congrArg some hbetween)⟩

/-- A layer with a NaN bound aborts on a tensor that has an element, and zero among integers stays where it is,
    below a bound of one half. -/
theorem clip_misses :
    (∃ component t, clip nan 1 = .ok component ∧ Tree.ofAssembly (.leaf clipKind component) = .ok t ∧
      ((Graph.call Tree.root preprocess [.tensor mixed]).runOn (.fresh 0 t ⟨.immediate, .reference⟩)).1 =
        .error (.fault (.unorderedBounds nan 1))) ∧
    (∃ component t, clip 0.5 1.5 = .ok component ∧ Tree.ofAssembly (.leaf clipKind component) = .ok t ∧
      ((Graph.call Tree.root preprocess [.tensor (.scalarInt 0)]).runOn (.fresh 0 t ⟨.immediate, .reference⟩)).1 =
        .ok ⟨["y"], [.tensor (.scalarInt 0)]⟩ ∧ ¬ Within 0.5 1.5 0) := by
  have hnan : ¬ nan > 1 := by decide +kernel
  have hhalves : ¬ (0.5 : Float32) > 1.5 := by decide +kernel
  constructor
  · obtain ⟨component, hclip⟩ : ∃ component, clip nan 1 = .ok component := ⟨_, if_neg hnan⟩
    obtain ⟨t, ht, hhosts, hbuildable⟩ := clip_hosted hclip
    have hunordered : ¬ (nan ≤ 1 ∨ mixed.isEmpty = true) := by decide +kernel
    obtain ⟨-, rfl⟩ := clip_ok hclip
    exact ⟨_, t, hclip, ht, preprocess_fails hhosts hbuildable .refl (Kernel.infer_clip hnan)
      (Kernel.execute_clip_unordered hnan hunordered)⟩
  · obtain ⟨component, hclip⟩ : ∃ component, clip 0.5 1.5 = .ok component := ⟨_, if_neg hhalves⟩
    obtain ⟨t, ht, hhosts, hbuildable⟩ := clip_hosted hclip
    have hordered : (0.5 : Float32) ≤ 1.5 := by decide +kernel
    have hzero : DType.i32.coerce (clamp 0.5 1.5 (Scalar.ofInt 0)) = Scalar.ofInt 0 := by decide +kernel
    have hclipped : Kernel.clipped 0.5 1.5 (.scalarInt 0) = .scalarInt 0 := by
      simp [Kernel.clipped, Tensor.scalarInt, Tensor.scalarOf, hzero]
    obtain ⟨-, rfl⟩ := clip_ok hclip
    refine ⟨_, t, hclip, ht, ?_, fun hwithin => absurd hwithin.1 (by decide +kernel)⟩
    exact preprocess_gives hhosts hbuildable .refl (Kernel.infer_clip hhalves)
      ((Kernel.execute_clip hhalves (.inl hordered)).trans (congrArg Except.ok hclipped))
      ⟨_, rfl, .present (TensorSpec.compatible_refl _)⟩

end Layers

end ComponentFlow
