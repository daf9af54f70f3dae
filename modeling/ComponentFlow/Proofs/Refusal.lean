/-
  ComponentFlow.Proofs.Refusal — why runs on the reference kernels fail. What is fetched leads nowhere,
  what is fed is missing or does not fit, or the kernels refuse operands for what these are; the checks
  that a run makes on itself all pass (`Artifact.execute_refused`).

  - `Artifact.Refuses`: the errors, each with what it is about.
  - `GraphError.Internal`: the errors of a run that went wrong by itself.
  - `Artifact.Counts`: what holds of all shapes that a run counts in.
  - `Session.execute_refuses`: runs of the artifact of a session.
-/
import ComponentFlow.Proofs.Influence
import ComponentFlow.Proofs.Keeping
import ComponentFlow.Proofs.Reference
import ComponentFlow.Proofs.Words

namespace ComponentFlow

/-- A kernel that breaks its word, a value that should have been there, or a step out of bounds. -/
inductive GraphError.Internal : GraphError → Prop
  | output (cause : Mismatch) : Internal (.shapeMismatch cause)
  | result (cause : Mismatch) : Internal (.kernel (.badResult cause))
  | nonStatic (op : String) (spec : TensorSpec) : Internal (.kernel (.nonStatic op spec))
  | operand (operand node : Nat) : Internal (.kernel (.missingOperand operand node))
  | value (value : Nat) : Internal (.kernel (.missingValue value))
  | fault (cause : Fault) : Internal (.fault cause)

/-- The shapes that a kernel counts in, those of its operands and the one that is inferred for its result. -/
def Primitive.shapes (p : Primitive) (ts : List Tensor) : List Shape :=
  ts.map Tensor.shape ++ ((p.infer (ts.map Tensor.spec)).toOption.bind TensorSpec.shape?).toList

namespace Artifact

/-- So it is with all shapes that the kernels count in while these placeholders are fetched. -/
def Counts (a : Artifact) (feeds : Feeds) (fetches : List Placeholder) (P : Shape → Prop) : Prop :=
  ∀ (i : Nat) (n : GraphNode) (p : Primitive) (ts : List Tensor), a.DependsOn (a.asked fetches) i →
    a.nodes[i]? = some n → n.op = .primitive p → List.Forall₂ (a.Denotes feeds) n.operands ts →
      ∀ s ∈ p.shapes ts, P s

/-- What a run on the reference kernels is refused for. -/
inductive Refuses (a : Artifact) (feeds : Feeds) (fetches : List Placeholder) : GraphError → Prop
  /-- An output of this graph that the artifact does not have. -/
  | notInArtifact {p i k} : p ∈ fetches → p.source = .output i k → p.graph = a.graph → a.valueOf? p = none →
      Refuses a feeds fetches (.unresolvedBinding i .notInArtifact)
  /-- An output of another graph. -/
  | foreignOutput {p i k} : p ∈ fetches → p.source = .output i k → p.graph ≠ a.graph →
      Refuses a feeds fetches (.unresolvedBinding i (.foreignGraph p.graph))
  /-- An input of another graph. -/
  | foreignInput {p name} : p ∈ fetches → p.source = .feed name → p.graph ≠ a.graph →
      Refuses a feeds fetches (.feedMismatch name (.inputOf a.graph) (.inputOf p.graph))
  /-- An input that is not fed. -/
  | missing {name} : feeds.lookup name = none → Refuses a feeds fetches (.missingFeed name)
  /-- An input that is fed what it does not admit. -/
  | mismatch {name t spec} : feeds.lookup name = some t → spec.admits t = false →
      Refuses a feeds fetches (.feedMismatch name (.spec spec) (.spec t.spec))
  /-- Values of operands that inference refuses. -/
  | operands {i : Nat} {n p ts cause} : a.nodes[i]? = some n → n.op = .primitive p →
      List.Forall₂ (a.Denotes feeds) n.operands ts → p.infer (ts.map Tensor.spec) = .error cause →
      Refuses a feeds fetches (.kernel (.shape cause))
  /-- An index to expand that lies outside its depth. -/
  | index {i : Nat} {n p ts index depth} : a.nodes[i]? = some n → n.op = .primitive p →
      List.Forall₂ (a.Denotes feeds) n.operands ts → p.Overruns ts index depth →
      Refuses a feeds fetches (.kernel (.indexOutOfDepth index depth))

variable {a : Artifact} {declared : Declared} {feeds : Feeds} {fetches : List Placeholder} {e : GraphError}

/-- No such error comes from within. -/
theorem Refuses.not_internal (h : a.Refuses feeds fetches e) : ¬ e.Internal := by
  intro hinternal
  cases h <;> cases hinternal

theorem read_refused {name : String} {spec : TensorSpec} (h : feeds.read name spec = .error e) :
    a.Refuses feeds fetches e := by
  unfold Feeds.read at h
  split at h
  · next hnone =>
    cases h
    exact .missing hnone
  · next t hsome =>
    split at h
    · cases h
    · next hadmits =>
      cases h
      exact .mismatch hsome (by simpa using hadmits)

theorem target_refused {p : Placeholder} (hp : p ∈ fetches) (h : a.target feeds p = .error e) :
    a.Refuses feeds fetches e := by
  unfold target at h
  split at h
  · cases h
  · next hnone =>
    split at h
    · next name hsource =>
      split at h
      · rcases hread : feeds.read name p.spec with e' | t
        · rw [hread] at h
          cases h
          exact read_refused hread
        · rw [hread] at h
          cases h
      · next hgraph =>
        cases h
        exact .foreignInput hp hsource hgraph
    · next i k hsource =>
      cases h
      by_cases hgraph : p.graph = a.graph
      · rw [if_pos hgraph]
        exact .notInArtifact hp hsource hgraph hnone
      · rw [if_neg hgraph]
        exact .foreignOutput hp hsource hgraph

/-! ## Values and the specs that were inferred -/

/-- The spec of a node admits its value. -/
theorem denotes_admits (hwf : a.extend.WellFormed declared) {i : Nat} {n : GraphNode} (hn : a.nodes[i]? = some n)
    {t : Tensor} (h : a.Denotes feeds i t) : n.spec.admits t = true := by
  rw [denotes_iff hn] at h
  cases hwf.node hn with
  | constant u =>
    cases h
    exact TensorSpec.admits_self _
  | feed => exact Feeds.read_admits h
  | primitive =>
    obtain ⟨ts, -, -, hadmits⟩ := h
    exact hadmits

/-- The spec of a node was inferred from specs that cover those of the values of its operands. -/
theorem operands_covered (hwf : a.extend.WellFormed declared) {i : Nat} {n : GraphNode} {p : Primitive}
    (hn : a.nodes[i]? = some n) (hop : n.op = .primitive p) {ts : List Tensor}
    (hts : List.Forall₂ (a.Denotes feeds) n.operands ts) :
    ∃ specs, p.infer specs = .ok n.spec ∧ List.Forall₂ TensorSpec.Covers specs (ts.map Tensor.spec) := by
  cases hwf.node hn with
  | constant | feed => cases hop
  | @primitive _ operands specs spec hoperands hinfer =>
    cases hop
    refine ⟨specs, hinfer, List.forall₂_map_right_iff.mpr (forall₂_comp hoperands.flip hts ?_)⟩
    intro s o t ho ht
    obtain ⟨m, hm, rfl⟩ := Option.map_eq_some_iff.mp ho.2
    exact TensorSpec.admits_iff_covers.mp (denotes_admits hwf hm ht)

/-- A node that the reference kernels fail to evaluate has operands that they refuse. -/
theorem nodeValue_refused (hwf : a.extend.WellFormed declared) (hkernels : a.kernels = .reference)
    (hbounded : a.extend.Applies Primitive.bounded) {marks : Array Bool} (hmarks : a.Marks fetches marks) {i : Nat}
    {n : GraphNode} {values : Array (Option Tensor)} {tally : Tally} (hn : a.nodes[i]? = some n) (hm : Marked marks i)
    (h : a.Evaluated feeds marks i values) (hrun : ((nodeValue a.kernels feeds values i n).runOn tally).1 = .error e) :
    a.Refuses feeds fetches e := by
  unfold nodeValue at hrun
  rcases hop : n.op with u | name | p
  · rw [hop] at hrun
    cases hrun
  · rw [hop] at hrun
    exact read_refused hrun
  · obtain ⟨ts, hoperands, hts⟩ := operands_evaluated (ordered_of_wellFormed hwf) hmarks h hn hm
    have hkernel : ((a.kernels.evaluate p n.spec ts).runOn tally).1 = .error e := by
      simpa only [hop, Effect.runOn_bind, Effect.runOn_ofOutcome, hoperands] using hrun
    have hp : p.bounded = true := hbounded i n p hn hop
    have hreference : a.kernels.execute = Kernel.execute := congrArg Kernels.execute hkernels
    rcases Kernels.evaluate_error hkernel with ⟨cause, hexecute, rfl⟩ | ⟨t, hexecute, hadmits⟩
    · rcases Kernel.execute_error hp (hreference ▸ hexecute) with ⟨_, hinfer, rfl⟩ | ⟨_, _, hover, rfl⟩
      · exact .operands hn hop hts hinfer
      · exact .index hn hop hts hover
    · -- What was inferred for the node covers what is inferred from the values.
      have hinfer := Kernel.infer_of_execute hp (hreference ▸ hexecute)
      obtain ⟨specs, hnode, hcovers⟩ := operands_covered hwf hn hop hts
      obtain ⟨s, hs, hcovers'⟩ := Primitive.infer_covers hcovers hinfer
      obtain rfl := Except.ok.inj (hnode.symm.trans hs)
      rw [TensorSpec.admits_iff_covers.mpr hcovers'] at hadmits
      cases hadmits

/-! ## Whole runs -/

/-- A run on the reference kernels succeeds, or is refused. -/
theorem execute_refused (feeds : Feeds) (hwf : a.extend.WellFormed declared) (hleads : a.Leads fetches)
    (hkernels : a.kernels = .reference) (hbounded : a.extend.Applies Primitive.bounded) (tally : Tally) :
    ((a.execute fetches feeds).runOn tally).1.Ends (fun _ => True) (a.Refuses feeds fetches) := by
  have ha := ordered_of_wellFormed hwf
  obtain ⟨marks, hmarks, hrun⟩ := execute_marks ha hleads
  rw [hrun]
  refine Effect.ends_bind (P := fun targets => fetches.mapM (a.target feeds) = .ok targets) ?_ ?_
  · rw [Effect.runOn_ofOutcome]
    rcases htargets : fetches.mapM (a.target feeds) with e | targets
    · obtain ⟨p, hp, htarget⟩ := Outcome.mapM_error htargets
      exact target_refused hp htarget
    · rfl
  intro targets tally htargets
  refine Effect.ends_bind (evaluate_means ha hmarks
    (fun hn hm h hvalue => nodeValue_refused hwf hkernels hbounded hmarks hn hm h hvalue) tally) ?_
  intro values tally hvalues
  obtain ⟨ts, hts⟩ := fetched_something hleads hmarks hvalues (Outcome.mapM_ok.mp htargets)
  rw [Effect.runOn_ofOutcome, hts]
  trivial

end Artifact

namespace Session

/-- Runs of the artifact of a session on the reference kernels, with methods that clip to no bound that
    is not a number, on values whose shapes fit into machine words: the kernels count no further than these
    go. One that fails is refused for what was fetched, for what was fed, or for values of operands that the
    kernels do not take; it fails no check of its own, and no step is aborted. -/
theorem execute_refuses (id : Nat) (tree : Tree) (requests : List Request)
    (htree : tree.applies Primitive.bounded = true) {a : Artifact}
    (ha : ((start id tree .reference).after requests).graph.artifact = some a) (fetches : List Placeholder)
    (feeds : Feeds) (hfits : a.Counts feeds fetches Shape.Fits) (tally : Tally) :
    a.Counts feeds fetches Shape.Exact ∧
    ((∃ ts, ((a.execute fetches feeds).runOn tally).1 = .ok ts) ∨
      ∃ e, ((a.execute fetches feeds).runOn tally).1 = .error e ∧ a.Refuses feeds fetches e ∧ ¬ e.Internal) := by
  have hwf := (valid_after (valid_start id tree .reference) requests).wellFormed a ha
  have hkernels : a.kernels = .reference := artifact_after (Artifact.kernels_inherited tree .reference) ha
  have hbounded : a.extend.Applies Primitive.bounded :=
    artifact_after (Artifact.applies_inherited (fun _ => rfl) htree .reference) ha
  have hends := Artifact.execute_refused feeds hwf (artifact_leads ha fetches) hkernels hbounded tally
  refine ⟨fun i n p ts hi hn hop hts s hs => Shape.exact_of_fits (hfits i n p ts hi hn hop hts s hs), ?_⟩
  rcases hrun : ((a.execute fetches feeds).runOn tally).1 with e | ts
  · rw [hrun] at hends
    exact .inr ⟨e, rfl, hends, hends.not_internal⟩
  · exact .inl ⟨ts, rfl⟩

/-- A component whose only method adds two values. -/
def adder : Tree where
  nodes := #[{
    name := "root"
    parent := none
    children := []
    state := .unbuilt
    component := {
      kind := "adder"
      config := .null
      methods := [{
        name := "add"
        inputs := [Signature.required "x", Signature.required "y"]
        outputs := [⟨"sum", .likeInput 0⟩]
        body := .straight [.apply (.binary .add) [.input 0, .input 1]] [.first 0] }] } }]
  frozen := false

/-- Two inputs of any length, their sum, and a build. -/
def addition : List Request :=
  let s : TensorSpec := ⟨.f32, [.named "B"]⟩
  [.record (.input "x" s), .record (.input "y" s),
    .record (.call 0 "add" [.placeholder ⟨1, .feed "x", s⟩, .placeholder ⟨1, .feed "y", s⟩]), .build]

def sum : List Placeholder := [⟨1, .output 0 0, ⟨.f32, [.named "B"]⟩⟩]

def unequal : Feeds := [("x", .zeros ⟨[2]⟩), ("y", .zeros ⟨[3]⟩)]

/-- The two inputs are fed, and their sum is the only node that kernels are needed for. -/
theorem addition_counts {a : Artifact} (ha : ((start 1 adder .reference).after addition).graph.artifact = some a) :
    a.Counts unequal sum Shape.Fits := by
  intro i n p ts _ hn hop hts s hs
  have hnodes : a.nodes = #[⟨.feed "x", [], ⟨.f32, [.named "B"]⟩⟩, ⟨.feed "y", [], ⟨.f32, [.named "B"]⟩⟩,
      ⟨.primitive (.binary .add), [0, 1], ⟨.f32, [.named "B"]⟩⟩] := by
    have hbuilt : some a.nodes = some _ := (congrArg (Option.map Artifact.nodes) ha).symm
    exact Option.some.inj (hbuilt.trans rfl)
  have hfed : ∀ {i : Nat} {name spec t u}, a.nodes[i]? = some ⟨.feed name, [], spec⟩ →
      unequal.read name spec = .ok u → a.Denotes unequal i t → t = u :=
    fun hn hread h => Except.ok.inj (((Artifact.denotes_iff hn).mp h).symm.trans hread)
  have hi : i < 3 := by
    rw [hnodes] at hn
    exact (Array.getElem?_eq_some_iff.mp hn).1
  obtain rfl | rfl | rfl : i = 0 ∨ i = 1 ∨ i = 2 := by omega
  · cases (hnodes ▸ hn : _ = some n)
    cases hop
  · cases (hnodes ▸ hn : _ = some n)
    cases hop
  · cases (hnodes ▸ hn : _ = some n)
    cases hop
    rcases hts with _ | ⟨ht, _ | ⟨hu, _ | _⟩⟩
    rw [hfed (by rw [hnodes]; rfl) rfl ht, hfed (by rw [hnodes]; rfl) rfl hu] at hs
    have hshapes : ∀ s ∈ (Primitive.binary .add).shapes [.zeros ⟨[2]⟩, .zeros ⟨[3]⟩], s.Fits := by decide
    exact hshapes s hs

/-- Values of different lengths are refused once they are to be added. -/
theorem addition_refuses : ∃ a e, ((start 1 adder .reference).after addition).graph.artifact = some a ∧
    ((a.execute sum unequal).runOn []).1 = .error e ∧ a.Refuses unequal sum e ∧ ¬ e.Internal := by
  have hfails : ((start 1 adder .reference).after addition).graph.artifact.map
      (fun a => ((a.execute sum unequal).runOn []).1.isOk) = some false := by decide +kernel
  have hbounded : adder.applies Primitive.bounded = true := by decide +kernel
  obtain ⟨a, ha, hrun⟩ := Option.map_eq_some_iff.mp hfails
  obtain ⟨-, hends⟩ := execute_refuses 1 adder addition hbounded ha sum unequal (addition_counts ha) []
  rcases hends with ⟨ts, hok⟩ | ⟨e, herror, hrefuses⟩
  · rw [hok] at hrun
    cases hrun
  · exact ⟨a, e, ha, herror, hrefuses⟩

end Session

end ComponentFlow
