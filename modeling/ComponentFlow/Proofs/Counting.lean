/-
  ComponentFlow.Proofs.Counting — how often primitives are evaluated. A run asks its kernels once for
  each marked node, so the tally of kernels under observation grows under each name by the number of
  primitives of this name that the fetched placeholders depend on (`Session.evaluations_counted`);
  whatever else the artifact holds is not evaluated, and what is shared is not evaluated again. What the
  run comes to is what it comes to without the observer. A run with a placeholder that is not located
  ends before anything is counted.

  - `Artifact.evaluations`: the nodes that count under a name.
  - `Artifact.execute_on`: a run on other kernels that give the same.
-/
import ComponentFlow.Kernel.Catalogue
import ComponentFlow.Proofs.Influence
import Mathlib.Data.Set.Card

namespace ComponentFlow

/-! ## Tallies -/

theorem Tally.count_cons (name other : String) (k : Nat) (tally : Tally) :
    count ((name, k) :: tally) other = if name = other then k else tally.count other := by
  unfold count
  rw [List.lookup_cons]
  by_cases h : name = other
  · simp [h]
  · have hne : (other == name) = false := by simpa using Ne.symm h
    simp [h, hne]

theorem Tally.count_add (tally : Tally) (name other : String) :
    (tally.add name).count other = tally.count other + if name = other then 1 else 0 := by
  induction tally with
  | nil => rw [add, count_cons, count, List.lookup_nil, Option.getD_none, Nat.zero_add]
  | cons entry rest ih =>
    obtain ⟨n, k⟩ := entry
    by_cases hn : n = name
    · subst hn
      rw [add, if_pos rfl, count_cons, count_cons]
      by_cases h : n = other <;> simp [h]
    · rw [add, if_neg hn, count_cons, count_cons, ih]
      by_cases h : n = other
      · subst h
        simp [Ne.symm hn]
      · simp [h]

/-- From a position that counts on, one more counts than behind it. -/
theorem ncard_from {P : Nat → Prop} (hfinite : {j | P j}.Finite) {i : Nat} (h : P i) :
    {j | i ≤ j ∧ P j}.ncard = {j | i + 1 ≤ j ∧ P j}.ncard + 1 := by
  have hinsert : {j | i ≤ j ∧ P j} = insert i {j | i + 1 ≤ j ∧ P j} := by
    ext j
    simp only [Set.mem_ofPred_eq, Set.mem_insert_iff]
    constructor
    · intro ⟨hle, hj⟩
      rcases Nat.eq_or_lt_of_le hle with rfl | hlt
      · exact .inl rfl
      · exact .inr ⟨hlt, hj⟩
    · rintro (rfl | ⟨hlt, hj⟩)
      · exact ⟨Nat.le_refl _, h⟩
      · exact ⟨by omega, hj⟩
  have hbehind : i ∉ {j | i + 1 ≤ j ∧ P j} := fun hi => absurd hi.1 (by omega)
  rw [hinsert, Set.ncard_insert_of_notMem hbehind (hfinite.subset fun j hj => hj.2)]

theorem from_behind {P : Nat → Prop} {i : Nat} (h : ¬ P i) : {j | i ≤ j ∧ P j} = {j | i + 1 ≤ j ∧ P j} := by
  ext j
  simp only [Set.mem_ofPred_eq]
  constructor
  · intro ⟨hle, hj⟩
    rcases Nat.eq_or_lt_of_le hle with rfl | hlt
    · exact absurd hj h
    · exact ⟨hlt, hj⟩
  · intro ⟨hlt, hj⟩
    exact ⟨by omega, hj⟩

/-! ## The observer -/

namespace Kernels

variable {inner : Kernels} {p : Primitive} {ts : List Tensor} {tally : Tally}

/-- What kernels under observation give is what they give without. -/
theorem execute_recording (inner : Kernels) : (recording inner).execute = inner.execute := rfl

/-- Every evaluation counts, whatever it gives. -/
@[simp] theorem noted_recording : (recording inner).noted p ts tally = tally.add p.name := rfl

end Kernels

namespace Artifact

variable {a : Artifact} {k : Kernels} {feeds : Feeds} {fetches : List Placeholder} {marks : Array Bool}
  {values values' : Array (Option Tensor)} {tally tally' : Tally}

/-- The node at `i` evaluates a primitive of this name. -/
def Computes (a : Artifact) (name : String) (i : Nat) : Prop :=
  ∃ n p, a.nodes[i]? = some n ∧ n.op = .primitive p ∧ p.name = name

/-- The primitives of this name that the fetched placeholders depend on. -/
def evaluations (a : Artifact) (fetches : List Placeholder) (name : String) : Set Nat :=
  {i | a.DependsOn (a.asked fetches) i ∧ a.Computes name i}

/-! ## Runs under observation -/

/-- A node counts once if it evaluates a primitive, and not otherwise. -/
theorem nodeValue_count {i : Nat} {n : GraphNode} {t : Tensor} (hn : a.nodes[i]? = some n)
    (h : (nodeValue (.recording k) feeds values i n).runOn tally = (.ok t, tally')) (name : String) :
    a.Computes name i ∧ tally'.count name = tally.count name + 1 ∨
      ¬ a.Computes name i ∧ tally'.count name = tally.count name := by
  have hcomputes : a.Computes name i ↔ ∃ p, n.op = .primitive p ∧ p.name = name := by
    simp [Computes, hn]
  rw [hcomputes]
  unfold nodeValue at h
  rcases hop : n.op with u | fed | p
  · rw [hop] at h
    cases h
    exact .inr ⟨by simp, rfl⟩
  · rw [hop] at h
    obtain ⟨-, rfl⟩ := Prod.mk.inj h
    exact .inr ⟨by simp, rfl⟩
  · rw [hop] at h
    obtain ⟨operands, _, hoperands, h⟩ := Effect.bind_ok.mp h
    obtain ⟨-, rfl⟩ := Prod.mk.inj hoperands
    obtain ⟨rfl, -⟩ := Kernels.evaluate_ok.mp h
    rw [Kernels.noted_recording, Tally.count_add]
    by_cases hname : p.name = name
    · exact .inl ⟨⟨p, rfl, hname⟩, by rw [if_pos hname]⟩
    · refine .inr ⟨?_, by rw [if_neg hname]; rfl⟩
      rintro ⟨_, ⟨⟩, hname'⟩
      exact hname hname'

/-- Behind each node, those are counted that are marked. -/
theorem evaluate_count (hmarks : a.Marks fetches marks) {rest : List GraphNode} {i : Nat}
    (hrest : a.nodes.toList.drop i = rest)
    (h : (evaluate (.recording k) feeds marks i rest values).runOn tally = (.ok values', tally')) (name : String) :
    tally'.count name = tally.count name + {j | i ≤ j ∧ Marked marks j ∧ a.Computes name j}.ncard := by
  have hfinite : {j | Marked marks j ∧ a.Computes name j}.Finite := by
    refine (Set.finite_lt_nat marks.size).subset fun j hj => ?_
    exact (Array.getElem?_eq_some_iff.mp hj.1).1
  induction rest generalizing i values tally with
  | nil =>
    cases h
    have hnone : {j | i ≤ j ∧ Marked marks j ∧ a.Computes name j} = ∅ := by
      ext j
      simp only [Set.mem_ofPred_eq, Set.mem_empty_iff_false, iff_false]
      intro ⟨hle, hm, _⟩
      exact hmarks.end hrest hle hm
    rw [hnone, Set.ncard_empty, Nat.add_zero]
  | cons n rest ih =>
    obtain ⟨hn, htail⟩ := next_node hrest
    by_cases hm : Marked marks i
    · rw [evaluate_marked hm] at h
      obtain ⟨t, tally₁, hvalue, h⟩ := Effect.bind_ok.mp h
      rw [ih htail h]
      rcases nodeValue_count hn hvalue name with ⟨hcomputes, hcount⟩ | ⟨hnot, hcount⟩
      · rw [ncard_from hfinite ⟨hm, hcomputes⟩, hcount]
        omega
      · have hsame := from_behind (P := fun j => Marked marks j ∧ a.Computes name j) fun hi => hnot hi.2
        rw [hsame, hcount]
    · rw [evaluate_unmarked (hmarks.unmarked (Array.getElem?_eq_some_iff.mp hn).1 hm)] at h
      have hsame := from_behind (P := fun j => Marked marks j ∧ a.Computes name j) fun hi => hm hi.1
      rw [ih htail h, hsame]

theorem execute_count (ha : a.Ordered) (hleads : a.Leads fetches) (hkernels : a.kernels = .recording k)
    {ts : List Tensor} (h : (a.execute fetches feeds).runOn tally = (.ok ts, tally')) (name : String) :
    tally'.count name = tally.count name + (a.evaluations fetches name).ncard := by
  obtain ⟨marks, hmarks, hrun⟩ := execute_marks ha hleads
  rw [hrun] at h
  obtain ⟨targets, _, htargets, h⟩ := Effect.bind_ok.mp h
  obtain ⟨values, _, hvalues, hfetched⟩ := Effect.bind_ok.mp h
  obtain ⟨-, rfl⟩ := Prod.mk.inj htargets
  obtain ⟨-, rfl⟩ := Prod.mk.inj hfetched
  have hevaluations : a.evaluations fetches name = {j | 0 ≤ j ∧ Marked marks j ∧ a.Computes name j} := by
    ext j
    simp [evaluations, hmarks.marked]
  rw [evaluateAll, hkernels] at hvalues
  rw [hevaluations]
  exact evaluate_count hmarks List.drop_zero hvalues name

/-- Nothing is evaluated before everything is located. -/
theorem execute_unlocated {p : Placeholder} (hp : p ∈ fetches) {e : GraphError} (h : a.target feeds p = .error e) :
    ∃ q ∈ fetches, ∃ e', a.target feeds q = .error e' ∧
      (a.execute fetches feeds).runOn tally = (.error e', tally) := by
  rcases htargets : fetches.mapM (a.target feeds) with e' | targets
  · obtain ⟨q, hq, hfails⟩ := Outcome.mapM_error htargets
    refine ⟨q, hq, e', hfails, ?_⟩
    unfold execute
    rw [Effect.runOn_bind, Effect.runOn_ofOutcome, htargets]
  · obtain ⟨target, -, hfound⟩ := forall₂_of_mem (Outcome.mapM_ok.mp htargets) hp
    rw [h] at hfound
    cases hfound

/-! ## The same run without the observer -/

section Transparent

variable {k' : Kernels} (hexecute : k'.execute = k.execute)
include hexecute

theorem nodeValue_on (i : Nat) (n : GraphNode) (values : Array (Option Tensor)) :
    (nodeValue k' feeds values i n).Alike (nodeValue k feeds values i n) := by
  unfold nodeValue
  split
  · exact Effect.alike_pure _
  · exact Effect.alike_ofOutcome _
  · exact (Effect.alike_ofOutcome _).bind fun ts => Kernels.evaluate_alike hexecute _ _ ts

theorem evaluate_on (rest : List GraphNode) (i : Nat) (values : Array (Option Tensor)) :
    (evaluate k' feeds marks i rest values).Alike (evaluate k feeds marks i rest values) := by
  induction rest generalizing i values with
  | nil => exact Effect.alike_pure values
  | cons n rest ih =>
    refine (Effect.alike_ofOutcome _).bind fun marked => ?_
    split
    · exact (nodeValue_on hexecute i n values).bind fun t => ih (i + 1) _
    · exact ih (i + 1) values

end Transparent

/-- Marks do not depend on kernels. -/
theorem markFrom_kernels (k : Kernels) (marks : Array Bool) (stack : List Nat) :
    ({ a with kernels := k } : Artifact).markFrom marks stack = a.markFrom marks stack := by
  fun_induction a.markFrom marks stack with
  | case1 marks => rw [markFrom]
  | case2 marks v stack hmark ih =>
    rw [markFrom]
    split
    · exact ih
    · next h _ =>
      rw [hmark] at h
      cases h
    · next h _ => exact absurd hmark h
  | case3 marks v stack n hmark hnode ih =>
    rw [markFrom]
    split
    · next h =>
      rw [hmark] at h
      cases h
    · next m _ hm =>
      obtain rfl := Option.some.inj (hnode.symm.trans hm)
      exact ih
    · next h => exact absurd hnode (h n hmark)
  | case4 marks v stack hmarked hopen =>
    rw [markFrom]
    split
    · next h => exact absurd h hmarked
    · next n h hn => exact absurd hn (hopen n h)
    · rfl

/-- On kernels that give the same, a run comes to the same. -/
theorem execute_on {k' : Kernels} (h : k'.execute = a.kernels.execute) (fetches : List Placeholder)
    (feeds : Feeds) :
    (({ a with kernels := k' } : Artifact).execute fetches feeds).Alike (a.execute fetches feeds) := by
  have hneeded : ∀ values, ({ a with kernels := k' } : Artifact).needed values = a.needed values :=
    fun values => markFrom_kernels k' _ _
  refine (Effect.alike_ofOutcome _).bind fun targets => ?_
  rw [hneeded]
  refine (Effect.alike_ofOutcome _).bind fun marks => ?_
  exact (evaluate_on h _ _ _).bind fun values => Effect.alike_ofOutcome _

end Artifact

namespace Session

/-- Runs of an artifact on kernels under observation, with what the observer counted before and after them. Under
    every name, a run that succeeds adds the number of primitives of this name behind what is fetched; it comes out
    as on the kernels themselves, whatever these may keep a tally of. A run in which something cannot be located
    fails, and counts nothing. -/
theorem evaluations_counted (id : Nat) (tree : Tree) (inner : Kernels) (requests : List Request) {a : Artifact}
    (ha : ((start id tree (.recording inner)).after requests).graph.artifact = some a) (fetches : List Placeholder)
    (feeds : Feeds) (tally : Tally) :
    (∀ ts tally', (a.execute fetches feeds).runOn tally = (.ok ts, tally') →
      ∀ name, tally'.count name = tally.count name + (a.evaluations fetches name).ncard) ∧
    (∀ tally', ((({ a with kernels := inner } : Artifact).execute fetches feeds).runOn tally').1 =
      ((a.execute fetches feeds).runOn tally).1) ∧
    ∀ p ∈ fetches, ∀ e, a.target feeds p = .error e → ∃ q ∈ fetches, ∃ e', a.target feeds q = .error e' ∧
      (a.execute fetches feeds).runOn tally = (.error e', tally) := by
  have hwf := (valid_after (valid_start id tree (.recording inner)) requests).wellFormed a ha
  have hkernels : a.kernels = .recording inner := artifact_after (Artifact.kernels_inherited tree _) ha
  have hexecute : inner.execute = a.kernels.execute := by rw [hkernels, Kernels.execute_recording]
  refine ⟨fun ts tally' h name => ?_, fun tally' => ?_, fun p hp e he => Artifact.execute_unlocated hp he⟩
  · exact Artifact.execute_count (Artifact.ordered_of_wellFormed hwf) (artifact_leads ha fetches) hkernels h name
  · exact Artifact.execute_on hexecute fetches feeds tally' tally

/-- The first sum alone, which leaves the second one out. -/
def firstSum : List Placeholder := [⟨1, .output 0 0, ⟨.f32, [.named "B"]⟩⟩]

/-- The output of a record that was never made. -/
def unmade : Placeholder := ⟨1, .output 9 0, ⟨.f32, [.named "B"]⟩⟩

/-- Two additions for both sums, however often they are fetched, and one for the first. Where something that
    was never made is fetched as well, nothing is added. -/
theorem increments_counted :
    ∃ a, ((start 1 increment (.recording .reference)).after increments).graph.artifact = some a ∧
      (a.evaluations sums "add").ncard = 2 ∧ (a.evaluations firstSum "add").ncard = 1 ∧
      ∃ e, (a.execute (unmade :: sums) [("x", .zeros ⟨[2]⟩)]).runOn [] = (.error e, []) := by
  have hrun : (((start 1 increment (.recording .reference)).after increments).graph.artifact.map fun a =>
      let runs := [sums, firstSum].map fun fetches => (a.execute fetches [("x", .zeros ⟨[2]⟩)]).runOn []
      (runs.map fun (outcome, tally) => (outcome.toOption.isSome, tally.count "add"), a.output? 9 0)) =
      some ([(true, 2), (true, 1)], none) := by decide +kernel
  obtain ⟨a, ha, hfound⟩ := Option.map_eq_some_iff.mp hrun
  have hcounted := fun fetches => evaluations_counted 1 increment .reference increments ha fetches
    [("x", .zeros ⟨[2]⟩)] []
  have hcount : ∀ fetches n, ((a.execute fetches [("x", .zeros ⟨[2]⟩)]).runOn []).1.toOption.isSome = true →
      ((a.execute fetches [("x", .zeros ⟨[2]⟩)]).runOn []).2.count "add" = n →
      (a.evaluations fetches "add").ncard = n := by
    intro fetches n hok hn
    obtain ⟨ts, hts⟩ := Option.isSome_iff_exists.mp hok
    obtain ⟨tally, hsuccess⟩ := Effect.ok_iff.mp (Outcome.toOption_ok.mp hts)
    rw [hsuccess, (hcounted fetches).1 ts tally hsuccess "add"] at hn
    simpa [Tally.count] using hn
  simp only [List.map_cons, List.map_nil, Prod.mk.injEq, List.cons.injEq] at hfound
  obtain ⟨⟨⟨hok, htwo⟩, ⟨hok', hone⟩, -⟩, hnone⟩ := hfound
  refine ⟨a, ha, hcount sums 2 hok htwo, hcount firstSum 1 hok' hone, ?_⟩
  have htarget : ∃ e, a.target [("x", .zeros ⟨[2]⟩)] unmade = .error e := by
    simp [unmade, Artifact.target, Artifact.valueOf?, hnone]
  obtain ⟨e, he⟩ := htarget
  obtain ⟨-, -, hunlocated⟩ := hcounted (unmade :: sums)
  obtain ⟨_, -, e', -, hfails⟩ := hunlocated unmade List.mem_cons_self e he
  exact ⟨e', hfails⟩

end Session

end ComponentFlow
