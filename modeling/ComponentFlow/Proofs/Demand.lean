/-
  ComponentFlow.Proofs.Demand — which nodes a run evaluates. Marks spread from the fetched nodes along
  operands; a node whose operands are not marked yet has them on the stack. With the stack empty,
  exactly the nodes that the fetched ones depend on are marked (`Artifact.needed_marks`).
-/
import ComponentFlow.Proofs.Execute
import Mathlib.Logic.Relation

namespace ComponentFlow.Artifact

open Relation (ReflTransGen)

variable {a : Artifact} {marks : Array Bool} {stack : List Nat}

/-- The node at `i` has the one at `o` as an operand. -/
def Uses (a : Artifact) (i o : Nat) : Prop := ∃ n, a.nodes[i]? = some n ∧ o ∈ n.operands

/-- The node at `i` is one of these or is used by one of them, directly or not. -/
def DependsOn (a : Artifact) (values : List Nat) (i : Nat) : Prop := ∃ v ∈ values, ReflTransGen a.Uses v i

def Marked (marks : Array Bool) (i : Nat) : Prop := marks[i]? = some true

theorem marked_set {v i : Nat} (hv : v < marks.size) :
    Marked (marks.setIfInBounds v true) i ↔ i = v ∨ Marked marks i := by
  simp only [Marked, Array.getElem?_setIfInBounds]
  by_cases h : v = i
  · subst h
    simp [hv]
  · simp [h, Ne.symm h]

theorem uses_lt (ha : a.Ordered) {i o : Nat} (h : a.Uses i o) : o < a.nodes.size := by
  obtain ⟨n, hn, ho⟩ := h
  have hlt := ha i n hn o ho
  have hi := (Array.getElem?_eq_some_iff.mp hn).1
  omega

theorem mem_pushAll {values : List Nat} {v : Nat} : v ∈ pushAll values stack ↔ v ∈ values ∨ v ∈ stack := by
  simp [pushAll]

/-- What is still to be marked lies behind the stack. -/
structure Spreading (a : Artifact) (marks : Array Bool) (stack : List Nat) : Prop where
  size : marks.size = a.nodes.size
  range : ∀ v ∈ stack, v < a.nodes.size
  closed : ∀ {i o}, Marked marks i → a.Uses i o → Marked marks o ∨ o ∈ stack

/-- Behind a marked node there are marked ones, up to the stack. -/
theorem Spreading.reached (h : a.Spreading marks stack) {v i : Nat} (hv : Marked marks v)
    (hreach : ReflTransGen a.Uses v i) : Marked marks i ∨ a.DependsOn stack i := by
  induction hreach with
  | refl => exact .inl hv
  | tail _ huses ih =>
    rcases ih with hmarked | ⟨w, hw, hreach⟩
    · rcases h.closed hmarked huses with ho | ho
      · exact .inl ho
      · exact .inr ⟨_, ho, .refl⟩
    · exact .inr ⟨w, hw, hreach.tail huses⟩

/-- The node on top is marked already. -/
theorem Spreading.pop {v : Nat} (h : a.Spreading marks (v :: stack)) (hv : Marked marks v) :
    a.Spreading marks stack where
  size := h.size
  range := fun w hw => h.range w (List.mem_cons_of_mem _ hw)
  closed := by
    intro i o hi huses
    rcases h.closed hi huses with ho | ho
    · exact .inl ho
    · rcases List.mem_cons.mp ho with rfl | ho
      · exact .inl hv
      · exact .inr ho

/-- The node on top is marked, and its operands take its place. -/
theorem Spreading.expand (ha : a.Ordered) {v : Nat} {n : GraphNode} (h : a.Spreading marks (v :: stack))
    (hn : a.nodes[v]? = some n) : a.Spreading (marks.setIfInBounds v true) (pushAll n.operands stack) where
  size := Array.size_setIfInBounds.trans h.size
  range := by
    intro w hw
    rcases mem_pushAll.mp hw with hop | hold
    · exact uses_lt ha ⟨n, hn, hop⟩
    · exact h.range w (List.mem_cons_of_mem _ hold)
  closed := by
    intro i o hi huses
    have hlt : v < marks.size := h.size ▸ h.range v List.mem_cons_self
    rw [marked_set hlt] at hi ⊢
    rcases hi with rfl | hi
    · obtain ⟨m, hm, ho⟩ := huses
      obtain rfl : n = m := Option.some.inj (hn.symm.trans hm)
      exact .inr (mem_pushAll.mpr (.inl ho))
    · rcases h.closed hi huses with ho | ho
      · exact .inl (.inr ho)
      · rcases List.mem_cons.mp ho with rfl | ho
        · exact .inl (.inl rfl)
        · exact .inr (mem_pushAll.mpr (.inr ho))

/-- Marking comes to an end, with all marked that the nodes on the stack depend on. -/
theorem markFrom_marks (ha : a.Ordered) (h : a.Spreading marks stack) :
    ∃ marks', a.markFrom marks stack = .ok marks' ∧ marks'.size = a.nodes.size ∧
      ∀ i, Marked marks' i ↔ Marked marks i ∨ a.DependsOn stack i := by
  fun_induction markFrom a marks stack with
  | case1 marks =>
    refine ⟨marks, rfl, h.size, fun i => ?_⟩
    simp [DependsOn]
  | case2 marks v stack hv ih =>
    obtain ⟨marks', hrun, hsize, hmarks⟩ := ih (h.pop hv)
    refine ⟨marks', hrun, hsize, fun i => (hmarks i).trans ⟨?_, ?_⟩⟩
    · intro hi
      rcases hi with hi | ⟨w, hw, hreach⟩
      · exact .inl hi
      · exact .inr ⟨w, List.mem_cons_of_mem _ hw, hreach⟩
    · intro hi
      rcases hi with hi | ⟨w, hw, hreach⟩
      · exact .inl hi
      · rcases List.mem_cons.mp hw with rfl | hw
        · exact (h.pop hv).reached hv hreach
        · exact .inr ⟨w, hw, hreach⟩
  | case3 marks v stack n hv hn ih =>
    have hlt : v < marks.size := h.size ▸ h.range v List.mem_cons_self
    obtain ⟨marks', hrun, hsize, hmarks⟩ := ih (h.expand ha hn)
    refine ⟨marks', hrun, hsize, fun i => (hmarks i).trans ?_⟩
    rw [marked_set hlt]
    constructor
    · intro hi
      rcases hi with (rfl | hi) | ⟨w, hw, hreach⟩
      · exact .inr ⟨_, List.mem_cons_self, .refl⟩
      · exact .inl hi
      · rcases mem_pushAll.mp hw with hop | hw
        · exact .inr ⟨v, List.mem_cons_self, .head ⟨n, hn, hop⟩ hreach⟩
        · exact .inr ⟨w, List.mem_cons_of_mem _ hw, hreach⟩
    · intro hi
      rcases hi with hi | ⟨w, hw, hreach⟩
      · exact .inl (.inr hi)
      · rcases List.mem_cons.mp hw with rfl | hw
        · rcases hreach.cases_head with rfl | ⟨o, ⟨m, hm, ho⟩, hreach⟩
          · exact .inl (.inl rfl)
          · obtain rfl : n = m := Option.some.inj (hn.symm.trans hm)
            exact .inr ⟨o, mem_pushAll.mpr (.inl ho), hreach⟩
        · exact .inr ⟨w, mem_pushAll.mpr (.inr hw), hreach⟩
  | case4 marks v stack hmarked hopen =>
    -- The stack holds positions of nodes only, and each of these has a mark or none.
    have hlt : v < a.nodes.size := h.range v List.mem_cons_self
    have hn : a.nodes[v]? = some a.nodes[v] := Array.getElem?_eq_getElem hlt
    rcases hmark : marks[v]? with _ | b
    · have hsize := h.size
      have hout := Array.getElem?_eq_none_iff.mp hmark
      omega
    · cases b with
      | true => exact absurd hmark hmarked
      | false => exact absurd hn (hopen _ hmark)

/-! ## What is fetched -/

/-- The nodes behind these placeholders. -/
def asked (a : Artifact) (fetches : List Placeholder) : List Nat := fetches.filterMap a.valueOf?

/-- They are there. -/
def Leads (a : Artifact) (fetches : List Placeholder) : Prop := ∀ v ∈ a.asked fetches, v < a.nodes.size

/-- What these placeholders need is marked. -/
structure Marks (a : Artifact) (fetches : List Placeholder) (marks : Array Bool) : Prop where
  size : marks.size = a.nodes.size
  marked : ∀ i, Marked marks i ↔ a.DependsOn (a.asked fetches) i

theorem Marks.closed {fetches : List Placeholder} (h : a.Marks fetches marks) {i o : Nat} (hm : Marked marks i)
    (huses : a.Uses i o) : Marked marks o := by
  obtain ⟨v, hv, hreach⟩ := (h.marked i).mp hm
  exact (h.marked o).mpr ⟨v, hv, hreach.tail huses⟩

theorem Marks.asked {fetches : List Placeholder} (h : a.Marks fetches marks) {v : Nat} (hv : v ∈ a.asked fetches) :
    Marked marks v :=
  (h.marked v).mpr ⟨v, hv, .refl⟩

/-- A run marks what is needed. -/
theorem needed_marks (ha : a.Ordered) {fetches : List Placeholder} (hleads : a.Leads fetches) :
    ∃ marks, a.needed (a.asked fetches) = .ok marks ∧ a.Marks fetches marks := by
  have hunmarked : ∀ i, ¬ Marked (Array.replicate a.nodes.size false) i := by
    intro i hi
    simp [Marked, Array.getElem?_replicate] at hi
  have hstart : a.Spreading (Array.replicate a.nodes.size false) (pushAll (a.asked fetches) []) := by
    refine ⟨Array.size_replicate, fun v hv => ?_, fun hi => absurd hi (hunmarked _)⟩
    rcases mem_pushAll.mp hv with hv | hv
    · exact hleads v hv
    · cases hv
  obtain ⟨marks, hrun, hsize, hmarks⟩ := markFrom_marks ha hstart
  refine ⟨marks, hrun, hsize, fun i => (hmarks i).trans ?_⟩
  simp [hunmarked i, DependsOn, mem_pushAll]

end ComponentFlow.Artifact
