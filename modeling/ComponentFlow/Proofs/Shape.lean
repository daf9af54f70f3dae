/-
  ComponentFlow.Proofs.Shape — what building leaves alone. Building moves the states of nodes
  forward and freezes the tree; names, links and components stay. Whatever is answered from these
  alone has the same answer in two trees of one shape (`Tree.SameShape`), calls of methods among it.
-/
import ComponentFlow.Graph.Basic
import ComponentFlow.Proofs.Effect

namespace ComponentFlow

/-- A node but for how far it has been built. -/
def Node.shape (n : Node) : Node := { n with state := .unbuilt }

namespace Tree

/-- The trees differ at most in the states of their nodes and in being frozen. -/
structure SameShape (t u : Tree) : Prop where
  size : t.size = u.size
  node : ∀ id, (t.node? id).map Node.shape = (u.node? id).map Node.shape

namespace SameShape

variable {t u v : Tree}

theorem refl (t : Tree) : t.SameShape t := ⟨rfl, fun _ => rfl⟩

theorem symm (h : t.SameShape u) : u.SameShape t := ⟨h.size.symm, fun id => (h.node id).symm⟩

theorem trans (h : t.SameShape u) (h' : u.SameShape v) : t.SameShape v :=
  ⟨h.size.trans h'.size, fun id => (h.node id).trans (h'.node id)⟩

theorem freeze (t : Tree) : t.freeze.SameShape t := ⟨rfl, fun _ => rfl⟩

theorem advance (state : BuildState) (t : Tree) (id : NodeId) : (t.advance state id).SameShape t := by
  refine ⟨by simp [Tree.advance, Tree.size], fun i => ?_⟩
  simp only [Tree.advance, Tree.node?, Array.getElem?_modify]
  split
  · rw [Option.map_map]
    rfl
  · rfl

theorem advanceAll (state : BuildState) (ids : List NodeId) (t : Tree) : (t.advanceAll state ids).SameShape t := by
  unfold Tree.advanceAll
  induction ids generalizing t with
  | nil => exact refl t
  | cons id ids ih => exact (ih (t.advance state id)).trans (advance state t id)

/-! ## What two trees of one shape agree on -/

variable (h : t.SameShape u)
include h

/-- What is read off a node without its state. -/
theorem reading {α : Type} {f : Option Node → α} (hf : ∀ n, f (n.map Node.shape) = f n) (id : NodeId) :
    f (t.node? id) = f (u.node? id) := by
  rw [← hf, h.node, hf]

theorem name (id : NodeId) : t.name? id = u.name? id :=
  h.reading (f := Option.map Node.name) (fun n => by cases n <;> rfl) id

theorem parent (id : NodeId) : t.parent? id = u.parent? id :=
  h.reading (f := fun n => n.bind Node.parent) (fun n => by cases n <;> rfl) id

theorem component (id : NodeId) : t.component? id = u.component? id :=
  h.reading (f := Option.map Node.component) (fun n => by cases n <;> rfl) id

theorem children (id : NodeId) : t.children id = u.children id := by
  have hlinks : ∀ (t : Tree) (id : NodeId), t.children id = ((t.node? id).map Node.children).getD [] := by
    intro t id
    unfold Tree.children
    cases t.node? id <;> rfl
  rw [hlinks, hlinks, h.reading (f := Option.map Node.children) (fun n => by cases n <;> rfl) id]

theorem child (id : NodeId) (name : String) : t.child? id name = u.child? id name := by
  simp only [Tree.child?, h.children]

theorem scopeWithin (steps : Nat) (id : NodeId) : t.scopeWithin steps id = u.scopeWithin steps id := by
  induction steps generalizing id with
  | zero => simp only [Tree.scopeWithin, h.name]
  | succ steps ih =>
    simp only [Tree.scopeWithin, h.name, ih]
    split
    · rfl
    · exact h.reading (f := fun n => n.bind fun n => n.parent.bind fun p =>
        (u.scopeWithin steps p).bind fun above => some ((above.push separator) ++ n.name))
        (fun n => by cases n <;> rfl) id

theorem scope (id : NodeId) : t.scope? id = u.scope? id := by
  simp only [Tree.scope?, h.size, h.scopeWithin]

theorem displayName (id : NodeId) : t.displayName id = u.displayName id := by
  simp only [Tree.displayName, h.scope, h.name]

theorem method (id : NodeId) (name : String) : t.method id name = u.method id name := by
  simp only [Tree.method, h.displayName, h.component]

theorem descend (id : NodeId) (names : List (List Char)) : t.descend id names = u.descend id names := by
  induction names generalizing id with
  | nil => rfl
  | cons name rest ih => simp only [Tree.descend, h.child, ih]

theorem find (scope : String) : t.find? scope = u.find? scope := by
  have hroot : t.rootName = u.rootName := by simp only [Tree.rootName, h.name]
  unfold Tree.find?
  split
  · rfl
  · rw [hroot, h.descend]

theorem walkFrom (steps : Nat) (stack : List NodeId) : t.walkFrom steps stack = u.walkFrom steps stack := by
  induction steps generalizing stack with
  | zero => cases stack <;> rfl
  | succ steps ih => cases stack <;> simp only [Tree.walkFrom, h.children, ih]

theorem walk : t.walk = u.walk := by simp only [Tree.walk, h.size, h.walkFrom]

theorem checkCalls (ids : List NodeId) : t.checkCalls ids = u.checkCalls ids := by
  have hcall : t.checkCall = u.checkCall := by
    funext id call
    simp only [Tree.checkCall, h.component, h.child, h.displayName]
  simp only [Tree.checkCalls, Tree.declaredCalls, h.component, hcall]

theorem invokeWithin {σ : Type} (d : Handler σ) (depth : Nat) (id : NodeId) (name : String) (inputs : List Value) :
    t.invokeWithin d depth id name inputs = u.invokeWithin d depth id name inputs := by
  induction depth generalizing id name inputs with
  | zero => rfl
  | succ depth ih => simp only [Tree.invokeWithin, h.displayName, h.method, h.scope, h.child, ih]

theorem invoke {σ : Type} (d : Handler σ) (id : NodeId) (name : String) (inputs : List Value) :
    t.invoke d id name inputs = u.invoke d id name inputs := by
  simp only [Tree.invoke, h.size, h.invokeWithin]

end SameShape

end Tree

end ComponentFlow
