/-
  ComponentFlow.Proofs.Plan — plans stay well formed while they grow. Operands stand before the
  nodes that use them, the spec of a primitive's node is the one inferred from theirs, and each
  graph input that is used has exactly one node. Every symbol that a body can get hold of names a
  node that has its spec, so that methods may be run again on a plan that has grown since.
-/
import ComponentFlow.Graph.Plan
import ComponentFlow.Proofs.Lockstep

namespace ComponentFlow

/-- The specs of declared inputs by name. -/
abbrev Declared := List (String × TensorSpec)

namespace Plan

variable {declared : Declared} {P Q R : Plan}

/-- There is a node for the symbol, and it has the symbol's spec. -/
def Has (P : Plan) (s : Symbol) : Prop := P.spec? s.value = some s.spec

/-- Nodes and feeds are only added. -/
structure Grows (P Q : Plan) : Prop where
  nodes : ∀ {i : Nat} {n}, P.nodes[i]? = some n → Q.nodes[i]? = some n
  feeds : ∀ {name i}, P.feeds.lookup name = some i → Q.feeds.lookup name = some i

theorem Grows.refl (P : Plan) : P.Grows P := ⟨fun h => h, fun h => h⟩

theorem Grows.trans (h : P.Grows Q) (h' : Q.Grows R) : P.Grows R :=
  ⟨fun hn => h'.nodes (h.nodes hn), fun hf => h'.feeds (h.feeds hf)⟩

theorem Grows.spec (h : P.Grows Q) {i : Nat} {s : TensorSpec} (hs : P.spec? i = some s) : Q.spec? i = some s := by
  simp only [spec?, Option.map_eq_some_iff] at hs ⊢
  obtain ⟨n, hn, rfl⟩ := hs
  exact ⟨n, h.nodes hn, rfl⟩

theorem Grows.has (h : P.Grows Q) {s : Symbol} (hs : P.Has s) : Q.Has s := h.spec hs

theorem Grows.size (h : P.Grows Q) : P.nodes.size ≤ Q.nodes.size := by
  rcases hP : P.nodes.size with _ | n
  · omega
  · have hlast : P.nodes[n]? = some P.nodes[n] := by simp
    have := (Array.getElem?_eq_some_iff.mp (h.nodes hlast)).1
    omega

theorem Has.symbol {s : Symbol} (h : P.Has s) : P.symbol? s.value = some s := by
  simp only [symbol?, Option.map_eq_some_iff]
  exact ⟨s.spec, h, rfl⟩

theorem has_of_symbol {i : Nat} {s : Symbol} (h : P.symbol? i = some s) : P.Has s ∧ s.value = i := by
  simp only [symbol?, Option.map_eq_some_iff] at h
  obtain ⟨spec, hspec, rfl⟩ := h
  exact ⟨hspec, rfl⟩

theorem lt_of_spec {i : Nat} {s : TensorSpec} (h : P.spec? i = some s) : i < P.nodes.size := by
  simp only [spec?, Option.map_eq_some_iff] at h
  obtain ⟨n, hn, -⟩ := h
  exact (Array.getElem?_eq_some_iff.mp hn).1

/-- What a node at position `i` of a plan is like. -/
inductive NodeSound (declared : Declared) (P : Plan) (i : Nat) : GraphNode → Prop
  | constant (t : Tensor) : NodeSound declared P i ⟨.constant t, [], t.spec⟩
  | feed {name spec} : declared.lookup name = some spec → P.feeds.lookup name = some i →
      NodeSound declared P i ⟨.feed name, [], spec⟩
  | primitive {p operands specs spec} : List.Forall₂ (fun o s => o < i ∧ P.spec? o = some s) operands specs →
      p.infer specs = .ok spec → NodeSound declared P i ⟨.primitive p, operands, spec⟩

theorem NodeSound.mono {i : Nat} {n : GraphNode} (h : NodeSound declared P i n) (hgrows : P.Grows Q) :
    NodeSound declared Q i n := by
  cases h with
  | constant t => exact .constant t
  | feed hdeclared hfeed => exact .feed hdeclared (hgrows.feeds hfeed)
  | primitive hoperands hinfer => exact .primitive (hoperands.imp fun _ _ h => ⟨h.1, hgrows.spec h.2⟩) hinfer

structure WellFormed (declared : Declared) (P : Plan) : Prop where
  node : ∀ {i : Nat} {n}, P.nodes[i]? = some n → NodeSound declared P i n
  feed : ∀ {name i}, P.feeds.lookup name = some i →
    ∃ spec, declared.lookup name = some spec ∧ P.nodes[i]? = some ⟨.feed name, [], spec⟩
  names : (P.feeds.map Prod.fst).Nodup

theorem wellFormed_empty : WellFormed declared {} :=
  ⟨fun h => by simp at h, fun h => by simp at h, by simp⟩

/-- Nothing depends on the invocation that is being resolved. -/
theorem WellFormed.of_eq (h : P.WellFormed declared) (hnodes : Q.nodes = P.nodes) (hfeeds : Q.feeds = P.feeds) :
    Q.WellFormed declared := by
  have hgrows : P.Grows Q := ⟨fun h => hnodes ▸ h, fun h => hfeeds ▸ h⟩
  refine ⟨fun hn => (h.node (hnodes ▸ hn)).mono hgrows, fun hf => ?_, hfeeds ▸ h.names⟩
  rw [hnodes]
  exact h.feed (hfeeds ▸ hf)

/-- More inputs may be declared. -/
theorem WellFormed.declare {declared' : Declared} (h : P.WellFormed declared)
    (hsub : ∀ {name spec}, declared.lookup name = some spec → declared'.lookup name = some spec) :
    P.WellFormed declared' := by
  refine ⟨fun hn => ?_, fun hf => ?_, h.names⟩
  · cases h.node hn with
    | constant t => exact .constant t
    | feed hdeclared hfeed => exact .feed (hsub hdeclared) hfeed
    | primitive hoperands hinfer => exact .primitive hoperands hinfer
  · obtain ⟨spec, hspec, hnode⟩ := h.feed hf
    exact ⟨spec, hsub hspec, hnode⟩

/-! ## Appending nodes -/

/-- The plan with one more node. -/
def append (P : Plan) (n : GraphNode) : Plan := { P with nodes := P.nodes.push n }

theorem push_runOn (op : NodeOp) (operands : List Nat) (spec : TensorSpec) (P : Plan) :
    (push op operands spec).runOn P = (.ok ⟨P.nodes.size, spec⟩, P.append ⟨op, operands, spec⟩) := rfl

theorem grows_append (P : Plan) (n : GraphNode) : P.Grows (P.append n) := by
  refine ⟨fun {i m} h => ?_, fun h => h⟩
  have hlt := (Array.getElem?_eq_some_iff.mp h).1
  simpa [append, Array.getElem?_push_lt, hlt] using h

theorem append_last (P : Plan) (n : GraphNode) : (P.append n).nodes[P.nodes.size]? = some n := by
  simp [append]

theorem has_append (P : Plan) (n : GraphNode) : (P.append n).Has ⟨P.nodes.size, n.spec⟩ := by
  simp [Has, spec?, append_last]

theorem append_node {n m : GraphNode} {i : Nat} (h : (P.append n).nodes[i]? = some m) :
    P.nodes[i]? = some m ∨ i = P.nodes.size ∧ m = n := by
  simp only [append, Array.getElem?_push] at h
  split at h
  · next hi => exact .inr ⟨hi, (Option.some.inj h).symm⟩
  · exact .inl h

theorem WellFormed.append {n : GraphNode} (h : P.WellFormed declared) (hn : NodeSound declared P P.nodes.size n) :
    (P.append n).WellFormed declared := by
  have hgrows := grows_append P n
  refine ⟨fun hm => ?_, fun hf => ?_, h.names⟩
  · rcases append_node hm with hm | ⟨rfl, rfl⟩
    · exact (h.node hm).mono hgrows
    · exact hn.mono hgrows
  · obtain ⟨spec, hspec, hnode⟩ := h.feed hf
    exact ⟨spec, hspec, hgrows.nodes hnode⟩

/-- The plan with the node of a graph input that was not used before. -/
def appendFeed (P : Plan) (name : String) (spec : TensorSpec) : Plan :=
  { P.append ⟨.feed name, [], spec⟩ with feeds := P.feeds ++ [(name, P.nodes.size)] }

theorem grows_appendFeed (P : Plan) (name : String) (spec : TensorSpec) : P.Grows (P.appendFeed name spec) :=
  ⟨(grows_append P _).nodes, lookup_append_of_some⟩

theorem WellFormed.appendFeed {name : String} {spec : TensorSpec} (h : P.WellFormed declared)
    (hspec : declared.lookup name = some spec) (hnew : P.feeds.lookup name = none) :
    (P.appendFeed name spec).WellFormed declared := by
  have hgrows := grows_appendFeed P name spec
  have hlookup : (P.appendFeed name spec).feeds.lookup name = some P.nodes.size := lookup_snoc hnew
  refine ⟨fun hm => ?_, fun {name' i} hf => ?_, ?_⟩
  · rcases append_node hm with hm | ⟨rfl, rfl⟩
    · exact (h.node hm).mono hgrows
    · exact .feed hspec hlookup
  · by_cases hname : name' = name
    · subst hname
      obtain rfl : P.nodes.size = i := Option.some.inj (hlookup.symm.trans hf)
      exact ⟨spec, hspec, append_last P _⟩
    · have hold : P.feeds.lookup name' = some i := (lookup_snoc_of_ne hname).symm.trans hf
      obtain ⟨spec', hspec', hnode⟩ := h.feed hold
      exact ⟨spec', hspec', hgrows.nodes hnode⟩
  · have hfresh : ∀ i, (name, i) ∉ P.feeds := fun i hi =>
      by simpa using List.lookup_eq_none_iff.mp hnew (name, i) hi
    have hnames : ((P.appendFeed name spec).feeds.map Prod.fst) = P.feeds.map Prod.fst ++ [name] := by
      simp [Plan.appendFeed]
    rw [hnames]
    refine List.nodup_append.mpr ⟨h.names, by simp, ?_⟩
    intro a ha b hb hab
    obtain ⟨⟨a', i⟩, hmem, rfl⟩ := List.mem_map.mp ha
    rw [List.mem_singleton] at hb
    subst hab hb
    exact hfresh i hmem

/-! ## Operations on one plan -/

/-- A well-formed plan, tied to itself. -/
def steady (declared : Declared) : Coupling Plan Plan where
  World := Plan
  Grows := Grows
  refl := Grows.refl
  trans := Grows.trans
  Holds w P Q := P = w ∧ Q = w ∧ w.WellFormed declared

section Steady

variable {α β : Type} {R : Plan → α → α → Prop}

theorem steady_follows {x : Effect Plan α} (h : P.WellFormed declared → ∀ a Q, x.runOn P = (.ok a, Q) →
    P.Grows Q ∧ Q.WellFormed declared ∧ R Q a a) : (steady declared).Follows P x x R := by
  intro s t hholds a Q hrun
  obtain ⟨rfl, rfl, hwf⟩ := hholds
  obtain ⟨hgrows, hwf', hR⟩ := h hwf a Q hrun
  exact ⟨Q, a, Q, hgrows, hrun, ⟨rfl, rfl, hwf'⟩, hR⟩

theorem run_of_steady {S : Plan → α → β → Prop} {x : Effect Plan α} {y : Effect Plan β}
    (h : (steady declared).Follows P x y S) (hwf : P.WellFormed declared) {a : α} (hrun : x.runOn P = (.ok a, Q)) :
    ∃ b, y.runOn P = (.ok b, Q) ∧ P.Grows Q ∧ Q.WellFormed declared ∧ S Q a b := by
  obtain ⟨Q', b, t, hgrows, hy, ⟨rfl, rfl, hwf'⟩, hS⟩ := h P P ⟨rfl, rfl, hwf⟩ a Q hrun
  exact ⟨b, hy, hgrows, hwf', hS⟩

end Steady

/-- The same symbol, which the plan has. -/
def SameSymbol (P : Plan) (s s' : Symbol) : Prop := s = s' ∧ P.Has s

theorem sameSymbol_lasting : (steady declared).Lasting SameSymbol := fun _ _ _ _ hgrows h => ⟨h.1, hgrows.has h.2⟩

theorem push_follows {op : NodeOp} {operands : List Nat} {spec : TensorSpec}
    (h : P.WellFormed declared → NodeSound declared P P.nodes.size ⟨op, operands, spec⟩) :
    (steady declared).Follows P (push op operands spec) (push op operands spec)
      fun Q s s' => SameSymbol Q s s' ∧ s.spec = spec := by
  refine steady_follows fun hwf a Q hrun => ?_
  rw [push_runOn] at hrun
  cases hrun
  exact ⟨grows_append P _, hwf.append (h hwf), ⟨rfl, has_append P _⟩, rfl⟩

theorem constant_follows (t : Tensor) :
    (steady declared).Follows P (constant t) (constant t) fun Q s s' => SameSymbol Q s s' ∧ s.spec = t.spec :=
  push_follows fun _ => .constant t

theorem feed_follows {name : String} {spec : TensorSpec} (hspec : declared.lookup name = some spec) :
    (steady declared).Follows P (feed name spec) (feed name spec) SameSymbol := by
  refine steady_follows fun hwf a Q hrun => ?_
  unfold feed at hrun
  simp only [Effect.runOn_bind, Effect.runOn_get] at hrun
  rcases hfeed : P.feeds.lookup name with _ | i
  · -- First use: its node is appended, and entered under a name that was not there.
    simp only [hfeed, Option.bind_none, Effect.runOn_bind, push_runOn, Effect.runOn_modify, Effect.runOn_pure] at hrun
    cases hrun
    exact ⟨grows_appendFeed P name spec, hwf.appendFeed hspec hfeed, rfl, has_append P _⟩
  · obtain ⟨spec', hspec', hnode⟩ := hwf.feed hfeed
    obtain rfl : spec = spec' := Option.some.inj (hspec.symm.trans hspec')
    have hhas : P.Has ⟨i, spec⟩ := by simp [Has, spec?, hnode]
    simp only [hfeed, Option.bind_some, hhas.symbol, Effect.runOn_pure] at hrun
    cases hrun
    exact ⟨Grows.refl P, hwf, rfl, hhas⟩

theorem primitive_follows (p : Primitive) {operands : List Symbol} (h : ∀ s ∈ operands, P.Has s) :
    (steady declared).Follows P (primitive p operands) (primitive p operands) SameSymbol := by
  unfold primitive
  refine (Coupling.follows_ofOutcome fun spec hspec => ⟨spec, hspec, rfl, hspec⟩).bind
    (R := fun _ spec spec' => spec = spec' ∧ Outcome.ofShape (p.infer (operands.map Symbol.spec)) = .ok spec) ?_
  intro Q spec spec' hgrows hsame
  obtain ⟨rfl, hspec⟩ := hsame
  have hinfer : p.infer (operands.map Symbol.spec) = .ok spec := Outcome.ofShape_ok.mp hspec
  refine (push_follows fun _ => .primitive ?_ hinfer).imp fun _ _ _ _ h => h.1
  refine List.forall₂_map_left_iff.mpr (List.forall₂_map_right_iff.mpr (List.forall₂_same.mpr fun s hs => ?_))
  have hspec := hgrows.has (h s hs)
  exact ⟨lt_of_spec hspec, hspec⟩

theorem operand_follows (p : Primitive) {v : Value} (h : ∀ s, v = .symbol s → P.Has s) :
    (steady declared).Follows P (operand p v) (operand p v) SameSymbol := by
  cases v with
  | symbol s => exact Coupling.follows_pure ⟨rfl, h s rfl⟩
  | tensor t => exact (constant_follows t).imp fun _ _ _ _ h => h.1
  | placeholder q =>
    refine steady_follows fun hwf a Q hrun => ?_
    simp [operand, Effect.runOn_bind] at hrun
  | absent => exact Coupling.follows_throw

/-! ## Bodies on one plan -/

/-- A symbol names a node that has its spec; other values say nothing about the plan. -/
def Carries (P : Plan) (v : Value) : Prop := ∀ s, v = .symbol s → P.Has s

theorem carries_symbol {s : Symbol} (h : P.Has s) : P.Carries (.symbol s) := by
  intro x hx
  cases hx
  exact h

theorem carries_tensor (t : Tensor) : P.Carries (.tensor t) := by
  intro x hx
  cases hx

theorem carries_placeholder (p : Placeholder) : P.Carries (.placeholder p) := by
  intro x hx
  cases hx

theorem carries_absent : P.Carries .absent := by
  intro x hx
  cases hx

/-- The same value, which the plan carries. -/
def SameValue (P : Plan) (v v' : Value) : Prop := v = v' ∧ P.Carries v

theorem sameValues_iff {vs vs' : List Value} :
    List.Forall₂ P.SameValue vs vs' ↔ vs = vs' ∧ ∀ v ∈ vs, P.Carries v := forall₂_eq_and

theorem apply_follows (p : Primitive) {vs vs' : List Value} (h : List.Forall₂ P.SameValue vs vs') :
    (steady declared).Follows P (Handler.symbolic.apply p vs) (Handler.symbolic.apply p vs') SameValue := by
  refine (Coupling.follows_mapM sameSymbol_lasting h fun Q v v' hgrows hv => ?_).bind fun Q ss ss' hgrows hss => ?_
  · obtain ⟨rfl, hcarries⟩ := hv
    exact operand_follows p fun s hs => hgrows.has (hcarries s hs)
  · obtain ⟨rfl, hhas⟩ := forall₂_eq_and.mp hss
    refine (primitive_follows p hhas).bind ?_
    intro Q' s s' _ hsame
    obtain ⟨rfl, hs⟩ := hsame
    exact Coupling.follows_pure ⟨rfl, carries_symbol hs⟩

end Plan

/-- Methods staged on a plan, run twice. -/
def Lockstep.steady (declared : Declared) :
    Lockstep (Plan.steady declared) Handler.symbolic Handler.symbolic where
  Rel := Plan.SameValue
  lasting := fun _ _ _ _ hgrows h => ⟨h.1, fun s hs => hgrows.has (h.2 s hs)⟩
  absent := fun _ => ⟨rfl, Plan.carries_absent⟩
  tensor := fun _ t => ⟨rfl, Plan.carries_tensor t⟩
  dtype := fun h => h.1 ▸ rfl
  absence := fun h => h.1 ▸ rfl
  apply := fun p => Plan.apply_follows p
  Permits := fun _ => True
  foreign := fun _ _ _ => ⟨rfl, Plan.carries_placeholder _⟩
  check := by
    intro m P scope ins ins' outs outs' _ hins houts hcheck
    obtain ⟨rfl, -⟩ := Plan.sameValues_iff.mp hins
    obtain ⟨rfl, -⟩ := Plan.sameValues_iff.mp houts
    exact hcheck

end ComponentFlow
