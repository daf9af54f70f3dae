/-
  ComponentFlow.Proofs.Dangling — where bindings lead when they are resolved. A binding leads to an
  input that is declared, or to one of the outputs of an invocation before its own; whichever build
  resolved that one makes no difference. A binding that leads somewhere resolves, and any other fails
  for its cause (`Resolution.bind_comes`). Nothing else that resolving a record does fails for a
  binding (`Resolution.resolveOne_comes`).
-/
import ComponentFlow.Proofs.Locality
import ComponentFlow.Proofs.Resolve

namespace ComponentFlow

/-- How many outputs are declared by the method of invocation `i` of these. -/
def Tree.arity? (t : Tree) (made : List Invocation) (i : Nat) : Option Nat := do
  let r ← made[i]?
  let m ← (t.method r.component r.method).toOption
  some m.outputs.length

namespace Binding

variable {t : Tree} {made : List Invocation} {declared : Declared} {current : Nat} {b : Binding} {cause : BindingFault}

/-- A binding of invocation `current` to something there is before it. -/
def Leads (t : Tree) (made : List Invocation) (declared : Declared) (current : Nat) : Binding → Prop
  | .feed name => ∃ spec, declared.lookup name = some spec
  | .output i k => i < current ∧ ∃ n, t.arity? made i = some n ∧ k < n
  | .literal _ | .absent => True

/-- A binding of invocation `current` that leads nowhere, and why. -/
inductive Dangles (t : Tree) (made : List Invocation) (declared : Declared) (current : Nat) :
    Binding → BindingFault → Prop
  | noInput {name} : declared.lookup name = none → Dangles t made declared current (.feed name) (.noInput name)
  | notBefore {i k} : current ≤ i → Dangles t made declared current (.output i k) (.notBefore i current)
  | noOutput {i k n} : i < current → t.arity? made i = some n → n ≤ k →
      Dangles t made declared current (.output i k) (.noOutput i k)

theorem Dangles.not_leads (h : b.Dangles t made declared current cause) : ¬ b.Leads t made declared current := by
  intro hleads
  cases h with
  | noInput hnone =>
    obtain ⟨spec, hsome⟩ := hleads
    rw [hnone] at hsome
    cases hsome
  | notBefore hge => exact Nat.not_lt.mpr hge hleads.1
  | noOutput _ hn hge =>
    obtain ⟨-, n, hn', hlt⟩ := hleads
    obtain rfl := Option.some.inj (hn.symm.trans hn')
    omega

/-- Every fault is one of three; a binding never leads to an invocation that nobody made. -/
theorem Dangles.cause_ne (h : b.Dangles t made declared current cause) (j : Nat) : cause ≠ .unknown j := by
  cases h <;> exact fun hunknown => by cases hunknown

end Binding

namespace Resolution

variable {r : Resolution} {done done' : Resolved} {t : Tree} {made : List Invocation} {current : Nat} {P Q : Plan}
  {record : Invocation} {e : GraphError}

/-! ## Bindings -/

/-- The resolution finds the outputs of all invocations before this one, as many as their methods declare, and
    of no other. -/
structure Knows (r : Resolution) (done : Resolved) (t : Tree) (made : List Invocation) (current : Nat) : Prop where
  earlier : ∀ i < current, ∃ n, t.arity? made i = some n ∧
    ∀ P, ∃ outs, r.outputs? done P i = some outs ∧ outs.length = n
  later : ∀ i, current ≤ i → ∀ P, r.outputs? done P i = none

theorem output_runOn (current i k : Nat) : ((r.output done current i k).runOn P).1 =
    match r.outputs? done P i with
    | some outs =>
      match outs[k]? with
      | some s => .ok s
      | none => .error (.unresolvedBinding current (.noOutput i k))
    | none => .error (.unresolvedBinding current (if i ≥ current then .notBefore i current else .unknown i)) := by
  unfold output outputs?
  rcases hdone : done.lookup i with _ | outs
  · rcases hbase : r.base.bind fun a => a.wiring? i with _ | w
    · rfl
    · rcases hk : w.outputs[k]? with _ | v
      · simp [hk]
      · simp only [List.getElem?_map, hk, Option.map_some, Option.none_or]
        rfl
  · rcases hk : outs[k]? with _ | s <;> simp [hk]

theorem bind_comes (h : r.Knows done t made current) (b : Binding) :
    (r.bind done current b).Comes (fun _ => b.Leads t made r.feeds current)
      fun e => ∃ cause, e = .unresolvedBinding current cause ∧ b.Dangles t made r.feeds current cause := by
  cases b with
  | literal value => exact fun _ => trivial
  | absent => exact Effect.comes_pure trivial
  | feed name =>
    rcases hlookup : r.feeds.lookup name with _ | spec
    · simp only [bind, hlookup]
      exact Effect.comes_throw ⟨_, rfl, .noInput hlookup⟩
    · simp only [bind, hlookup]
      exact (Plan.feed_comes name spec).map fun _ _ => ⟨spec, hlookup⟩
  | output i k =>
    intro P
    show ((r.output done current i k).runOn P).1.Ends _ _
    rw [output_runOn]
    rcases Nat.lt_or_ge i current with hlt | hge
    · obtain ⟨n, hn, hfound⟩ := h.earlier i hlt
      obtain ⟨outs, houts, rfl⟩ := hfound P
      rw [houts]
      dsimp only
      rcases hk : outs[k]? with _ | s
      · exact ⟨_, rfl, .noOutput hlt hn (List.getElem?_eq_none_iff.mp hk)⟩
      · exact ⟨hlt, _, hn, (List.getElem?_eq_some_iff.mp hk).1⟩
    · rw [h.later i hge P, if_pos hge]
      exact ⟨_, rfl, .notBefore hge⟩

theorem binds_comes (h : r.Knows done t made current) (bs : List Binding) :
    (bs.mapM (r.bind done current)).Comes (fun _ => ∀ b ∈ bs, b.Leads t made r.feeds current)
      fun e => ∃ b ∈ bs, ∃ cause, e = .unresolvedBinding current cause ∧ b.Dangles t made r.feeds current cause := by
  have hall : (bs.mapM (r.bind done current)).Comes
      (List.Forall₂ (fun (b : Binding) (_ : Option Symbol) => b.Leads t made r.feeds current) bs)
      fun e => ∃ b ∈ bs, ∃ cause, e = .unresolvedBinding current cause ∧ b.Dangles t made r.feeds current cause :=
    Effect.comes_mapM fun b hb => (bind_comes h b).imp (fun _ hleads => hleads) fun e he => ⟨b, hb, he⟩
  exact hall.imp (fun ss hss b hb => (forall₂_of_mem hss hb).elim fun _ hleads => hleads.2) fun _ he => he

/-! ## One record -/

theorem settle_local (record : Invocation) (index : Nat) (p : Option Placeholder) (v : Value) :
    (settle record index p v).Comes (fun _ => True) GraphError.Local := by
  unfold settle
  dsimp only
  split
  · exact Effect.comes_pure trivial
  · split
    · exact Effect.comes_pure trivial
    · exact Effect.comes_throw trivial
  · split
    · exact (Plan.constant_comes _).map fun _ _ => trivial
    · exact Effect.comes_throw trivial
  · exact Effect.comes_throw trivial

/-- Settling gives one symbol or none for each output. -/
theorem settleAll_local (record : Invocation) (index : Nat) {ps : List (Option Placeholder)} {vs : List Value}
    (hcount : vs.length = ps.length) :
    (settleAll record index ps vs).Comes (fun ss => ss.length = ps.length) GraphError.Local := by
  induction ps generalizing index vs with
  | nil => exact Effect.comes_pure rfl
  | cons p ps ih =>
    cases vs with
    | nil => cases hcount
    | cons v vs =>
      refine (settle_local record index p v).bind fun s _ => ?_
      refine (ih (index + 1) (Nat.succ.inj hcount)).bind fun ss hss => ?_
      exact Effect.comes_pure (congrArg Nat.succ hss)

theorem resolveOne_length (r : Resolution) (done : Resolved) (record : Invocation) :
    (r.resolveOne done record).Comes (fun resolved => resolved.2.length = record.outputs.length) fun _ => True := by
  unfold resolveOne
  refine (Effect.comes_modify _).bind fun _ _ => ?_
  refine (Effect.comes_any _).bind fun ins _ => ?_
  refine (Effect.comes_any _).bind fun produced _ => ?_
  dsimp only
  split
  · exact Effect.comes_throw trivial
  · next hcount =>
    refine ((settleAll_local record 0 (not_not.mp hcount)).imp (fun _ hss => hss) fun _ _ => trivial).bind
      fun outputs houtputs => ?_
    exact Effect.comes_pure houtputs

/-- The bindings of a record are all that its resolution can fail for as a binding. -/
theorem resolveOne_comes (hclosed : r.tree.Closed) (h : r.Knows done t made record.id) :
    (r.resolveOne done record).Comes (fun _ => True) fun e => e.Local ∨ ∃ b ∈ record.inputs, ∃ cause,
      e = .unresolvedBinding record.id cause ∧ b.Dangles t made r.feeds record.id cause := by
  unfold resolveOne
  refine (Effect.comes_modify _).bind fun _ _ => ?_
  refine ((binds_comes h record.inputs).imp (fun _ _ => trivial) fun _ he => .inr he).bind (P := fun _ => True)
    fun ins _ => ?_
  have hdirect : ∀ v ∈ ins.map Value.ofSymbol?, v.Direct := by
    intro v hv
    obtain ⟨o, -, rfl⟩ := List.mem_map.mp hv
    cases o <;> trivial
  refine ((Tree.invoke_local hclosed Plan.symbolic_local record.component record.method hdirect).imp
    (fun _ _ => trivial) fun _ he => .inl he).bind (P := fun _ => True) fun produced _ => ?_
  dsimp only
  split
  · exact Effect.comes_throw (.inl trivial)
  · next hcount =>
    refine ((settleAll_local record 0 (not_not.mp hcount)).imp (fun _ _ => trivial) fun _ he => .inl he).bind
      (P := fun _ => True) fun outputs _ => ?_
    exact Effect.comes_pure trivial

/-- A record with a binding that leads nowhere fails for one. -/
theorem resolveOne_dangles (h : r.Knows done t made record.id)
    (hdangles : ∃ b ∈ record.inputs, ¬ b.Leads t made r.feeds record.id) (P : Plan) :
    ∃ cause Q, (r.resolveOne done record).runOn P = (.error (.unresolvedBinding record.id cause), Q) := by
  obtain ⟨b, hb, hnot⟩ := hdangles
  have hbinds := binds_comes h record.inputs { P with current := record.id }
  unfold resolveOne
  rw [Effect.runOn_bind, Effect.runOn_modify]
  dsimp only
  rw [Effect.runOn_bind]
  rcases hrun : (record.inputs.mapM (r.bind done record.id)).runOn { P with current := record.id } with ⟨e | ss, Q⟩
  · rw [hrun] at hbinds
    obtain ⟨_, -, cause, rfl, -⟩ := hbinds
    exact ⟨cause, Q, rfl⟩
  · rw [hrun] at hbinds
    exact absurd (hbinds b hb) hnot

/-! ## All records -/

/-- From some resolved invocations and a plan, resolving these records leads to others and another plan. -/
inductive Reaches (r : Resolution) : Resolved → Plan → List Invocation → Resolved → Plan → Prop
  | nil {done : Resolved} {P : Plan} : Reaches r done P [] done P
  | cons {done done' : Resolved} {P Q P' : Plan} {record : Invocation} {rest : List Invocation} {w : Wiring}
      {outs : List (Option Symbol)} : (r.resolveOne done record).runOn P = (.ok (w, outs), Q) →
      Reaches r (done ++ [(record.id, outs)]) Q rest done' P' → Reaches r done P (record :: rest) done' P'

/-- A resolved record has as many symbols as placeholders. -/
theorem Reaches.resolved {before : List Invocation} (h : r.Reaches done P before done' Q) : ∃ dx, done' = done ++ dx ∧
    List.Forall₂ (fun record entry => entry.1 = record.id ∧ entry.2.length = record.outputs.length) before dx := by
  induction h with
  | nil => exact ⟨[], (List.append_nil _).symm, .nil⟩
  | @cons done done' P Q P' record rest w outs hone _ ih =>
    obtain ⟨dx, rfl, hdx⟩ := ih
    have hlength := r.resolveOne_length done record P
    rw [hone] at hlength
    exact ⟨(record.id, outs) :: dx, List.append_assoc _ _ _, .cons ⟨rfl, hlength⟩ hdx⟩

/-- Where some records can be resolved and the next one fails, all of them fail with its error. -/
theorem Reaches.fails {before rest : List Invocation} (h : r.Reaches done P before done' Q) {Q' : Plan}
    (herror : (r.resolveOne done' record).runOn Q = (.error e, Q')) :
    (r.resolveAll done (before ++ record :: rest)).runOn P = (.error e, Q') := by
  induction h with
  | nil =>
    rw [List.nil_append, resolveAll, Effect.runOn_bind, herror]
  | cons hone _ ih =>
    rw [List.cons_append, resolveAll, Effect.runOn_bind, hone]
    dsimp only
    rw [Effect.runOn_bind, ih herror]

/-- Where resolving records fails, it does so at one of them, after those before it. -/
theorem resolveAll_error {records : List Invocation} {Q' : Plan}
    (h : (r.resolveAll done records).runOn P = (.error e, Q')) :
    ∃ before record rest done' Q, records = before ++ record :: rest ∧ r.Reaches done P before done' Q ∧
      (r.resolveOne done' record).runOn Q = (.error e, Q') := by
  induction records generalizing done P with
  | nil => cases h
  | cons record rest ih =>
    rw [resolveAll, Effect.runOn_bind] at h
    rcases hone : (r.resolveOne done record).runOn P with ⟨e' | ⟨w, outs⟩, P₁⟩
    · rw [hone] at h
      cases h
      exact ⟨[], record, rest, done, P, rfl, .nil, hone⟩
    · rw [hone] at h
      obtain ⟨before, next, behind, done', Q, rfl, hreaches, herror⟩ := ih (Effect.bind_pure_error h)
      exact ⟨record :: before, next, behind, done', Q, rfl, .cons hone hreaches, herror⟩

end Resolution

end ComponentFlow
