/-
  ComponentFlow.Proofs.Backward — bindings point backward. Calls bind to placeholders that were handed
  out before, so what they bind to is there when their record is resolved, whichever build that is; a
  record with bindings of its own may bind to anything.

  - `Session.Directed`: what all records of a session and those of calls are like.
  - `Session.Directed.knows`: at each record of a build, all earlier invocations are found.
  - `Session.bindings_point_backward`: which bindings resolve, and which builds fail for one.
-/
import ComponentFlow.Proofs.Dangling
import ComponentFlow.Proofs.Intact
import ComponentFlow.Proofs.Ledger

namespace ComponentFlow

/-! ## What is recorded -/

theorem Recorder.length_allocate (graph i : Nat) (specs : List (Option TensorSpec)) :
    (allocate graph i specs).length = specs.length := by
  simp [allocate]

/-- A record has as many outputs as its method declares. -/
theorem Recording.Makes.declared {g : Graph} {x : Recording} {r : Invocation} {share : Bool} (h : x.Makes g r share) :
    ∃ m, g.tree.method r.component r.method = .ok m ∧ r.outputs.length = m.outputs.length := by
  cases h with
  | @call id name supplied p _ hp _ =>
    obtain ⟨m, ins, hrecordable⟩ := Graph.prepareCall_ok hp
    have hname : p.method.name = name := hrecordable.method ▸ Tree.name_of_method hrecordable.declared
    have hspecs := (Outcome.mapM_ok.mp hrecordable.specs).length_eq
    refine ⟨m, ?_, ?_⟩
    · show g.tree.method id p.method.name = .ok m
      rw [hname]
      exact hrecordable.declared
    · show (Recorder.allocate _ _ p.specs).length = _
      rw [Recorder.length_allocate, ← hspecs, hrecordable.method]
  | raw _ hp =>
    obtain ⟨m, hm, hlength, -, rfl⟩ := Graph.prepareRaw_ok hp
    exact ⟨m, hm, (Recorder.length_allocate _ _ _).trans hlength⟩

/-- Only what was supplied is a placeholder among the inputs of a call. -/
theorem Signature.supplied_of_completed {m : Signature} {scope : String} {supplied ins : List Value} {p : Placeholder}
    (h : m.completeInputs scope supplied = .ok ins) (hp : .placeholder p ∈ ins) : .placeholder p ∈ supplied := by
  unfold completeInputs at h
  dsimp only at h
  split at h
  · cases h
  · obtain ⟨vs, hvs, rfl⟩ := Outcome.map_ok.mp h
    have hdirect : (m.fillDefaults scope supplied.length (m.inputs.drop supplied.length)).Ends _ _ :=
      m.fillDefaults_local supplied.length (m.inputs.drop supplied.length)
    rw [hvs] at hdirect
    exact (List.mem_append.mp hp).resolve_right fun hmem => hdirect _ hmem

namespace Session

variable {s : Session} {t : Tree} {made called : List Invocation} {g : Graph} {r : Invocation}

/-! ## Numbers of records -/

theorem Accounted.at_id (h : Accounted made g) (hr : r ∈ made) : made[r.id]? = some r := by
  obtain ⟨j, hj⟩ := List.getElem?_of_mem hr
  have hid : (List.range g.recorder.nextId)[j]? = some r.id := by rw [← h.ids, List.getElem?_map, hj, Option.map_some]
  obtain ⟨hlt, hsame⟩ := List.getElem?_eq_some_iff.mp hid
  rw [List.getElem_range] at hsame
  rw [← hsame, hj]

theorem Accounted.exists_id (h : Accounted made g) {i : Nat} (hi : i < g.recorder.nextId) : ∃ r ∈ made, r.id = i := by
  have hmem : i ∈ made.map Invocation.id := h.ids ▸ List.mem_range.mpr hi
  exact List.mem_map.mp hmem

/-- An output that stands is one of its record. -/
theorem Accounted.output_lt (h : Accounted made g) (hr : r ∈ made) {p : Placeholder} {k : Nat}
    (hstands : g.Stands p r.id k) : k < r.outputs.length := by
  obtain ⟨built, rfl, hbuilt⟩ := h.built
  rcases List.mem_append.mp hr with hold | hpending
  · obtain ⟨w, hw, hbecomes⟩ := forall₂_of_mem hbuilt hold
    obtain ⟨a, ha, hmem⟩ := Graph.mem_wirings.mp hw
    obtain ⟨v, spec, hv, -⟩ := hstands.wired a ha w hmem hbecomes.id
    exact hbecomes.length ▸ (List.getElem?_eq_some_iff.mp hv).1
  · exact (List.getElem?_eq_some_iff.mp (hstands.pending r hpending rfl)).1

/-! ## What every record is like -/

/-- Whether a placeholder of this graph that a call is given was handed out; none can be made up. -/
def faithful (s : Session) : Request → Bool
  | .record (.call _ _ supplied) | .record (.callAt _ _ supplied) =>
    (supplied.filterMap Value.placeholder?).all fun p => p.graph != s.graph.id || decide (p ∈ s.handed)
  | _ => true

/-- These records were made so far, as declared, and those of calls bind to what there was before. -/
structure Directed (t : Tree) (made called : List Invocation) (s : Session) : Prop where
  valid : s.Valid
  shape : s.graph.tree.SameShape t
  accounted : Accounted made s.graph
  declared : ∀ r ∈ made, ∃ m, t.method r.component r.method = .ok m ∧ r.outputs.length = m.outputs.length
  called : ∀ r ∈ called, r ∈ made ∧ ∀ b ∈ r.inputs, b.Leads t made s.graph.recorder.feeds r.id

theorem Directed.arity (h : Directed t made called s) (hr : r ∈ made) : t.arity? made r.id = some r.outputs.length := by
  obtain ⟨m, hm, hlength⟩ := h.declared r hr
  simp [Tree.arity?, h.accounted.at_id hr, hm, hlength, Except.toOption]

/-- What a binding leads to stays there. -/
theorem leads_later {b : Binding} {declared declared' : Declared} {current : Nat} (h : b.Leads t made declared current)
    (hdeclared : declared <+: declared') (later : List Invocation) : b.Leads t (made ++ later) declared' current := by
  cases b with
  | literal | absent => trivial
  | feed name =>
    obtain ⟨spec, hspec⟩ := h
    obtain ⟨rest, rfl⟩ := hdeclared
    exact ⟨spec, lookup_append_of_some hspec⟩
  | output i k =>
    obtain ⟨hlt, n, hn, hk⟩ := h
    refine ⟨hlt, n, ?_, hk⟩
    obtain ⟨r, hr, hrest⟩ := Option.bind_eq_some_iff.mp hn
    exact Option.bind_eq_some_iff.mpr ⟨r, getElem?_of_isPrefix (List.prefix_append made later) hr, hrest⟩

/-- A placeholder of this graph that a call is given was handed out. -/
theorem handed_of_faithful {x : Recording} (hfaithful : s.faithful (.record x) = true) {id : NodeId} {name : String}
    {supplied : List Value} (hcall : x.call? s.graph.tree = some (id, name, supplied)) {p : Placeholder}
    (hp : .placeholder p ∈ supplied) (hgraph : p.graph = s.graph.id) : p ∈ s.handed := by
  have hall : (supplied.filterMap Value.placeholder?).all
      (fun p => p.graph != s.graph.id || decide (p ∈ s.handed)) = true := by
    cases x with
    | input | raw => cases hcall
    | call => cases hcall; exact hfaithful
    | callAt =>
      obtain ⟨_, -, hsame⟩ := Option.map_eq_some_iff.mp hcall
      cases hsame
      exact hfaithful
  have hone := List.all_eq_true.mp hall p (List.mem_filterMap.mpr ⟨_, hp, rfl⟩)
  simpa [hgraph] using hone

/-- The bindings of a call lead to what was handed out before. -/
theorem Directed.call_leads (h : Directed t made called s) {x : Recording} (hfaithful : s.faithful (.record x) = true)
    {id : NodeId} {name : String} {supplied : List Value} {p : Graph.Prepared}
    (hcall : x.call? s.graph.tree = some (id, name, supplied)) (hp : s.graph.prepareCall id name supplied = .ok p) :
    ∀ b ∈ p.inputs, b.Leads t made s.graph.recorder.feeds s.graph.recorder.nextId := by
  intro b hb
  obtain ⟨m, ins, hrecordable⟩ := Graph.prepareCall_ok hp
  obtain ⟨v, hv, hbound⟩ := forall₂_of_mem (Outcome.mapM_ok.mp hrecordable.bindings).flip hb
  cases v with
  | tensor | absent =>
    cases hbound
    trivial
  | symbol => cases hbound
  | placeholder q =>
    have hsupplied : .placeholder q ∈ supplied := Signature.supplied_of_completed hrecordable.inputs hv
    simp only [Binding.ofValue] at hbound
    split at hbound
    · cases hbound
    · next hgraph =>
      have hhanded : q ∈ s.handed := handed_of_faithful hfaithful hcall hsupplied (not_not.mp hgraph)
      obtain ⟨-, hfeed, houtput⟩ := h.valid.promised q hhanded
      split at hbound
      · next name hsource =>
        cases hbound
        exact ⟨q.spec, hfeed name hsource⟩
      · next i k hsource =>
        cases hbound
        have hstands := houtput i k hsource
        obtain ⟨r, hr, rfl⟩ := h.accounted.exists_id hstands.lt
        exact ⟨hstands.lt, _, h.arity hr, h.accounted.output_lt hr hstands⟩

/-! ## One request -/

/-- What a request appends was made by a recording. -/
theorem makes_of_appended (hvalid : s.Valid) {request : Request} (hr : r ∈ s.appended request) :
    ∃ x share, request = .record x ∧ x.Makes s.graph r share := by
  have hsteps := steps hvalid.mode request
  generalize s.appended request = new, (s.step request).graph = g at hsteps hr
  cases hsteps with
  | feeds | build | execute => cases hr
  | @record x r' share hmakes =>
    obtain rfl := List.mem_singleton.mp hr
    exact ⟨x, share, rfl, hmakes⟩

/-- Inputs stay declared. -/
theorem feeds_step (hvalid : s.Valid) (request : Request) :
    s.graph.recorder.feeds <+: (s.step request).graph.recorder.feeds := by
  have hsteps := steps hvalid.mode request
  generalize s.appended request = new, hafter : (s.step request).graph = g at hsteps
  cases hsteps with
  | feeds hfeeds => exact hfeeds
  | record | execute => exact List.prefix_refl _
  | build =>
    have hsame : g.recorder.feeds = s.graph.recorder.feeds := hafter ▸ s.graph.build_after.feeds
    exact hsame ▸ List.prefix_refl _

theorem shape_step (hvalid : s.Valid) (request : Request) : (s.step request).graph.tree.SameShape s.graph.tree := by
  by_cases hbuild : request = .build
  · subst hbuild
    exact s.graph.build_after.shape
  · rw [(step_same hvalid hbuild).1]
    exact .refl _

theorem Directed.step (h : Directed t made called s) {request : Request} (hreturns : s.aborts request = false)
    (hfaithful : s.faithful request = true) : Directed t (made ++ s.appended request)
      (called ++ if isCall request then s.appended request else []) (s.step request) := by
  have hfeeds := feeds_step h.valid request
  refine ⟨valid_after h.valid [request], (shape_step h.valid request).trans h.shape, h.accounted.step h.valid hreturns,
    fun r hr => ?_, fun r hr => ?_⟩
  · rcases List.mem_append.mp hr with hold | hnew
    · exact h.declared r hold
    · obtain ⟨x, share, -, hmakes⟩ := makes_of_appended h.valid hnew
      obtain ⟨m, hm, hlength⟩ := hmakes.declared
      exact ⟨m, h.shape.method _ _ ▸ hm, hlength⟩
  · rcases List.mem_append.mp hr with hold | hnew
    · obtain ⟨hmade, hleads⟩ := h.called r hold
      exact ⟨List.mem_append_left _ hmade, fun b hb => leads_later (hleads b hb) hfeeds _⟩
    · split at hnew
      · next hcall =>
        refine ⟨List.mem_append_right _ hnew, ?_⟩
        obtain ⟨x, share, rfl, hmakes⟩ := makes_of_appended h.valid hnew
        cases hmakes with
        | call hx hp => exact fun b hb => leads_later (h.call_leads hfaithful hx hp b hb) hfeeds _
        | raw hraw =>
          subst hraw
          cases hcall
      · cases hnew

theorem Directed.after {requests : List Request} (h : Directed t made called s) (hreturns : s.unaborted requests = true)
    (hfaithful : s.throughout faithful requests = true) :
    Directed t (made ++ s.records requests) (called ++ s.calls requests) (s.after requests) := by
  induction requests generalizing s made called with
  | nil => exact (List.append_nil made).symm ▸ (List.append_nil called).symm ▸ h
  | cons request rest ih =>
    obtain ⟨hone, hrest⟩ : s.aborts request = false ∧ (s.step request).unaborted rest = true := by
      simpa [unaborted, throughout] using hreturns
    obtain ⟨hpassed, hpasses⟩ := Bool.and_eq_true_iff.mp hfaithful
    have hnext := ih (h.step hone hpassed) hrest hpasses
    rwa [List.append_assoc, List.append_assoc] at hnext

theorem directed_start (id : Nat) (tree : Tree) (k : Kernels) : Directed tree [] [] (start id tree k) :=
  ⟨valid_start id tree k, .refl tree, accounted_start id tree k, List.forall_mem_nil _, List.forall_mem_nil _⟩

/-! ## What a build finds -/

/-- Numbers that start at zero and go up by one. -/
theorem range_of_append {xs ys : List Nat} {i n : Nat} (h : xs ++ i :: ys = List.range n) : xs = List.range i := by
  have hat : (List.range n)[xs.length]? = some i := by rw [← h, List.getElem?_append_right (Nat.le_refl _)]; simp
  obtain ⟨hlt, hi⟩ := List.getElem?_eq_some_iff.mp hat
  rw [List.getElem_range] at hi
  rw [List.length_range] at hlt
  have hfront : xs = (List.range n).take xs.length := by rw [← h, List.take_left]
  rw [List.take_range, Nat.min_eq_left (Nat.le_of_lt hlt), hi] at hfront
  exact hfront

section Resolved

variable {before : List Invocation} {done : Resolved}

/-- Resolved records are found by their numbers. -/
theorem lookup_resolved
    (h : List.Forall₂ (fun record entry => entry.1 = record.id ∧ entry.2.length = record.outputs.length) before done)
    {i : Nat} (hi : i ∈ before.map Invocation.id) :
    ∃ r ∈ before, r.id = i ∧ ∃ outs, done.lookup i = some outs ∧ outs.length = r.outputs.length := by
  induction h with
  | nil => cases hi
  | @cons record entry before done hentry _ ih =>
    obtain ⟨j, outs⟩ := entry
    obtain ⟨rfl, hlength⟩ := hentry
    by_cases hsame : i = record.id
    · subst hsame
      exact ⟨record, List.mem_cons_self, rfl, outs, List.lookup_cons_self, hlength⟩
    · rw [List.map_cons, List.mem_cons] at hi
      obtain ⟨r, hr, hid, outs', houts', hlength'⟩ := ih (hi.resolve_left hsame)
      have hother : (i == record.id) = false := by simpa using hsame
      exact ⟨r, List.mem_cons_of_mem _ hr, hid, outs', by rw [List.lookup_cons, hother]; exact houts', hlength'⟩

theorem lookup_unresolved
    (h : List.Forall₂ (fun record entry => entry.1 = record.id ∧ entry.2.length = record.outputs.length) before done)
    {i : Nat} (hi : i ∉ before.map Invocation.id) : done.lookup i = none := by
  induction h with
  | nil => rfl
  | @cons record entry before done hentry _ ih =>
    obtain ⟨j, outs⟩ := entry
    obtain ⟨rfl, -⟩ := hentry
    rw [List.map_cons, List.mem_cons, not_or] at hi
    have hother : (i == record.id) = false := by simpa using hi.1
    rw [List.lookup_cons, hother]
    exact ih hi.2

end Resolved

/-- The wiring of a record that was built. -/
theorem Accounted.wiring (h : Accounted made g) {i : Nat} (hi : i ∈ g.wirings.map Wiring.id) :
    ∃ r ∈ made, r.id = i ∧ ∃ w, (g.artifact.bind fun a => a.wiring? i) = some w ∧
      w.outputs.length = r.outputs.length := by
  obtain ⟨built, rfl, hbuilt⟩ := h.built
  obtain ⟨a, w, ha, hw⟩ := Graph.wiring_some hi
  obtain ⟨hmem, hid⟩ := Artifact.wiring_found hw
  obtain ⟨r, hr, hbecomes⟩ := forall₂_of_mem hbuilt.flip (Graph.mem_wirings.mpr ⟨a, ha, hmem⟩)
  exact ⟨r, List.mem_append_left _ hr, hbecomes.id.symm.trans hid, w, by rw [ha]; exact hw, hbecomes.length⟩

/-- When a record comes up in a build, all invocations before it are found, in this build or in the artifact. -/
theorem Directed.knows (h : Directed t made called s) {before rest : List Invocation} {done : Resolved} {P : Plan}
    (hpending : s.graph.recorder.pending = before ++ r :: rest)
    (hreaches : s.graph.resolution.Reaches [] s.graph.resolution.start before done P) :
    s.graph.resolution.Knows done t made r.id := by
  obtain ⟨_, rfl, hdone⟩ := hreaches.resolved
  have hnumbers : s.graph.wirings.map Wiring.id ++ before.map Invocation.id = List.range r.id := by
    have hall : (s.graph.wirings.map Wiring.id ++ before.map Invocation.id) ++ r.id :: rest.map Invocation.id =
        List.range s.graph.recorder.nextId := by
      rw [← h.accounted.numbers, Graph.ids, hpending, List.map_append, List.map_cons, List.append_assoc]
    exact range_of_append hall
  have hbefore : ∀ x ∈ before, x ∈ made := by
    obtain ⟨built, rfl, -⟩ := h.accounted.built
    intro x hx
    rw [hpending]
    exact List.mem_append_right _ (List.mem_append_left _ hx)
  refine ⟨fun i hi => ?_, fun i hi P => Resolution.outputs_none.mpr ?_⟩
  · have hmem : i ∈ s.graph.wirings.map Wiring.id ++ before.map Invocation.id := hnumbers ▸ List.mem_range.mpr hi
    by_cases hnow : i ∈ before.map Invocation.id
    · obtain ⟨x, hx, rfl, outs, houts, hlength⟩ := lookup_resolved hdone hnow
      refine ⟨_, h.arity (hbefore x hx), fun P => ⟨outs, ?_, hlength⟩⟩
      rw [Resolution.outputs?, houts, Option.some_or]
    · obtain ⟨x, hx, rfl, w, hw, hlength⟩ := h.accounted.wiring ((List.mem_append.mp hmem).resolve_right hnow)
      refine ⟨_, h.arity hx, fun P => ⟨w.outputs.map (·.bind P.symbol?), ?_, by rw [List.length_map, hlength]⟩⟩
      have hbase : (s.graph.resolution.base.bind fun a => a.wiring? x.id) = some w := hw
      rw [Resolution.outputs?, lookup_unresolved hdone hnow, hbase, Option.none_or, Option.map_some]
  · have hnot : i ∉ s.graph.wirings.map Wiring.id ++ before.map Invocation.id := by
      rw [hnumbers, List.mem_range]
      exact Nat.not_lt.mpr hi
    rw [List.mem_append, not_or] at hnot
    exact ⟨lookup_unresolved hdone hnot.2, Graph.wiring_none.mpr hnot.1⟩

/-! ## Builds -/

/-- A build that comes to a record fails for it if one of its bindings leads nowhere. -/
theorem Directed.build_dangles (h : Directed t made called s) (hbuildable : s.graph.Buildable)
    {before rest : List Invocation} {done : Resolved} {P : Plan}
    (hpending : s.graph.recorder.pending = before ++ r :: rest)
    (hreaches : s.graph.resolution.Reaches [] s.graph.resolution.start before done P)
    (hdangles : ∃ b ∈ r.inputs, ¬ b.Leads t made s.graph.recorder.feeds r.id) :
    ∃ cause, (Graph.build.runOn s.graph).1 = .error (.unresolvedBinding r.id cause) := by
  obtain ⟨cause, Q, hone⟩ := Resolution.resolveOne_dangles (h.knows hpending hreaches) hdangles P
  have hall : (s.graph.resolution.resolveAll [] (before ++ r :: rest)).runOn s.graph.resolution.start = _ :=
    hreaches.fails hone
  have hmust : s.graph.mustResolve = true := by simp [Graph.mustResolve, h.valid.mode, hpending]
  have hrun : s.graph.resolution.run s.graph.recorder.pending = .error (.unresolvedBinding r.id cause) := by
    rw [Resolution.run, hpending, hall]
  exact ⟨cause, by rw [Graph.build_unresolved hbuildable hmust rfl hrun]⟩

/-- A build that fails for a binding names a record that has such a binding. -/
theorem Directed.build_error (h : Directed t made called s) (hclosed : t.Closed) (hbuildable : s.graph.Buildable)
    {i : Nat} {cause : BindingFault} (herror : (Graph.build.runOn s.graph).1 = .error (.unresolvedBinding i cause)) :
    ∃ r ∈ s.graph.recorder.pending, r.id = i ∧ ∃ b ∈ r.inputs, b.Dangles t made s.graph.recorder.feeds r.id cause := by
  have hbuilds := s.graph.build_builds
  rw [herror] at hbuilds
  generalize (Graph.build.runOn s.graph).2 = g' at hbuilds
  cases hbuilds with
  | refused hrefused => exact absurd hbuildable hrefused
  | aborted _ _ haborts => cases haborts
  | unresolved _ _ _ hrun =>
    rw [Resolution.run] at hrun
    rcases hall : (s.graph.resolution.resolveAll [] s.graph.recorder.pending).runOn s.graph.resolution.start
      with ⟨e | wirings, Q'⟩
    · rw [hall] at hrun
      cases hrun
      obtain ⟨before, r, rest, done, Q, hpending, hreaches, hone⟩ := Resolution.resolveAll_error hall
      have htree : s.graph.resolution.tree.Closed :=
        (s.graph.buildingTree_sameShape.trans h.shape).closed hclosed
      have hcomes := Resolution.resolveOne_comes htree (h.knows hpending hreaches) Q
      rw [hone] at hcomes
      obtain ⟨b, hb, cause', hcause, hdangles⟩ := hcomes.resolve_left id
      cases hcause
      exact ⟨r, hpending ▸ List.mem_append_right _ List.mem_cons_self, rfl, b, hb, hdangles⟩
    · rw [hall] at hrun
      cases hrun

/-- No build fails for a binding of a call. -/
theorem Directed.not_called (h : Directed t made called s) {cause : BindingFault} (hr : r ∈ made)
    (hdangles : ∃ b ∈ r.inputs, b.Dangles t made s.graph.recorder.feeds r.id cause) :
    r.id ∉ called.map Invocation.id := by
  intro hcalled
  obtain ⟨r', hr', hid⟩ := List.mem_map.mp hcalled
  obtain ⟨hmade, hleads⟩ := h.called r' hr'
  have hsame : r' = r := by
    have hat := h.accounted.at_id hmade
    rw [hid, h.accounted.at_id hr] at hat
    exact (Option.some.inj hat).symm
  obtain ⟨b, hb, hb'⟩ := hdangles
  exact hb'.not_leads (hsame ▸ hleads b (hsame ▸ hb))

/-- Bindings of pending records when a build comes to them, which it does if it is not refused and the records
    before them can be resolved. A binding resolves if and only if it leads to an input that is declared by then,
    or to a declared output of an invocation before its own, whichever build resolved that one; a record with
    another binding fails the build, which names it. A build fails for a binding for no other reason, so it never
    names a call, and no binding leads to an invocation that nobody made. Bodies are closed, placeholders are
    not made up, and no earlier build was aborted. -/
theorem bindings_point_backward (id : Nat) (tree : Tree) (k : Kernels) (requests : List Request)
    (hclosed : tree.Closed) (hreturns : (start id tree k).unaborted requests = true)
    (hfaithful : (start id tree k).throughout faithful requests = true)
    (hbuildable : ((start id tree k).after requests).graph.Buildable) :
    let g := ((start id tree k).after requests).graph
    let made := (start id tree k).records requests
    (∀ before r rest done P, g.recorder.pending = before ++ r :: rest →
      g.resolution.Reaches [] g.resolution.start before done P →
        (∀ b Q, (∃ o, ((g.resolution.bind done r.id b).runOn Q).1 = .ok o) ↔
          b.Leads tree made g.recorder.feeds r.id) ∧
        ((∃ b ∈ r.inputs, ¬ b.Leads tree made g.recorder.feeds r.id) →
          ∃ cause, (Graph.build.runOn g).1 = .error (.unresolvedBinding r.id cause))) ∧
    ∀ i cause, (Graph.build.runOn g).1 = .error (.unresolvedBinding i cause) →
      (∃ r ∈ g.recorder.pending, r.id = i ∧ ∃ b ∈ r.inputs, b.Dangles tree made g.recorder.feeds i cause) ∧
      i ∉ ((start id tree k).calls requests).map Invocation.id ∧ ∀ j, cause ≠ .unknown j := by
  intro g made
  have h : Directed tree made ((start id tree k).calls requests) ((start id tree k).after requests) :=
    (directed_start id tree k).after hreturns hfaithful
  refine ⟨fun before r rest done P hpending hreaches => ⟨fun b Q => ?_, h.build_dangles hbuildable hpending hreaches⟩,
    fun i cause herror => ?_⟩
  · have hcomes := Resolution.bind_comes (h.knows hpending hreaches) b Q
    rcases hbind : ((g.resolution.bind done r.id b).runOn Q).1 with e | o
    · rw [hbind] at hcomes
      obtain ⟨cause, -, hdangles⟩ := hcomes
      refine ⟨?_, fun hleads => absurd hleads hdangles.not_leads⟩
      intro ⟨_, hfound⟩
      cases hfound
    · rw [hbind] at hcomes
      exact ⟨fun _ => hcomes, fun _ => ⟨o, rfl⟩⟩
  · obtain ⟨r, hr, rfl, b, hb, hdangles⟩ := h.build_error hclosed hbuildable herror
    have hmade : r ∈ made := by
      obtain ⟨built, hall, -⟩ := h.accounted.built
      exact hall ▸ List.mem_append_right _ hr
    exact ⟨⟨r, hr, rfl, b, hb, hdangles⟩, h.not_called hmade ⟨b, hb, hdangles⟩, hdangles.cause_ne⟩

/-- A call that is built; then a record of an output that nobody made, and a call of what was built. -/
def wayward : List Request :=
  let s : TensorSpec := ⟨.f32, [.named "B"]⟩
  [.record (.input "x" s), .record (.call 0 "add" [.placeholder ⟨1, .feed "x", s⟩]), .build,
    .record (.raw 0 "add" [.output 5 0] [some s]), .record (.call 0 "add" [.placeholder ⟨1, .output 0 0, s⟩])]

theorem wayward_named :
    let g := ((start 1 increment .reference).after wayward).graph
    (∃ o, ((g.resolution.bind [] 1 (.output 0 0)).runOn g.resolution.start).1 = .ok o) ∧
      (¬ ∃ o, ((g.resolution.bind [] 1 (.output 1 0)).runOn g.resolution.start).1 = .ok o) ∧
      ∃ cause, (Graph.build.runOn g).1 = .error (.unresolvedBinding 1 cause) ∧
        1 ∉ ((start 1 increment .reference).calls wayward).map Invocation.id ∧ ∀ j, cause ≠ .unknown j := by
  intro g
  have hbuildable : g.Buildable := Graph.buildable_of_built (by decide +kernel)
  obtain ⟨hreached, hfailed⟩ := bindings_point_backward 1 increment .reference wayward
    (Tree.closed_of_plain (by decide +kernel)) (by decide +kernel) (by decide +kernel) hbuildable
  obtain ⟨r, rest, hpending, hid, hinputs⟩ : ∃ r rest, g.recorder.pending = [] ++ r :: rest ∧
      r.id = 1 ∧ r.inputs = [.output 5 0] := ⟨_, _, rfl, rfl, rfl⟩
  obtain ⟨hresolves, hfails⟩ := hreached [] r rest [] g.resolution.start hpending .nil
  rw [hid] at hresolves hfails
  have hbuilt : (increment.arity? ((start 1 increment .reference).records wayward) 0) = some 1 := by decide +kernel
  refine ⟨(hresolves (.output 0 0) _).mpr ⟨Nat.one_pos, 1, hbuilt, Nat.one_pos⟩, fun hfound => ?_, ?_⟩
  · exact absurd ((hresolves (.output 1 0) _).mp hfound).1 (Nat.lt_irrefl 1)
  · obtain ⟨cause, herror⟩ := hfails ⟨.output 5 0, hinputs ▸ List.mem_singleton_self _, fun hleads =>
      absurd hleads.1 (by decide)⟩
    exact ⟨cause, herror, (hfailed 1 cause herror).2⟩

end Session

end ComponentFlow
