/-
  ComponentFlow.Proofs.Lockstep — the same methods under two handlers. A body only hands values on,
  so that handlers which answer related operands with related results make whole calls do so
  (`Lockstep.invoke_follows`), however deep they nest.
-/
import ComponentFlow.Proofs.Effect
import ComponentFlow.Tree.Invoke

namespace ComponentFlow

/-- All references in a body. -/
def Body.refs : Body → List Ref
  | .straight steps returns => steps.flatMap Step.args ++ returns
  | .branch steps on absent present => steps.flatMap Step.args ++ on :: (absent.refs ++ present.refs)

namespace Signature

variable {m : Signature} {scope : String} {R : Value → Value → Prop}

/-- Defaults are tensors or absent, and so related to themselves. -/
theorem fillDefaults_related (habsent : R .absent .absent) (htensor : ∀ t, R (.tensor t) (.tensor t)) {filled : Nat}
    {slots : List InputSlot} {vs : List Value} (h : m.fillDefaults scope filled slots = .ok vs) :
    List.Forall₂ R vs vs := by
  induction slots generalizing filled vs with
  | nil =>
    cases h
    exact .nil
  | cons slot rest ih =>
    unfold fillDefaults at h
    split at h
    · cases h
    · obtain ⟨rest', hrest, rfl⟩ := Outcome.map_ok.mp h
      exact .cons (htensor _) (ih hrest)
    · obtain ⟨rest', hrest, rfl⟩ := Outcome.map_ok.mp h
      exact .cons habsent (ih hrest)

theorem completeInputs_follows (habsent : R .absent .absent) (htensor : ∀ t, R (.tensor t) (.tensor t))
    {vs vs' : List Value} (h : List.Forall₂ R vs vs') {ins : List Value} (hins : m.completeInputs scope vs = .ok ins) :
    ∃ ins', m.completeInputs scope vs' = .ok ins' ∧ List.Forall₂ R ins ins' := by
  unfold completeInputs at hins ⊢
  rw [← h.length_eq]
  dsimp only at hins ⊢
  split at hins
  · cases hins
  · next hcount =>
    obtain ⟨defaults, hdefaults, rfl⟩ := Outcome.map_ok.mp hins
    refine ⟨vs' ++ defaults, ?_, List.rel_append h (fillDefaults_related habsent htensor hdefaults)⟩
    rw [if_neg hcount]
    exact Outcome.map_ok.mpr ⟨defaults, hdefaults, rfl⟩

end Signature

/-- Two handlers and the relation that they keep between values. -/
structure Lockstep {σ τ : Type} (c : Coupling σ τ) (d : Handler σ) (e : Handler τ) where
  Rel : c.World → Value → Value → Prop
  lasting : c.Lasting Rel
  absent : ∀ w, Rel w .absent .absent
  tensor : ∀ w t, Rel w (.tensor t) (.tensor t)
  dtype : ∀ {w v v'}, Rel w v v' → Body.dtypeOf v = Body.dtypeOf v'
  absence : ∀ {w v v'}, Rel w v v' → v.isAbsent = v'.isAbsent
  apply : ∀ {w} p {vs vs'}, List.Forall₂ (Rel w) vs vs' → c.Follows w (d.apply p vs) (e.apply p vs') Rel
  /-- The methods that keep to the relation. -/
  Permits : Method → Prop
  foreign : ∀ {m p}, Permits m → .foreign p ∈ m.body.refs → ∀ w, Rel w (.placeholder p) (.placeholder p)
  check : ∀ {m w scope ins ins' outs outs'}, Permits m → List.Forall₂ (Rel w) ins ins' →
    List.Forall₂ (Rel w) outs outs' → m.checkOutputs scope (ins.map Value.spec?) outs = .ok () →
    m.checkOutputs scope (ins'.map Value.spec?) outs' = .ok ()

namespace Lockstep

variable {σ τ : Type} {c : Coupling σ τ} {d : Handler σ} {e : Handler τ} (l : Lockstep c d e)

/-- Related value by value. -/
def RelAll (w : c.World) : List Value → List Value → Prop := List.Forall₂ (l.Rel w)

def RelOutputs (w : c.World) (o o' : Outputs) : Prop := o.names = o'.names ∧ l.RelAll w o.values o'.values

theorem relAll_lasting : c.Lasting l.RelAll := fun _ _ _ _ hgrows h => h.imp fun _ _ => (l.lasting hgrows ·)

theorem relOutputs_lasting : c.Lasting l.RelOutputs := fun _ _ _ _ hgrows h => ⟨h.1, l.relAll_lasting hgrows h.2⟩

variable {l} {w : c.World}

/-! ## References -/

section Frame

variable {ins ins' : List Value} {results results' : List Outputs}

theorem orBadReference_follows {α β : Type} {R : α → β → Prop} {as : List α} {bs : List β}
    (h : List.Forall₂ R as bs) {i : Nat} {a : α} (ha : Frame.orBadReference as[i]? = .ok a) :
    ∃ b, Frame.orBadReference bs[i]? = .ok b ∧ R a b := by
  rcases hi : as[i]? with _ | x
  · rw [hi] at ha
    cases ha
  · rw [hi] at ha
    cases ha
    obtain ⟨b, hb, hR⟩ := forall₂_getElem? h hi
    exact ⟨b, by rw [hb]; rfl, hR⟩

theorem first_follows {o o' : Outputs} (h : l.RelOutputs w o o') {v : Value} (hv : o.first = .ok v) :
    ∃ v', o'.first = .ok v' ∧ l.Rel w v v' := by
  obtain ⟨names, values⟩ := o
  obtain ⟨names', values'⟩ := o'
  obtain ⟨-, hvalues⟩ := h
  cases hvalues with
  | nil => cases hv
  | cons hfirst _ =>
    cases hv
    exact ⟨_, rfl, hfirst⟩

theorem output_follows {o o' : Outputs} (h : l.RelOutputs w o o') {name : String} {v : Value}
    (hv : o.output name = .ok v) : ∃ v', o'.output name = .ok v' ∧ l.Rel w v v' := by
  unfold Outputs.output at hv ⊢
  rcases hname : o.byName? name with _ | x
  · rw [hname] at hv
    cases hv
  · rw [hname] at hv
    cases hv
    simp only [Outputs.byName?, Option.bind_eq_some_iff] at hname
    obtain ⟨i, hi, hget⟩ := hname
    obtain ⟨v', hv', hrel⟩ := forall₂_getElem? h.2 hget
    have hname' : o'.byName? name = some v' := by
      simp only [Outputs.byName?, Option.bind_eq_some_iff]
      exact ⟨i, h.1 ▸ hi, hv'⟩
    exact ⟨v', by rw [hname'], hrel⟩

theorem resolve_follows (hins : l.RelAll w ins ins') (hresults : List.Forall₂ (l.RelOutputs w) results results')
    {r : Ref} (hforeign : ∀ p, r = .foreign p → l.Rel w (.placeholder p) (.placeholder p)) {v : Value}
    (hv : Frame.resolve ⟨ins, results⟩ r = .ok v) :
    ∃ v', Frame.resolve ⟨ins', results'⟩ r = .ok v' ∧ l.Rel w v v' := by
  cases r with
  | absent =>
    cases hv
    exact ⟨_, rfl, l.absent w⟩
  | input i => exact orBadReference_follows hins hv
  | value i =>
    have hvalues : l.RelAll w (results.flatMap Outputs.values) (results'.flatMap Outputs.values) :=
      List.rel_flatMap hresults fun _ _ h => h.2
    exact orBadReference_follows hvalues hv
  | first i =>
    obtain ⟨o, ho, hv⟩ := Outcome.bind_ok.mp hv
    obtain ⟨o', ho', hrel⟩ := orBadReference_follows hresults ho
    obtain ⟨v', hv', hvrel⟩ := first_follows hrel hv
    exact ⟨v', Outcome.bind_ok.mpr ⟨o', ho', hv'⟩, hvrel⟩
  | named i name =>
    obtain ⟨o, ho, hv⟩ := Outcome.bind_ok.mp hv
    obtain ⟨o', ho', hrel⟩ := orBadReference_follows hresults ho
    obtain ⟨v', hv', hvrel⟩ := output_follows hrel hv
    exact ⟨v', Outcome.bind_ok.mpr ⟨o', ho', hv'⟩, hvrel⟩
  | literal t =>
    cases hv
    exact ⟨_, rfl, l.tensor w t⟩
  | foreign p =>
    cases hv
    exact ⟨_, rfl, hforeign p rfl⟩

/-- The values of several references. -/
theorem resolveAll_follows (hins : l.RelAll w ins ins')
    (hresults : List.Forall₂ (l.RelOutputs w) results results') {refs : List Ref}
    (hforeign : ∀ p, .foreign p ∈ refs → l.Rel w (.placeholder p) (.placeholder p)) :
    c.Follows w (Effect.ofOutcome (refs.mapM (Frame.resolve ⟨ins, results⟩)))
      (Effect.ofOutcome (refs.mapM (Frame.resolve ⟨ins', results'⟩))) l.RelAll := by
  refine Coupling.follows_ofOutcome fun vs hvs => ?_
  refine Outcome.mapM_follows (List.forall₂_same.mpr fun _ _ => rfl) ?_ hvs
  intro r r' hr hsame v hv
  subst hsame
  exact resolve_follows hins hresults (fun p hp => hforeign p (hp ▸ hr)) hv

end Frame

/-! ## Bodies -/

section Body

variable {site : Site σ} {site' : Site τ}

/-- Two places for a body: under the two handlers, with children that follow each other. -/
structure SitesFollow (l : Lockstep c d e) (site : Site σ) (site' : Site τ) : Prop where
  left : site.handler = d
  right : site'.handler = e
  call : ∀ w child method {vs vs'}, l.RelAll w vs vs' →
    c.Follows w (site.call child method vs) (site'.call child method vs') l.RelOutputs

theorem single_follows {x : Effect σ Value} {y : Effect τ Value} (h : c.Follows w x y l.Rel) :
    c.Follows w (do return ⟨[], [← x]⟩) (do return ⟨[], [← y]⟩) l.RelOutputs :=
  h.bind fun _ _ _ _ hrel => Coupling.follows_pure ⟨rfl, .cons hrel .nil⟩

theorem perform_follows (hsites : SitesFollow l site site') (op : Operation) {vs vs' : List Value}
    (h : l.RelAll w vs vs') : c.Follows w (Body.perform site op vs) (Body.perform site' op vs') l.RelOutputs := by
  obtain ⟨rfl, rfl, hcall⟩ := hsites
  cases op with
  | apply p => exact single_follows (l.apply p h)
  | castLike =>
    rcases h with _ | ⟨hv, _ | ⟨hlike, _ | _⟩⟩
    · exact Coupling.follows_throw
    · exact Coupling.follows_throw
    · simp only [Body.perform, l.dtype hlike]
      exact single_follows (l.apply _ (.cons hv .nil))
    · exact Coupling.follows_throw
  | call child method => exact hcall w child method h
  | fail text => exact Coupling.follows_throw

theorem runSteps_follows (hsites : SitesFollow l site site') {steps : List Step}
    (hforeign : ∀ w p, .foreign p ∈ steps.flatMap Step.args → l.Rel w (.placeholder p) (.placeholder p))
    {ins ins' : List Value} (hins : l.RelAll w ins ins') {results results' : List Outputs}
    (hresults : List.Forall₂ (l.RelOutputs w) results results') :
    c.Follows w (Body.runSteps site ins results steps) (Body.runSteps site' ins' results' steps)
      fun w' => List.Forall₂ (l.RelOutputs w') := by
  induction steps generalizing w results results' with
  | nil => exact Coupling.follows_pure hresults
  | cons step rest ih =>
    have hstep : ∀ p, .foreign p ∈ step.args → l.Rel w (.placeholder p) (.placeholder p) := fun p hp =>
      hforeign w p (by simp [hp])
    have hrest : ∀ w p, .foreign p ∈ rest.flatMap Step.args → l.Rel w (.placeholder p) (.placeholder p) :=
      fun w p hp => hforeign w p (by rw [List.flatMap_cons]; exact List.mem_append_right _ hp)
    refine (resolveAll_follows hins hresults hstep).bind fun w₁ args args' h₁ hargs => ?_
    refine (perform_follows hsites step.operation hargs).bind fun w₂ out out' h₂ hout => ?_
    have hgrows := c.trans h₁ h₂
    refine ih hrest (l.relAll_lasting hgrows hins) (List.rel_append ?_ (.cons hout .nil))
    exact hresults.imp fun _ _ => (l.relOutputs_lasting hgrows ·)

/-- Both sides go the same way at a branch, since related values are absent together. -/
theorem runFrom_follows (hsites : SitesFollow l site site') {b : Body}
    (hforeign : ∀ w p, .foreign p ∈ b.refs → l.Rel w (.placeholder p) (.placeholder p)) {ins ins' : List Value}
    (hins : l.RelAll w ins ins') {results results' : List Outputs}
    (hresults : List.Forall₂ (l.RelOutputs w) results results') :
    c.Follows w (Body.runFrom site ins results b) (Body.runFrom site' ins' results' b) l.RelAll := by
  induction b generalizing w results results' with
  | straight steps returns =>
    have hsteps : ∀ w p, .foreign p ∈ steps.flatMap Step.args → l.Rel w (.placeholder p) (.placeholder p) :=
      fun w p hp => hforeign w p (List.mem_append_left _ hp)
    refine (runSteps_follows hsites hsteps hins hresults).bind fun w₁ _ _ h₁ hresults => ?_
    exact resolveAll_follows (l.relAll_lasting h₁ hins) hresults
      fun p hp => hforeign w₁ p (List.mem_append_right _ hp)
  | branch steps on absent present ihAbsent ihPresent =>
    have hsteps : ∀ w p, .foreign p ∈ steps.flatMap Step.args → l.Rel w (.placeholder p) (.placeholder p) :=
      fun w p hp => hforeign w p (List.mem_append_left _ hp)
    have hon : ∀ w p, on = .foreign p → l.Rel w (.placeholder p) (.placeholder p) :=
      fun w p hp => hforeign w p (by simp [Body.refs, hp])
    have habsent : ∀ w p, .foreign p ∈ absent.refs → l.Rel w (.placeholder p) (.placeholder p) :=
      fun w p hp => hforeign w p (by simp [Body.refs, hp])
    have hpresent : ∀ w p, .foreign p ∈ present.refs → l.Rel w (.placeholder p) (.placeholder p) :=
      fun w p hp => hforeign w p (by simp [Body.refs, hp])
    refine (runSteps_follows hsites hsteps hins hresults).bind fun w₁ _ _ h₁ hresults => ?_
    have hins₁ := l.relAll_lasting h₁ hins
    refine (Coupling.follows_ofOutcome (R := l.Rel) fun v hv =>
      resolve_follows hins₁ hresults (hon w₁) hv).bind fun w₂ v v' h₂ hv => ?_
    have hins₂ := l.relAll_lasting h₂ hins₁
    have hresults₂ := hresults.imp fun _ _ => (l.relOutputs_lasting h₂ ·)
    rw [l.absence hv]
    split
    · exact ihAbsent habsent hins₂ hresults₂
    · exact ihPresent hpresent hins₂ hresults₂

theorem run_follows (hsites : SitesFollow l site site') {m : Method} (hm : l.Permits m) {ins ins' : List Value}
    (hins : l.RelAll w ins ins') : c.Follows w (m.body.run site ins) (m.body.run site' ins') l.RelAll :=
  runFrom_follows hsites (fun w _ hp => l.foreign hm hp w) hins .nil

end Body

/-! ## Calls -/

/-- A call with related inputs follows, at any depth. -/
theorem invokeWithin_follows {t : Tree} (hpermits : ∀ id name m, t.method id name = .ok m → l.Permits m)
    (depth : Nat) (id : NodeId) (name : String) {vs vs' : List Value} (h : l.RelAll w vs vs') :
    c.Follows w (t.invokeWithin d depth id name vs) (t.invokeWithin e depth id name vs') l.RelOutputs := by
  induction depth generalizing w id name vs vs' with
  | zero => exact Coupling.follows_throw
  | succ depth ih =>
    unfold Tree.invokeWithin
    refine (Coupling.follows_ofOutcome (R := fun _ m m' => m = m' ∧ l.Permits m)
      fun m hm => ⟨m, hm, rfl, hpermits id name m hm⟩).bind ?_
    intro w₁ m m' h₁ hmethod
    obtain ⟨rfl, hm⟩ := hmethod
    refine (Coupling.follows_ofOutcome (R := l.RelAll) fun ins =>
      Signature.completeInputs_follows (l.absent w₁) (l.tensor w₁) (l.relAll_lasting h₁ h)).bind ?_
    intro w₂ ins ins' h₂ hins
    refine (run_follows ⟨rfl, rfl, fun w child method vs vs' hvs => ?_⟩ hm hins).bind fun w₃ outs outs' h₃ houts => ?_
    · dsimp only
      cases t.child? id child with
      | none => exact Coupling.follows_throw
      | some below => exact ih below method hvs
    · have hins₃ := l.relAll_lasting h₃ hins
      refine (Coupling.follows_ofOutcome (R := fun _ _ _ => True)
        fun _ hcheck => ⟨(), l.check hm hins₃ houts hcheck, trivial⟩).bind fun w₄ _ _ h₄ _ => ?_
      exact Coupling.follows_pure ⟨rfl, l.relAll_lasting h₄ houts⟩

theorem invoke_follows {t : Tree} (hpermits : ∀ id name m, t.method id name = .ok m → l.Permits m) (id : NodeId)
    (name : String) {vs vs' : List Value} (h : l.RelAll w vs vs') :
    c.Follows w (t.invoke d id name vs) (t.invoke e id name vs') l.RelOutputs :=
  invokeWithin_follows hpermits t.size id name h

end Lockstep

end ComponentFlow
