/-
  ComponentFlow.Proofs.Resolve — resolving invocations. What an invocation is resolved against can
  be what this build has resolved or what an earlier artifact holds; it makes no difference as long
  as every binding finds the same symbols (`Resolution.resolveAll_follows`), so that records resolved
  on top of an artifact end up where one build of them all would put them (`Resolution.run_append`).
-/
import ComponentFlow.Graph.Resolve
import ComponentFlow.Proofs.Covering
import ComponentFlow.Proofs.Plan
import ComponentFlow.Proofs.Shape

namespace ComponentFlow

namespace Resolution

variable {l r : Resolution} {dl dr : Resolved} {P Q : Plan}

/-! ## What bindings find -/

/-- The outputs of an invocation. -/
def outputs? (r : Resolution) (done : Resolved) (P : Plan) (i : Nat) : Option (List (Option Symbol)) :=
  (done.lookup i).or ((r.base.bind fun a => a.wiring? i).map fun w => w.outputs.map (·.bind P.symbol?))

theorem output_ok {current i k : Nat} {s : Option Symbol} :
    (r.output dr current i k).runOn P = (.ok s, Q) ↔
      Q = P ∧ ∃ outs, r.outputs? dr P i = some outs ∧ outs[k]? = some s := by
  unfold output outputs?
  rcases hdone : dr.lookup i with _ | outs
  · rcases hbase : r.base.bind fun a => a.wiring? i with _ | w
    · simp
    · rcases hk : w.outputs[k]? with _ | v
      · simp [hk]
      · simp only [Effect.runOn_bind, Effect.runOn_get, Effect.runOn_pure, Prod.mk.injEq, Except.ok.injEq,
          Option.none_or, Option.map_some, Option.some.injEq, exists_eq_left', List.getElem?_map, hk]
        exact ⟨fun h => ⟨h.2.symm, h.1⟩, fun h => ⟨h.2, h.1.symm⟩⟩
  · rcases hk : outs[k]? with _ | s'
    · simp [hk]
    · simp only [Effect.runOn_pure, Prod.mk.injEq, Except.ok.injEq, Option.some_or, Option.some.injEq,
        exists_eq_left', hk]
      exact ⟨fun h => ⟨h.2.symm, h.1⟩, fun h => ⟨h.2, h.1.symm⟩⟩

theorem outputs_none {i : Nat} : r.outputs? dr P i = none ↔
    dr.lookup i = none ∧ (r.base.bind fun a => a.wiring? i) = none := by
  simp [outputs?]

theorem outputs_snoc {i j : Nat} {outs : List (Option Symbol)} (hfresh : r.outputs? dr P i = none) :
    r.outputs? (dr ++ [(i, outs)]) Q j = if j = i then some outs else r.outputs? dr Q j := by
  obtain ⟨hdone, hbase⟩ := outputs_none.mp hfresh
  unfold outputs?
  by_cases hj : j = i
  · subst hj
    simp [lookup_snoc hdone]
  · simp [lookup_snoc_of_ne hj, hj]

/-- Whatever `l` finds on a plan that has grown from `P`, `r` finds too, and the plan has it. -/
structure Serves (l r : Resolution) (dl dr : Resolved) (P : Plan) : Prop where
  tree : l.tree.SameShape r.tree
  feeds : ∀ {name spec}, l.feeds.lookup name = some spec → r.feeds.lookup name = some spec
  outputs : ∀ {Q}, P.Grows Q → ∀ {i outs}, l.outputs? dl Q i = some outs →
    r.outputs? dr Q i = some outs ∧ ∀ s, some s ∈ outs → Q.Has s

theorem Serves.grow (h : Serves l r dl dr P) (hgrows : P.Grows Q) : Serves l r dl dr Q :=
  ⟨h.tree, h.feeds, fun hQ => h.outputs (hgrows.trans hQ)⟩

/-- Both have resolved one more invocation, which neither knew. -/
theorem Serves.snoc (h : Serves l r dl dr P) {i : Nat} {outs : List (Option Symbol)}
    (hfresh : r.outputs? dr P i = none) (houts : ∀ s, some s ∈ outs → P.Has s) :
    Serves l r (dl ++ [(i, outs)]) (dr ++ [(i, outs)]) P := by
  have hfresh' : l.outputs? dl P i = none := by
    rcases hl : l.outputs? dl P i with _ | outs'
    · rfl
    · rw [(h.outputs (Plan.Grows.refl P) hl).1] at hfresh
      cases hfresh
  refine ⟨h.tree, h.feeds, fun {Q} hQ j outs' hj => ?_⟩
  rw [outputs_snoc hfresh'] at hj
  rw [outputs_snoc hfresh]
  by_cases hji : j = i
  · rw [if_pos hji] at hj ⊢
    obtain rfl : outs = outs' := Option.some.inj hj
    exact ⟨rfl, fun s hs => hQ.has (houts s hs)⟩
  · rw [if_neg hji] at hj ⊢
    exact h.outputs hQ hj

/-! ## One invocation -/

/-- The same symbol or none, which the plan has. -/
def SameOutput (P : Plan) (s s' : Option Symbol) : Prop := s = s' ∧ ∀ x, s = some x → P.Has x

theorem sameOutput_none : SameOutput P none none := by
  refine ⟨rfl, fun x hx => ?_⟩
  cases hx

theorem sameOutput_some {s : Symbol} (h : P.Has s) : SameOutput P (some s) (some s) := by
  refine ⟨rfl, fun x hx => ?_⟩
  cases hx
  exact h

theorem sameOutput_lasting : (Plan.steady r.feeds).Lasting SameOutput :=
  fun _ _ _ _ hgrows h => ⟨h.1, fun x hx => hgrows.has (h.2 x hx)⟩

theorem sameOutputs_eq {ss ss' : List (Option Symbol)} (h : List.Forall₂ (SameOutput P) ss ss') :
    ss = ss' ∧ ∀ s, some s ∈ ss → P.Has s := by
  obtain ⟨rfl, hhas⟩ := forall₂_eq_and.mp h
  exact ⟨rfl, fun s hs => hhas (some s) hs s rfl⟩

theorem bind_follows (h : Serves l r dl dr P) (current : Nat) (b : Binding) :
    (Plan.steady r.feeds).Follows P (l.bind dl current b) (r.bind dr current b) SameOutput := by
  cases b with
  | literal t =>
    refine (Plan.constant_follows t).bind fun Q s s' _ hs => Coupling.follows_pure ?_
    obtain ⟨⟨rfl, hhas⟩, -⟩ := hs
    exact sameOutput_some hhas
  | feed name =>
    rcases hl : l.feeds.lookup name with _ | spec
    · simp only [bind, hl]
      exact Coupling.follows_throw
    · simp only [bind, hl, h.feeds hl]
      refine (Plan.feed_follows (h.feeds hl)).bind fun Q s s' _ hs => Coupling.follows_pure ?_
      obtain ⟨rfl, hhas⟩ := hs
      exact sameOutput_some hhas
  | output i k =>
    intro P₁ P₂ hholds s Q hrun
    obtain ⟨rfl, rfl, hwf⟩ := hholds
    obtain ⟨rfl, outs, houts, hk⟩ := output_ok.mp hrun
    obtain ⟨houts', hhas⟩ := h.outputs (Plan.Grows.refl _) houts
    refine ⟨Q, s, Q, Plan.Grows.refl _, output_ok.mpr ⟨rfl, outs, houts', hk⟩, ⟨rfl, rfl, hwf⟩, rfl, ?_⟩
    intro x hx
    subst hx
    exact hhas x (List.mem_of_getElem? hk)
  | absent => exact Coupling.follows_pure sameOutput_none

/-- A symbol or none for a placeholder or none, of a spec that agrees with it. -/
inductive Settled : Option Placeholder → Option Symbol → Prop
  | absent : Settled none none
  | present {p : Placeholder} {s : Symbol} : p.spec.compatible s.spec = true → Settled (some p) (some s)

theorem settle_follows (record : Invocation) (index : Nat) (p : Option Placeholder) {v : Value}
    (hv : P.Carries v) : (Plan.steady r.feeds).Follows P (settle record index p v) (settle record index p v)
      fun Q s s' => SameOutput Q s s' ∧ Settled p s := by
  rcases p with _ | p
  · cases v with
    | absent => exact Coupling.follows_pure ⟨sameOutput_none, .absent⟩
    | tensor | placeholder | symbol => exact Coupling.follows_throw
  · cases v with
    | absent | placeholder => exact Coupling.follows_throw
    | symbol s =>
      simp only [settle]
      split
      · next hspec =>
        exact Coupling.follows_pure ⟨sameOutput_some (hv s rfl), .present hspec⟩
      · exact Coupling.follows_throw
    | tensor t =>
      simp only [settle]
      split
      · next hadmits =>
        refine (Plan.constant_follows t).bind fun Q s s' _ hs => Coupling.follows_pure ?_
        obtain ⟨⟨rfl, hhas⟩, hspec⟩ := hs
        refine ⟨sameOutput_some hhas, .present ?_⟩
        rw [hspec, TensorSpec.compatible_spec_iff]
        exact hadmits
      · exact Coupling.follows_throw

theorem settleAll_follows (record : Invocation) (index : Nat) {ps : List (Option Placeholder)} {vs : List Value}
    (hcount : vs.length = ps.length) (hvs : ∀ v ∈ vs, P.Carries v) :
    (Plan.steady r.feeds).Follows P (settleAll record index ps vs) (settleAll record index ps vs)
      fun Q ss ss' => List.Forall₂ (SameOutput Q) ss ss' ∧ List.Forall₂ Settled ps ss := by
  induction ps generalizing P index vs with
  | nil =>
    obtain rfl := List.length_eq_zero_iff.mp hcount
    exact Coupling.follows_pure ⟨.nil, .nil⟩
  | cons p ps ih =>
    cases vs with
    | nil => cases hcount
    | cons v vs =>
      simp only [List.length_cons, Nat.add_right_cancel_iff] at hcount
      obtain ⟨hv, hvs⟩ := List.forall_mem_cons.mp hvs
      refine (settle_follows record index p hv).bind fun Q s s' hgrows hs => ?_
      refine (ih (index + 1) hcount fun v hv s hs => hgrows.has (hvs v hv s hs)).bind fun Q' ss ss' hgrows' hss => ?_
      exact Coupling.follows_pure
        ⟨.cons (sameOutput_lasting (r := r) hgrows' hs.1) hss.1, .cons hs.2 hss.2⟩

/-- The wiring of an invocation, and the symbols of its outputs. -/
structure Wired (record : Invocation) (P : Plan) (w : Wiring) (outs : List (Option Symbol)) : Prop where
  id : w.id = record.id
  scope : w.scope = record.scope
  method : w.method = record.method
  outputs : w.outputs = outs.map (·.map Symbol.value)
  settled : List.Forall₂ Settled record.outputs outs
  has : ∀ s, some s ∈ outs → P.Has s
  inputs : ∀ v, some v ∈ w.inputs → v < P.nodes.size

theorem Wired.grow {record : Invocation} {w : Wiring} {outs : List (Option Symbol)} (h : Wired record P w outs)
    (hgrows : P.Grows Q) : Wired record Q w outs :=
  { h with
    has := fun s hs => hgrows.has (h.has s hs)
    inputs := fun v hv => Nat.lt_of_lt_of_le (h.inputs v hv) hgrows.size }

/-- Which invocation is being resolved makes no difference. -/
theorem mark_follows {declared : Declared} (i : Nat) :
    (Plan.steady declared).Follows P (modify fun plan => { plan with current := i })
      (modify fun plan => { plan with current := i }) fun _ _ _ => True := by
  refine Plan.steady_follows fun hwf a Q hrun => ?_
  rw [Effect.runOn_modify] at hrun
  cases hrun
  exact ⟨⟨fun h => h, fun h => h⟩, hwf.of_eq rfl rfl, trivial⟩

theorem carries_of_has {ss : List (Option Symbol)} (h : ∀ s, some s ∈ ss → P.Has s) :
    ∀ v ∈ ss.map Value.ofSymbol?, P.Carries v := by
  intro v hv
  obtain ⟨o, ho, rfl⟩ := List.mem_map.mp hv
  cases o with
  | none => exact Plan.carries_absent
  | some s => exact Plan.carries_symbol (h s ho)

theorem resolveOne_follows (h : Serves l r dl dr P) (record : Invocation) :
    (Plan.steady r.feeds).Follows P (l.resolveOne dl record) (r.resolveOne dr record)
      fun Q a b => a = b ∧ Wired record Q a.1 a.2 := by
  unfold resolveOne
  refine (mark_follows record.id).bind fun P₁ _ _ h₁ _ => ?_
  refine (Coupling.follows_mapM sameOutput_lasting (List.forall₂_same.mpr fun _ _ => rfl)
    fun P₂ b b' h₂ hb => hb ▸ bind_follows (h.grow (h₁.trans h₂)) record.id b).bind fun P₂ ins ins' h₂ hins => ?_
  obtain ⟨rfl, hhas⟩ := sameOutputs_eq hins
  rw [h.tree.invoke]
  refine (Lockstep.invoke_follows (l := .steady r.feeds) (fun _ _ _ _ => trivial) record.component record.method
    (Plan.sameValues_iff.mpr ⟨rfl, carries_of_has hhas⟩)).bind fun P₃ o o' h₃ ho => ?_
  obtain ⟨names, vs⟩ := o
  obtain ⟨names', vs'⟩ := o'
  obtain ⟨rfl, hvs⟩ := ho
  obtain ⟨rfl, hcarries⟩ := Plan.sameValues_iff.mp hvs
  dsimp only
  split
  · exact Coupling.follows_throw
  · next hcount =>
    refine (settleAll_follows record 0 (not_not.mp hcount) hcarries).bind fun P₄ outs outs' h₄ houts => ?_
    obtain ⟨hsame, hsettled⟩ := houts
    obtain ⟨rfl, hhas'⟩ := sameOutputs_eq hsame
    refine Coupling.follows_pure ⟨rfl, rfl, rfl, rfl, rfl, hsettled, hhas', fun v hv => ?_⟩
    obtain ⟨o, ho, hov⟩ := List.mem_map.mp hv
    obtain ⟨s, rfl, rfl⟩ := Option.map_eq_some_iff.mp hov
    exact Plan.lt_of_spec (h₄.has (h₃.has (hhas s ho)))

/-! ## All invocations -/

/-- Each record has a wiring, in order. -/
def AllWired (records : List Invocation) (P : Plan) (ws : List Wiring) : Prop :=
  List.Forall₂ (fun record w => ∃ outs, Wired record P w outs) records ws

theorem AllWired.grow {records : List Invocation} {ws : List Wiring} (h : AllWired records P ws)
    (hgrows : P.Grows Q) : AllWired records Q ws :=
  h.imp fun _ _ ⟨outs, hw⟩ => ⟨outs, hw.grow hgrows⟩

theorem AllWired.ids {records : List Invocation} {ws : List Wiring} (h : AllWired records P ws) :
    ws.map Wiring.id = records.map Invocation.id :=
  (map_eq_of_forall₂ h fun _ _ ⟨_, hw⟩ => hw.id.symm).symm

/-- The records have numbers of their own, which nothing was resolved under so far. -/
def Fresh (r : Resolution) (done : Resolved) (records : List Invocation) : Prop :=
  (records.map Invocation.id).Nodup ∧ ∀ record ∈ records, ∀ P, r.outputs? done P record.id = none

theorem Fresh.head {record : Invocation} {rest : List Invocation} (h : Fresh r dr (record :: rest)) (P : Plan) :
    r.outputs? dr P record.id = none := h.2 record List.mem_cons_self P

theorem Fresh.tail {record : Invocation} {rest : List Invocation} (h : Fresh r dr (record :: rest))
    (outs : List (Option Symbol)) : Fresh r (dr ++ [(record.id, outs)]) rest := by
  obtain ⟨hnodup, hnone⟩ := h
  simp only [List.map_cons, List.nodup_cons] at hnodup
  refine ⟨hnodup.2, fun later hlater P => ?_⟩
  rw [outputs_snoc (hnone record List.mem_cons_self P), if_neg]
  · exact hnone later (List.mem_cons_of_mem _ hlater) P
  · intro heq
    exact hnodup.1 (heq ▸ List.mem_map_of_mem hlater)

theorem resolveAll_follows {records : List Invocation} (h : Serves l r dl dr P) (hfresh : Fresh r dr records) :
    (Plan.steady r.feeds).Follows P (l.resolveAll dl records) (r.resolveAll dr records)
      fun Q ws ws' => ws = ws' ∧ AllWired records Q ws := by
  induction records generalizing P dl dr with
  | nil => exact Coupling.follows_pure ⟨rfl, .nil⟩
  | cons record rest ih =>
    refine (resolveOne_follows h record).bind ?_
    intro P₁ ⟨w, outs⟩ _ h₁ hone
    obtain ⟨rfl, hw⟩ := hone
    refine (ih ((h.grow h₁).snoc (hfresh.head P₁) hw.has) (hfresh.tail outs)).bind ?_
    intro P₂ ws _ h₂ hall
    obtain ⟨rfl, hws⟩ := hall
    exact Coupling.follows_pure ⟨rfl, .cons ⟨outs, hw.grow h₂⟩ hws⟩

/-- The symbols of outputs, for each wiring in order. -/
def Listed (P : Plan) (ws : List Wiring) (done : Resolved) : Prop :=
  List.Forall₂ (fun w entry => entry.1 = w.id ∧ w.outputs = entry.2.map (·.map Symbol.value) ∧
    ∀ s, some s ∈ entry.2 → P.Has s) ws done

/-- Once some records are resolved, those behind them go on from there. -/
theorem resolveAll_append {xs : List Invocation} {ws : List Wiring} (h : Serves r r dr dr P) (hfresh : Fresh r dr xs)
    (hwf : P.WellFormed r.feeds) (hrun : (r.resolveAll dr xs).runOn P = (.ok ws, Q)) :
    ∃ dx, Listed Q ws dx ∧ ∀ ys,
      (r.resolveAll dr (xs ++ ys)).runOn P = ((ws ++ ·) <$> r.resolveAll (dr ++ dx) ys).runOn Q := by
  induction xs generalizing P dr ws with
  | nil =>
    cases hrun
    refine ⟨[], .nil, fun ys => ?_⟩
    simp
  | cons record rest ih =>
    obtain ⟨⟨w, outs⟩, P₁, hone, hrest⟩ := Effect.bind_ok.mp hrun
    obtain ⟨ws', hall, rfl⟩ := Effect.bind_pure_ok.mp hrest
    obtain ⟨_, -, h₁, hwf₁, rfl, hw⟩ := Plan.run_of_steady (resolveOne_follows h record) hwf hone
    have hnext := (h.grow h₁).snoc (hfresh.head P₁) hw.has
    obtain ⟨dx, hdx, happend⟩ := ih hnext (hfresh.tail outs) hwf₁ hall
    obtain ⟨_, -, h₂, -⟩ := Plan.run_of_steady (resolveAll_follows hnext (hfresh.tail outs)) hwf₁ hall
    refine ⟨(record.id, outs) :: dx, .cons ⟨hw.id.symm, hw.outputs, fun s hs => h₂.has (hw.has s hs)⟩ hdx,
      fun ys => ?_⟩
    have hys := happend ys
    simp only [List.cons_append, resolveAll, Effect.runOn_bind, hone, hys]
    simp only [Effect.runOn_map, List.append_assoc, List.singleton_append]
    rcases (r.resolveAll (dr ++ (record.id, outs) :: dx) ys).runOn Q with ⟨_ | _, _⟩ <;> rfl

theorem Listed.has {ws : List Wiring} {dx : Resolved} (h : Listed P ws dx) {i : Nat} {outs : List (Option Symbol)}
    (hi : dx.lookup i = some outs) : ∀ s, some s ∈ outs → P.Has s := by
  induction h with
  | nil => cases hi
  | @cons w entry _ _ hw _ ih =>
    obtain ⟨j, outs'⟩ := entry
    rw [List.lookup_cons] at hi
    split at hi
    · cases hi
      exact hw.2.2
    · exact ih hi

theorem Listed.lookup_none {ws : List Wiring} {dx : Resolved} (h : Listed P ws dx) {i : Nat}
    (hi : ∀ w ∈ ws, w.id ≠ i) : dx.lookup i = none := by
  induction h with
  | nil => rfl
  | @cons w entry _ _ hw _ ih =>
    obtain ⟨j, outs⟩ := entry
    obtain ⟨rfl, -⟩ := hw
    obtain ⟨hne, hrest⟩ := List.forall_mem_cons.mp hi
    have hne' : (i == w.id) = false := by simpa using Ne.symm hne
    simpa [List.lookup_cons, hne'] using ih hrest

/-- The wiring of an invocation lists the symbols that it was resolved to. -/
theorem outputs_of_wirings {ws : List Wiring} {dx : Resolved} (h : Listed P ws dx) (hgrows : P.Grows Q) (i : Nat) :
    ((ws.find? fun w => w.id == i).map fun w => w.outputs.map (·.bind Q.symbol?)) = dx.lookup i := by
  induction h with
  | nil => rfl
  | @cons w entry ws dx hw _ ih =>
    obtain ⟨j, outs⟩ := entry
    obtain ⟨rfl, hvalues, hhas⟩ := hw
    have houts : w.outputs.map (·.bind Q.symbol?) = outs := by
      rw [hvalues, List.map_map]
      conv_rhs => rw [← List.map_id outs]
      refine List.map_congr_left fun s hs => ?_
      cases s with
      | none => rfl
      | some s => exact (hgrows.has (hhas s hs)).symbol
    simp only [List.find?_cons, List.lookup_cons]
    by_cases hi : w.id = i
    · subst hi
      simp [houts]
    · have hne : (w.id == i) = false := by simpa using hi
      have hne' : (i == w.id) = false := by simpa using Ne.symm hi
      simpa [hne, hne'] using ih

theorem run_ok {records : List Invocation} {a : Artifact} {m : Nat} : r.run records = .ok (a, m) ↔
    ∃ ws P, (r.resolveAll [] records).runOn r.start = (.ok ws, P) ∧
      a = ⟨r.graph, P.nodes, P.feeds, (r.base.map Artifact.wirings).getD [] ++ ws, r.kernels⟩ ∧
      m = P.nodes.size - r.start.nodes.size := by
  unfold run
  rcases (r.resolveAll [] records).runOn r.start with ⟨_ | ws, P⟩
  · simp
  · simp [eq_comm]

/-- The plan up to the invocation that is being resolved, on which nothing depends. -/
theorem resolveAll_of_eq {records : List Invocation} {ws : List Wiring} {P' : Plan}
    (hrun : (r.resolveAll dr records).runOn P = (.ok ws, P')) (hnodes : P.nodes = Q.nodes)
    (hfeeds : P.feeds = Q.feeds) :
    ∃ Q', (r.resolveAll dr records).runOn Q = (.ok ws, Q') ∧ Q'.nodes = P'.nodes ∧ Q'.feeds = P'.feeds := by
  cases records with
  | nil =>
    cases hrun
    exact ⟨Q, rfl, hnodes.symm, hfeeds.symm⟩
  | cons record rest =>
    have hsame : (r.resolveAll dr (record :: rest)).runOn Q = (r.resolveAll dr (record :: rest)).runOn P := by
      obtain ⟨nodes, feeds, current⟩ := P
      obtain ⟨nodes', feeds', current'⟩ := Q
      obtain rfl : nodes = nodes' := hnodes
      obtain rfl : feeds = feeds' := hfeeds
      rfl
    exact ⟨P', hsame.trans hrun, rfl, rfl⟩

/-- Both resolve from nothing, and `r` has every input that `l` has. -/
structure Within (l r : Resolution) : Prop where
  left : l.base = none
  right : r.base = none
  graph : l.graph = r.graph
  kernels : l.kernels = r.kernels
  tree : l.tree.SameShape r.tree
  feeds : ∀ {name spec}, l.feeds.lookup name = some spec → r.feeds.lookup name = some spec

theorem Within.serves (h : Within l r) : Serves l r [] [] P :=
  ⟨h.tree, h.feeds, fun _ i outs hi => by simp [outputs?, h.left] at hi⟩

/-- What is found on an artifact has a node, whatever the artifact. -/
theorem serves_self (r : Resolution) (P : Plan) : Serves r r [] [] P := by
  refine ⟨.refl _, fun h => h, fun {Q} _ i outs h => ⟨h, fun s hs => ?_⟩⟩
  simp only [outputs?, List.lookup_nil, Option.none_or, Option.map_eq_some_iff] at h
  obtain ⟨w, -, rfl⟩ := h
  obtain ⟨v, -, hv⟩ := List.mem_map.mp hs
  obtain ⟨i, -, hi⟩ := Option.bind_eq_some_iff.mp hv
  obtain ⟨hhas, rfl⟩ := Plan.has_of_symbol hi
  exact hhas

/-- An artifact holds what the build that made it resolved. -/
theorem serves_artifact {ws : List Wiring} {dx : Resolved} (h : Listed P ws dx) (graph : Nat)
    (k : Kernels) : Serves { r with base := some ⟨graph, P.nodes, P.feeds, ws, k⟩ } r [] dx P := by
  refine ⟨Tree.SameShape.refl _, id, fun {Q} hQ i outs hi => ?_⟩
  have hlookup : dx.lookup i = some outs := by
    rw [← outputs_of_wirings h hQ i]
    simpa [outputs?, Artifact.wiring?] using hi
  exact ⟨by simp [outputs?, hlookup], fun s hs => hQ.has (h.has hlookup s hs)⟩

/-- Later records are fresh where earlier ones were resolved. -/
theorem fresh_of_nodup {ws : List Wiring} {dx : Resolved} {xs ys : List Invocation} (h : Listed P ws dx)
    (hws : AllWired xs P ws) (hr : r.base = none) (hids : ((xs ++ ys).map Invocation.id).Nodup) : Fresh r dx ys := by
  rw [List.map_append, List.nodup_append] at hids
  obtain ⟨-, hys, hdisjoint⟩ := hids
  refine ⟨hys, fun record hrecord Q => outputs_none.mpr ⟨h.lookup_none fun w hw => ?_, by simp [hr]⟩⟩
  exact hdisjoint w.id (hws.ids ▸ List.mem_map_of_mem hw) record.id (List.mem_map_of_mem hrecord)

/-- Resolving records on top of the artifact of earlier ones makes the artifact of them all. -/
theorem run_append {xs ys : List Invocation} {a b : Artifact} {m n : Nat} (h : Within l r)
    (hids : ((xs ++ ys).map Invocation.id).Nodup) (hx : l.run xs = .ok (a, m))
    (hy : { r with base := some a }.run ys = .ok (b, n)) : r.run (xs ++ ys) = .ok (b, m + n) := by
  obtain ⟨ws, P, hrun, rfl, rfl⟩ := run_ok.mp hx
  obtain ⟨ws', Q, hrun', rfl, rfl⟩ := run_ok.mp hy
  have hl := h.left
  have hr := h.right
  have hstart : l.start = {} := by simp [start, hl]
  have hstart' : r.start = {} := by simp [start, hr]
  rw [hstart] at hrun
  have hfreshx : Fresh r [] xs :=
    ⟨(List.nodup_append.mp (List.map_append ▸ hids)).1, fun _ _ _ => by simp [outputs?, hr]⟩
  obtain ⟨_, hruns, -, hwf, rfl, hwired⟩ := Plan.run_of_steady
    (resolveAll_follows h.serves hfreshx) Plan.wellFormed_empty hrun
  obtain ⟨dx, hdx, happend⟩ := resolveAll_append (serves_self r {}) hfreshx Plan.wellFormed_empty hruns
  have hfresh : Fresh r dx ys := fresh_of_nodup hdx hwired hr hids
  -- The artifact forgets which invocation was resolved last; nothing else is lost.
  have hextend : P.Grows (Artifact.extend ⟨l.graph, P.nodes, P.feeds, (l.base.map Artifact.wirings).getD [] ++ ws,
    l.kernels⟩) := ⟨fun hn => hn, fun hf => hf⟩
  have hserves := (serves_artifact hdx l.graph l.kernels (r := r)).grow hextend
  simp only [hl, Option.map_none, Option.getD_none, List.nil_append] at hrun' ⊢ hserves hextend
  obtain ⟨_, hruns', hgrows', -, rfl, -⟩ := Plan.run_of_steady (resolveAll_follows hserves hfresh)
    (hwf.of_eq rfl rfl) hrun'
  obtain ⟨Q', hall, hnodes, hfeeds'⟩ := resolveAll_of_eq (Q := P) hruns' rfl rfl
  refine run_ok.mpr ⟨ws ++ ws', Q', ?_, ?_, ?_⟩
  · rw [hstart', happend ys]
    exact Effect.map_ok.mpr ⟨ws', hall, rfl⟩
  · simp [hnodes, hfeeds', h.graph, h.kernels, hr]
  · have hsize : P.nodes.size ≤ Q.nodes.size := (hextend.trans hgrows').size
    rw [hstart, hstart', hnodes]
    change P.nodes.size - 0 + (Q.nodes.size - P.nodes.size) = Q.nodes.size - 0
    omega

/-- Nothing to resolve leaves an artifact as it was. -/
theorem run_nil {a : Artifact} (hgraph : a.graph = r.graph) (hkernels : a.kernels = r.kernels) :
    { r with base := some a }.run [] = .ok (a, 0) := by
  refine run_ok.mpr ⟨[], a.extend, rfl, ?_, ?_⟩
  · simp [Artifact.extend, ← hgraph, ← hkernels]
  · simp [start, Artifact.extend]

/-- What was resolved against less is resolved to the same against more. -/
theorem run_mono {xs : List Invocation} {a : Artifact} {m : Nat} (h : Within l r)
    (hids : (xs.map Invocation.id).Nodup) (hx : l.run xs = .ok (a, m)) : r.run xs = .ok (a, m) := by
  have hmade : a.graph = r.graph ∧ a.kernels = r.kernels := by
    obtain ⟨_, _, -, rfl, -⟩ := run_ok.mp hx
    exact ⟨h.graph, h.kernels⟩
  have happend := run_append h (by simpa using hids) hx (run_nil hmade.1 hmade.2)
  simpa using happend

/-- The artifact of a build: well formed, grown from what there was, with one more wiring for each
    record. -/
structure Made (r : Resolution) (records : List Invocation) (a : Artifact) : Prop where
  graph : a.graph = r.graph
  kernels : a.kernels = r.kernels
  wellFormed : a.extend.WellFormed r.feeds
  grows : r.start.Grows a.extend
  wirings : ∃ ws, a.wirings = (r.base.map Artifact.wirings).getD [] ++ ws ∧ AllWired records a.extend ws

theorem run_made {records : List Invocation} {a : Artifact} {m : Nat} (hwf : r.start.WellFormed r.feeds)
    (hfresh : Fresh r [] records) (h : r.run records = .ok (a, m)) : Made r records a := by
  obtain ⟨ws, P, hrun, rfl, rfl⟩ := run_ok.mp h
  obtain ⟨_, -, hgrows, hwf', -, hws⟩ :=
    Plan.run_of_steady (resolveAll_follows (serves_self r r.start) hfresh) hwf hrun
  have hextend : P.Grows (Artifact.extend ⟨r.graph, P.nodes, P.feeds, (r.base.map Artifact.wirings).getD [] ++ ws,
    r.kernels⟩) := ⟨fun hn => hn, fun hf => hf⟩
  exact ⟨rfl, rfl, hwf'.of_eq rfl rfl, hgrows.trans hextend, ws, rfl, hws.grow hextend⟩

end Resolution

end ComponentFlow
