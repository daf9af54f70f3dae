/-
  ComponentFlow.Proofs.Replay — resolving records whose calls can be run at once. A log lists what
  each record's method gives when it runs at once on what its bindings stand for; where there is a
  log there is an artifact, and every output has a node with the logged value (`Resolution.run_staged`).
-/
import ComponentFlow.Proofs.Resolve
import ComponentFlow.Proofs.Staging

namespace ComponentFlow

/-- The outputs of each invocation so far, by number. -/
abbrev Log := List (List Value)

section

variable {declared : Declared} {k : Kernels} {feeds : Feeds} {log log' : Log}

/-- What a binding stands for once the inputs are fed. -/
inductive Binding.Means (declared : Declared) (feeds : Feeds) (log : Log) : Binding → Value → Prop
  | literal (t : Tensor) : Means declared feeds log (.literal t) (.tensor t)
  | feed {name spec t} : declared.lookup name = some spec → feeds.read name spec = .ok t →
      Means declared feeds log (.feed name) (.tensor t)
  | output {i j : Nat} {vs v} : log[i]? = some vs → vs[j]? = some v → Means declared feeds log (.output i j) v
  | absent : Means declared feeds log .absent .absent

theorem Binding.Means.unique {b : Binding} {v v' : Value} (h : b.Means declared feeds log v)
    (h' : b.Means declared feeds log v') : v = v' := by
  cases h with
  | literal t =>
    cases h'
    rfl
  | feed hspec hread =>
    cases h' with
    | feed hspec' hread' =>
      obtain rfl := Option.some.inj (hspec.symm.trans hspec')
      rw [Except.ok.inj (hread.symm.trans hread')]
  | output hi hj =>
    cases h' with
    | output hi' hj' =>
      obtain rfl := Option.some.inj (hi.symm.trans hi')
      exact Option.some.inj (hj.symm.trans hj')
  | absent =>
    cases h'
    rfl

theorem Binding.Means.grow {b : Binding} {v : Value} (h : b.Means declared feeds log v) (hgrows : log <+: log') :
    b.Means declared feeds log' v := by
  cases h with
  | literal t => exact .literal t
  | feed hspec hread => exact .feed hspec hread
  | output hi hj => exact .output (getElem?_of_isPrefix hgrows hi) hj
  | absent => exact .absent

/-- A record, and what its method gives at once. -/
structure Invocation.Gives (graph : Nat) (t : Tree) (k : Kernels) (declared : Declared) (feeds : Feeds) (log : Log)
    (r : Invocation) (vs : List Value) : Prop where
  id : r.id = log.length
  call : ∃ ins o, List.Forall₂ (Binding.Means declared feeds log) r.inputs ins ∧
    t.Gives k r.component r.method ins o ∧ o.values = vs
  outputs : ∃ specs, r.outputs = Recorder.allocate graph r.id specs ∧
    List.Forall₂ (fun s v => Meets s v.spec?) specs vs

/-- Records, and what they give one after the other. -/
inductive Logged (graph : Nat) (t : Tree) (k : Kernels) (declared : Declared) (feeds : Feeds) :
    Log → List Invocation → Log → Prop
  | nil {log : Log} : Logged graph t k declared feeds log [] []
  | cons {log : Log} {r : Invocation} {vs : List Value} {rs : List Invocation} {vss : Log} :
      r.Gives graph t k declared feeds log vs → Logged graph t k declared feeds (log ++ [vs]) rs vss →
      Logged graph t k declared feeds log (r :: rs) (vs :: vss)

variable {graph : Nat} {t : Tree} {rs : List Invocation} {vss : Log}

theorem Logged.snoc (h : Logged graph t k declared feeds log rs vss) {r : Invocation} {vs : List Value}
    (hr : r.Gives graph t k declared feeds (log ++ vss) vs) :
    Logged graph t k declared feeds log (rs ++ [r]) (vss ++ [vs]) := by
  induction h with
  | nil => exact .cons (by simpa using hr) .nil
  | cons hhead _ ih => exact .cons hhead (ih (by simpa using hr))

/-- Every record gives what is logged for it. -/
theorem Logged.gives (h : Logged graph t k declared feeds log rs vss) {r : Invocation} (hr : r ∈ rs) :
    ∃ before vs, before <+: log ++ vss ∧ (log ++ vss)[r.id]? = some vs ∧
      r.Gives graph t k declared feeds before vs := by
  induction h with
  | nil => cases hr
  | @cons log head vs rs vss hhead _ ih =>
    rcases List.mem_cons.mp hr with rfl | hr
    · refine ⟨log, vs, List.prefix_append _ _, ?_, hhead⟩
      rw [hhead.id]
      simp
    · obtain ⟨before, vs', hbefore, hlogged, hgives⟩ := ih hr
      rw [List.append_assoc, List.singleton_append] at hbefore hlogged
      exact ⟨before, vs', hbefore, hlogged, hgives⟩

/-! ## Resolving one record -/

namespace Resolution

variable {r : Resolution} {done : Resolved} {w w' : Valuation}

/-- What was resolved has the logged values. -/
structure Holds (done : Resolved) (w : Valuation) (log : Log) : Prop where
  found : ∀ (i : Nat) vs, log[i]? = some vs →
    ∃ outs, done.lookup i = some outs ∧ List.Forall₂ (fun v s => w.Stages v (.ofSymbol? s)) vs outs
  fresh : ∀ i, log.length ≤ i → done.lookup i = none

theorem Holds.grow (h : Holds done w log) (hgrows : w.Grows w') : Holds done w' log := by
  refine ⟨fun i vs hi => ?_, h.fresh⟩
  obtain ⟨outs, hlookup, houts⟩ := h.found i vs hi
  exact ⟨outs, hlookup, houts.imp fun _ _ hv => hv.grow hgrows⟩

theorem Holds.snoc (h : Holds done w log) {vs : List Value} {outs : List (Option Symbol)}
    (houts : List.Forall₂ (fun v s => w.Stages v (.ofSymbol? s)) vs outs) :
    Holds (done ++ [(log.length, outs)]) w (log ++ [vs]) := by
  refine ⟨fun i vs' hi => ?_, fun i hi => ?_⟩
  · rw [List.getElem?_append] at hi
    split at hi
    · obtain ⟨outs', hlookup, houts'⟩ := h.found i vs' hi
      exact ⟨outs', lookup_append_of_some hlookup, houts'⟩
    · next hlt =>
      obtain ⟨hi, rfl⟩ : i - log.length = 0 ∧ vs = vs' := by
        rw [List.getElem?_singleton] at hi
        split at hi
        · next hzero => exact ⟨hzero, Option.some.inj hi⟩
        · cases hi
      obtain rfl : i = log.length := by omega
      exact ⟨outs, lookup_snoc (h.fresh _ (Nat.le_refl _)), houts⟩
  · simp only [List.length_append, List.length_singleton] at hi
    have hne : i ≠ log.length := by omega
    exact (lookup_snoc_of_ne hne).trans (h.fresh i (by omega))

theorem bind_staged (h : Holds done w log) (current : Nat) {b : Binding} {v : Value}
    (hb : b.Means r.feeds feeds log v) : (Coupling.staged r.feeds k feeds).Follows w (pure v) (r.bind done current b)
      fun w' v s => w'.Stages v (.ofSymbol? s) := by
  cases hb with
  | literal t =>
    exact (Plan.constant_staged t).ahead fun w' s _ hs => Coupling.follows_pure (.symbol hs)
  | feed hspec hread =>
    simp only [bind, hspec]
    exact (Plan.feed_staged hspec hread).ahead fun w' s _ hs => Coupling.follows_pure (.symbol hs)
  | @output i j vs v hi hj =>
    obtain ⟨outs, hlookup, houts⟩ := h.found i vs hi
    obtain ⟨s, hs, hstages⟩ := forall₂_getElem? houts hj
    have hbind : r.bind done current (.output i j) = pure s := by
      simp [bind, output, hlookup, hs]
    rw [hbind]
    exact Coupling.follows_pure hstages
  | absent => exact Coupling.follows_pure .absent

theorem settle_staged (record : Invocation) (index : Nat) {p : Option Placeholder} {v v' : Value}
    (hp : Meets (p.map Placeholder.spec) v.spec?) (h : w.Stages v v') :
    (Coupling.staged declared k feeds).Follows w (pure v) (settle record index p v')
      fun w' v s => w'.Stages v (.ofSymbol? s) := by
  rcases p with _ | p
  · cases h with
    | tensor | symbol => cases hp
    | absent => exact Coupling.follows_pure .absent
  · cases h with
    | absent => cases hp
    | tensor t =>
      cases hp with
      | present hspec =>
        simp only [settle, TensorSpec.compatible_spec_iff.mp hspec, if_true]
        exact (Plan.constant_staged t).ahead fun w' s _ hs => Coupling.follows_pure (.symbol hs)
    | symbol hs =>
      cases hp with
      | present hspec =>
        have hadmits := TensorSpec.admits_iff_covers.mp (TensorSpec.compatible_spec_iff.mp hspec)
        simp only [settle, TensorSpec.compatible_of_covers hadmits (TensorSpec.admits_iff_covers.mp hs.admits), if_true]
        exact Coupling.follows_pure (.symbol hs)

theorem settleAll_staged (record : Invocation) (index : Nat) {ps : List (Option Placeholder)} {vs vs' : List Value}
    (hps : List.Forall₂ (fun p v => Meets (p.map Placeholder.spec) (Value.spec? v)) ps vs)
    (h : List.Forall₂ w.Stages vs vs') :
    (Coupling.staged declared k feeds).Follows w (pure vs) (settleAll record index ps vs')
      fun w' vs ss => List.Forall₂ (fun v s => w'.Stages v (.ofSymbol? s)) vs ss := by
  induction hps generalizing w vs' index with
  | nil =>
    cases h
    exact Coupling.follows_pure .nil
  | cons hp _ ih =>
    cases h with
    | cons hv hvs =>
      refine (settle_staged record index hp hv).ahead fun w₁ s h₁ hs => ?_
      refine (ih (index + 1) (hvs.imp fun _ _ hv => hv.grow h₁)).ahead fun w₂ ss h₂ hss => ?_
      exact Coupling.follows_pure (.cons (hs.grow h₂) hss)

/-- The placeholders that were handed out are met by what the specs behind them are met by. -/
theorem met_of_allocated {graph i : Nat} {specs : List (Option TensorSpec)} {vs : List Value}
    (h : List.Forall₂ (fun s v => Meets s (Value.spec? v)) specs vs) :
    List.Forall₂ (fun p v => Meets (p.map Placeholder.spec) (Value.spec? v)) (Recorder.allocate graph i specs) vs := by
  have hspecs : (Recorder.allocate graph i specs).map (·.map Placeholder.spec) = specs := by
    refine List.ext_getElem? fun j => ?_
    simp only [Recorder.allocate, List.getElem?_map, List.getElem?_mapIdx, Option.map_map]
    rcases specs[j]? with _ | s
    · rfl
    · cases s <;> rfl
  rw [← hspecs] at h
  exact List.forall₂_map_left_iff.mp h

theorem resolveOne_staged (ht : t.plain = true) (htree : r.tree.SameShape t) (h : Holds done w log)
    {record : Invocation} {vs : List Value} (hrecord : record.Gives graph t k r.feeds feeds log vs) :
    (Coupling.staged r.feeds k feeds).Follows w (pure vs) (r.resolveOne done record) fun w' vs x =>
      x.1.id = record.id ∧ x.1.outputs = x.2.map (·.map Symbol.value) ∧
        List.Forall₂ (fun v s => w'.Stages v (.ofSymbol? s)) vs x.2 := by
  obtain ⟨-, ⟨ins, o, hins, hgives, rfl⟩, ⟨specs, hspecs, hmeets⟩⟩ := hrecord
  have hmark : (Coupling.staged r.feeds k feeds).Follows w (pure ())
      (modify fun plan => { plan with current := record.id }) fun _ _ _ => True := by
    intro tally P hholds _ tally' hrun
    obtain ⟨rfl, hsound⟩ := hholds
    cases hrun
    exact ⟨⟨{ w.plan with current := record.id }, w.values⟩, (), _, ⟨⟨fun h => h, fun h => h⟩, List.prefix_refl _⟩, rfl,
      ⟨rfl, hsound.wellFormed.of_eq rfl rfl, hsound.size, hsound.node⟩, trivial⟩
  unfold resolveOne
  refine hmark.ahead fun w₁ _ h₁ _ => ?_
  refine (Coupling.follows_each (fun _ _ _ _ hgrows hv => hv.grow hgrows) hins.flip
    fun w₂ v b h₂ hb => bind_staged (h.grow (h₁.trans h₂)) record.id hb).ahead fun w₂ ss h₂ hss => ?_
  rw [htree.invoke]
  refine (Tree.invoke_staged ht hgives (List.forall₂_map_right_iff.mpr hss)).ahead fun w₃ o' h₃ ho => ?_
  have hcount : ¬ o'.values.length ≠ record.outputs.length := by
    rw [not_not, ← ho.length_eq, ← hmeets.length_eq, hspecs]
    simp [Recorder.allocate]
  rw [if_neg hcount]
  refine (settleAll_staged record 0 (hspecs ▸ met_of_allocated hmeets) ho).ahead fun w₄ outs h₄ houts => ?_
  exact Coupling.follows_pure ⟨rfl, rfl, houts⟩

/-! ## Resolving a log -/

/-- The node behind an output has this value. -/
inductive Delivers (values : List Tensor) : Value → Option Nat → Prop
  | tensor {i : Nat} {t : Tensor} : values[i]? = some t → Delivers values (.tensor t) (some i)
  | absent : Delivers values .absent none

theorem Delivers.grow {v : Value} {i : Option Nat} (h : Delivers w.values v i) (hgrows : w.Grows w') :
    Delivers w'.values v i := by
  cases h with
  | tensor hi => exact .tensor (hgrows.value hi)
  | absent => exact .absent

theorem delivers_of_stages {v : Value} {s : Option Symbol} (h : w.Stages v (.ofSymbol? s)) :
    Delivers w.values v (s.map Symbol.value) := by
  cases s with
  | none =>
    cases h
    exact .absent
  | some s =>
    cases h with
    | symbol hs => exact .tensor hs.value

/-- The wiring of every number delivers what is logged under it. -/
def AllDeliver (values : List Tensor) (start : Nat) (vss : Log) (ws : List Wiring) : Prop :=
  ∀ (i : Nat) vs, vss[i]? = some vs →
    ∃ x, (ws.find? fun x => x.id == start + i) = some x ∧ List.Forall₂ (Delivers values) vs x.outputs

theorem AllDeliver.cons {values : List Tensor} {start : Nat} {vs : List Value} {vss : Log} {x : Wiring}
    {ws : List Wiring} (hid : x.id = start) (hx : List.Forall₂ (Delivers values) vs x.outputs)
    (h : AllDeliver values (start + 1) vss ws) : AllDeliver values start (vs :: vss) (x :: ws) := by
  intro i vs' hi
  cases i with
  | zero =>
    cases hi
    exact ⟨x, by simp [hid], hx⟩
  | succ i =>
    obtain ⟨y, hy, houts⟩ := h i vs' hi
    have hne : (x.id == start + (i + 1)) = false := by
      rw [hid, beq_eq_false_iff_ne]
      omega
    refine ⟨y, ?_, houts⟩
    rw [List.find?_cons, hne, ← hy, Nat.add_right_comm, Nat.add_assoc]

theorem resolveAll_staged (ht : t.plain = true) (htree : r.tree.SameShape t) (h : Holds done w log)
    (hlogged : Logged graph t k r.feeds feeds log rs vss) :
    (Coupling.staged r.feeds k feeds).Follows w (pure vss) (r.resolveAll done rs) fun w' vss ws =>
      AllDeliver w'.values log.length vss ws := by
  induction hlogged generalizing w done with
  | nil => exact Coupling.follows_pure fun i vs hi => by cases hi
  | @cons log record vs rs vss hrecord _ ih =>
    refine (resolveOne_staged ht htree h hrecord).ahead ?_
    intro w₁ ⟨x, outs⟩ h₁ hone
    obtain ⟨hid, houtputs, houts⟩ := hone
    rw [hrecord.id] at hid ⊢
    refine (ih ((h.grow h₁).snoc houts)).ahead fun w₂ ws h₂ hws => Coupling.follows_pure ?_
    rw [List.length_append, List.length_singleton] at hws
    refine AllDeliver.cons hid ?_ hws
    rw [houtputs]
    exact List.forall₂_map_right_iff.mpr (houts.imp fun _ _ hv => (delivers_of_stages hv).grow h₂)

/-- Records that are logged can be resolved, to nodes with the logged values. -/
theorem run_staged (ht : t.plain = true) (htree : r.tree.SameShape t) (hbase : r.base = none)
    (hlogged : Logged graph t k r.feeds feeds [] rs vss) :
    ∃ a m values, r.run rs = .ok (a, m) ∧ a.graph = r.graph ∧ a.kernels = r.kernels ∧
      Valuation.Sound r.feeds k feeds ⟨a.extend, values⟩ ∧ AllDeliver values 0 vss a.wirings := by
  have hstart : r.start = {} := by simp [start, hbase]
  have hempty : Holds [] ⟨{}, []⟩ [] := ⟨fun i vs hi => by simp at hi, fun _ _ => rfl⟩
  have hsound : Valuation.Sound r.feeds k feeds ⟨{}, []⟩ := ⟨Plan.wellFormed_empty, rfl, fun i n hn => by simp at hn⟩
  obtain ⟨w, ws, _, -, hrun, ⟨rfl, hsound'⟩, hdeliver⟩ :=
    resolveAll_staged ht htree hempty hlogged [] {} ⟨rfl, hsound⟩ vss [] rfl
  refine ⟨_, _, w.values, run_ok.mpr ⟨ws, w.plan, hstart ▸ hrun, rfl, rfl⟩, rfl, rfl, ?_, ?_⟩
  · exact ⟨hsound'.wellFormed.of_eq rfl rfl, hsound'.size, hsound'.node⟩
  · simpa [hbase] using hdeliver

end Resolution

end

end ComponentFlow
