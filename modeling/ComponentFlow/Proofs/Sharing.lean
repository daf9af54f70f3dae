/-
  ComponentFlow.Proofs.Sharing — which calls share a record. A call of a memoized method is looked up
  among the records that calls have made since the last build; where one of them has the same
  component, the same method and the same inputs, the call returns its placeholders, and otherwise
  one record is appended (`Session.shares_since_build`).

  Two identical calls are told apart in two cases. A literal that holds a NaN is not identical to
  itself. And a build that fails puts the records back without those that may be shared, so that they
  are pending but found no more (`Session.restored_not_shared`).
-/
import ComponentFlow.Proofs.Immediate
import ComponentFlow.Proofs.Ledger
import Mathlib.Data.List.Nodup

namespace ComponentFlow

/-! ## Identical bindings -/

/-- A binding that is no literal with a NaN. -/
def Binding.numeric : Binding → Bool
  | .literal t => t.data.toList.all fun x => !x.isNaN
  | _ => true

theorem Tensor.identical_self (t : Tensor) : t.identical t = t.data.toList.all fun x => !x.isNaN := by
  unfold Tensor.identical
  rw [beq_self_eq_true, beq_self_eq_true, Bool.true_and, Bool.true_and]
  induction t.data.toList with
  | nil => rfl
  | cons x xs ih =>
    rw [List.zip_cons_cons, List.all_cons, List.all_cons, ih]
    simp [Scalar.identical]

theorem Binding.identical_iff {a b : Binding} : a.identical b = true ↔ a = b ∧ a.numeric = true := by
  constructor
  · intro h
    obtain rfl := Binding.eq_of_identical h
    cases a with
    | literal t => exact ⟨rfl, (Tensor.identical_self t).symm.trans h⟩
    | feed | output | absent => exact ⟨rfl, rfl⟩
  · rintro ⟨rfl, h⟩
    cases a with
    | literal t => exact (Tensor.identical_self t).trans h
    | feed | output | absent => simp [Binding.identical]

theorem Binding.allIdentical_iff {as bs : List Binding} :
    Binding.allIdentical as bs = true ↔ as = bs ∧ as.all Binding.numeric = true := by
  induction as generalizing bs with
  | nil => cases bs <;> simp [Binding.allIdentical]
  | cons a as ih =>
    cases bs with
    | nil => simp [Binding.allIdentical]
    | cons b bs =>
      simp only [Binding.allIdentical, Bool.and_eq_true, Binding.identical_iff, ih, List.cons.injEq, List.all_cons]
      tauto

namespace Invocation

variable {r r' : Invocation} {component : NodeId} {method : String} {inputs : List Binding}

theorem repeats_iff : r.repeats component method inputs = true ↔
    (r.component = component ∧ r.method = method ∧ r.inputs = inputs) ∧ inputs.all Binding.numeric = true := by
  simp only [repeats, Bool.and_eq_true, beq_iff_eq, Binding.allIdentical_iff]
  constructor
  · rintro ⟨⟨hcomponent, hmethod⟩, rfl, hnumeric⟩
    exact ⟨⟨hcomponent, hmethod, rfl⟩, hnumeric⟩
  · rintro ⟨⟨hcomponent, hmethod, rfl⟩, hnumeric⟩
    exact ⟨⟨hcomponent, hmethod⟩, rfl, hnumeric⟩

/-- Repeating is symmetric. -/
theorem repeats_symm (h : r.repeats r'.component r'.method r'.inputs = true) :
    r'.repeats r.component r.method r.inputs = true := by
  obtain ⟨⟨hcomponent, hmethod, hinputs⟩, hnumeric⟩ := repeats_iff.mp h
  exact repeats_iff.mpr ⟨⟨hcomponent.symm, hmethod.symm, hinputs.symm⟩, hinputs ▸ hnumeric⟩

end Invocation

/-! ## The records that may be shared -/

/-- A pending record is found by its number. -/
theorem Invocation.find_pending {pending : List Invocation} (hnodup : (pending.map Invocation.id).Nodup) {r : Invocation}
    (hr : r ∈ pending) : (pending.find? fun earlier => earlier.id == r.id) = some r := by
  have hfound : (pending.find? fun earlier => earlier.id == r.id).isSome = true :=
    List.find?_isSome.mpr ⟨r, hr, by simp⟩
  obtain ⟨r', hr'⟩ := Option.isSome_iff_exists.mp hfound
  have hid : r'.id = r.id := by simpa using List.find?_some hr'
  rw [hr', List.inj_on_of_nodup_map hnodup (List.mem_of_find?_eq_some hr') hr hid]

/-- A call shares the first of the records that it repeats. -/
theorem Recorder.sharedOutputs_eq {recorder : Recorder} (hnodup : (recorder.pending.map Invocation.id).Nodup)
    {rs : List Invocation} (hshared : recorder.shared = rs.map Invocation.id) (hrs : ∀ r ∈ rs, r ∈ recorder.pending)
    (component : NodeId) (method : String) (inputs : List Binding) :
    recorder.sharedOutputs? component method inputs =
      (rs.find? fun r => r.repeats component method inputs).map Invocation.outputs := by
  rw [sharedOutputs?, hshared]
  clear hshared
  induction rs with
  | nil => rfl
  | cons r rs ih =>
    obtain ⟨hr, hrest⟩ := List.forall_mem_cons.mp hrs
    rw [List.map_cons, List.findSome?_cons, Invocation.find_pending hnodup hr, List.find?_cons, ih hrest]
    cases hrepeats : r.repeats component method inputs <;> simp [hrepeats]

namespace Session

variable {s : Session} {made : List Invocation} {g : Graph}

/-- Whether a record is of a method whose calls are shared. -/
def shareable (t : Tree) (r : Invocation) : Bool :=
  match t.method r.component r.method with
  | .ok m => m.memoized
  | .error _ => false

def isBuild : Request → Bool
  | .build => true
  | _ => false

/-- These are the records that calls have made since the last build. -/
structure Shares (made : List Invocation) (g : Graph) : Prop where
  pending : ∀ r ∈ made, r ∈ g.recorder.pending
  shared : g.recorder.shared = (made.filter (shareable g.tree)).map Invocation.id
  distinct : ∀ r ∈ made, ∀ r' ∈ made, shareable g.tree r = true →
    r.repeats r'.component r'.method r'.inputs = true → r = r'

theorem Shares.sharedOutputs (hnodup : (g.recorder.pending.map Invocation.id).Nodup) (h : Shares made g)
    (component : NodeId) (method : String) (inputs : List Binding) :
    g.recorder.sharedOutputs? component method inputs =
      ((made.filter (shareable g.tree)).find? fun r => r.repeats component method inputs).map Invocation.outputs :=
  Recorder.sharedOutputs_eq hnodup h.shared (fun r hr => h.pending r (List.mem_filter.mp hr).1) component method inputs

theorem shareable_congr {t : Tree} {r r' : Invocation} (h : r.repeats r'.component r'.method r'.inputs = true) :
    shareable t r = shareable t r' := by
  obtain ⟨⟨hcomponent, hmethod, -⟩, -⟩ := Invocation.repeats_iff.mp h
  simp only [shareable, hcomponent, hmethod]

/-- A call shares the record that it repeats; there is only one. -/
theorem Shares.shared_of_repeats (hnodup : (g.recorder.pending.map Invocation.id).Nodup) (h : Shares made g)
    {r : Invocation} (hr : r ∈ made) (hshareable : shareable g.tree r = true) {component : NodeId} {method : String}
    {inputs : List Binding} (hrepeats : r.repeats component method inputs = true) :
    g.recorder.sharedOutputs? component method inputs = some r.outputs := by
  obtain ⟨⟨rfl, rfl, rfl⟩, -⟩ := Invocation.repeats_iff.mp hrepeats
  have hfound : ((made.filter (shareable g.tree)).find? fun earlier =>
      earlier.repeats r.component r.method r.inputs).isSome = true :=
    List.find?_isSome.mpr ⟨r, List.mem_filter.mpr ⟨hr, hshareable⟩, hrepeats⟩
  obtain ⟨first, hfirst⟩ := Option.isSome_iff_exists.mp hfound
  obtain ⟨hmem, hshared⟩ := List.mem_filter.mp (List.mem_of_find?_eq_some hfirst)
  have hsame : first.repeats r.component r.method r.inputs = true := by simpa using List.find?_some hfirst
  obtain rfl : first = r := h.distinct first hmem r hr hshared hsame
  rw [h.sharedOutputs hnodup, hfirst, Option.map_some]

theorem Shares.shared_none (hnodup : (g.recorder.pending.map Invocation.id).Nodup) (h : Shares made g)
    {component : NodeId} {method : String} {inputs : List Binding}
    (hnew : ∀ r ∈ made, r.repeats component method inputs = false) :
    g.recorder.sharedOutputs? component method inputs = none := by
  rw [h.sharedOutputs hnodup, Option.map_eq_none_iff, List.find?_eq_none]
  intro r hr hrepeats
  rw [hnew r (List.mem_filter.mp hr).1] at hrepeats
  cases hrepeats

/-! ## One request -/

/-- The record of a call may be shared if its method is memoized. -/
theorem shareable_call {id : NodeId} {name : String} {supplied : List Value} {p : Graph.Prepared}
    (hp : g.prepareCall id name supplied = .ok p) :
    p.method.name = name ∧ shareable g.tree (g.invocation id p.method.name p) = p.method.memoized := by
  obtain ⟨m, ins, hrecordable⟩ := Graph.prepareCall_ok hp
  have hname : p.method.name = name := hrecordable.method ▸ Tree.name_of_method hrecordable.declared
  refine ⟨hname, ?_⟩
  have hdeclared : g.tree.method id p.method.name = .ok m := hname.symm ▸ hrecordable.declared
  simp only [shareable, Graph.invocation, hdeclared]
  rw [hrecordable.method]

/-- The record of a call repeats none that may be shared. -/
theorem Shares.fresh (hnodup : (g.recorder.pending.map Invocation.id).Nodup) (h : Shares made g) {id : NodeId}
    {p : Graph.Prepared} (hnone : g.shared? id p = none) (hmemo : p.method.memoized = true) {r : Invocation}
    (hr : r ∈ made) (hshareable : shareable g.tree r = true) :
    r.repeats id p.method.name p.inputs = false := by
  rw [Graph.shared?, if_pos hmemo, h.sharedOutputs hnodup, Option.map_eq_none_iff, List.find?_eq_none] at hnone
  simpa using hnone r (List.mem_filter.mpr ⟨hr, hshareable⟩)

theorem Shares.call (hnodup : (g.recorder.pending.map Invocation.id).Nodup) (h : Shares made g) {id : NodeId}
    {name : String} {supplied : List Value} {p : Graph.Prepared} (hp : g.prepareCall id name supplied = .ok p)
    (hnone : g.shared? id p = none) :
    Shares (made ++ [g.invocation id p.method.name p])
      { g with recorder := g.recorder.append (g.invocation id p.method.name p) p.method.memoized } := by
  obtain ⟨-, hmemo⟩ := shareable_call hp
  generalize hnew : g.invocation id p.method.name p = new at hmemo
  have hfresh : ∀ r ∈ made, shareable g.tree r = true →
      r.repeats new.component new.method new.inputs = false := by
    intro r hr hshareable
    rcases hrepeats : r.repeats new.component new.method new.inputs with _ | _
    · rfl
    · have hmemoized : p.method.memoized = true := by rw [← hmemo, ← shareable_congr hrepeats, hshareable]
      subst hnew
      rw [← hrepeats]
      exact h.fresh hnodup hnone hmemoized hr hshareable
  refine ⟨fun r hr => ?_, ?_, fun r hr r' hr' hshareable hrepeats => ?_⟩
  · exact (List.mem_append.mp hr).elim (fun hold => List.mem_append_left _ (h.pending r hold))
      (fun hsame => List.mem_append_right _ hsame)
  · show (if p.method.memoized then g.recorder.shared ++ [new.id] else g.recorder.shared) =
      ((made ++ [new]).filter (shareable g.tree)).map Invocation.id
    rw [← hmemo, List.filter_append, List.map_append, ← h.shared]
    cases hshareable : shareable g.tree new <;> simp [hshareable]
  · change shareable g.tree r = true at hshareable
    rcases List.mem_append.mp hr with hold | hsame <;> rcases List.mem_append.mp hr' with hold' | hsame'
    · exact h.distinct r hold r' hold' hshareable hrepeats
    · rw [List.mem_singleton.mp hsame', hfresh r hold hshareable] at hrepeats
      cases hrepeats
    · have hback := Invocation.repeats_symm hrepeats
      rw [shareable_congr hrepeats] at hshareable
      rw [List.mem_singleton.mp hsame, hfresh r' hold' hshareable] at hback
      cases hback
    · rw [List.mem_singleton.mp hsame, List.mem_singleton.mp hsame']

theorem isCall_of_call {x : Recording} {c : NodeId × String × List Value} {t : Tree} (h : x.call? t = some c) :
    isCall (.record x) = true := by
  cases x with
  | input | raw => cases h
  | call | callAt => rfl

theorem Shares.step (hvalid : s.Valid) (h : Shares made s.graph) {request : Request} (hbuild : isBuild request = false) :
    Shares (made ++ if isCall request then s.appended request else []) (s.step request).graph := by
  have hnodup : (s.graph.recorder.pending.map Invocation.id).Nodup := (List.nodup_append.mp hvalid.nodup).2.1
  have hsteps := steps hvalid.mode request
  generalize s.appended request = new, (s.step request).graph = g at hsteps
  cases hsteps with
  | feeds | execute =>
    rw [ite_self, List.append_nil]
    exact ⟨h.pending, h.shared, h.distinct⟩
  | build => cases hbuild
  | record hmakes =>
    cases hmakes with
    | call hcall hp hnone =>
      rw [if_pos (isCall_of_call hcall)]
      exact h.call hnodup hp hnone
    | raw hraw _ =>
      subst hraw
      rw [if_neg (by simp [isCall]), List.append_nil]
      exact ⟨fun r hr => List.mem_append_left _ (h.pending r hr), h.shared, h.distinct⟩

/-- Requests other than builds change neither the tree nor what calls have shared. -/
theorem Shares.after {requests : List Request} (hvalid : s.Valid) (h : Shares made s.graph)
    (hbuilds : requests.any isBuild = false) :
    Shares (made ++ s.calls requests) (s.after requests).graph := by
  induction requests generalizing s made with
  | nil => exact (List.append_nil made).symm ▸ h
  | cons request rest ih =>
    simp only [List.any_cons, Bool.or_eq_false_iff] at hbuilds
    have hrest := ih (valid_after hvalid [request]) (h.step hvalid hbuilds.1) hbuilds.2
    rwa [List.append_assoc] at hrest

/-! ## The last build -/

/-- What is shared is pending. -/
def Backed (g : Graph) : Prop := ∀ i ∈ g.recorder.shared, i ∈ g.recorder.pending.map Invocation.id

theorem Backed.step (hvalid : s.Valid) (h : Backed s.graph) (request : Request) : Backed (s.step request).graph := by
  have hsteps := steps hvalid.mode request
  generalize s.appended request = new, (s.step request).graph = g at hsteps
  cases hsteps with
  | feeds | execute => exact h
  | @record x r share _ =>
    intro i hi
    show i ∈ (s.graph.recorder.pending ++ [r]).map Invocation.id
    rw [List.map_append, List.mem_append]
    have hcases : i ∈ s.graph.recorder.shared ∨ i = r.id := by
      cases share with
      | false => exact .inl hi
      | true => simpa [Recorder.append] using hi
    exact hcases.imp (h i) fun hnew => by simp [hnew]
  | build _ hbuilds =>
    cases hbuilds with
    | refused | idle => exact h
    | resolved | unresolved | aborted => intro i hi; cases hi

theorem backed_after (hvalid : s.Valid) (h : Backed s.graph) (requests : List Request) :
    Backed (s.after requests).graph := by
  induction requests generalizing s with
  | nil => exact h
  | cons request rest ih => exact ih (valid_after hvalid [request]) (h.step hvalid request)

/-- A build leaves nothing that may be shared, unless it is refused for good. -/
theorem shared_after_build (hvalid : s.Valid) (h : Backed s.graph) :
    (s.step .build).graph.recorder.shared = [] ∨ (s.step .build).graph.state = .building := by
  have hbuilds := s.graph.build_builds
  rw [step]
  generalize (Graph.build.runOn s.graph).1 = outcome, (Graph.build.runOn s.graph).2 = g at hbuilds
  cases hbuilds with
  | refused _ hstate => exact .inr hstate
  | resolved | unresolved | aborted => exact .inl rfl
  | idle _ hmust =>
    have hpending : s.graph.recorder.pending = [] := by
      have hparts : s.graph.artifact.isNone = false ∧ s.graph.recorder.pending = [] := by
        simpa [Graph.mustResolve, hvalid.mode] using hmust
      exact hparts.2
    refine .inl (List.eq_nil_iff_forall_not_mem.mpr fun i hi => ?_)
    have hback := h i hi
    rw [hpending] at hback
    cases hback

theorem tree_after {requests : List Request} (hvalid : s.Valid) (hbuilds : requests.any isBuild = false) :
    (s.after requests).graph.tree = s.graph.tree := by
  induction requests generalizing s with
  | nil => rfl
  | cons request rest ih =>
    simp only [List.any_cons, Bool.or_eq_false_iff] at hbuilds
    have hrequest : request ≠ .build := by
      rintro rfl
      cases hbuilds.1
    exact (ih (valid_after hvalid [request]) hbuilds.2).trans (step_same hvalid hrequest).1

/-- The calls behind the last build are those whose records may be shared, if any call is recorded at all. -/
theorem shares_after {id : Nat} {tree : Tree} {k : Kernels} {before recent : List Request}
    (hbefore : before = [] ∨ ∃ earlier, before = earlier ++ [.build]) (hrecent : recent.any isBuild = false)
    (hstate : (((start id tree k).after before).after recent).graph.state ≠ .building) :
    Shares (((start id tree k).after before).calls recent) (((start id tree k).after before).after recent).graph := by
  have hvalid : ((start id tree k).after before).Valid := valid_after (valid_start id tree k) before
  have hbase : ((start id tree k).after before).graph.recorder.shared = [] := by
    rcases hbefore with rfl | ⟨earlier, rfl⟩
    · rfl
    · have hearlier := valid_after (valid_start id tree k) earlier
      have hbacked : Backed ((start id tree k).after earlier).graph :=
        backed_after (valid_start id tree k) (fun i hi => by cases hi) earlier
      have hlast : (start id tree k).after (earlier ++ [.build]) = ((start id tree k).after earlier).step .build := by
        simp [Session.after]
      rcases shared_after_build hearlier hbacked with hshared | hbuilding
      · rw [hlast, hshared]
      · refine absurd ?_ hstate
        rw [Graph.state, tree_after hvalid hrecent, hlast]
        exact hbuilding
  have hstart : Shares [] ((start id tree k).after before).graph :=
    ⟨List.forall_mem_nil _, hbase, List.forall_mem_nil _⟩
  exact hstart.after hvalid hrecent

theorem state_of_recordable {id : NodeId} {name : String} {supplied : List Value} {p : Graph.Prepared}
    (hp : g.prepareCall id name supplied = .ok p) : g.state ≠ .building := by
  obtain ⟨m, ins, hrecordable⟩ := Graph.prepareCall_ok hp
  intro hbuilding
  have hstate := hrecordable.state
  rw [Graph.checkRecordable, hbuilding] at hstate
  cases hstate

/-- A call of a memoized method that passes the checks, behind a build and requests other than builds. If a call
    among these has made a record of the same method of the same component with the same inputs, and no input is a
    literal with a NaN, the call returns what was handed out for that record, and changes nothing. Otherwise it
    appends one record. -/
theorem shares_since_build (id : Nat) (tree : Tree) (k : Kernels) (before recent : List Request)
    (hbefore : before = [] ∨ ∃ earlier, before = earlier ++ [.build]) (hrecent : recent.any isBuild = false) :
    let base := (start id tree k).after before
    let g := (base.after recent).graph
    ∀ (x : Recording) (node : NodeId) (name : String) (supplied : List Value) (p : Graph.Prepared),
      x.call? g.tree = some (node, name, supplied) → g.prepareCall node name supplied = .ok p →
      p.method.memoized = true →
        (∀ r ∈ base.calls recent, r ∈ g.recorder.pending) ∧
        (∀ r ∈ base.calls recent, r.component = node → r.method = name → r.inputs = p.inputs →
          p.inputs.all Binding.numeric = true → x.run.runOn g = (.ok r.outputs.reduceOption, g)) ∧
        ((∀ r ∈ base.calls recent, r.component = node → r.method = name → r.inputs = p.inputs →
            p.inputs.all Binding.numeric = false) →
          x.run.runOn g = (.ok (g.invocation node name p).outputs.reduceOption,
            { g with recorder := g.recorder.append (g.invocation node name p) true })) := by
  intro base g x node name supplied p hx hp hmemo
  have hvalid : (base.after recent).Valid :=
    valid_after (valid_after (valid_start id tree k) before) recent
  have hnodup : (g.recorder.pending.map Invocation.id).Nodup := (List.nodup_append.mp hvalid.nodup).2.1
  have hshares : Shares (base.calls recent) g := shares_after hbefore hrecent (state_of_recordable hp)
  obtain ⟨hname, hshareable⟩ := shareable_call hp
  have hlookup : g.shared? node p = g.recorder.sharedOutputs? node name p.inputs := by
    rw [Graph.shared?, if_pos hmemo, hname]
  have hrun := Recording.run_call hvalid.mode hx
  simp only [show (base.after recent).graph = g from rfl, hp, hlookup] at hrun
  refine ⟨hshares.pending, fun r hr hcomponent hmethod hinputs hnumeric => ?_, fun hnew => ?_⟩
  · have hrepeats : r.repeats node name p.inputs = true :=
      Invocation.repeats_iff.mpr ⟨⟨hcomponent, hmethod, hinputs⟩, hnumeric⟩
    have hmemoized : shareable g.tree r = true := by
      rw [← hmemo, ← hshareable, hname]
      exact shareable_congr hrepeats
    simpa only [hshares.shared_of_repeats hnodup hr hmemoized hrepeats] using hrun
  · have hnone : g.recorder.sharedOutputs? node name p.inputs = none := by
      refine hshares.shared_none hnodup fun r hr => Bool.eq_false_iff.mpr fun hrepeats => ?_
      obtain ⟨⟨hcomponent, hmethod, hinputs⟩, hnumeric⟩ := Invocation.repeats_iff.mp hrepeats
      rw [hnew r hr hcomponent hmethod hinputs] at hnumeric
      cases hnumeric
    simpa only [hnone, hname, hmemo] using hrun

/-! ## Records that are put back -/

/-- A component whose only method hands its input on, and is memoized. -/
def echo : Tree where
  nodes := #[{
    name := "root"
    parent := none
    children := []
    state := .unbuilt
    component := {
      kind := "echo"
      config := .null
      methods := [{
        name := "f"
        inputs := [Signature.required "x"]
        outputs := [⟨"y", .likeInput 0⟩]
        memoized := true
        body := .straight [] [.input 0] }] } }]
  frozen := false

def callEcho (x : Float32) : Recording := .call 0 "f" [.tensor (.scalar x)]

/-- A call on a graph that is built, and a build that fails for a record behind it. -/
def disturbed : List Request :=
  [.build, .record (callEcho 1), .record (.raw 0 "f" [.output 9 0] [some ⟨.f32, []⟩]), .build]

/-- The record of a call is pending again, and the same call appends another one. -/
theorem restored_not_shared :
    let s := (start 1 echo .reference).after disturbed
    (∃ r ∈ s.graph.recorder.pending, r.id ∈ ((start 1 echo .reference).calls disturbed).map Invocation.id ∧
        r.repeats 0 "f" [.literal (.scalar 1)] = true) ∧
      s.appended (.record (callEcho 1)) ≠ [] := by
  intro s
  have hpending : (s.graph.recorder.pending.any fun r =>
      (((start 1 echo .reference).calls disturbed).map Invocation.id).contains r.id &&
        r.repeats 0 "f" [.literal (.scalar 1)]) = true := by decide +kernel
  have happended : (s.appended (.record (callEcho 1))).isEmpty = false := by decide +kernel
  obtain ⟨r, hr, hboth⟩ := List.any_eq_true.mp hpending
  obtain ⟨hcalled, hrepeats⟩ := Bool.and_eq_true_iff.mp hboth
  exact ⟨⟨r, hr, List.contains_iff_mem.mp hcalled, hrepeats⟩, List.isEmpty_eq_false_iff.mp happended⟩

/-- Two calls behind that build. -/
def repeated : List Request := [.record (callEcho 1), .record (callEcho 2)]

/-- Called again by its scope the method shares the first record; on another input it makes one more. -/
theorem echo_shares :
    let base := (start 1 echo .reference).after disturbed
    let g := (base.after repeated).graph
    (∃ r ∈ base.calls repeated,
        (Recording.callAt "root" "f" [.tensor (.scalar 1)]).run.runOn g = (.ok r.outputs.reduceOption, g)) ∧
      ∃ r, (callEcho 3).run.runOn g = (.ok r.outputs.reduceOption, { g with recorder := g.recorder.append r true }) := by
  intro base g
  have hshares := shares_since_build 1 echo .reference disturbed repeated (.inr ⟨disturbed.dropLast, rfl⟩) rfl
  have hprepared : ∀ x : Float32, (match g.prepareCall 0 "f" [.tensor (.scalar x)] with
      | .ok p => p.method.memoized && Binding.allIdentical p.inputs [.literal (.scalar x)]
      | .error _ => false) = true → ∃ p, g.prepareCall 0 "f" [.tensor (.scalar x)] = .ok p ∧
        p.method.memoized = true ∧ p.inputs = [.literal (.scalar x)] := by
    intro x hx
    rcases hp : g.prepareCall 0 "f" [.tensor (.scalar x)] with e | p
    · simp [hp] at hx
    · simp only [hp, Bool.and_eq_true] at hx
      exact ⟨p, rfl, hx.1, Binding.eq_of_allIdentical hx.2⟩
  constructor
  · obtain ⟨p, hp, hmemo, hinputs⟩ := hprepared 1 (by decide +kernel)
    have hfind : g.tree.find? "root" = some 0 := by decide +kernel
    have hcall : (Recording.callAt "root" "f" [.tensor (.scalar 1)]).call? g.tree =
        some (0, "f", [.tensor (.scalar 1)]) := by rw [Recording.call?, hfind, Option.map_some]
    have hmade : ((base.calls repeated).any fun r => r.repeats 0 "f" [.literal (.scalar 1)]) = true := by
      decide +kernel
    obtain ⟨r, hr, hrepeats⟩ := List.any_eq_true.mp hmade
    obtain ⟨⟨hcomponent, hmethod, hsame⟩, hnumeric⟩ := Invocation.repeats_iff.mp hrepeats
    obtain ⟨-, hshared, -⟩ := hshares _ 0 "f" _ p hcall hp hmemo
    rw [hinputs] at hshared
    exact ⟨r, hr, hshared r hr hcomponent hmethod hsame hnumeric⟩
  · obtain ⟨p, hp, hmemo, hinputs⟩ := hprepared 3 (by decide +kernel)
    have hmade : ((base.calls repeated).any fun r => r.repeats 0 "f" [.literal (.scalar 3)]) = false := by
      decide +kernel
    obtain ⟨-, -, hnew⟩ := hshares (callEcho 3) 0 "f" _ p rfl hp hmemo
    refine ⟨_, hnew fun r hr hcomponent hmethod hsame => ?_⟩
    rw [hinputs] at hsame ⊢
    have hdiffers : r.repeats 0 "f" [.literal (.scalar 3)] ≠ true := List.any_eq_false.mp hmade r hr
    by_contra hnumeric
    exact hdiffers (Invocation.repeats_iff.mpr ⟨⟨hcomponent, hmethod, hsame⟩, by simpa using hnumeric⟩)

end Session

end ComponentFlow
