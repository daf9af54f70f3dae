/-
  ComponentFlow.Proofs.Naming — the names that stacking gives to layers. A layer looks for a name that no layer
  before it has: its own, or else its own with a number behind it, starting with 1 (`Layers.Search`). The search goes
  on while names are taken, and it ends because no two candidates are the same and each that is taken belongs to a layer
  before, so the number is no more than there are such layers. Generated names are taken like any others: a later
  layer that has one of them for its own is renamed in turn, and an earlier one makes the search pass over it.
-/
import ComponentFlow.Layers.Preprocess
import ComponentFlow.Proofs.Stacking

namespace ComponentFlow.Layers

variable {role : StackRole} {base name last last' : String} {next k j : Nat} {taken names : List String}
  {layer a : Assembly} {layers : List Assembly} {s s' : Stacked}

/-! ## The search for a name -/

/-- A search for a name that is not taken: from the name that it tries, and the number that is next, to the name that
    it ends with. -/
inductive Search (base : String) (taken : List String) : String → Nat → String → Prop
  | free {name : String} {next : Nat} : name ∉ taken → Search base taken name next name
  | again {name last : String} {next : Nat} : name ∈ taken →
      Search base taken s!"{base}-{next}" (next + 1) last → Search base taken name next last

theorem Search.unique (h : Search base taken name next last) (h' : Search base taken name next last') :
    last = last' := by
  induction h with
  | free hfree =>
    cases h' with
    | free _ => rfl
    | again htaken _ => exact absurd htaken hfree
  | again htaken _ ih =>
    cases h' with
    | free hfree => exact absurd htaken hfree
    | again _ hnext => exact ih hnext

/-- From a candidate on the search goes to the first one that is free. -/
theorem search_candidates (hfree : candidateName base k ∉ taken) (hearlier : ∀ i < k, candidateName base i ∈ taken)
    (hj : j ≤ k) : Search base taken (candidateName base j) (j + 1) (candidateName base k) := by
  induction hj using Nat.decreasingInduction with
  | self => exact .free hfree
  | of_succ j hj ih => exact .again (hearlier j hj) ih

/-- The search ends, and with the name that is chosen. -/
theorem search_iff : Search base taken base 1 last ↔ last = freshName base taken := by
  obtain ⟨k, hname, hfree, hearlier⟩ := freshName_found base taken
  have hends : Search base taken base 1 (freshName base taken) :=
    hname ▸ search_candidates hfree hearlier k.zero_le
  exact ⟨fun h => h.unique hends, fun h => h ▸ hends⟩

theorem freshName_free (base : String) (taken : List String) : freshName base taken ∉ taken := by
  obtain ⟨k, hname, hfree, -⟩ := freshName_found base taken
  rwa [hname]

/-- A name that is free stays. -/
theorem freshName_kept (h : base ∉ taken) : freshName base taken = base := by
  obtain ⟨k, hname, -, hearlier⟩ := freshName_found base taken
  cases k with
  | zero => exact hname
  | succ k => exact absurd (hearlier 0 k.succ_pos) h

theorem freshName_numbered (base : String) (taken : List String) : freshName base taken = base ∨
    ∃ k, 0 < k ∧ k ≤ taken.length ∧ freshName base taken = s!"{base}-{k}" := by
  obtain ⟨k, hname, -, hearlier⟩ := freshName_found base taken
  cases k with
  | zero => exact .inl hname
  | succ k => exact .inr ⟨k + 1, k.succ_pos, candidates_taken_le hearlier, hname⟩

/-! ## The names of all layers -/

/-- The names that layers get one after the other. -/
def givenNames (taken : List String) : List Assembly → List String
  | [] => []
  | layer :: rest => freshName layer.name taken :: givenNames (taken ++ [freshName layer.name taken]) rest

theorem length_givenNames (taken : List String) (layers : List Assembly) :
    (givenNames taken layers).length = layers.length := by
  induction layers generalizing taken with
  | nil => rfl
  | cons layer rest ih => exact congrArg (· + 1) (ih _)

theorem givenNames_append (taken : List String) (layers more : List Assembly) : givenNames taken (layers ++ more) =
    givenNames taken layers ++ givenNames (taken ++ givenNames taken layers) more := by
  induction layers generalizing taken with
  | nil => simp [givenNames]
  | cons layer rest ih => simp [givenNames, ih]

/-- No name is given that is taken, and none is given twice. -/
theorem nodup_givenNames (h : taken.Nodup) (layers : List Assembly) : (taken ++ givenNames taken layers).Nodup := by
  induction layers generalizing taken with
  | nil => simpa [givenNames] using h
  | cons layer rest ih =>
    have hnext : (taken ++ [freshName layer.name taken]).Nodup :=
      h.append (List.nodup_singleton _) (List.disjoint_singleton.mpr (freshName_free layer.name taken))
    simpa [givenNames] using ih hnext

/-- Each layer gets the name that is fresh when it comes. -/
theorem getElem?_givenNames (taken : List String) (layers : List Assembly) (i : Nat) : (givenNames taken layers)[i]? =
    layers[i]?.map fun layer => freshName layer.name (taken ++ (givenNames taken layers).take i) := by
  induction layers generalizing taken i with
  | nil => rfl
  | cons layer rest ih =>
    cases i with
    | zero => simp [givenNames]
    | succ i => simp [givenNames, ih]

theorem Stacked.layers_addAll (h : layers.foldlM (Stacked.add role) s = .ok s') :
    s'.layers = s.layers ++ List.zipWith Assembly.renamed layers (givenNames s.names layers) := by
  induction layers generalizing s with
  | nil =>
    cases h
    simp
  | cons layer rest ih =>
    rw [List.foldlM_cons] at h
    obtain ⟨t, hadd, hrest⟩ := Outcome.bind_ok.mp h
    obtain ⟨-, rule, -, rfl⟩ := Stacked.add_ok.mp hadd
    rw [ih hrest]
    simp [givenNames, Stacked.names, Assembly.renamed, Assembly.name]

theorem names_renamed (h : names.length = layers.length) :
    (List.zipWith Assembly.renamed layers names).map Assembly.name = names :=
  List.ext_getElem (by simp [h]) fun i _ _ => by simp [Assembly.renamed, Assembly.name]

/-- Under its name each layer is found, because no layer before it has the name. -/
theorem find?_renamed (hnodup : names.Nodup) {i : Nat} (hlayer : layers[i]? = some layer)
    (hname : names[i]? = some name) :
    (List.zipWith Assembly.renamed layers names).find? (fun c => c.name == name) = some (layer.renamed name) := by
  obtain ⟨hi, rfl⟩ := List.getElem?_eq_some_iff.mp hlayer
  obtain ⟨hi', rfl⟩ := List.getElem?_eq_some_iff.mp hname
  rw [List.find?_eq_some_iff_getElem]
  refine ⟨beq_self_eq_true _, i, by simp [hi, hi'], List.getElem_zipWith, fun j hj => ?_⟩
  have hother : names[j] ≠ names[i] := fun heq => Nat.ne_of_lt hj ((hnodup.getElem_inj_iff).mp heq)
  simpa [Assembly.renamed, Assembly.name] using hother

/-- What comes of the layers of a stack. -/
theorem stack_layers (h : stack role layers = .ok a) :
    a.children = List.zipWith Assembly.renamed layers (givenNames [] layers) ∧
      ∃ rule, a.component = stackComponent role rule (givenNames [] layers) := by
  obtain ⟨s, hfold, rfl⟩ := stack_ok.mp h
  have hlayers : s.layers = List.zipWith Assembly.renamed layers (givenNames [] layers) := Stacked.layers_addAll hfold
  have hnames : s.names = givenNames [] layers := by
    rw [Stacked.names, hlayers, names_renamed (length_givenNames [] layers)]
  exact ⟨hlayers, s.rule, congrArg (stackComponent role s.rule) hnames⟩

/-- Whatever the names of the layers, repeated ones and ones like generated names among them: the children of a stack
    are its layers in order, under names of which no two are the same. For each layer the search past the names given
    before ends, and with one name: that of the layer if it is free, and otherwise that with a number behind it, no
    more than there are layers before. By its name the layer is found among the children. The method calls, and the
    stack lists, just these names in order, and further layers behind the others change none of them. -/
theorem layers_told_apart (role : StackRole) (layers : List Assembly) {a : Assembly} (h : stack role layers = .ok a) :
    ∃ names : List String, names.length = layers.length ∧
      a.children = List.zipWith Assembly.renamed layers names ∧ names.Nodup ∧
      (∀ i (layer : Assembly) name, layers[i]? = some layer → names[i]? = some name →
        (∀ last, Search layer.name (names.take i) layer.name 1 last ↔ last = name) ∧
        (name = layer.name ∨ ∃ k, 0 < k ∧ k ≤ i ∧ name = s!"{layer.name}-{k}") ∧
        (layer.name ∉ names.take i → name = layer.name) ∧
        a.child? name = some (layer.renamed name)) ∧
      (∃ m, a.component.methods = [m] ∧ m.name = role.method ∧ m.calls = names.map fun name => (name, role.method)) ∧
      a.component.detail = .stack names ∧
      ∀ more b, stack role (layers ++ more) = .ok b → names <+: b.children.map Assembly.name := by
  obtain ⟨hchildren, rule, hcomponent⟩ := stack_layers h
  have hlength := length_givenNames [] layers
  have hnodup : (givenNames [] layers).Nodup := nodup_givenNames List.nodup_nil layers
  refine ⟨givenNames [] layers, hlength, hchildren, hnodup, ?_, ?_, congrArg Component.detail hcomponent, ?_⟩
  · intro i layer name hlayer hname
    have hgiven := hname
    rw [getElem?_givenNames, hlayer, Option.map_some, Option.some.injEq, List.nil_append] at hgiven
    subst hgiven
    refine ⟨fun last => search_iff, ?_, freshName_kept, ?_⟩
    · rcases freshName_numbered layer.name ((givenNames [] layers).take i) with hown | ⟨k, hpos, hle, hnumbered⟩
      · exact .inl hown
      · exact .inr ⟨k, hpos, hle.trans (List.length_take_le i _), hnumbered⟩
    · show a.children.find? _ = _
      rw [hchildren]
      exact find?_renamed hnodup hlayer hname
  · rw [hcomponent]
    exact ⟨_, rfl, rfl, rfl⟩
  · intro more b hb
    obtain ⟨hchildren', -⟩ := stack_layers hb
    rw [hchildren', names_renamed (length_givenNames [] _), givenNames_append]
    exact List.prefix_append _ _

/-- Layers that have one name, and names that look like generated ones. -/
def lookalikes : List Assembly :=
  ["scale-1", "scale", "scale", "scale-1", "scale"].map fun name => .leaf name (scale 2)

/-- The third layer passes over the name that the first one has, and the last one over that of the third as well. -/
theorem lookalikes_told_apart : ∃ a, stack .preprocessor lookalikes = .ok a ∧
    a.component.detail = .stack ["scale-1", "scale", "scale-2", "scale-1-1", "scale-3"] ∧
    Search "scale" ["scale-1", "scale"] "scale" 1 "scale-2" ∧
    a.child? "scale-3" = some (.leaf "scale-3" (scale 2)) := by
  have hstack : (stack .preprocessor lookalikes).toOption.map (fun a => a.children.map Assembly.name) =
      some ["scale-1", "scale", "scale-2", "scale-1-1", "scale-3"] := by decide +kernel
  obtain ⟨a, ha, hchildren⟩ := Option.map_eq_some_iff.mp hstack
  have hok := Outcome.toOption_ok.mp ha
  obtain ⟨names, hlength, hlayers, -, hplaces, -, hdetail, -⟩ := layers_told_apart .preprocessor lookalikes hok
  obtain rfl : names = ["scale-1", "scale", "scale-2", "scale-1-1", "scale-3"] := by
    rw [← hchildren, hlayers, names_renamed hlength]
  exact ⟨a, hok, hdetail, ((hplaces 2 _ _ rfl rfl).1 _).mpr rfl, (hplaces 4 _ _ rfl rfl).2.2.2⟩

end ComponentFlow.Layers
