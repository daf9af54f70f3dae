/-
  ComponentFlow.Proofs.Nesting — construction follows the nesting of a spec. A constructor resolves specs
  that stand in its arguments only, and these are nested less deep than the arguments. So the depth of a
  spec is as good as any greater depth, no construction is cut short, and what a registry builds is
  what its constructors make of the arguments and of what the registry makes of the specs in them
  (`Registry.build_layers`).
-/
import ComponentFlow.Proofs.Construction

namespace ComponentFlow

/-! ## Depths -/

namespace Json

theorem depth_le_items {v : Json} {items : List Json} (h : v ∈ items) : v.depth ≤ depthItems items := by
  induction items with
  | nil => cases h
  | cons w rest ih =>
    rw [depthItems]
    rcases List.mem_cons.mp h with rfl | h
    · exact Nat.le_max_left _ _
    · exact Nat.le_trans (ih h) (Nat.le_max_right _ _)

theorem depth_le_fields {v : Json} {key : String} {fields : Fields} (h : (key, v) ∈ fields) :
    v.depth ≤ depthFields fields := by
  induction fields with
  | nil => cases h
  | cons field rest ih =>
    obtain ⟨k, w⟩ := field
    rw [depthFields]
    rcases List.mem_cons.mp h with heq | h
    · cases heq
      exact Nat.le_max_left _ _
    · exact Nat.le_trans (ih h) (Nat.le_max_right _ _)

theorem depthFields_mono {fields more : Fields} (h : fields ⊆ more) : depthFields fields ≤ depthFields more := by
  induction fields with
  | nil => exact Nat.zero_le _
  | cons field rest ih =>
    obtain ⟨k, v⟩ := field
    obtain ⟨hv, hrest⟩ := List.cons_subset.mp h
    rw [depthFields]
    exact Nat.max_le.mpr ⟨depth_le_fields hv, ih hrest⟩

theorem mem_of_field? {fields : Fields} {key : String} {v : Json} (h : field? fields key = some v) :
    (key, v) ∈ fields := by
  obtain ⟨before, after, rfl, -⟩ := List.lookup_eq_some_iff.mp h
  exact List.mem_append_right _ List.mem_cons_self

end Json

/-- The arguments of a spec are nested no deeper than its JSON. -/
theorem ComponentSpec.depth_ofJson {v : Json} {s : ComponentSpec} (h : ofJson v = .ok s) : s.depth ≤ v.depth := by
  unfold ofJson at h
  split at h
  · next fields =>
    split at h
    · cases h
    · split at h
      · cases h
        rw [depth, argsJson, Json.depth, Json.depth]
        exact Nat.succ_le_succ (Json.depthFields_mono fun _ hfield => (List.mem_filter.mp hfield).1)
      · cases h
  · cases h

/-- How deep the arguments are nested. -/
def Arguments.depth (args : Arguments) : Nat := Json.depth (.object args.fields)

theorem Arguments.depth_lt {args : Arguments} {key : String} {v : Json} (h : args.raw? key = some v) :
    v.depth < args.depth := by
  unfold depth
  rw [Json.depth]
  exact Nat.lt_succ_of_le (Json.depth_le_fields (Json.mem_of_field? h))

/-! ## Constructors -/

/-- Resolvers that do the same with what is nested less deep than this. -/
def Resolver.AgreeBelow (depth : Nat) (r r' : Resolver) : Prop :=
  ∀ {v : Json} {c : Capability}, v.depth < depth → r (.json v) c = r' (.json v) c

/-- Resolves nothing but what stands in the arguments. -/
def Constructor.Nested (c : Constructor) : Prop := ∀ {args : Arguments} {r r' : Resolver},
  r.AgreeBelow args.depth r' → c.build args r = c.build args r'

namespace Layers

variable {args : Arguments} {r r' : Resolver} {depth : Nat} {role : StackRole}

/-- Layers are nested less deep than the list of them. -/
theorem stackOfSpecs_nested (h : r.AgreeBelow depth r') {specs : List Json}
    (hspecs : Json.depth (.array specs) ≤ depth) : stackOfSpecs role r specs = stackOfSpecs role r' specs := by
  have hlayers : ∀ v ∈ specs, r (.json v) role.capability = r' (.json v) role.capability := by
    intro v hv
    have hle : v.depth ≤ Json.depthItems specs := Json.depth_le_items hv
    rw [Json.depth] at hspecs
    exact h (Nat.lt_of_lt_of_le (Nat.lt_succ_of_le hle) hspecs)
  unfold stackOfSpecs
  rw [Outcome.mapM_congr hlayers]

theorem resolveStack_nested (h : r.AgreeBelow depth r') {v : Json} (hv : v.depth < depth ∨ v = .array []) :
    resolveStack role r (.json v) = resolveStack role r' (.json v) := by
  rcases hv with hv | rfl
  · cases v with
    | array specs => exact stackOfSpecs_nested h (Nat.le_of_lt hv)
    | _ => exact h hv
  · rfl

theorem stackConstructor_nested : (stackConstructor role).Nested := by
  intro args r r' h
  have hspecs : ∀ specs, layerSpecs args = .ok specs → stackOfSpecs role r specs = stackOfSpecs role r' specs := by
    intro specs hlayers
    unfold layerSpecs at hlayers
    split at hlayers
    · cases hlayers
      rfl
    · cases hlayers
      rfl
    · next hraw =>
      cases hlayers
      exact stackOfSpecs_nested h (Nat.le_of_lt (Arguments.depth_lt hraw))
    · cases hlayers
  show layerSpecs args >>= stackOfSpecs role r = layerSpecs args >>= stackOfSpecs role r'
  rcases hlayers : layerSpecs args with e | specs
  · rfl
  · exact hspecs specs hlayers

theorem Policy.constructor_nested (generator : Random.Generator) : (Policy.constructor generator).Nested := by
  intro args r r' h
  have hnetwork : Policy.networkOf args r = Policy.networkOf args r' := by
    unfold Policy.networkOf
    split
    · next v hraw => exact resolveStack_nested h (.inl (Arguments.depth_lt hraw))
    · rfl
  have hrest : Policy.onNetwork generator args r = Policy.onNetwork generator args r' := by
    funext network
    unfold Policy.onNetwork
    split
    · next v hraw => rw [resolveStack_nested h (.inl (Arguments.depth_lt hraw))]
    · rfl
  rw [Policy.build_eq, Policy.build_eq, hnetwork, hrest]

theorem Actor.ofSources_nested (h : r.AgreeBelow depth r') {preprocessor policy : Json}
    {exploration : Option AssemblySource} (hpreprocessor : preprocessor.depth < depth ∨ preprocessor = .array [])
    (hpolicy : policy.depth < depth)
    (hexploration : ∀ source ∈ exploration, ∃ v : Json, source = .json v ∧ v.depth < depth) :
    Actor.ofSources r (.json preprocessor) (.json policy) exploration =
      Actor.ofSources r' (.json preprocessor) (.json policy) exploration := by
  have hexplored : (exploration.mapM fun source => r source .exploration) =
      exploration.mapM fun source => r' source .exploration := by
    cases exploration with
    | none => rfl
    | some source =>
      obtain ⟨v, rfl, hv⟩ := hexploration source rfl
      rw [Option.mapM_some, Option.mapM_some, h hv]
  unfold Actor.ofSources
  rw [resolveStack_nested h hpreprocessor, h hpolicy, hexplored]

theorem Actor.constructor_nested : Actor.constructor.Nested := by
  intro args r r' h
  dsimp only [Actor.constructor]
  split
  · next policy hpolicy =>
    refine Actor.ofSources_nested h ?_ (Arguments.depth_lt hpolicy) fun source hsource => ?_
    · rcases hraw : args.raw? "preprocessor_spec" with _ | v
      · exact .inr rfl
      · exact .inl (Arguments.depth_lt hraw)
    · split at hsource
      · cases hsource
      · cases hsource
      · next v _ hraw =>
        cases hsource
        exact ⟨v, rfl, Arguments.depth_lt hraw⟩
  · rfl

end Layers

/-! ## Registries -/

namespace Registry

variable {r : Registry}

/-- A resolver constructs no spec but the one that is read from the JSON. -/
theorem resolveVia_congr {build build' : ComponentSpec → Outcome Assembly} {v : Json}
    (h : ∀ s, ComponentSpec.ofJson v = .ok s → build s = build' s) (capability : Capability) :
    resolveVia build (.json v) capability = resolveVia build' (.json v) capability := by
  unfold resolveVia
  dsimp only
  rcases hv : ComponentSpec.ofJson v with e | s
  · rfl
  · show build s >>= _ = build' s >>= _
    rw [h s hv]

/-- Constructions that agree on specs nested less deep resolve the same there. -/
theorem resolveVia_agreeBelow {build build' : ComponentSpec → Outcome Assembly} {depth : Nat}
    (h : ∀ s, s.depth < depth → build s = build' s) : (resolveVia build).AgreeBelow depth (resolveVia build') := by
  intro v capability hv
  exact resolveVia_congr (fun s hs => h s (Nat.lt_of_le_of_lt (ComponentSpec.depth_ofJson hs) hv)) capability

/-- However much deeper specs might be nested, the same is constructed. -/
theorem buildWithin_of_le (hr : ∀ c ∈ r, c.Nested) {depth more : Nat} {s : ComponentSpec} (hdepth : s.depth ≤ depth)
    (hmore : s.depth ≤ more) : r.buildWithin depth s = r.buildWithin more s := by
  induction depth generalizing more s with
  | zero => cases hdepth
  | succ depth ih =>
    cases more with
    | zero => cases hmore
    | succ more =>
      rw [buildWithin, buildWithin]
      split
      · rfl
      · next c hc =>
        have hagree : (resolveVia (r.buildWithin depth)).AgreeBelow s.depth (resolveVia (r.buildWithin more)) :=
          resolveVia_agreeBelow fun s' hs' => ih (Nat.le_of_lt_succ (Nat.lt_of_lt_of_le hs' hdepth))
            (Nat.le_of_lt_succ (Nat.lt_of_lt_of_le hs' hmore))
        rw [hr c (List.mem_of_find?_eq_some hc) hagree]

/-- What is constructed is what the constructor of the tag makes of the arguments, with the same registry for what
    is nested in them. -/
theorem build_eq (hr : ∀ c ∈ r, c.Nested) {s : ComponentSpec} {c : Constructor} (hc : r.constructor? s.tag = some c) :
    r.build s = c.build s.arguments r.instantiate >>= named s.arguments := by
  obtain ⟨below, hbelow⟩ : ∃ below, s.depth = below + 1 := ⟨_, rfl⟩
  have hagree : (resolveVia (r.buildWithin below)).AgreeBelow s.depth r.instantiate :=
    resolveVia_agreeBelow fun s' hs' => buildWithin_of_le hr (Nat.le_of_lt_succ (hbelow.le.trans' hs')) le_rfl
  rw [build, hbelow, buildWithin, hc]
  show c.build s.arguments (resolveVia (r.buildWithin below)) >>= named s.arguments = _
  rw [hr c (List.mem_of_find?_eq_some hc) hagree]

theorem layers_nested (generator : Random.Generator) : ∀ c ∈ layers generator, c.Nested := by
  intro c hc
  simp only [layers, List.mem_cons, List.not_mem_nil, or_false] at hc
  rcases hc with rfl | rfl | rfl | rfl | rfl | rfl | rfl | rfl | rfl | rfl
  · exact Layers.Actor.constructor_nested
  · exact fun _ => rfl
  · exact fun _ => rfl
  · exact fun _ => rfl
  · exact fun _ => rfl
  · exact fun _ => rfl
  · exact Layers.stackConstructor_nested
  · exact Layers.Policy.constructor_nested generator
  · exact Layers.stackConstructor_nested
  · exact fun _ => rfl

/-- The layers construct by the recursion over the nesting of a spec that their constructors describe. -/
theorem build_layers {generator : Random.Generator} {s : ComponentSpec} {c : Constructor}
    (hc : (layers generator).constructor? s.tag = some c) :
    (layers generator).build s = c.build s.arguments (layers generator).instantiate >>= named s.arguments :=
  build_eq (layers_nested generator) hc

end Registry

end ComponentFlow
