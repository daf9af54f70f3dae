/-
  ComponentFlow.Proofs.Construction — what a registry constructs can be built. Each constructor makes a
  sound assembly of sound parts: what it renames it gives a name of its own, and what its methods call
  is what it asked its parts for. So whatever is constructed is sound, however deep specs are nested
  (`Registry.buildWithin_sound`), and its tree and the first build of a graph over that succeed
  (`Registry.constructed_builds`).
-/
import ComponentFlow.Catalogue
import ComponentFlow.Proofs.Connection
import ComponentFlow.Proofs.Lifecycle
import ComponentFlow.Proofs.Stacking

namespace ComponentFlow

/-! ## Constructors -/

/-- What is made of a nested spec is sound and has the capability that is asked for. -/
def Resolver.Sound (resolve : Resolver) : Prop := ∀ {v : Json} {c : Capability} {a : Assembly},
  resolve (.json v) c = .ok a → a.Sound ∧ ∀ m ∈ c.methods, a.component.declares m = true

/-- Makes sound assemblies if the parts are. -/
def Constructor.Sound (c : Constructor) : Prop := ∀ {args : Arguments} {resolve : Resolver} {a : Assembly},
  resolve.Sound → c.build args resolve = .ok a → a.Sound

namespace Layers

variable {args : Arguments} {resolve : Resolver} {a : Assembly}

/-! ### Layers without children -/

theorem preprocessing_solitary (kind : String) (config : Json) (rule : OutputRule) (p : Primitive)
    (operands : List Ref) : (preprocessing kind config rule p operands).Solitary :=
  List.forall_mem_singleton.mpr rfl

theorem scaleConstructor_sound : scaleConstructor.Sound := by
  intro args resolve a _ h
  obtain ⟨factor, -, h⟩ := Outcome.bind_ok.mp h
  cases h
  exact Assembly.sound_leaf (by decide) (preprocessing_solitary _ _ _ _ _)

theorem clip_solitary {lo hi : Float32} {c : Component} (h : clip lo hi = .ok c) : c.Solitary := by
  unfold clip at h
  split at h
  · cases h
  · cases h
    exact preprocessing_solitary _ _ _ _ _

theorem clipConstructor_sound : clipConstructor.Sound := by
  intro args resolve a _ h
  obtain ⟨⟨lo, hi⟩, -, h⟩ := Outcome.bind_ok.mp h
  obtain ⟨c, hclip, h⟩ := Outcome.bind_ok.mp h
  cases h
  exact Assembly.sound_leaf (by decide) (clip_solitary hclip)

theorem toFloatConstructor_sound : toFloatConstructor.Sound := by
  intro args resolve a _ h
  cases h
  exact Assembly.sound_leaf (by decide) (preprocessing_solitary _ _ _ _ _)

theorem denseOf_solitary (config : DenseConfig) (weight : Tensor) (bias : Option Tensor) :
    (denseOf config weight bias).Solitary := List.forall_mem_singleton.mpr rfl

theorem denseWith_solitary {weight : Tensor} {bias : Option Tensor} {activation : Activation} {c : Component}
    (h : denseWith weight bias activation = .ok c) : c.Solitary := by
  unfold denseWith at h
  split at h
  · rcases bias with _ | b
    · cases h
      exact denseOf_solitary _ _ _
    · dsimp only at h
      split at h
      · cases h
      · cases h
        exact denseOf_solitary _ _ _
  · cases h

theorem denseConstructor_sound (generator : Random.Generator) : (denseConstructor generator).Sound := by
  intro args resolve a _ h
  obtain ⟨weights, -, h⟩ := Outcome.bind_ok.mp h
  rcases weights with _ | weight
  · obtain ⟨config, -, h⟩ := Outcome.bind_ok.mp h
    cases h
    exact Assembly.sound_leaf (by decide) (denseOf_solitary _ _ _)
  · obtain ⟨bias, -, h⟩ := Outcome.bind_ok.mp h
    obtain ⟨activation, -, h⟩ := Outcome.bind_ok.mp h
    obtain ⟨c, hdense, h⟩ := Outcome.bind_ok.mp h
    cases h
    exact Assembly.sound_leaf (by decide) (denseWith_solitary hdense)

theorem Exploration.ofSchedule_solitary {schedule : Schedule} {c : Component}
    (h : Exploration.ofSchedule schedule = .ok c) : c.Solitary := by
  unfold Exploration.ofSchedule at h
  split at h
  · cases h
  · split at h
    · cases h
    · cases h
      exact List.forall_mem_singleton.mpr rfl

theorem Exploration.constructor_sound : Exploration.constructor.Sound := by
  intro args resolve a _ h
  obtain ⟨schedule, -, h⟩ := Outcome.bind_ok.mp h
  obtain ⟨c, hc, h⟩ := Outcome.bind_ok.mp h
  cases h
  exact Assembly.sound_leaf (by decide) (ofSchedule_solitary hc)

theorem Advantage.ofConfig_solitary {config : Advantage.Config} {c : Component}
    (h : Advantage.ofConfig config = .ok c) : c.Solitary := by
  unfold Advantage.ofConfig at h
  split at h
  · cases h
  · cases h
    exact List.forall_mem_singleton.mpr rfl

theorem Advantage.constructor_sound : Advantage.constructor.Sound := by
  intro args resolve a _ h
  obtain ⟨config, -, h⟩ := Outcome.bind_ok.mp h
  obtain ⟨c, hc, h⟩ := Outcome.bind_ok.mp h
  cases h
  exact Assembly.sound_leaf (by decide) (ofConfig_solitary hc)

/-! ### Stacks -/

section Stacks

variable {role : StackRole} {s s' : Stacked} {layer : Assembly} {layers : List Assembly}

/-- Layers that can be children of one component, and have the method that is threaded through them. -/
structure Stacked.Sound (role : StackRole) (s : Stacked) : Prop where
  apart : s.names.Nodup
  layers : ∀ layer ∈ s.layers, layer.Sound ∧ layer.component.declares role.method = true

theorem declares_of_leadingRule {c : Component} {method : String} {rule : OutputRule}
    (h : c.leadingRule method = .ok rule) : c.declares method = true := by
  unfold Component.leadingRule at h
  unfold Component.declares
  rcases hm : c.method? method with _ | m
  · rw [hm] at h
    cases h
  · rfl

theorem Stacked.Sound.add (h : s.Sound role) (hlayer : layer.Sound) (hadd : s.add role layer = .ok s') :
    s'.Sound role := by
  obtain ⟨-, rule, hrule, rfl⟩ := Stacked.add_ok.mp hadd
  obtain ⟨k, hname, hfree, -⟩ := freshName_found layer.name s.names
  rw [hname]
  constructor
  · show ((s.layers ++ [layer.renamed (candidateName layer.name k)]).map Assembly.name).Nodup
    rw [List.map_append]
    refine List.nodup_append.mpr ⟨h.apart, List.nodup_singleton _, fun name hold other hnew => ?_⟩
    rw [List.mem_singleton.mp hnew]
    rintro rfl
    exact hfree hold
  · refine List.forall_mem_append.mpr ⟨h.layers, List.forall_mem_singleton.mpr ⟨?_, declares_of_leadingRule hrule⟩⟩
    exact hlayer.renamed (named_candidateName hlayer.named k)

theorem Stacked.Sound.addAll (h : s.Sound role) (hlayers : ∀ layer ∈ layers, layer.Sound)
    (hfold : layers.foldlM (Stacked.add role) s = .ok s') : s'.Sound role := by
  induction layers generalizing s with
  | nil =>
    cases hfold
    exact h
  | cons layer rest ih =>
    obtain ⟨hlayer, hrest⟩ := List.forall_mem_cons.mp hlayers
    rw [List.foldlM_cons] at hfold
    obtain ⟨t, hadd, hfold⟩ := Outcome.bind_ok.mp hfold
    exact ih (h.add hlayer hadd) hrest hfold

theorem stack_sound (hrole : Tree.nameFault? role.kind = none) (hlayers : ∀ layer ∈ layers, layer.Sound)
    (h : stack role layers = .ok a) : a.Sound := by
  obtain ⟨s, hfold, rfl⟩ := stack_ok.mp h
  have hempty : ({} : Stacked).Sound role := ⟨List.nodup_nil, fun _ hlayer => nomatch hlayer⟩
  have hsound : s.Sound role := hempty.addAll hlayers hfold
  refine .mk hrole hsound.apart (List.forall_mem_singleton.mpr fun call hcall => ?_) fun layer hlayer =>
    (hsound.layers layer hlayer).1
  obtain ⟨name, hname, rfl⟩ := List.mem_map.mp hcall
  obtain ⟨layer, hlayer, rfl⟩ := List.mem_map.mp hname
  exact ⟨layer, hlayer, rfl, (hsound.layers layer hlayer).2⟩

theorem stackOfSpecs_sound (hrole : Tree.nameFault? role.kind = none) (hresolve : resolve.Sound) {specs : List Json}
    (h : stackOfSpecs role resolve specs = .ok a) : a.Sound := by
  obtain ⟨layers, hlayers, h⟩ := Outcome.bind_ok.mp h
  refine stack_sound hrole (fun layer hlayer => ?_) h
  obtain ⟨v, -, hv⟩ := forall₂_of_mem (Outcome.mapM_ok.mp hlayers).flip hlayer
  exact (hresolve hv).1

theorem resolveStack_sound (hrole : Tree.nameFault? role.kind = none) (hresolve : resolve.Sound) {v : Json}
    (h : resolveStack role resolve (.json v) = .ok a) : a.Sound := by
  unfold resolveStack at h
  split at h
  · exact stackOfSpecs_sound hrole hresolve h
  · exact (hresolve h).1

theorem stackConstructor_sound (hrole : Tree.nameFault? role.kind = none) : (stackConstructor role).Sound := by
  intro args resolve a hresolve h
  obtain ⟨specs, -, h⟩ := Outcome.bind_ok.mp h
  exact stackOfSpecs_sound hrole hresolve h

end Stacks

/-! ### Policies -/

namespace Policy

theorem calls_component {numActions : Nat} {m : Method} (hm : m ∈ (component numActions).methods)
    {c : String × String} (hc : c ∈ m.calls) : c ∈ childCalls := by
  simp only [component, List.mem_cons, List.not_mem_nil, or_false] at hm
  rcases hm with rfl | rfl | rfl
  · exact hc
  · exact hc
  · cases hc

/-- The network and the adapter answer the calls of a policy. -/
theorem withAdapter_sound {network adapter : Assembly} (hnetwork : network.Sound) (hadapter : adapter.Sound)
    (h : withAdapter network adapter = .ok a) : a.Sound := by
  obtain ⟨⟨⟩, hcheck, h⟩ := Outcome.bind_ok.mp h
  obtain ⟨⟨⟩, hcheck', h⟩ := Outcome.bind_ok.mp h
  obtain ⟨numActions, -, h⟩ := Outcome.bind_ok.mp h
  cases h
  have hcall : network.component.declares call = true := Capability.check_ok.mp hcheck call (by decide)
  have hcall' : adapter.component.declares call = true := Capability.check_ok.mp hcheck' call (by decide)
  have hapart : [networkChild, adapterChild].Nodup := by decide
  refine .mk (by decide) hapart (fun m hm c hc => ?_) ?_
  · rcases List.mem_pair.mp (calls_component hm hc) with rfl | rfl
    · exact ⟨_, List.mem_cons_self, rfl, hcall⟩
    · exact ⟨_, List.mem_cons_of_mem _ (List.mem_singleton_self _), rfl, hcall'⟩
  · exact List.forall_mem_cons.mpr
      ⟨hnetwork.renamed (by decide), List.forall_mem_singleton.mpr (hadapter.renamed (by decide))⟩

variable {generator : Random.Generator}

/-- The policy on top of a network, with an adapter that is described or a fresh one. -/
def onNetwork (generator : Random.Generator) (args : Arguments) (resolve : Resolver) (network : Assembly) :
    Outcome Assembly :=
  match args.raw? "action_adapter" with
  | some v => do withAdapter network (← resolveStack .network resolve (.json v))
  | none => do
    let numActions ← args.require "num_actions" Json.count
    let seed ← args.getOr "seed" Json.word64 0
    let width ← featureWidth args network
    withAdapter network (freshAdapter width numActions seed generator)

/-- The network that is described, or an empty one. -/
def networkOf (args : Arguments) (resolve : Resolver) : Outcome Assembly :=
  match args.raw? "network" with
  | some v => resolveStack .network resolve (.json v)
  | none => stack .network []

theorem build_eq (args : Arguments) (resolve : Resolver) :
    (constructor generator).build args resolve = networkOf args resolve >>= onNetwork generator args resolve := by
  unfold networkOf
  dsimp only [constructor]
  rcases args.raw? "network" with _ | v <;> rfl

theorem onNetwork_sound (hresolve : resolve.Sound) {network : Assembly} (hnetwork : network.Sound)
    (h : onNetwork generator args resolve network = .ok a) : a.Sound := by
  unfold onNetwork at h
  split at h
  · obtain ⟨adapter, hadapter, h⟩ := Outcome.bind_ok.mp h
    exact withAdapter_sound hnetwork (resolveStack_sound (by decide) hresolve hadapter) h
  · obtain ⟨numActions, -, h⟩ := Outcome.bind_ok.mp h
    obtain ⟨seed, -, h⟩ := Outcome.bind_ok.mp h
    obtain ⟨width, -, h⟩ := Outcome.bind_ok.mp h
    exact withAdapter_sound hnetwork (Assembly.sound_leaf (by decide) (denseOf_solitary _ _ _)) h

theorem constructor_sound (generator : Random.Generator) : (constructor generator).Sound := by
  intro args resolve a hresolve h
  rw [build_eq] at h
  obtain ⟨network, hnetwork, h⟩ := Outcome.bind_ok.mp h
  refine onNetwork_sound hresolve ?_ h
  unfold networkOf at hnetwork
  split at hnetwork
  · exact resolveStack_sound (by decide) hresolve hnetwork
  · exact stack_sound (by decide) (List.forall_mem_nil _) hnetwork

end Policy

/-! ### Actors -/

namespace Actor

/-- What the methods of an actor call. -/
theorem calls_component {explores : Bool} {contract : Contract} {m : Method}
    (hm : m ∈ (component explores contract).methods) {c : String × String} (hc : c ∈ m.calls) :
    c = (preprocessorChild, preprocess) ∨ explores = true ∧ c = (explorationChild, getAction) ∨
      ∃ name ∈ Capability.policy.methods, c = (policyChild, name) := by
  have hcalls : ∃ names ⊆ Capability.policy.methods, c ∈ calls explores names := by
    rcases List.mem_pair.mp hm with rfl | rfl
    · exact ⟨[getAction], by decide, hc⟩
    · exact ⟨[getDistribution, pickAction], by decide, hc⟩
  obtain ⟨names, hnames, hc⟩ := hcalls
  unfold calls at hc
  rcases List.mem_append.mp hc with hfirst | hpolicy
  · rcases List.mem_cons.mp hfirst with rfl | hexplore
    · exact .inl rfl
    · cases explores with
      | false => cases hexplore
      | true => exact .inr (.inl ⟨rfl, List.mem_singleton.mp hexplore⟩)
  · obtain ⟨name, hname, rfl⟩ := List.mem_map.mp hpolicy
    exact .inr (.inr ⟨name, hnames hname, rfl⟩)

theorem ofParts_ok {preprocessor policy : Assembly} {exploration : Option Assembly}
    (h : ofParts preprocessor policy exploration = .ok a) :
    Capability.preprocessor.check preprocessor.component = .ok () ∧ Capability.policy.check policy.component = .ok () ∧
      (∀ e ∈ exploration, Capability.exploration.check e.component = .ok ()) ∧
      ∃ contract, contractOf preprocessor.component policy.component = .ok contract ∧
        a = .mk kind (component exploration.isSome contract) ([preprocessor.renamed preprocessorChild,
          policy.renamed policyChild] ++ exploration.toList.map (·.renamed explorationChild)) := by
  unfold ofParts at h
  obtain ⟨⟨⟩, hpreprocessor, h⟩ := Outcome.bind_ok.mp h
  obtain ⟨⟨⟩, hpolicy, h⟩ := Outcome.bind_ok.mp h
  rcases exploration with _ | e
  · obtain ⟨contract, hcontract, h⟩ := Outcome.bind_ok.mp h
    cases h
    exact ⟨hpreprocessor, hpolicy, fun e he => (nomatch he), contract, hcontract, rfl⟩
  · obtain ⟨⟨⟩, hexploration, h⟩ := Outcome.bind_ok.mp h
    obtain ⟨contract, hcontract, h⟩ := Outcome.bind_ok.mp h
    cases h
    refine ⟨hpreprocessor, hpolicy, fun e' he => ?_, contract, hcontract, rfl⟩
    cases he
    exact hexploration

/-- The parts of an actor answer its calls. -/
theorem ofParts_sound {preprocessor policy : Assembly} {exploration : Option Assembly}
    (hpreprocessor : preprocessor.Sound) (hpolicy : policy.Sound) (hexploration : ∀ e ∈ exploration, e.Sound)
    (h : ofParts preprocessor policy exploration = .ok a) : a.Sound := by
  obtain ⟨hprepares, hdecides, hexplores, contract, -, rfl⟩ := ofParts_ok h
  refine .mk (by decide) ?_ (fun m hm c hc => ?_) ?_
  · cases exploration with
    | none => exact (by decide : [preprocessorChild, policyChild].Nodup)
    | some e => exact (by decide : [preprocessorChild, policyChild, explorationChild].Nodup)
  · rcases calls_component hm hc with rfl | ⟨hexploring, rfl⟩ | ⟨name, hname, rfl⟩
    · exact ⟨_, List.mem_cons_self, rfl, Capability.check_ok.mp hprepares preprocess (by decide)⟩
    · obtain ⟨e, rfl⟩ := Option.isSome_iff_exists.mp hexploring
      refine ⟨e.renamed explorationChild, ?_, rfl, Capability.check_ok.mp (hexplores e rfl) getAction (by decide)⟩
      exact List.mem_append_right _ (List.mem_singleton_self _)
    · exact ⟨_, List.mem_cons_of_mem _ List.mem_cons_self, rfl, Capability.check_ok.mp hdecides name hname⟩
  · refine List.forall_mem_append.mpr ⟨?_, fun child hchild => ?_⟩
    · exact List.forall_mem_cons.mpr
        ⟨hpreprocessor.renamed (by decide), List.forall_mem_singleton.mpr (hpolicy.renamed (by decide))⟩
    · obtain ⟨e, he, rfl⟩ := List.mem_map.mp hchild
      exact (hexploration e (Option.mem_toList.mp he)).renamed (by decide)

theorem ofSources_sound (hresolve : resolve.Sound) {preprocessor policy : Json} {exploration : Option AssemblySource}
    (hexploration : ∀ source ∈ exploration, ∃ v, source = .json v)
    (h : ofSources resolve (.json preprocessor) (.json policy) exploration = .ok a) : a.Sound := by
  obtain ⟨p, hp, h⟩ := Outcome.bind_ok.mp h
  obtain ⟨q, hq, h⟩ := Outcome.bind_ok.mp h
  obtain ⟨e, he, h⟩ := Outcome.bind_ok.mp h
  refine ofParts_sound (resolveStack_sound (by decide) hresolve hp) (hresolve hq).1 (fun b hb => ?_) h
  cases exploration with
  | none =>
    cases he
    cases hb
  | some source =>
    obtain ⟨v, rfl⟩ := hexploration source rfl
    obtain ⟨c, hc, hsome⟩ := Outcome.map_ok.mp he
    cases hsome
    cases hb
    exact (hresolve hc).1

theorem constructor_sound : constructor.Sound := by
  intro args resolve a hresolve h
  dsimp only [constructor] at h
  split at h
  · refine ofSources_sound hresolve (fun source hsource => ?_) h
    split at hsource
    · cases hsource
    · cases hsource
    · cases hsource
      exact ⟨_, rfl⟩
  · cases h

end Actor

end Layers

/-! ## Registries -/

namespace Registry

variable {a b : Assembly}

/-- The name that the arguments give was checked. -/
theorem named_sound {args : Arguments} (h : a.Sound) (hnamed : named args a = .ok b) : b.Sound := by
  obtain ⟨scope, -, hnamed⟩ := Outcome.bind_ok.mp hnamed
  cases scope with
  | none =>
    cases hnamed
    exact h
  | some scope =>
    obtain ⟨⟨⟩, hname, hnamed⟩ := Outcome.bind_ok.mp hnamed
    cases hnamed
    exact h.renamed (Tree.checkName_ok.mp hname)

theorem resolveVia_sound {build : ComponentSpec → Outcome Assembly} (h : ∀ s a, build s = .ok a → a.Sound) :
    (resolveVia build).Sound := by
  intro v c a hv
  obtain ⟨s, -, hv⟩ := Outcome.bind_ok.mp hv
  obtain ⟨b, hb, hv⟩ := Outcome.bind_ok.mp hv
  obtain ⟨⟨⟩, hcheck, hv⟩ := Outcome.bind_ok.mp hv
  cases hv
  exact ⟨h s a hb, Capability.check_ok.mp hcheck⟩

/-- A registry of constructors that make sound assemblies of sound parts makes sound assemblies. -/
theorem buildWithin_sound {r : Registry} (hr : ∀ c ∈ r, c.Sound) (depth : Nat) (s : ComponentSpec) (a : Assembly)
    (h : r.buildWithin depth s = .ok a) : a.Sound := by
  induction depth generalizing s a with
  | zero => cases h
  | succ depth ih =>
    rw [buildWithin] at h
    split at h
    · cases h
    · next c hc =>
      obtain ⟨b, hb, hnamed⟩ := Outcome.bind_ok.mp h
      exact named_sound (hr c (List.mem_of_find?_eq_some hc) (resolveVia_sound ih) hb) hnamed

theorem layers_sound (generator : Random.Generator) : ∀ c ∈ layers generator, c.Sound := by
  intro c hc
  simp only [layers, List.mem_cons, List.not_mem_nil, or_false] at hc
  rcases hc with rfl | rfl | rfl | rfl | rfl | rfl | rfl | rfl | rfl | rfl
  · exact Layers.Actor.constructor_sound
  · exact Layers.clipConstructor_sound
  · exact Layers.toFloatConstructor_sound
  · exact Layers.denseConstructor_sound generator
  · exact Layers.Exploration.constructor_sound
  · exact Layers.Advantage.constructor_sound
  · exact Layers.stackConstructor_sound (by decide)
  · exact Layers.Policy.constructor_sound generator
  · exact Layers.stackConstructor_sound (by decide)
  · exact Layers.scaleConstructor_sound

/-- Whatever the constructors make of a spec can be built, from whichever generator weights are drawn. There
    is a tree for it, each call that a method declares leads to a child that declares the method called, and
    the first build of a graph over the tree on which nothing was recorded succeeds, in either mode and on any
    kernels. -/
theorem constructed_builds (generator : Random.Generator) (v : Json) (capability : Capability) {a : Assembly}
    (h : (layers generator).instantiate (.json v) capability = .ok a) : ∃ t, Tree.ofAssembly a = .ok t ∧ t.Connected ∧
      ∀ id backend, ∃ report g, Graph.build.runOn (Graph.fresh id t backend) = (.ok report, g) := by
  have hsound : a.Sound := (resolveVia_sound (fun s a hs => buildWithin_sound (layers_sound generator) _ s a hs) h).1
  obtain ⟨t, ht⟩ := Tree.ofAssembly_of_sound hsound
  have hconnected : t.Connected := Tree.ofAssembly_connected hsound ht
  have hstate : t.state = .unbuilt := (Tree.ofAssembly_untouched ht).state
  exact ⟨t, ht, hconnected, Graph.first_build hconnected hstate⟩

/-- An actor that explores, whose preprocessor has two layers of one name. -/
def explorer : Json :=
  let scale : Json := .object [("factor", .int 2), ("type", .string "scale")]
  .object [
    ("exploration_spec", .object [("num_actions", .int 2), ("type", .string "epsilon-exploration")]),
    ("policy_spec", .object [
      ("network", .array [.object [("in_features", .int 3), ("type", .string "dense"), ("units", .int 4)]]),
      ("num_actions", .int 2), ("scope", .string "brain"), ("type", .string "policy")]),
    ("preprocessor_spec", .array [scale, scale]), ("scope", .string "agent"), ("type", .string "actor-component")]

theorem explorer_builds : ∃ a t, layers.instantiate (.json explorer) .actor = .ok a ∧ Tree.ofAssembly a = .ok t ∧
    t.Connected ∧ ∀ id backend, ∃ report g, Graph.build.runOn (Graph.fresh id t backend) = (.ok report, g) := by
  have hmade : (layers.instantiate (.json explorer) .actor).toOption.isSome = true := by decide +kernel
  obtain ⟨a, ha⟩ := Option.isSome_iff_exists.mp hmade
  obtain ⟨t, ht, hbuilds⟩ := constructed_builds Random.seeded explorer .actor (Outcome.toOption_ok.mp ha)
  exact ⟨a, t, Outcome.toOption_ok.mp ha, ht, hbuilds⟩

end Registry

end ComponentFlow
