/-
  ComponentFlow.Proofs.Connection — assemblies that can be built. An assembly is sound if names are
  allowed, siblings are told apart, and the calls that methods declare lead to children that declare the
  methods called, at every level. Then there is a tree for it (`Tree.ofAssembly_of_sound`), whose calls
  are connected, and the first build of a graph over this tree succeeds (`Graph.first_build`).
-/
import ComponentFlow.Proofs.Build
import ComponentFlow.Proofs.Placement
import ComponentFlow.Proofs.Record
import ComponentFlow.Proofs.Resolve

namespace ComponentFlow

theorem Outcome.forM_ok {α : Type} {f : α → Outcome Unit} {xs : List α} :
    xs.forM f = .ok () ↔ ∀ x ∈ xs, f x = .ok () := by
  induction xs with
  | nil => simp [pure, Except.pure]
  | cons x xs ih =>
    rw [List.forall_mem_cons, ← ih]
    show (f x >>= fun _ => xs.forM f) = .ok () ↔ _
    rw [Outcome.bind_ok]
    constructor
    · rintro ⟨⟨⟩, hx, hrest⟩
      exact ⟨hx, hrest⟩
    · rintro ⟨hx, hrest⟩
      exact ⟨(), hx, hrest⟩

/-! ## Sound assemblies -/

/-- Fit for a tree: names are allowed, siblings are told apart, and what is declared to be called is there. -/
inductive Assembly.Sound : Assembly → Prop
  | mk {name : String} {component : Component} {children : List Assembly} :
      Tree.nameFault? name = none → (children.map Assembly.name).Nodup →
      (∀ m ∈ component.methods, ∀ call ∈ m.calls,
        ∃ child ∈ children, child.name = call.1 ∧ child.component.declares call.2 = true) →
      (∀ child ∈ children, Assembly.Sound child) → Assembly.Sound (.mk name component children)

/-- The methods call no children. -/
def Component.Solitary (c : Component) : Prop := ∀ m ∈ c.methods, m.calls = []

namespace Assembly

variable {a part : Assembly} {name : String} {component : Component}

theorem Sound.named (h : a.Sound) : Tree.nameFault? a.name = none := by
  cases h with
  | mk hname => exact hname

theorem Sound.renamed (h : a.Sound) (hname : Tree.nameFault? name = none) : (a.renamed name).Sound := by
  cases h with
  | mk _ hapart hcalls hchildren => exact .mk hname hapart hcalls hchildren

theorem sound_leaf (hname : Tree.nameFault? name = none) (h : component.Solitary) : (leaf name component).Sound := by
  refine .mk hname List.nodup_nil (fun m hm call hcall => ?_) fun child hchild => nomatch hchild
  rw [h m hm] at hcall
  cases hcall

theorem Sound.within (h : a.Sound) (hpart : part.Within a) : part.Sound := by
  induction hpart with
  | self => exact h
  | child hchild _ ih =>
    cases h with
    | mk _ _ _ hchildren => exact ih (hchildren _ hchild)

end Assembly

/-! ## Trees of sound assemblies -/

namespace Tree

variable {t : Tree} {id first : NodeId} {a : Assembly}

theorem checkChildren_of_apart {owner : String} {seen : List String} {as : List Assembly}
    (hapart : (as.map Assembly.name).Nodup) (hseen : ∀ a ∈ as, a.name ∉ seen)
    (hok : ∀ a ∈ as, checkAssembly a = .ok ()) : checkChildren owner seen as = .ok () := by
  induction as generalizing seen with
  | nil => rfl
  | cons a rest ih =>
    obtain ⟨hok, hrest⟩ := List.forall_mem_cons.mp hok
    obtain ⟨hnew, hseen⟩ := List.forall_mem_cons.mp hseen
    rw [List.map_cons, List.nodup_cons] at hapart
    rw [checkChildren, if_neg (by simpa using hnew), hok]
    refine ih hapart.2 (fun b hb => ?_) hrest
    rw [List.mem_cons, not_or]
    exact ⟨fun heq => hapart.1 (heq ▸ List.mem_map_of_mem hb), hseen b hb⟩

theorem checkAssembly_of_sound (h : a.Sound) : checkAssembly a = .ok () := by
  induction h with
  | mk hname hapart _ _ ih =>
    rw [checkAssembly, checkName_ok.mpr hname]
    exact checkChildren_of_apart hapart (fun _ _ => List.not_mem_nil) ih

/-- Every declared call of every node leads to a child that declares the method. -/
def Connected (t : Tree) : Prop := ∀ id, ∀ call ∈ t.declaredCalls id,
  ∃ child c, t.child? id call.1 = some child ∧ t.component? child = some c ∧ c.declares call.2 = true

theorem Laid.component (h : Laid t.nodes first id a) : t.component? id = some a.component := by
  cases h with
  | mk _ hn =>
    rw [component?, node?, hn]
    rfl

theorem Laid.connected (h : Laid t.nodes first id a) (ha : a.Sound) {call : String × String}
    (hcall : call ∈ t.declaredCalls id) :
    ∃ child c, t.child? id call.1 = some child ∧ t.component? child = some c ∧ c.declares call.2 = true := by
  rw [declaredCalls, h.component, Option.map_some, Option.getD_some] at hcall
  obtain ⟨m, hm, hdeclared⟩ := List.mem_flatMap.mp hcall
  cases h with
  | mk _ hn hchildren =>
    cases ha with
    | mk _ hapart hcalls _ =>
      obtain ⟨child, hchild, hname, hdeclares⟩ := hcalls m hm call hdeclared
      obtain ⟨below, hlookup, hlaid⟩ := hchildren.lookup hapart hchild
      refine ⟨below, child.component, ?_, hlaid.component, hdeclares⟩
      rw [child?, children_of_node hn, ← hname, hlookup]

theorem ofAssembly_connected (h : a.Sound) (ht : ofAssembly a = .ok t) : t.Connected := by
  intro id call hcall
  have hid : id < t.size := by
    by_contra hout
    have hnone : t.node? id = none := Array.getElem?_eq_none (Nat.not_lt.mp hout)
    simp [declaredCalls, component?, hnone] at hcall
  obtain ⟨part, hpart, hlaid⟩ := (ofAssembly_laid ht).2 id hid
  exact hlaid.connected (h.within hpart) hcall

theorem ofAssembly_of_sound (h : a.Sound) : ∃ t, ofAssembly a = .ok t := by
  rw [ofAssembly, checkAssembly_of_sound h]
  exact ⟨_, rfl⟩

/-- Calls that are connected pass the checks of a build. -/
theorem Connected.checkCalls (h : t.Connected) (ids : List NodeId) : t.checkCalls ids = .ok () := by
  have hcall : ∀ id, ∀ call ∈ t.declaredCalls id, t.checkCall id call = .ok () := by
    intro id call hcall
    obtain ⟨child, c, hchild, hc, hdeclares⟩ := h id call hcall
    simp only [checkCall, hchild, hc, Option.map_some, Option.getD_some, hdeclares, if_true]
  exact Outcome.forM_ok.mpr fun id _ => Outcome.forM_ok.mpr (hcall id)

end Tree

namespace Graph

variable {t : Tree}

theorem fresh_buildable (h : t.Connected) (hstate : t.state = .unbuilt) (id : Nat) (backend : Backend) :
    (fresh id t backend).Buildable :=
  ⟨fun hbuilding => by simp [Graph.state, fresh, hstate] at hbuilding, fun _ => h.checkCalls _⟩

/-- The first build of a graph on which nothing was recorded. -/
theorem first_build (h : t.Connected) (hstate : t.state = .unbuilt) (id : Nat) (backend : Backend) :
    ∃ report g, build.runOn (fresh id t backend) = (.ok report, g) := by
  have hbuildable : (fresh id t backend).Buildable := fresh_buildable h hstate id backend
  rcases hmust : (fresh id t backend).mustResolve with _ | _
  · exact ⟨_, _, build_idle hbuildable hmust⟩
  · have hrun : ∃ a m, (fresh id t backend).resolution.run [] = .ok (a, m) :=
      ⟨_, _, Resolution.run_ok.mpr ⟨[], _, rfl, rfl, rfl⟩⟩
    obtain ⟨a, m, hrun⟩ := hrun
    exact ⟨_, _, build_resolved hbuildable hmust hrun⟩

end Graph

end ComponentFlow
