/-
  ComponentFlow.Proofs.Placement — where the parts of an assembly come to stand in its tree. Placing an
  assembly changes none of the nodes that were there, save for the entries of the one that its
  children are put below. So what is laid out stays laid out while more is placed, the node of an
  assembly holds one entry for each child, in order, and every node of the tree is that of some part of
  the assembly (`Tree.ofAssembly_laid`).

  - `Tree.Laid`: a node and those below it are those of an assembly.
-/
import ComponentFlow.Proofs.Editing

namespace ComponentFlow

/-- One of the assemblies that an assembly is made of, itself included. -/
inductive Assembly.Within (part : Assembly) : Assembly → Prop
  | self : Within part part
  | child {name component children child} : child ∈ children → Within part child →
      Within part (.mk name component children)

namespace Tree

mutual

/-- The node at `id` has the name and the component of an assembly, and entries that lead to its children. None
    of these nodes stands before `first`. -/
inductive Laid (nodes : Array Node) (first : NodeId) : NodeId → Assembly → Prop
  | mk {id : NodeId} {n : Node} {children : List Assembly} : first ≤ id → nodes[id]? = some n →
      LaidAll nodes first n.children children → Laid nodes first id (.mk n.name n.component children)

inductive LaidAll (nodes : Array Node) (first : NodeId) : List (String × NodeId) → List Assembly → Prop
  | nil : LaidAll nodes first [] []
  | cons {id : NodeId} {a : Assembly} {entries : List (String × NodeId)} {rest : List Assembly} :
      Laid nodes first id a → LaidAll nodes first entries rest →
      LaidAll nodes first ((a.name, id) :: entries) (a :: rest)

end

variable {nodes nodes' : Array Node} {first first' : NodeId}

/-! ## What stays -/

mutual

theorem placed_kept (above : Option NodeId) (a : Assembly) {nodes : Array Node} {id : NodeId} (hid : id < nodes.size) :
    (placed above a nodes)[id]? = nodes[id]? := by
  cases a with
  | mk name component children =>
    have hlater : id < (nodes.push ⟨name, above, [], .unbuilt, component⟩).size := by
      rw [Array.size_push]
      exact Nat.lt_succ_of_lt hid
    rw [placed, placedAll_kept nodes.size children hlater (Nat.ne_of_lt hid), Array.getElem?_push,
      if_neg (Nat.ne_of_lt hid)]

theorem placedAll_kept (owner : NodeId) (as : List Assembly) {nodes : Array Node} {id : NodeId} (hid : id < nodes.size)
    (hne : id ≠ owner) : (placedAll owner as nodes)[id]? = nodes[id]? := by
  cases as with
  | nil => rfl
  | cons a rest =>
    have hlater : id < ((placed (some owner) a nodes).modify owner (·.adopt a.name nodes.size)).size := by
      rw [Array.size_modify]
      exact Nat.lt_trans hid (size_placed (some owner) a nodes)
    rw [placedAll, placedAll_kept owner rest hlater hne, Array.getElem?_modify, if_neg (Ne.symm hne),
      placed_kept (some owner) a hid]

end

/-- What is laid out stays so where no node from the first one on is changed. -/
def Keeps (first : NodeId) (nodes nodes' : Array Node) : Prop :=
  ∀ {id n}, first ≤ id → nodes[id]? = some n → nodes'[id]? = some n

/-- Putting children below an earlier node changes no node behind it. -/
theorem placedAll_keeps {owner : NodeId} (howner : owner < first) (as : List Assembly) (adopt : Node → Node)
    (nodes : Array Node) : Keeps first nodes (placedAll owner as (nodes.modify owner adopt)) := by
  intro id n hfirst hn
  have hne : id ≠ owner := Nat.ne_of_gt (Nat.lt_of_lt_of_le howner hfirst)
  have hid : id < (nodes.modify owner adopt).size := by
    rw [Array.size_modify]
    exact (Array.getElem?_eq_some_iff.mp hn).1
  rw [placedAll_kept owner as hid hne, Array.getElem?_modify, if_neg (Ne.symm hne), hn]

mutual

theorem Laid.keep (hkeeps : Keeps first nodes nodes') (hfirst : first' ≤ first) (a : Assembly) {id : NodeId}
    (h : Laid nodes first id a) : Laid nodes' first' id a := by
  cases a with
  | mk name component children =>
    cases h with
    | mk hid hn hchildren =>
      exact .mk (Nat.le_trans hfirst hid) (hkeeps hid hn) (LaidAll.keep hkeeps hfirst children hchildren)

theorem LaidAll.keep (hkeeps : Keeps first nodes nodes') (hfirst : first' ≤ first) {entries : List (String × NodeId)}
    (as : List Assembly) (h : LaidAll nodes first entries as) : LaidAll nodes' first' entries as := by
  cases as with
  | nil =>
    cases h
    exact .nil
  | cons a rest =>
    cases h with
    | cons ha hrest => exact .cons (Laid.keep hkeeps hfirst a ha) (LaidAll.keep hkeeps hfirst rest hrest)

end

/-! ## What is placed -/

/-- Every node from the first one on is that of a part of one of these assemblies. -/
def Covered (nodes : Array Node) (first : NodeId) (as : List Assembly) : Prop :=
  ∀ id, first ≤ id → id < nodes.size → ∃ a ∈ as, ∃ part, part.Within a ∧ Laid nodes first id part

mutual

theorem placed_laid (above : Option NodeId) (a : Assembly) (nodes : Array Node) :
    Laid (placed above a nodes) nodes.size nodes.size a ∧ Covered (placed above a nodes) nodes.size [a] := by
  cases a with
  | mk name component children =>
    have hn : (nodes.push ⟨name, above, [], .unbuilt, component⟩)[nodes.size]? =
        some ⟨name, above, [], .unbuilt, component⟩ := Array.getElem?_push_size
    obtain ⟨entries, howner, hchildren, hcovered⟩ := placedAll_laid children hn
    rw [Array.size_push] at hchildren hcovered
    rw [placed]
    have hlaid : Laid (placedAll nodes.size children (nodes.push ⟨name, above, [], .unbuilt, component⟩)) nodes.size
        nodes.size (.mk name component children) :=
      .mk (Nat.le_refl _) howner (LaidAll.keep (fun _ hm => hm) (Nat.le_succ _) children hchildren)
    refine ⟨hlaid, fun id hfirst hid => ⟨_, List.mem_singleton_self _, ?_⟩⟩
    rcases Nat.eq_or_lt_of_le hfirst with rfl | hbelow
    · exact ⟨_, .self, hlaid⟩
    · obtain ⟨child, hchild, part, hpart, hplaced⟩ := hcovered id hbelow hid
      exact ⟨part, .child hchild hpart, Laid.keep (fun _ hm => hm) (Nat.le_succ _) part hplaced⟩

theorem placedAll_laid (as : List Assembly) {nodes : Array Node} {owner : NodeId} {n : Node}
    (hn : nodes[owner]? = some n) : ∃ entries,
      (placedAll owner as nodes)[owner]? = some { n with children := n.children ++ entries } ∧
      LaidAll (placedAll owner as nodes) nodes.size entries as ∧ Covered (placedAll owner as nodes) nodes.size as := by
  cases as with
  | nil =>
    refine ⟨[], by rw [List.append_nil]; exact hn, .nil, fun id hfirst hid => ?_⟩
    exact absurd hid (Nat.not_lt.mpr hfirst)
  | cons a rest =>
    have howner : owner < nodes.size := (Array.getElem?_eq_some_iff.mp hn).1
    have hadopt : ((placed (some owner) a nodes).modify owner (·.adopt a.name nodes.size))[owner]? =
        some (n.adopt a.name nodes.size) := by
      rw [Array.getElem?_modify, if_pos rfl, placed_kept (some owner) a howner, hn]
      rfl
    obtain ⟨hlaid, hcovered⟩ := placed_laid (some owner) a nodes
    obtain ⟨entries, hlast, hrest, hcovered'⟩ := placedAll_laid rest hadopt
    rw [Array.size_modify] at hrest hcovered'
    rw [placedAll]
    -- The first child and what is below it are not touched by the others.
    have hkeeps : Keeps nodes.size (placed (some owner) a nodes)
        (placedAll owner rest ((placed (some owner) a nodes).modify owner (·.adopt a.name nodes.size))) :=
      placedAll_keeps howner rest _ _
    have hle : nodes.size ≤ (placed (some owner) a nodes).size := Nat.le_of_lt (size_placed (some owner) a nodes)
    refine ⟨(a.name, nodes.size) :: entries, ?_, .cons (Laid.keep hkeeps (Nat.le_refl _) a hlaid)
      (LaidAll.keep (fun _ hm => hm) hle rest hrest), fun id hfirst hid => ?_⟩
    · rw [hlast, Node.adopt, List.append_assoc]
      rfl
    · by_cases hearlier : id < (placed (some owner) a nodes).size
      · obtain ⟨b, hb, part, hpart, hplaced⟩ := hcovered id hfirst hearlier
        rw [List.mem_singleton.mp hb] at hpart
        exact ⟨a, List.mem_cons_self, part, hpart, Laid.keep hkeeps (Nat.le_refl _) part hplaced⟩
      · obtain ⟨b, hb, part, hpart, hplaced⟩ := hcovered' id (Nat.not_lt.mp hearlier) hid
        exact ⟨b, List.mem_cons_of_mem _ hb, part, hpart, Laid.keep (fun _ hm => hm) hle part hplaced⟩

end

/-! ## Trees of assemblies -/

theorem LaidAll.names {entries : List (String × NodeId)} {as : List Assembly} (h : LaidAll nodes first entries as) :
    entries.map Prod.fst = as.map Assembly.name := by
  induction as generalizing entries with
  | nil =>
    cases h
    rfl
  | cons a rest ih =>
    cases h with
    | cons _ hrest => rw [List.map_cons, List.map_cons, ih hrest]

/-- The entry of a child is found by its name if its siblings have other names. -/
theorem LaidAll.lookup {entries : List (String × NodeId)} {as : List Assembly} (h : LaidAll nodes first entries as)
    (hnodup : (as.map Assembly.name).Nodup) {child : Assembly} (hchild : child ∈ as) :
    ∃ id, entries.lookup child.name = some id ∧ Laid nodes first id child := by
  have hentry : ∃ id, (child.name, id) ∈ entries ∧ Laid nodes first id child := by
    clear hnodup
    induction as generalizing entries with
    | nil => cases hchild
    | cons a rest ih =>
      cases h with
      | @cons id _ _ _ hlaid hrest =>
        rcases List.mem_cons.mp hchild with rfl | hlater
        · exact ⟨id, List.mem_cons_self, hlaid⟩
        · obtain ⟨id, hid, hlaid⟩ := ih hrest hlater
          exact ⟨id, List.mem_cons_of_mem _ hid, hlaid⟩
  obtain ⟨id, hid, hlaid⟩ := hentry
  exact ⟨id, (lookup_iff_mem (h.names ▸ hnodup)).mpr hid, hlaid⟩

/-- The root is the node of the assembly, and every node is that of a part of it. -/
theorem ofAssembly_laid {a : Assembly} {t : Tree} (h : ofAssembly a = .ok t) : Laid t.nodes root root a ∧
    ∀ id < t.size, ∃ part, part.Within a ∧ Laid t.nodes root id part := by
  obtain ⟨⟨⟩, -, htree⟩ := Outcome.bind_ok.mp h
  cases htree
  obtain ⟨hlaid, hcovered⟩ := placed_laid none a #[]
  refine ⟨hlaid, fun id hid => ?_⟩
  obtain ⟨b, hb, part, hpart, hplaced⟩ := hcovered id (Nat.zero_le id) hid
  rw [List.mem_singleton.mp hb] at hpart
  exact ⟨part, hpart, hplaced⟩

end Tree

end ComponentFlow
