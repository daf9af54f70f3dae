/-
  ComponentFlow.Proofs.Scope — scopes of a forest. The scope of a node is the names on the way from the
  root, joined by '/' (`Tree.Forest.scope_iff`), and a node is found by its scope and by nothing else
  (`Tree.Forest.find_iff`): no name holds a '/', so the names are read off the scope, and siblings have
  names of their own, so the names lead to one node. Once a node has a scope, the scope stays
  (`Tree.Forest.scope_steps`): only loose nodes are linked and renamed.
-/
import ComponentFlow.Proofs.Linking
import Mathlib.Data.List.Induction

namespace ComponentFlow

theorem Text.splitAt_eq_splitOn (sep : Char) (cs : List Char) : splitAt sep cs = cs.splitOn sep := by
  induction cs with
  | nil => rfl
  | cons c rest ih =>
    rw [splitAt, ih, List.splitOn, List.splitOn, List.splitOnP_cons_eq_if_modifyHead]
    by_cases hc : c = sep
    · simp [hc]
    · rw [if_neg hc, if_neg (by simpa using hc)]
      rcases hsplit : rest.splitOnP fun x => x == sep with _ | ⟨piece, pieces⟩
      · exact absurd hsplit (List.splitOnP_ne_nil _ _)
      · rfl

namespace Tree

variable {t : Tree} {id p : NodeId} {name : String} {names : List String}

/-- The texts that may be names. -/
theorem nameFault_none : nameFault? name = none ↔
    name ≠ "" ∧ ∀ c ∈ name.toList, c.toNat < 128 ∧ c ≠ separator := by
  unfold nameFault?
  by_cases hempty : name.isEmpty = true
  · rw [if_pos hempty]
    simp [String.isEmpty_iff.mp hempty]
  · rw [if_neg hempty]
    have hne : name ≠ "" := fun heq => hempty (String.isEmpty_iff.mpr heq)
    by_cases hascii : name.toList.all (fun c => c.toNat < 128) = true
    · rw [hascii]
      simp only [List.all_eq_true, decide_eq_true_eq] at hascii
      by_cases hsep : separator ∈ name.toList
      · simp only [List.contains_iff_mem, hsep, Bool.not_true, Bool.false_eq_true, if_false, if_true, reduceCtorEq,
          false_iff]
        exact fun hall => (hall.2 separator hsep).2 rfl
      · simp only [List.contains_iff_mem, hsep, Bool.not_true, Bool.false_eq_true, if_false, true_iff]
        exact ⟨hne, fun c hc => ⟨hascii c hc, fun heq => hsep (heq ▸ hc)⟩⟩
    · rw [if_pos (by simpa using hascii)]
      simp only [reduceCtorEq, false_iff]
      intro hall
      refine hascii (List.all_eq_true.mpr fun c hc => ?_)
      exact decide_eq_true (hall.2 c hc).1

/-! ## The names on the way from the root -/

/-- The names on the way from the root down to a node. -/
inductive Path (t : Tree) : NodeId → List String → Prop
  | start {name : String} : t.name? root = some name → Path t root [name]
  | down {id p : NodeId} {name : String} {names : List String} : t.parent? id = some p → t.name? id = some name →
      Path t p names → Path t id (names ++ [name])

namespace Path

theorem ne_nil (h : t.Path id names) : names ≠ [] := by
  cases h with
  | start => exact List.cons_ne_nil _ _
  | down => simp

/-- The first of the names is that of the root. -/
theorem eq_cons (h : t.Path id names) : ∃ rest, names = t.rootName :: rest := by
  induction h with
  | start hname => exact ⟨[], by rw [rootName, hname, Option.getD_some]⟩
  | @down _ _ name _ _ _ _ ih =>
    obtain ⟨rest, rfl⟩ := ih
    exact ⟨rest ++ [name], rfl⟩

theorem under (h : t.Path id names) : t.Under id root := by
  induction h with
  | start => exact .refl
  | down hp _ _ ih => exact .head hp ih

/-- The names on the way to the root itself. -/
theorem root_iff (hforest : t.Forest) : t.Path root names ↔ ∃ name, t.name? root = some name ∧ names = [name] := by
  constructor
  · intro h
    cases h with
    | start hname => exact ⟨_, hname, rfl⟩
    | down hp => cases hforest.root_loose.symm.trans hp
  · rintro ⟨name, hname, rfl⟩
    exact .start hname

/-- The names on the way to a node below another one. -/
theorem down_iff (hforest : t.Forest) (hp : t.parent? id = some p) :
    t.Path id names ↔ ∃ before name, t.Path p before ∧ t.name? id = some name ∧ names = before ++ [name] := by
  constructor
  · intro h
    cases h with
    | start => cases hforest.root_loose.symm.trans hp
    | down hq hname hbefore =>
      cases hp.symm.trans hq
      exact ⟨_, _, hbefore, hname, rfl⟩
  · rintro ⟨before, name, hbefore, hname, rfl⟩
    exact .down hp hname hbefore

/-- No names lead to a loose node other than the root. -/
theorem not_loose (hloose : t.parent? id = none) (hne : id ≠ root) : ¬ t.Path id names := by
  intro h
  cases h with
  | start => exact hne rfl
  | down hp => cases hloose.symm.trans hp

theorem named (hforest : t.Forest) (h : t.Path id names) : ∀ name ∈ names, nameFault? name = none := by
  induction h with
  | start hname => exact List.forall_mem_singleton.mpr (hforest.named hname)
  | down _ hname _ ih =>
    intro other hother
    rcases List.mem_append.mp hother with hold | hlast
    · exact ih other hold
    · exact List.mem_singleton.mp hlast ▸ hforest.named hname

end Path

/-- Names lead from the root to a node exactly if the way up from it leads to the root. -/
theorem Forest.path_iff (h : t.Forest) : (∃ names, t.Path id names) ↔ t.Under id root := by
  constructor
  · exact fun ⟨_, hpath⟩ => hpath.under
  · intro hunder
    induction hunder using Relation.ReflTransGen.head_induction_on with
    | refl =>
      obtain ⟨n, hn, -⟩ := h.rooted
      exact ⟨[n.name], .start (by rw [name?, hn, Option.map_some])⟩
    | head hp _ ih =>
      obtain ⟨names, hnames⟩ := ih
      obtain ⟨name, hname, -⟩ := h.entry hp
      exact ⟨names ++ [name], .down hp hname hnames⟩

/-! ## Scopes -/

theorem join_snoc (hne : names ≠ []) (name : String) :
    "/".intercalate (names ++ [name]) = (("/".intercalate names).push separator) ++ name := by
  rw [String.intercalate_append_of_ne_nil hne (List.cons_ne_nil _ _), String.intercalate_singleton]
  congr 1

section ScopeWithin

variable {steps : Nat}

theorem scopeWithin_root : t.scopeWithin steps root = t.name? root := by
  cases steps <;> rw [scopeWithin, if_pos rfl]

theorem scopeWithin_loose (hloose : t.parent? id = none) (hne : id ≠ root) : t.scopeWithin steps id = none := by
  cases steps with
  | zero => rw [scopeWithin, if_neg hne]
  | succ steps =>
    rw [scopeWithin, if_neg hne]
    rw [parent?] at hloose
    rcases hn : t.node? id with _ | n
    · rfl
    · rw [hn, Option.bind_some] at hloose
      simp [hloose]

theorem scopeWithin_below (hp : t.parent? id = some p) (hname : t.name? id = some name) (hne : id ≠ root) :
    t.scopeWithin (steps + 1) id = (t.scopeWithin steps p).map fun above => (above.push separator) ++ name := by
  obtain ⟨n, hn, rfl⟩ := Option.map_eq_some_iff.mp hname
  have hparent : n.parent = some p := by rwa [parent?, hn, Option.bind_some] at hp
  rw [scopeWithin, if_neg hne, hn]
  rcases hscope : t.scopeWithin steps p with _ | above <;> simp [hparent, hscope]

/-- A scope that may be as far below the root as the way up is long is found. -/
theorem scopeWithin_iff {above : List NodeId} {scope : String} (hforest : t.Forest) (h : t.Ascent id above)
    (hsteps : above.length ≤ steps + 1) :
    t.scopeWithin steps id = some scope ↔ ∃ names, t.Path id names ∧ scope = "/".intercalate names := by
  induction h generalizing steps scope with
  | @top id hp =>
    by_cases hroot : id = root
    · subst hroot
      simp only [scopeWithin_root, Path.root_iff hforest]
      constructor
      · exact fun hscope => ⟨[scope], ⟨scope, hscope, rfl⟩, by simp⟩
      · rintro ⟨_, ⟨name, hname, rfl⟩, rfl⟩
        simpa using hname
    · rw [scopeWithin_loose hp hroot]
      simp [Path.not_loose hp hroot]
  | @up id p above hp habove ih =>
    have hne : id ≠ root := by
      rintro rfl
      cases hforest.root_loose.symm.trans hp
    cases steps with
    | zero => cases habove <;> simp at hsteps
    | succ steps =>
      obtain ⟨name, hname, -⟩ := hforest.entry hp
      rw [scopeWithin_below hp hname hne, Option.map_eq_some_iff]
      constructor
      · rintro ⟨scope, hscope, rfl⟩
        obtain ⟨names, hnames, rfl⟩ := (ih (by simpa using hsteps)).mp hscope
        exact ⟨names ++ [name], .down hp hname hnames, (join_snoc hnames.ne_nil name).symm⟩
      · rintro ⟨_, hpath, rfl⟩
        obtain ⟨names, other, hnames, hother, rfl⟩ := (Path.down_iff hforest hp).mp hpath
        obtain rfl : name = other := Option.some.inj (hname.symm.trans hother)
        exact ⟨_, (ih (by simpa using hsteps)).mpr ⟨names, hnames, rfl⟩, (join_snoc hnames.ne_nil name).symm⟩

end ScopeWithin

theorem scope_root : t.scope? root = t.name? root := scopeWithin_root

theorem scope_loose (hloose : t.parent? id = none) (hne : id ≠ root) : t.scope? id = none :=
  scopeWithin_loose hloose hne

namespace Forest

/-- The scope of a node is the names on the way to it, joined by '/'. -/
theorem scope_iff (h : t.Forest) {scope : String} :
    t.scope? id = some scope ↔ ∃ names, t.Path id names ∧ scope = "/".intercalate names := by
  obtain ⟨above, habove⟩ := h.ascent id
  by_cases hid : id < t.size
  · exact scopeWithin_iff h habove (Nat.le_succ_of_le (habove.length_le h hid))
  · cases habove with
    | top hp => exact scopeWithin_iff h (.top hp) (Nat.succ_le_succ (Nat.zero_le _))
    | up hp => exact absurd (lt_of_parent hp) hid

/-- The scope of a node is that of its parent with its own name behind. -/
theorem scope_below (h : t.Forest) (hp : t.parent? id = some p) (hname : t.name? id = some name) :
    t.scope? id = (t.scope? p).map fun above => (above.push separator) ++ name := by
  have hne : id ≠ root := by
    rintro rfl
    cases h.root_loose.symm.trans hp
  obtain ⟨above, habove⟩ := h.ascent id
  have hlength : above.length ≤ t.size := habove.length_le h (lt_of_parent hp)
  have hfound : t.scope? id = t.scopeWithin (t.size + 1) id :=
    Option.ext fun scope => h.scope_iff.trans (scopeWithin_iff h habove (by omega)).symm
  rw [hfound, scopeWithin_below hp hname hne, scope?]

theorem scope_isSome (h : t.Forest) : (t.scope? id).isSome = true ↔ t.Under id root := by
  rw [← h.path_iff, Option.isSome_iff_exists]
  constructor
  · rintro ⟨scope, hscope⟩
    obtain ⟨names, hnames, -⟩ := h.scope_iff.mp hscope
    exact ⟨names, hnames⟩
  · rintro ⟨names, hnames⟩
    exact ⟨_, h.scope_iff.mpr ⟨names, hnames, rfl⟩⟩

end Forest

/-! ## Scopes of trees that grow -/

/-- What hangs together with the root is neither moved nor renamed. -/
theorem Step.kept {u : Tree} (h : t.Forest) (hstep : t.Step u) (hid : t.Under id root) :
    u.parent? id = t.parent? id ∧ u.name? id = t.name? id := by
  cases hstep with
  | add component hname => exact ⟨parent_adding, by rw [name_adding, if_neg (Nat.ne_of_lt (lt_of_under hid h.root_lt))]⟩
  | @link parent child name hlink =>
    have hne : id ≠ child := by
      rintro rfl
      rcases Relation.ReflTransGen.cases_head hid with heq | ⟨p, hp, -⟩
      · exact hlink.apart heq
      · cases hlink.loose.symm.trans hp
    rw [hlink.parent_link, hlink.name_link, if_neg hne, if_neg hne]
    exact ⟨rfl, rfl⟩

theorem Path.step {u : Tree} (hforest : t.Forest) (hstep : t.Step u) (h : t.Path id names) : u.Path id names := by
  induction h with
  | start hname => exact .start ((hstep.kept hforest .refl).2.trans hname)
  | down hp hname hbefore ih =>
    obtain ⟨hparent, hsame⟩ := hstep.kept hforest (Path.down hp hname hbefore).under
    exact .down (hparent.trans hp) (hsame.trans hname) ih

theorem Path.steps {u : Tree} (hforest : t.Forest) (hsteps : t.Steps u) (h : t.Path id names) : u.Path id names := by
  induction hsteps with
  | refl => exact h
  | tail hbefore hstep ih => exact ih.step (hforest.steps hbefore) hstep

theorem Forest.scope_steps {u : Tree} (h : t.Forest) (hsteps : t.Steps u) {scope : String}
    (hscope : t.scope? id = some scope) : u.scope? id = some scope := by
  obtain ⟨names, hnames, hjoin⟩ := h.scope_iff.mp hscope
  exact (h.steps hsteps).scope_iff.mpr ⟨names, hnames.steps h hsteps, hjoin⟩

/-! ## Finding nodes by their scopes -/

theorem descend_append (first rest : List (List Char)) :
    t.descend id (first ++ rest) = (t.descend id first).bind fun below => t.descend below rest := by
  induction first generalizing id with
  | nil => rfl
  | cons name first ih =>
    rw [List.cons_append, descend, descend]
    rcases t.child? id (String.ofList name) with _ | below
    · rfl
    · exact ih

namespace Forest

/-- Names are followed down from the root to the node whose way up they are on. -/
theorem descend_iff (h : t.Forest) (rest : List (List Char)) :
    t.descend root rest = some id ↔ t.Path id (t.rootName :: rest.map String.ofList) := by
  induction rest using List.reverseRecOn generalizing id with
  | nil =>
    obtain ⟨n, hn, -⟩ := h.rooted
    have hname : t.name? root = some t.rootName := by rw [rootName, name?, hn, Option.map_some, Option.getD_some]
    constructor
    · intro hroot
      cases hroot
      exact .start hname
    · intro hpath
      generalize hnames : t.rootName :: ([] : List (List Char)).map String.ofList = names at hpath
      cases hpath with
      | start => rfl
      | down _ _ hbefore =>
        have hnil := congrArg List.length hnames
        simp [hbefore.ne_nil] at hnil
  | append_singleton rest name ih =>
    rw [descend_append, Option.bind_eq_some_iff]
    have hlast : ∀ below, t.descend below [name] = t.child? below (String.ofList name) := by
      intro below
      rw [descend]
      rcases t.child? below (String.ofList name) with _ | last <;> rfl
    simp only [hlast, h.child_iff, ih]
    constructor
    · rintro ⟨p, hbefore, hp, hname⟩
      rw [List.map_append, ← List.cons_append]
      exact .down hp hname hbefore
    · intro hpath
      generalize hnames : t.rootName :: (rest ++ [name]).map String.ofList = names at hpath
      rw [List.map_append, ← List.cons_append, List.map_singleton] at hnames
      cases hpath with
      | start =>
        have hnil := congrArg List.length hnames
        simp at hnil
      | @down _ p _ _ hp hname hbefore =>
        obtain ⟨rfl, rfl⟩ := List.append_singleton_inj.mp hnames
        exact ⟨p, hbefore, hp, hname⟩

end Forest

/-- A scope gives back the names that it was joined from. -/
theorem splitAt_join (hne : names ≠ []) (hnames : ∀ name ∈ names, nameFault? name = none) :
    Text.splitAt separator ("/".intercalate names).toList = names.map String.toList := by
  rw [Text.splitAt_eq_splitOn, String.toList_intercalate]
  refine List.splitOn_intercalate separator ?_ (by simpa using hne)
  intro cs hcs hsep
  obtain ⟨name, hname, rfl⟩ := List.mem_map.mp hcs
  exact ((nameFault_none.mp (hnames name hname)).2 separator hsep).2 rfl

theorem join_splitAt (cs : List Char) :
    "/".intercalate ((Text.splitAt separator cs).map String.ofList) = String.ofList cs := by
  refine String.toList_inj.mp ?_
  rw [Text.splitAt_eq_splitOn, String.toList_intercalate, List.map_map]
  have hsame : ∀ cs : List Char, (String.toList ∘ String.ofList) cs = cs := fun cs => String.toList_ofList
  rw [List.map_congr_left (fun cs _ => hsame cs), List.map_id']
  exact (List.intercalate_splitOn separator).trans String.toList_ofList.symm

namespace Forest

/-- A node is found by its scope, and by no other text. -/
theorem find_iff (h : t.Forest) {scope : String} : t.find? scope = some id ↔ t.scope? id = some scope := by
  rw [h.scope_iff, find?]
  constructor
  · intro hfind
    rcases hsplit : Text.splitAt separator scope.toList with _ | ⟨first, rest⟩
    · rw [hsplit] at hfind
      cases hfind
    · simp only [hsplit] at hfind
      split at hfind
      · next hfirst =>
        refine ⟨_, (h.descend_iff rest).mp hfind, ?_⟩
        rw [← hfirst, ← List.map_cons, ← hsplit, join_splitAt, String.ofList_toList]
      · cases hfind
  · rintro ⟨names, hpath, rfl⟩
    obtain ⟨rest, rfl⟩ := hpath.eq_cons
    rw [splitAt_join hpath.ne_nil (hpath.named h), List.map_cons]
    refine (if_pos String.ofList_toList).trans ((h.descend_iff _).mpr ?_)
    have hsame : ∀ name : String, (String.ofList ∘ String.toList) name = name := fun name => String.ofList_toList
    rwa [List.map_map, List.map_congr_left (fun name _ => hsame name), List.map_id']

end Forest

end Tree

end ComponentFlow
