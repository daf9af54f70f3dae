/-
  ComponentFlow.Proofs.Cached — scopes that are kept stay right. A scope is kept only when the way up leads
  to the root, and then nothing on that way is moved or renamed any more (`Tree.Forest.scope_steps`). So a
  tree that keeps scopes answers and changes as one that works each out anew (`CachedTree.Coherent.scope?`,
  `CachedTree.edit_mirrors`), whenever it is asked: scopes lead back to their nodes at all times
  (`CachedTree.scopes_lead_back`).
-/
import ComponentFlow.Proofs.Assembled
import ComponentFlow.Tree.Cached

namespace ComponentFlow

namespace CachedTree

variable {c c' : CachedTree} {id : NodeId} {text : String}

theorem kept_keep {other : NodeId} :
    (c.keep id text).2.kept? other = (c.kept? other).or (if other = id then some text else none) := by
  have hlookup : [(id, text)].lookup other = if other = id then some text else none := by
    by_cases heq : other = id
    · rw [if_pos heq, heq, List.lookup_cons_self]
    · have hother : (other == id) = false := by simpa using heq
      rw [if_neg heq, List.lookup_cons, hother, List.lookup_nil]
  rw [← hlookup]
  exact List.lookup_append

/-- What is kept is what would be worked out. -/
structure Coherent (c : CachedTree) : Prop where
  forest : c.tree.Forest
  right : ∀ {id scope}, c.kept? id = some scope → c.tree.scope? id = some scope

/-- What is found is the scope of the node, and the tree stays. -/
structure Finds (c : CachedTree) (id : NodeId) (found : Option String × CachedTree) : Prop where
  scope : found.1 = c.tree.scope? id
  tree : found.2.tree = c.tree
  coherent : found.2.Coherent

namespace Coherent

theorem keep (h : c.Coherent) (hscope : c.tree.scope? id = some text) : c.Finds id (c.keep id text) where
  scope := by
    have hkept : (c.keep id text).1 = (c.kept? id).or (some text) := kept_keep.trans (by rw [if_pos rfl])
    rw [hkept, hscope]
    rcases hold : c.kept? id with _ | old
    · rfl
    · exact (h.right hold).symm.trans hscope
  tree := rfl
  coherent := by
    refine ⟨h.forest, fun {other found} hfound => ?_⟩
    rw [kept_keep] at hfound
    rcases hold : c.kept? other with _ | old
    · rw [hold, Option.none_or] at hfound
      split at hfound
      · next heq =>
        subst heq
        exact hscope.trans hfound
      · cases hfound
    · rw [hold, Option.some_or] at hfound
      exact hfound ▸ h.right hold

/-- A scope is found if that of the parent is. -/
theorem scopeWithin_of (h : c.Coherent) {steps : Nat} (hparent : ∀ parent, c.tree.parent? id = some parent →
      ∃ fewer, steps = fewer + 1 ∧ c.Finds parent (c.scopeWithin fewer parent)) :
    c.Finds id (c.scopeWithin steps id) := by
  rw [CachedTree.scopeWithin]
  rcases hn : c.tree.node? id with _ | n
  · have hloose : c.tree.parent? id = none := by rw [Tree.parent?, hn, Option.bind_none]
    have hne : id ≠ Tree.root := by
      rintro rfl
      obtain ⟨n, hroot, -⟩ := h.forest.rooted
      cases hn.symm.trans hroot
    exact ⟨(Tree.scope_loose hloose hne).symm, rfl, h⟩
  rcases hkept : c.kept? id with _ | scope
  · have hname : c.tree.name? id = some n.name := by rw [Tree.name?, hn, Option.map_some]
    by_cases hroot : id = Tree.root
    · subst hroot
      simp only [if_true]
      exact h.keep (Tree.scope_root.trans hname)
    simp only [if_neg hroot]
    rcases hup : n.parent with _ | parent
    · have hloose : c.tree.parent? id = none := by rw [Tree.parent?, hn, Option.bind_some, hup]
      exact ⟨(Tree.scope_loose hloose hroot).symm, rfl, h⟩
    · have hp : c.tree.parent? id = some parent := by rw [Tree.parent?, hn, Option.bind_some, hup]
      obtain ⟨fewer, rfl, hfound⟩ := hparent parent hp
      obtain ⟨hscope, htree, hcoherent⟩ := hfound
      have hbelow := h.forest.scope_below hp hname
      rcases hrun : c.scopeWithin fewer parent with ⟨above, after⟩
      rw [hrun] at hscope htree hcoherent
      rw [← hscope] at hbelow
      simp only [hrun]
      rcases above with _ | above
      · rw [Option.map_none] at hbelow
        exact ⟨hbelow.symm, htree, hcoherent⟩
      · rw [Option.map_some, ← htree] at hbelow
        obtain ⟨hscope, htree', hcoherent'⟩ := hcoherent.keep hbelow
        exact ⟨hscope.trans (by rw [htree]), htree'.trans htree, hcoherent'⟩
  · exact ⟨(h.right hkept).symm, rfl, h⟩

theorem scopeWithin (h : c.Coherent) {above : List NodeId} {steps : Nat} (habove : c.tree.Ascent id above)
    (hsteps : above.length ≤ steps + 1) : c.Finds id (c.scopeWithin steps id) := by
  induction habove generalizing steps with
  | top hp =>
    refine h.scopeWithin_of fun parent hparent => ?_
    cases hp.symm.trans hparent
  | up hp habove ih =>
    refine h.scopeWithin_of fun parent hparent => ?_
    cases hp.symm.trans hparent
    cases steps with
    | zero => cases habove <;> simp at hsteps
    | succ fewer => exact ⟨fewer, rfl, ih (by simpa using hsteps)⟩

/-- Whatever is kept by then, a node is asked for its scope and gives it. -/
theorem scope? (h : c.Coherent) (id : NodeId) : c.Finds id (c.scope? id) := by
  obtain ⟨above, habove⟩ := h.forest.ascent id
  by_cases hid : id < c.tree.size
  · exact h.scopeWithin habove (Nat.le_succ_of_le (habove.length_le h.forest hid))
  · cases habove with
    | top hp => exact h.scopeWithin (.top hp) (Nat.succ_le_succ (Nat.zero_le _))
    | up hp => exact absurd (Tree.lt_of_parent hp) hid

/-- What is kept stays right when the tree grows. -/
theorem grows (h : c.Coherent) {t : Tree} (hsteps : c.tree.Steps t) : ({ c with tree := t } : CachedTree).Coherent where
  forest := h.forest.steps hsteps
  right := fun hkept => h.forest.scope_steps hsteps (h.right hkept)

end Coherent

/-! ## Edits -/

/-- What `x` does with scopes that are kept, `y` does without. -/
def Mirrors {α : Type} (c : CachedTree) (x : Effect CachedTree α) (y : Effect Tree α) : Prop :=
  ∃ r c', x.runOn c = (r, c') ∧ y.runOn c.tree = (r, c'.tree) ∧ c'.Coherent

section Mirrors

variable {α β : Type} {x : Effect CachedTree α} {y : Effect Tree α}

theorem mirrors_pure (h : c.Coherent) (a : α) : c.Mirrors (pure a) (pure a) := ⟨_, c, rfl, rfl, h⟩

theorem mirrors_ofOutcome (h : c.Coherent) (r : Outcome α) : c.Mirrors (Effect.ofOutcome r) (Effect.ofOutcome r) :=
  ⟨_, c, rfl, rfl, h⟩

theorem mirrors_reading (h : c.Coherent) (f : Tree → Outcome α) :
    c.Mirrors (onTree (Effect.reading f)) (Effect.reading f) :=
  ⟨_, c, rfl, rfl, h⟩

theorem mirrors_get {g : Tree → Effect Tree α} (h : c.Mirrors x (g c.tree)) : c.Mirrors x (get >>= g) := h

theorem mirrors_onTree (h : c.Coherent) (hsteps : c.tree.Steps (y.runOn c.tree).2) : c.Mirrors (onTree y) y :=
  ⟨_, _, rfl, rfl, h.grows hsteps⟩

theorem Mirrors.bind (h : c.Mirrors x y) {f : α → Effect CachedTree β} {g : α → Effect Tree β}
    (hfg : ∀ (a : α) (c' : CachedTree), c'.Coherent → y.runOn c.tree = (.ok a, c'.tree) → c'.Mirrors (f a) (g a)) :
    c.Mirrors (x >>= f) (y >>= g) := by
  obtain ⟨r, c', hx, hy, hcoherent⟩ := h
  cases r with
  | error e => exact ⟨.error e, c', by rw [Effect.runOn_bind, hx], by rw [Effect.runOn_bind, hy], hcoherent⟩
  | ok a =>
    obtain ⟨r', c'', hf, hg, hcoherent'⟩ := hfg a c' hcoherent hy
    refine ⟨r', c'', ?_, ?_, hcoherent'⟩
    · rw [Effect.runOn_bind, hx]
      exact hf
    · rw [Effect.runOn_bind, hy]
      exact hg

end Mirrors

/-- A node is named as it would be without scopes that are kept. -/
theorem displayName_runOn (h : c.Coherent) (id : NodeId) : ∃ c',
    (displayName id).runOn c = (.ok (c.tree.displayName id), c') ∧ c'.tree = c.tree ∧ c'.Coherent := by
  obtain ⟨hscope, htree, hcoherent⟩ := h.scope? id
  refine ⟨(c.scope? id).2, ?_, htree, hcoherent⟩
  have hname : (displayName id).runOn c =
      (.ok ((c.scope? id).1.getD (((c.scope? id).2.tree.name? id).getD "")), (c.scope? id).2) := rfl
  rw [hname, hscope, htree, Tree.displayName]

variable {parent child : NodeId} {name : String}

/-- A node is attached if it would be without scopes that are kept, and refused for the same reason. -/
theorem checkAttach_runOn (h : c.Coherent) : ∃ c', (checkAttach parent child name).runOn c =
    (c.tree.checkAttach parent child name, c') ∧ c'.tree = c.tree ∧ c'.Coherent := by
  obtain ⟨c₁, hchild, htree, h₁⟩ := displayName_runOn h child
  unfold checkAttach Tree.checkAttach
  rcases hmutable : c.tree.checkMutable with _ | ⟨⟩
  · exact ⟨c, by simp [Effect.runOn_bind, onTree, hmutable], rfl, h⟩
  rcases Tree.checkName name with _ | ⟨⟩
  · exact ⟨c, by simp [Effect.runOn_bind, onTree, hmutable], rfl, h⟩
  rcases habove : c.tree.checkNode parent with _ | above
  · exact ⟨c, by simp [Effect.runOn_bind, onTree, hmutable, habove], rfl, h⟩
  rcases hbelow : c.tree.checkNode child with _ | below
  · exact ⟨c, by simp [Effect.runOn_bind, onTree, hmutable, habove, hbelow], rfl, h⟩
  rcases hup : below.parent with _ | existing
  · by_cases hapart : child = Tree.root ∨ c.tree.isAbove child parent = true
    · obtain ⟨c₂, hparent, htree', h₂⟩ := displayName_runOn h₁ parent
      rw [htree] at hparent
      refine ⟨c₂, ?_, htree'.trans htree, h₂⟩
      simp [Effect.runOn_bind, onTree, hmutable, habove, hbelow, hup, if_pos hapart, hchild, hparent,
        Outcome.throw_eq]
    · by_cases htaken : (above.children.lookup name).isSome = true
      · obtain ⟨c₂, hparent, htree', h₂⟩ := displayName_runOn h parent
        refine ⟨c₂, ?_, htree', h₂⟩
        simp [Effect.runOn_bind, onTree, hmutable, habove, hbelow, hup, if_neg hapart, htaken, hparent,
          Outcome.throw_eq]
      · refine ⟨c, ?_, rfl, h⟩
        simp [Effect.runOn_bind, onTree, hmutable, habove, hbelow, hup, if_neg hapart, htaken]
  · obtain ⟨c₂, hexisting, htree', h₂⟩ := displayName_runOn h₁ existing
    rw [htree] at hexisting
    refine ⟨c₂, ?_, htree'.trans htree, h₂⟩
    simp [Effect.runOn_bind, onTree, hmutable, habove, hbelow, hup, hchild, hexisting, Outcome.throw_eq]

theorem attach_mirrors (h : c.Coherent) : c.Mirrors (attach parent child name) (Tree.attach parent child name) := by
  obtain ⟨c', hcheck, htree, h'⟩ := checkAttach_runOn h
  rcases hok : c.tree.checkAttach parent child name with e | ⟨⟩
  · refine ⟨.error e, c', ?_, ?_, h'⟩
    · rw [attach, Effect.runOn_bind, hcheck, hok]
    · rw [Tree.attach_runOn, hok, htree]
  · have hlink : c'.tree.Linkable parent child name := htree ▸ ((Tree.checkAttach_ok h.forest).mp hok).2
    refine ⟨.ok (), { c' with tree := c'.tree.link parent child name }, ?_, ?_, h'.grows (.single (.link hlink))⟩
    · rw [attach, Effect.runOn_bind, hcheck, hok]
      rfl
    · rw [Tree.attach_runOn, hok, htree]

theorem insert_mirrors (h : c.Coherent) (a : Assembly) : c.Mirrors (insert a) (Tree.insert a) := by
  refine mirrors_onTree h ?_
  rw [Tree.insert_runOn]
  rcases hok : c.tree.checkInsert a with e | ⟨⟩
  · exact .refl
  · obtain ⟨⟨⟩, -, hassembly⟩ := Outcome.bind_ok.mp hok
    exact (Tree.placed_places a h.forest hassembly).steps

theorem attachAssembly_mirrors (h : c.Coherent) (a : Assembly) :
    c.Mirrors (attachAssembly parent a) (Tree.attachAssembly parent a) := by
  unfold attachAssembly Tree.attachAssembly
  refine (mirrors_reading h _).bind fun _ c h _ => ?_
  refine (mirrors_reading h _).bind fun above c h _ => ?_
  refine (mirrors_ofOutcome h _).bind fun _ c h hassembly => mirrors_get ?_
  by_cases htaken : (above.children.lookup a.name).isSome = true
  · obtain ⟨c', hname, htree, h'⟩ := displayName_runOn h parent
    simp only [htaken, if_true]
    refine ⟨.error (.nameConflict (c.tree.displayName parent) a.name), c', ?_, ?_, h'⟩
    · simp [Effect.runOn_bind, hname]
    · simp [htree]
  · simp only [if_neg htaken]
    have hok : Tree.checkAssembly a = .ok () := congrArg Prod.fst hassembly
    refine (mirrors_onTree (y := Tree.place a) h (Tree.placed_places a h.forest hok).steps).bind fun child c h _ => ?_
    exact (attach_mirrors h).bind fun _ c h _ => mirrors_pure h child

/-- Carries out an edit, and gives the node that it adds. -/
def edit : Tree.Edit → Effect CachedTree (Option NodeId)
  | .insert a => some <$> insert a
  | .attach parent child name => do
    attach parent child name
    return none
  | .attachAssembly parent a => some <$> attachAssembly parent a

/-- An edit comes to what it would come to without scopes that are kept. -/
theorem edit_mirrors (h : c.Coherent) (e : Tree.Edit) : c.Mirrors (edit e) e.run := by
  cases e with
  | insert a =>
    rw [edit, Tree.Edit.run, map_eq_pure_bind, map_eq_pure_bind]
    exact (insert_mirrors h a).bind fun child c h _ => mirrors_pure h (some child)
  | attach parent child name => exact (attach_mirrors h).bind fun _ c h _ => mirrors_pure h none
  | attachAssembly parent a =>
    rw [edit, Tree.Edit.run, map_eq_pure_bind, map_eq_pure_bind]
    exact (attachAssembly_mirrors h a).bind fun child c h _ => mirrors_pure h (some child)

/-- What is done with a tree: an edit is tried, or a node is asked for its scope. -/
inductive Act where
  | edit (e : Tree.Edit)
  | ask (id : NodeId)

def did (c : CachedTree) : Act → CachedTree
  | .edit e => ((edit e).runOn c).2
  | .ask id => ((ask id).runOn c).2

def after (c : CachedTree) (acts : List Act) : CachedTree := acts.foldl did c

/-- The edits among what is done. -/
def edits (acts : List Act) : List Tree.Edit :=
  acts.filterMap fun
    | .edit e => some e
    | .ask _ => none

theorem Coherent.did (h : c.Coherent) (act : Act) :
    (c.did act).Coherent ∧ (c.did act).tree = c.tree.afterEdits (edits [act]) := by
  cases act with
  | edit e =>
    obtain ⟨r, c', hcached, hplain, hcoherent⟩ := edit_mirrors h e
    have hafter : c.did (.edit e) = c' := congrArg Prod.snd hcached
    exact ⟨hafter ▸ hcoherent, (congrArg tree hafter).trans (congrArg Prod.snd hplain).symm⟩
  | ask id =>
    obtain ⟨-, htree, hcoherent⟩ := h.scope? id
    exact ⟨hcoherent, htree⟩

/-- Asking for scopes changes nothing but what is kept. -/
theorem Coherent.after (h : c.Coherent) (acts : List Act) :
    (c.after acts).Coherent ∧ (c.after acts).tree = c.tree.afterEdits (edits acts) := by
  induction acts generalizing c with
  | nil => exact ⟨h, rfl⟩
  | cons act rest ih =>
    obtain ⟨hdid, htree⟩ := h.did act
    obtain ⟨hrest, htree'⟩ := ih hdid
    refine ⟨hrest, htree'.trans ?_⟩
    rw [htree]
    cases act <;> rfl

/-- Whichever edits are tried on a tree, and whichever nodes are asked for their scopes in between: the tree is the one
    that the edits alone come to. A node has a scope exactly if the way up from it leads to the root, above which
    nothing is, and the scope is the names on the way from the root joined by '/', no matter when it was asked for
    first. A node is found by its scope and by no other text, and no two nodes have the same scope. -/
theorem scopes_lead_back {a : Assembly} {start : Tree} (h : Tree.ofAssembly a = .ok start) (acts : List Act) :
    let c := (ofTree start).after acts
    c.tree = start.afterEdits (edits acts) ∧ c.tree.parent? Tree.root = none ∧
      ∀ id, ((c.scope? id).1.isSome = true ↔ c.tree.Under id Tree.root) ∧
        (∀ scope, (c.scope? id).1 = some scope ↔ ∃ names, c.tree.Path id names ∧ scope = "/".intercalate names) ∧
        (∀ scope, c.tree.find? scope = some id ↔ (c.scope? id).1 = some scope) ∧
        ∀ other scope, (c.scope? id).1 = some scope → (c.scope? other).1 = some scope → id = other := by
  intro c
  have hstart : (ofTree start).Coherent := ⟨Tree.ofAssembly_forest h, fun hkept => nomatch hkept⟩
  obtain ⟨hcoherent, htree⟩ := hstart.after acts
  have hforest : c.tree.Forest := hcoherent.forest
  refine ⟨htree, hforest.root_loose, fun id => ?_⟩
  have hscope : ∀ id, (c.scope? id).1 = c.tree.scope? id := fun id => (hcoherent.scope? id).scope
  refine ⟨?_, fun scope => ?_, fun scope => ?_, fun other scope hid hother => ?_⟩
  · rw [hscope]
    exact hforest.scope_isSome
  · rw [hscope]
    exact hforest.scope_iff
  · rw [hscope]
    exact hforest.find_iff
  · rw [hscope, ← hforest.find_iff] at hid hother
    exact Option.some.inj (hid.symm.trans hother)

/-- A node is asked for its scope before it is attached and after, and below it more is attached then. -/
def inquiries : List Act :=
  [.ask 0, .edit (.insert (.leaf "dense" Tree.bare)), .ask 1, .edit (.attach 0 1 "policy"), .ask 1,
    .edit (.attach 0 1 "value"), .edit (.attachAssembly 1 (.leaf "dense" Tree.bare)), .ask 2]

theorem inquiries_lead_back : Tree.ofAssembly (.leaf "agent" Tree.bare) = .ok (Tree.seed "agent" Tree.bare) ∧
    let c := (ofTree (Tree.seed "agent" Tree.bare)).after inquiries
    (c.scope? 2).1 = some "agent/policy/dense" ∧ c.tree.Under 1 Tree.root ∧
      (∃ names, c.tree.Path 1 names ∧ "agent/policy" = "/".intercalate names) := by
  have hstart : Tree.ofAssembly (.leaf "agent" Tree.bare) = .ok (Tree.seed "agent" Tree.bare) := rfl
  obtain ⟨-, -, hscopes⟩ := scopes_lead_back hstart inquiries
  obtain ⟨-, -, hfound, -⟩ := hscopes 2
  obtain ⟨hconnected, hnames, -, -⟩ := hscopes 1
  exact ⟨hstart, (hfound _).mp (by decide +kernel), hconnected.mp (by decide +kernel),
    (hnames _).mp (by decide +kernel)⟩

end CachedTree

end ComponentFlow
