/-
  ComponentFlow.Proofs.Effect — reasoning about operations by what they do to a state, and about
  two operations at once. A coupling ties two states together; an operation is followed by another
  when, from tied states, the other succeeds wherever it does and leaves states that are tied again.
-/
import ComponentFlow.Effect
import Mathlib.Data.List.Forall2

namespace ComponentFlow

namespace Effect

variable {σ τ α β : Type}

/-! ## Running operations -/

@[simp] theorem runOn_pure (a : α) (s : σ) : (pure a : Effect σ α).runOn s = (.ok a, s) := rfl
@[simp] theorem runOn_throw (e : GraphError) (s : σ) : (throw e : Effect σ α).runOn s = (.error e, s) := rfl
@[simp] theorem runOn_get (s : σ) : (get : Effect σ σ).runOn s = (.ok s, s) := rfl
@[simp] theorem runOn_modify (f : σ → σ) (s : σ) : (modify f : Effect σ Unit).runOn s = (.ok (), f s) := rfl
@[simp] theorem runOn_ofOutcome (r : Outcome α) (s : σ) : (ofOutcome r).runOn s = (r, s) := rfl
@[simp] theorem runOn_reading (f : σ → Outcome α) (s : σ) : (reading f).runOn s = (f s, s) := rfl

@[simp] theorem runOn_within (get : τ → σ) (set : σ → τ → τ) (op : Effect σ α) (t : τ) :
    (op.within get set).runOn t = ((op.runOn (get t)).1, set (op.runOn (get t)).2 t) := rfl

/-- Behind a failure nothing runs. -/
theorem runOn_bind (x : Effect σ α) (f : α → Effect σ β) (s : σ) :
    (x >>= f).runOn s = match x.runOn s with
      | (.ok a, s') => (f a).runOn s'
      | (.error e, s') => (.error e, s') := by
  simp only [runOn, ExceptT.run_bind, StateT.run_bind]
  rcases StateT.run (ExceptT.run x) s with ⟨_ | _, s'⟩ <;> rfl

theorem runOn_map (f : α → β) (x : Effect σ α) (s : σ) :
    (f <$> x).runOn s = ((x.runOn s).1.map f, (x.runOn s).2) := by
  rw [map_eq_pure_bind, runOn_bind]
  rcases x.runOn s with ⟨_ | _, s'⟩ <;> rfl

/-- What follows looks at the state at most. -/
theorem runOn_bind_still {f : α → Effect σ β} (hf : ∀ a s, ((f a).runOn s).2 = s) (x : Effect σ α) (s : σ) :
    ((x >>= f).runOn s).2 = (x.runOn s).2 := by
  rw [runOn_bind]
  rcases x.runOn s with ⟨_ | a, s'⟩
  · rfl
  · exact hf a s'

theorem ok_iff {x : Effect σ α} {s : σ} {a : α} : (x.runOn s).1 = .ok a ↔ ∃ s', x.runOn s = (.ok a, s') := by
  rcases x.runOn s with ⟨_ | b, s'⟩ <;> simp

theorem bind_ok {x : Effect σ α} {f : α → Effect σ β} {s s' : σ} {b : β} :
    (x >>= f).runOn s = (.ok b, s') ↔ ∃ a t, x.runOn s = (.ok a, t) ∧ (f a).runOn t = (.ok b, s') := by
  rw [runOn_bind]
  rcases x.runOn s with ⟨_ | a, t⟩ <;> simp

theorem map_ok {f : α → β} {x : Effect σ α} {s s' : σ} {b : β} :
    (f <$> x).runOn s = (.ok b, s') ↔ ∃ a, x.runOn s = (.ok a, s') ∧ f a = b := by
  rw [runOn_map]
  rcases x.runOn s with ⟨_ | a, t⟩
  · simp [Except.map]
  · simp [Except.map, and_comm]

theorem bind_pure_ok {x : Effect σ α} {f : α → β} {s s' : σ} {b : β} :
    (do let a ← x; return f a : Effect σ β).runOn s = (.ok b, s') ↔ ∃ a, x.runOn s = (.ok a, s') ∧ f a = b := by
  rw [bind_ok]
  constructor
  · intro ⟨a, t, hx, hpure⟩
    cases hpure
    exact ⟨a, hx, rfl⟩
  · intro ⟨a, hx, hb⟩
    exact ⟨a, s', hx, by rw [hb]; rfl⟩

/-- Two operations come to the same, whatever the states are that they start from. -/
def Alike (x y : Effect σ α) : Prop := ∀ s s', (x.runOn s).1 = (y.runOn s').1

theorem alike_pure (a : α) : (pure a : Effect σ α).Alike (pure a) := fun _ _ => rfl

theorem alike_ofOutcome (r : Outcome α) : (ofOutcome r : Effect σ α).Alike (ofOutcome r) := fun _ _ => rfl

theorem Alike.bind {x y : Effect σ α} {f g : α → Effect σ β} (h : x.Alike y) (hf : ∀ a, (f a).Alike (g a)) :
    (x >>= f).Alike (y >>= g) := by
  intro s s'
  have hsame := h s s'
  rw [runOn_bind, runOn_bind]
  rcases hrun : x.runOn s with ⟨r, t⟩
  rcases hrun' : y.runOn s' with ⟨r', t'⟩
  rw [hrun, hrun'] at hsame
  obtain rfl : r = r' := hsame
  cases r with
  | error e => rfl
  | ok a => exact hf a t t'

theorem mapM_cons_ok {f : α → Effect σ β} {x : α} {xs : List α} {s s' : σ} {bs : List β} :
    ((x :: xs).mapM f).runOn s = (.ok bs, s') ↔ ∃ b t bs', (f x).runOn s = (.ok b, t) ∧
      (xs.mapM f).runOn t = (.ok bs', s') ∧ b :: bs' = bs := by
  rw [List.mapM_cons, bind_ok]
  constructor
  · intro ⟨b, t, hx, hrest⟩
    obtain ⟨bs', hxs, hbs⟩ := bind_pure_ok.mp hrest
    exact ⟨b, t, bs', hx, hxs, hbs⟩
  · intro ⟨b, t, bs', hx, hxs, hbs⟩
    exact ⟨b, t, hx, bind_pure_ok.mpr ⟨bs', hxs, hbs⟩⟩

/-- An operation fails with what it runs last. -/
theorem bind_pure_error {x : Effect σ α} {f : α → β} {s s' : σ} {e : GraphError}
    (h : (do let a ← x; return f a : Effect σ β).runOn s = (.error e, s')) : x.runOn s = (.error e, s') := by
  rw [runOn_bind] at h
  rcases hx : x.runOn s with ⟨_ | a, t⟩
  · rw [hx] at h
    cases h
    rfl
  · rw [hx] at h
    cases h

end Effect

/-! ## Lists -/

theorem forall₂_getElem? {α β : Type} {R : α → β → Prop} {as : List α} {bs : List β} (h : List.Forall₂ R as bs)
    {i : Nat} {a : α} (ha : as[i]? = some a) : ∃ b, bs[i]? = some b ∧ R a b := by
  induction h generalizing i with
  | nil => cases ha
  | @cons x y _ _ hxy _ ih =>
    cases i with
    | zero =>
      cases ha
      exact ⟨y, rfl, hxy⟩
    | succ i => exact ih ha

theorem forall₂_of_getElem? {α β : Type} {R : α → β → Prop} {as : List α} {bs : List β}
    (hlength : as.length = bs.length) (h : ∀ {i : Nat} {a b}, as[i]? = some a → bs[i]? = some b → R a b) :
    List.Forall₂ R as bs := by
  induction as generalizing bs with
  | nil =>
    obtain rfl := List.length_eq_zero_iff.mp hlength.symm
    exact .nil
  | cons a as ih =>
    cases bs with
    | nil => cases hlength
    | cons b bs =>
      refine .cons (h (i := 0) rfl rfl) (ih (Nat.succ.inj hlength) ?_)
      intro i x y hx hy
      exact h (i := i + 1) hx hy

theorem forall₂_of_mem {α β : Type} {R : α → β → Prop} {as : List α} {bs : List β} (h : List.Forall₂ R as bs) {a : α}
    (ha : a ∈ as) : ∃ b ∈ bs, R a b := by
  obtain ⟨i, hi⟩ := List.getElem?_of_mem ha
  obtain ⟨b, hb, hR⟩ := forall₂_getElem? h hi
  exact ⟨b, List.mem_of_getElem? hb, hR⟩

theorem getElem?_of_isPrefix {α : Type} {as bs : List α} (h : as <+: bs) {i : Nat} {a : α} (ha : as[i]? = some a) :
    bs[i]? = some a := by
  obtain ⟨rest, rfl⟩ := h
  rw [List.getElem?_append_left (List.getElem?_eq_some_iff.mp ha).1]
  exact ha

theorem forall₂_comp {α β γ : Type} {R : α → β → Prop} {S : β → γ → Prop} {T : α → γ → Prop} {as : List α}
    {bs : List β} {cs : List γ} (hR : List.Forall₂ R as bs) (hS : List.Forall₂ S bs cs)
    (h : ∀ a b c, R a b → S b c → T a c) : List.Forall₂ T as cs := by
  induction hR generalizing cs with
  | nil =>
    cases hS
    exact .nil
  | cons hab _ ih =>
    cases hS with
    | cons hbc hS => exact .cons (h _ _ _ hab hbc) (ih hS)

/-- What related elements have in common is listed alike. -/
theorem map_eq_of_forall₂ {α β γ : Type} {R : α → β → Prop} {f : α → γ} {g : β → γ} {as : List α} {bs : List β}
    (h : List.Forall₂ R as bs) (hR : ∀ a b, R a b → f a = g b) : as.map f = bs.map g := by
  induction h with
  | nil => rfl
  | cons hab _ ih => simp only [List.map_cons, hR _ _ hab, ih]

/-- Elements that are the same and have a property make up the same list. -/
theorem forall₂_eq_and {α : Type} {p : α → Prop} {as bs : List α} :
    List.Forall₂ (fun a b => a = b ∧ p a) as bs ↔ as = bs ∧ ∀ a ∈ as, p a := by
  constructor
  · intro h
    obtain rfl : as = bs := List.forall₂_eq_eq_eq ▸ h.imp fun _ _ hab => hab.1
    exact ⟨rfl, fun a ha => (List.forall₂_same.mp h a ha).2⟩
  · intro ⟨hsame, h⟩
    subst hsame
    exact List.forall₂_same.mpr fun a ha => ⟨rfl, h a ha⟩

/-- Where every element has a partner there is a list of them. -/
theorem forall₂_exists {α β : Type} {R : α → β → Prop} {as : List α} (h : ∀ a ∈ as, ∃ b, R a b) :
    ∃ bs, List.Forall₂ R as bs := by
  induction as with
  | nil => exact ⟨[], .nil⟩
  | cons a as ih =>
    obtain ⟨⟨b, hb⟩, hrest⟩ := List.forall_mem_cons.mp h
    obtain ⟨bs, hbs⟩ := ih hrest
    exact ⟨b :: bs, .cons hb hbs⟩

theorem forall₂_congr {α β : Type} {R S : α → β → Prop} {as : List α} {bs : List β}
    (h : ∀ a ∈ as, ∀ b, R a b ↔ S a b) : List.Forall₂ R as bs ↔ List.Forall₂ S as bs := by
  induction as generalizing bs with
  | nil => simp
  | cons a as ih =>
    obtain ⟨ha, hrest⟩ := List.forall_mem_cons.mp h
    simp only [List.forall₂_cons_left_iff, ha, ih hrest]

theorem forall₂_append {α β : Type} {R : α → β → Prop} {as as' : List α} {cs : List β} :
    List.Forall₂ R (as ++ as') cs ↔ ∃ bs bs', List.Forall₂ R as bs ∧ List.Forall₂ R as' bs' ∧ cs = bs ++ bs' := by
  constructor
  · intro h
    have hfront := List.forall₂_take as.length h
    have hback := List.forall₂_drop as.length h
    rw [List.take_left] at hfront
    rw [List.drop_left] at hback
    exact ⟨_, _, hfront, hback, (List.take_append_drop as.length cs).symm⟩
  · intro ⟨bs, bs', h, h', hcs⟩
    exact hcs ▸ List.rel_append h h'

/-- What is between two lists is a list. -/
theorem forall₂_split {α β γ : Type} {R : α → β → Prop} {S : β → γ → Prop} {as : List α} {cs : List γ}
    (h : List.Forall₂ (fun a c => ∃ b, R a b ∧ S b c) as cs) :
    ∃ bs, List.Forall₂ R as bs ∧ List.Forall₂ S bs cs := by
  induction h with
  | nil => exact ⟨[], .nil, .nil⟩
  | cons hac _ ih =>
    obtain ⟨b, hR, hS⟩ := hac
    obtain ⟨bs, hRs, hSs⟩ := ih
    exact ⟨b :: bs, .cons hR hRs, .cons hS hSs⟩

section Lookup

variable {α β : Type} [BEq α] {xs ys : List (α × β)} {key key' : α} {value : β}

/-- What is under a key stays there when more is put behind it. -/
theorem lookup_append_of_some (h : xs.lookup key = some value) : (xs ++ ys).lookup key = some value := by
  rw [List.lookup_append, h, Option.some_or]

variable [LawfulBEq α]

theorem lookup_snoc (hnew : xs.lookup key = none) : (xs ++ [(key, value)]).lookup key = some value := by
  rw [List.lookup_append, hnew, Option.none_or, List.lookup_cons_self]

theorem lookup_snoc_of_ne (hne : key' ≠ key) : (xs ++ [(key, value)]).lookup key' = xs.lookup key' := by
  have hother : (key' == key) = false := by simpa using hne
  rw [List.lookup_append, List.lookup_cons, hother, List.lookup_nil, Option.or_none]

/-- Under keys that are told apart, what is found is what is there. -/
theorem lookup_iff_mem (h : (xs.map Prod.fst).Nodup) : xs.lookup key = some value ↔ (key, value) ∈ xs := by
  induction xs with
  | nil => simp
  | cons x xs ih =>
    obtain ⟨k, v⟩ := x
    simp only [List.map_cons, List.nodup_cons] at h
    by_cases hkey : key = k
    · subst hkey
      have hnot : (key, value) ∉ xs := fun hmem => h.1 (List.mem_map_of_mem hmem)
      simp [hnot, eq_comm]
    · have hother : (key == k) = false := by simpa using hkey
      simp [List.lookup_cons, hother, hkey, ih h.2]

end Lookup

namespace Outcome

variable {α β γ δ : Type}

@[simp] theorem ok_bind (a : α) (f : α → Outcome β) : ((.ok a : Outcome α) >>= f) = f a := rfl
theorem throw_eq (e : GraphError) : (throw e : Outcome α) = .error e := rfl
@[simp] theorem error_bind (e : GraphError) (f : α → Outcome β) : ((.error e : Outcome α) >>= f) = .error e := rfl

/-- A result with one property, or a failure with another. -/
def Ends (r : Outcome α) (P : α → Prop) (E : GraphError → Prop) : Prop :=
  match r with
  | .ok a => P a
  | .error e => E e

theorem bind_ok {x : Outcome α} {f : α → Outcome β} {b : β} :
    (x >>= f) = .ok b ↔ ∃ a, x = .ok a ∧ f a = .ok b := by
  cases x <;> simp [bind, Except.bind]

theorem map_ok {f : α → β} {x : Outcome α} {b : β} : f <$> x = .ok b ↔ ∃ a, x = .ok a ∧ f a = b := by
  cases x <;> simp [Functor.map, Except.map]

theorem toOption_ok {x : Outcome α} {a : α} : x.toOption = some a ↔ x = .ok a := by
  cases x <;> simp [Except.toOption]

theorem ofShape_ok {x : Except Mismatch α} {a : α} : ofShape x = .ok a ↔ x = .ok a := by
  cases x <;> simp [ofShape, Except.mapError]

theorem mapM_congr {f g : α → Outcome β} {xs : List α} (h : ∀ x ∈ xs, f x = g x) : xs.mapM f = xs.mapM g := by
  induction xs with
  | nil => rfl
  | cons x xs ih =>
    obtain ⟨hx, hrest⟩ := List.forall_mem_cons.mp h
    rw [List.mapM_cons, List.mapM_cons, hx, ih hrest]

theorem mapM_ok {f : α → Outcome β} {xs : List α} {ys : List β} :
    xs.mapM f = .ok ys ↔ List.Forall₂ (fun x y => f x = .ok y) xs ys := by
  induction xs generalizing ys with
  | nil =>
    simp only [List.mapM_nil, pure, Except.pure, Except.ok.injEq, List.forall₂_nil_left_iff]
    exact eq_comm
  | cons x xs ih =>
    simp only [List.mapM_cons, bind_ok, List.forall₂_cons_left_iff, ← ih, pure, Except.pure, Except.ok.injEq]
    constructor
    · rintro ⟨y, hy, ys', hys, rfl⟩
      exact ⟨y, ys', hy, hys, rfl⟩
    · rintro ⟨y, ys', hy, hys, rfl⟩
      exact ⟨y, hy, ys', hys, rfl⟩

/-- Where each element of one list has an outcome, so has its partner in the other. -/
theorem mapM_follows {S : α → β → Prop} {R : γ → δ → Prop} {f : α → Outcome γ} {g : β → Outcome δ}
    {xs : List α} {ys : List β} (hxy : List.Forall₂ S xs ys)
    (hfg : ∀ x y, x ∈ xs → S x y → ∀ a, f x = .ok a → ∃ b, g y = .ok b ∧ R a b) {as : List γ}
    (has : xs.mapM f = .ok as) : ∃ bs, ys.mapM g = .ok bs ∧ List.Forall₂ R as bs := by
  induction hxy generalizing as with
  | nil =>
    cases has
    exact ⟨[], rfl, .nil⟩
  | @cons x y xs ys hS _ ih =>
    simp only [List.mapM_cons, bind_ok] at has
    obtain ⟨a, ha, as', has', ⟨⟩⟩ := has
    obtain ⟨b, hb, hR⟩ := hfg x y List.mem_cons_self hS a ha
    obtain ⟨bs, hbs, hRs⟩ := ih (fun x y hx => hfg x y (List.mem_cons_of_mem _ hx)) has'
    exact ⟨b :: bs, by simp [List.mapM_cons, hb, hbs, bind, Except.bind, pure, Except.pure], .cons hR hRs⟩

theorem mapM_error {f : α → Outcome β} {xs : List α} {e : GraphError} (h : xs.mapM f = .error e) :
    ∃ x ∈ xs, f x = .error e := by
  induction xs with
  | nil => cases h
  | cons x xs ih =>
    rw [List.mapM_cons] at h
    rcases hx : f x with e' | y
    · rw [hx] at h
      cases h
      exact ⟨x, List.mem_cons_self, hx⟩
    · rcases hxs : xs.mapM f with e' | ys
      · rw [hx, hxs] at h
        cases h
        obtain ⟨x', hx', herror⟩ := ih hxs
        exact ⟨x', List.mem_cons_of_mem _ hx', herror⟩
      · rw [hx, hxs] at h
        cases h

end Outcome

/-- What an operation comes to, from what its parts come to. -/
theorem Effect.ends_bind {σ α β : Type} {x : Effect σ α} {f : α → Effect σ β} {s : σ} {P : α → Prop} {Q : β → Prop}
    {E : GraphError → Prop} (hx : (x.runOn s).1.Ends P E) (hf : ∀ a s', P a → ((f a).runOn s').1.Ends Q E) :
    ((x >>= f).runOn s).1.Ends Q E := by
  rw [runOn_bind]
  rcases hrun : x.runOn s with ⟨e | a, s'⟩
  · rw [hrun] at hx
    exact hx
  · rw [hrun] at hx
    exact hf a s' hx

/-! ## Two operations at once -/

/-- Two states that are tied together. A world is what the tie knows; it only grows. -/
structure Coupling (σ τ : Type) where
  World : Type
  Grows : World → World → Prop
  refl : ∀ w, Grows w w
  trans : ∀ {u v w}, Grows u v → Grows v w → Grows u w
  Holds : World → σ → τ → Prop

namespace Coupling

variable {σ τ α β γ δ : Type} (c : Coupling σ τ)

/-- What holds in a world holds in all that it grows into. -/
def Lasting (R : c.World → α → β → Prop) : Prop := ∀ ⦃w w' a b⦄, c.Grows w w' → R w a b → R w' a b

/-- Wherever `x` succeeds, `y` does, with a result related to that of `x`. -/
def Follows (w : c.World) (x : Effect σ α) (y : Effect τ β) (R : c.World → α → β → Prop) : Prop :=
  ∀ s t, c.Holds w s t → ∀ a s', x.runOn s = (.ok a, s') →
    ∃ w' b t', c.Grows w w' ∧ y.runOn t = (.ok b, t') ∧ c.Holds w' s' t' ∧ R w' a b

variable {c} {w : c.World}

theorem follows_pure {R : c.World → α → β → Prop} {a : α} {b : β} (h : R w a b) :
    c.Follows w (pure a) (pure b) R := by
  intro s t hst a' s' hrun
  cases hrun
  exact ⟨w, b, t, c.refl w, rfl, hst, h⟩

theorem follows_throw {R : c.World → α → β → Prop} {e : GraphError} {y : Effect τ β} :
    c.Follows w (throw e) y R := by
  intro s t _ a s' hrun
  cases hrun

theorem follows_ofOutcome {R : c.World → α → β → Prop} {x : Outcome α} {y : Outcome β}
    (h : ∀ a, x = .ok a → ∃ b, y = .ok b ∧ R w a b) :
    c.Follows w (Effect.ofOutcome x) (Effect.ofOutcome y) R := by
  intro s t hst a s' hrun
  simp only [Effect.runOn_ofOutcome, Prod.mk.injEq] at hrun
  obtain ⟨hx, rfl⟩ := hrun
  obtain ⟨b, hy, hR⟩ := h a hx
  exact ⟨w, b, t, c.refl w, by simp [hy], hst, hR⟩

theorem Follows.imp {R S : c.World → α → β → Prop} {x : Effect σ α} {y : Effect τ β} (h : c.Follows w x y R)
    (hRS : ∀ w' a b, c.Grows w w' → R w' a b → S w' a b) : c.Follows w x y S := by
  intro s t hst a s' hrun
  obtain ⟨w', b, t', hgrows, hy, hst', hR⟩ := h s t hst a s' hrun
  exact ⟨w', b, t', hgrows, hy, hst', hRS w' a b hgrows hR⟩

theorem Follows.bind {R : c.World → α → β → Prop} {S : c.World → γ → δ → Prop} {x : Effect σ α} {y : Effect τ β}
    {f : α → Effect σ γ} {g : β → Effect τ δ} (h : c.Follows w x y R)
    (hfg : ∀ w' a b, c.Grows w w' → R w' a b → c.Follows w' (f a) (g b) S) :
    c.Follows w (x >>= f) (y >>= g) S := by
  intro s t hst d s'' hrun
  obtain ⟨a, s', hx, hf⟩ := Effect.bind_ok.mp hrun
  obtain ⟨w', b, t', hgrows, hy, hst', hR⟩ := h s t hst a s' hx
  obtain ⟨w'', e, t'', hgrows', hg, hst'', hS⟩ := hfg w' a b hgrows hR s' t' hst' d s'' hf
  exact ⟨w'', e, t'', c.trans hgrows hgrows', Effect.bind_ok.mpr ⟨b, t', hy, hg⟩, hst'', hS⟩

/-- What is known on one side may be found out on the other. -/
theorem Follows.ahead {R : c.World → α → β → Prop} {S : c.World → γ → δ → Prop} {a : α} {x : Effect σ γ}
    {y : Effect τ β} {g : β → Effect τ δ} (h : c.Follows w (pure a) y R)
    (hg : ∀ w' b, c.Grows w w' → R w' a b → c.Follows w' x (g b) S) : c.Follows w x (y >>= g) S := by
  intro s t hst d s' hrun
  obtain ⟨w', b, t', hgrows, hy, hst', hR⟩ := h s t hst a s rfl
  obtain ⟨w'', e, t'', hgrows', hrun', hst'', hS⟩ := hg w' b hgrows hR s t' hst' d s' hrun
  exact ⟨w'', e, t'', c.trans hgrows hgrows', Effect.bind_ok.mpr ⟨b, t', hy, hrun'⟩, hst'', hS⟩

/-- The same step on the elements of two lists, one after the other. -/
theorem follows_mapM {S : α → β → Prop} {R : c.World → γ → δ → Prop} (hR : c.Lasting R) {f : α → Effect σ γ}
    {g : β → Effect τ δ} {xs : List α} {ys : List β} (hxy : List.Forall₂ S xs ys)
    (hfg : ∀ w' x y, c.Grows w w' → S x y → c.Follows w' (f x) (g y) R) :
    c.Follows w (xs.mapM f) (ys.mapM g) fun w' => List.Forall₂ (R w') := by
  induction hxy generalizing w with
  | nil => exact follows_pure .nil
  | @cons x y xs ys hS _ ih =>
    simp only [List.mapM_cons]
    refine (hfg w x y (c.refl w) hS).bind fun w' a b hgrows hab => ?_
    refine (ih fun w'' x y h => hfg w'' x y (c.trans hgrows h)).bind fun w'' as bs hgrows' habs => ?_
    exact follows_pure (.cons (hR hgrows' hab) habs)

/-- Each value of a list is found out on the other side. -/
theorem follows_each {S : α → β → Prop} {R : c.World → α → δ → Prop} (hR : c.Lasting R) {g : β → Effect τ δ}
    {xs : List α} {ys : List β} (hxy : List.Forall₂ S xs ys)
    (hg : ∀ w' x y, c.Grows w w' → S x y → c.Follows w' (pure x) (g y) R) :
    c.Follows w (pure xs) (ys.mapM g) fun w' => List.Forall₂ (R w') := by
  have hmapM := follows_mapM (f := pure) hR hxy hg
  rwa [List.mapM_pure, List.map_id'] at hmapM

end Coupling

end ComponentFlow
