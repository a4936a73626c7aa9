import Mathlib.Data.List.Basic

/-!
# Computations that may fail

When a sequence, a map over a list or an ordered search in `Except` succeeds, rules for what one
fails with (`Fails`), and for when two of them agree (`Agree`).
-/

namespace Result

universe u v

variable {ε : Type v} {α β : Type u}

theorem bind_eq_ok {x : Except ε α} {f : α → Except ε β} {r : β} :
    x >>= f = .ok r ↔ ∃ a, x = .ok a ∧ f a = .ok r := by
  cases x with
  | error e => simp [bind, Except.bind]
  | ok a => simp [bind, Except.bind]

theorem map_eq_ok {x : Except ε α} {f : α → β} {r : β} :
    f <$> x = .ok r ↔ ∃ a, x = .ok a ∧ f a = r := by
  cases x with
  | error e => simp [Functor.map, Except.map]
  | ok a => simp [Functor.map, Except.map]

theorem map_eq_error {x : Except ε α} {f : α → β} {e : ε} :
    f <$> x = .error e ↔ x = .error e := by
  cases x with
  | error e' => simp [Functor.map, Except.map]
  | ok a => simp [Functor.map, Except.map]

theorem mapError_eq_ok {δ : Type v} {x : Except ε α} {f : ε → δ} {r : α} :
    x.mapError f = .ok r ↔ x = .ok r := by
  cases x with
  | error e => exact ⟨nofun, nofun⟩
  | ok a => exact ⟨fun h => congrArg _ (Except.ok.inj h), fun h => congrArg _ (Except.ok.inj h)⟩

@[simp] theorem pure_eq_ok {a r : α} : (pure a : Except ε α) = .ok r ↔ a = r := by
  simp [pure, Except.pure]

@[simp] theorem ok_bind (a : α) (f : α → Except ε β) : (Except.ok a >>= f) = f a := rfl

@[simp] theorem error_bind (e : ε) (f : α → Except ε β) :
    ((Except.error e : Except ε α) >>= f) = .error e := rfl

section Lift

variable {δ γ ζ : Type u} {m : Type u → Type u} [Monad m] [LawfulMonad m]

theorem run_bind_except (x : Except δ γ) (f : γ → ExceptT δ m ζ) :
    (liftM x >>= f : ExceptT δ m ζ).run =
      match x with
      | .error e => pure (.error e)
      | .ok a => (f a).run := by
  cases x with
  | error e => exact pure_bind _ _
  | ok a => exact pure_bind _ _

theorem run_bind_pure (a : γ) (f : γ → ExceptT δ m ζ) :
    (liftM (pure a : m γ) >>= f : ExceptT δ m ζ).run = (f a).run := by
  simp

end Lift

/-- A map over a list succeeds when it succeeds at every element. -/
theorem mapM_eq_ok {f : α → Except ε β} {l : List α} {r : List β} :
    l.mapM f = .ok r ↔ List.Forall₂ (fun a b => f a = .ok b) l r := by
  induction l generalizing r with
  | nil =>
    rw [List.mapM_nil, pure_eq_ok]
    exact ⟨fun h => h ▸ .nil, fun h => by cases h; rfl⟩
  | cons a l ih =>
    rw [List.mapM_cons]
    constructor
    · intro h
      obtain ⟨b, hb, h⟩ := bind_eq_ok.mp h
      obtain ⟨bs, hbs, h⟩ := bind_eq_ok.mp h
      rw [pure_eq_ok] at h
      subst h
      exact .cons hb (ih.mp hbs)
    · rintro (_ | ⟨hb, hbs⟩)
      exact bind_eq_ok.mpr ⟨_, hb, bind_eq_ok.mpr ⟨_, ih.mpr hbs, rfl⟩⟩

theorem exists_mapM_eq_ok {f : α → Except ε β} {l : List α} :
    (∃ r, l.mapM f = .ok r) ↔ ∀ a ∈ l, ∃ b, f a = .ok b := by
  simp only [mapM_eq_ok]
  induction l with
  | nil => exact ⟨fun _ a ha => absurd ha List.not_mem_nil, fun _ => ⟨[], .nil⟩⟩
  | cons a l ih =>
    rw [List.forall_mem_cons, ← ih]
    constructor
    · rintro ⟨_, _ | ⟨hb, hbs⟩⟩
      exact ⟨⟨_, hb⟩, _, hbs⟩
    · rintro ⟨⟨b, hb⟩, bs, hbs⟩
      exact ⟨b :: bs, .cons hb hbs⟩

/-! ## What a computation fails with -/

/-- Every failure is one of `P`. -/
def Fails (P : ε → Prop) (x : Except ε α) : Prop := ∀ e, x = .error e → P e

theorem fails_ok (P : ε → Prop) (a : α) : Fails P (.ok a) := fun _ h => nomatch h

theorem fails_pure (P : ε → Prop) (a : α) : Fails P (pure a : Except ε α) := fun _ h => nomatch h

theorem fails_error {P : ε → Prop} {e : ε} (h : P e) : Fails P (.error e : Except ε α) := by
  intro e' he
  cases he
  exact h

theorem Fails.bind {P : ε → Prop} {x : Except ε α} {f : α → Except ε β} (hx : Fails P x)
    (hf : ∀ a, x = .ok a → Fails P (f a)) : Fails P (x >>= f) := by
  intro e he
  cases hxe : x with
  | error e' =>
    rw [hxe] at he
    cases he
    exact hx e hxe
  | ok a =>
    rw [hxe] at he
    exact hf a hxe e he

theorem Fails.map {P : ε → Prop} {x : Except ε α} (hx : Fails P x) (f : α → β) :
    Fails P (f <$> x) := by
  intro e he
  cases hxe : x with
  | error e' =>
    rw [hxe] at he
    cases he
    exact hx e hxe
  | ok a =>
    rw [hxe] at he
    cases he

theorem Fails.ite {P : ε → Prop} {c : Prop} [Decidable c] {x y : Except ε α} (hx : Fails P x)
    (hy : Fails P y) : Fails P (if c then x else y) := by
  split
  · exact hx
  · exact hy

theorem fails_mapM {P : ε → Prop} {f : α → Except ε β} {l : List α}
    (h : ∀ a ∈ l, Fails P (f a)) : Fails P (l.mapM f) := by
  induction l with
  | nil =>
    rw [List.mapM_nil]
    exact fails_pure P _
  | cons a l ih =>
    rw [List.mapM_cons]
    refine (h a List.mem_cons_self).bind fun b _ => ?_
    exact (ih fun c hc => h c (List.mem_cons_of_mem a hc)).bind fun bs _ => fails_pure P _

/-- A map over a list fails as it does at the first element where it does. -/
theorem mapM_eq_error {f : α → Except ε β} {l : List α} {e : ε} :
    l.mapM f = .error e ↔ ∃ before a after, l = before ++ a :: after ∧
      (∀ b ∈ before, ∃ r, f b = .ok r) ∧ f a = .error e := by
  induction l with
  | nil =>
    rw [List.mapM_nil]
    constructor
    · intro h
      cases h
    · rintro ⟨before, a, after, h, -⟩
      exact absurd h (by simp)
  | cons c l ih =>
    rw [List.mapM_cons]
    constructor
    · intro h
      cases hc : f c with
      | error e' =>
        rw [hc] at h
        cases h
        exact ⟨[], c, l, rfl, fun b hb => absurd hb List.not_mem_nil, hc⟩
      | ok r =>
        rw [hc, ok_bind] at h
        cases hl : l.mapM f with
        | ok rs =>
          rw [hl] at h
          cases h
        | error e' =>
          rw [hl] at h
          cases h
          obtain ⟨before, a, after, rfl, hb, ha⟩ := ih.mp hl
          exact ⟨c :: before, a, after, rfl, List.forall_mem_cons.mpr ⟨⟨r, hc⟩, hb⟩, ha⟩
    · rintro ⟨before, a, after, hl, hb, ha⟩
      cases before with
      | nil =>
        obtain ⟨rfl, rfl⟩ := List.cons.inj hl
        rw [ha]
        rfl
      | cons b before =>
        obtain ⟨rfl, rfl⟩ := List.cons.inj hl
        obtain ⟨⟨r, hr⟩, hb⟩ := List.forall_mem_cons.mp hb
        rw [hr, ok_bind, ih.mpr ⟨before, a, after, rfl, hb, ha⟩]
        rfl

/-! ## Computations that agree -/

/-- Related values, or the same failure. -/
inductive Agree {α β : Type*} (Q : α → β → Prop) : Except ε α → Except ε β → Prop
  | ok {a : α} {b : β} (h : Q a b) : Agree Q (.ok a) (.ok b)
  | error (e : ε) : Agree Q (.error e) (.error e)

section Agree

variable {α' β' : Type u} {Q : α → α' → Prop} {S : β → β' → Prop}

theorem Agree.bind {x : Except ε α} {x' : Except ε α'} {f : α → Except ε β}
    {f' : α' → Except ε β'} (h : Agree Q x x') (hf : ∀ a a', Q a a' → Agree S (f a) (f' a')) :
    Agree S (x >>= f) (x' >>= f') := by
  cases h with
  | ok h => exact hf _ _ h
  | error e => exact .error e

theorem agree_foldlM {γ γ' : Type*} {T : γ → γ' → Prop} {f : α → γ → Except ε α}
    {f' : α' → γ' → Except ε α'}
    (hf : ∀ a a' c c', Q a a' → T c c' → Agree Q (f a c) (f' a' c')) {l : List γ} {l' : List γ'}
    (hl : List.Forall₂ T l l') {a : α} {a' : α'} (ha : Q a a') :
    Agree Q (l.foldlM f a) (l'.foldlM f' a') := by
  induction hl generalizing a a' with
  | nil => exact .ok ha
  | cons hc _ ih =>
    rw [List.foldlM_cons, List.foldlM_cons]
    exact (hf _ _ _ _ ha hc).bind fun b b' hb => ih hb

end Agree

/-! ## Ordered alternatives -/

/-- The first answer, or else the second one; a failure of the first ends it. -/
def firstSome (x y : Except ε (Option α)) : Except ε (Option α) :=
  match x with
  | .error e => .error e
  | .ok (some a) => .ok (some a)
  | .ok none => y

@[simp] theorem firstSome_none (y : Except ε (Option α)) : firstSome (.ok none) y = y := rfl

@[simp] theorem firstSome_some (a : α) (y : Except ε (Option α)) :
    firstSome (.ok (some a)) y = .ok (some a) := rfl

@[simp] theorem firstSome_error (e : ε) (y : Except ε (Option α)) :
    firstSome (.error e) y = .error e := rfl

theorem firstSome_of_ne_none {x y : Except ε (Option α)} (h : x ≠ .ok none) :
    firstSome x y = x := by
  cases x with
  | error e => rfl
  | ok a =>
    cases a with
    | none => exact absurd rfl h
    | some a => rfl

@[simp] theorem firstSome_none_right (x : Except ε (Option α)) : firstSome x (.ok none) = x := by
  cases x with
  | error e => rfl
  | ok a => cases a <;> rfl

theorem firstSome_assoc (x y z : Except ε (Option α)) :
    firstSome (firstSome x y) z = firstSome x (firstSome y z) := by
  cases x with
  | error e => rfl
  | ok a => cases a <;> rfl

section FindSome

variable {γ : Type*} {f g : γ → Except ε (Option α)}

theorem findSomeM?_cons_eq (c : γ) (l : List γ) :
    (c :: l).findSomeM? f = firstSome (f c) (l.findSomeM? f) := by
  rw [List.findSomeM?_cons]
  cases f c with
  | error e => rfl
  | ok a => cases a <;> rfl

theorem findSomeM?_singleton (c : γ) : [c].findSomeM? f = f c := by
  rw [findSomeM?_cons_eq]
  exact firstSome_none_right (f c)

theorem findSomeM?_append (l l' : List γ) :
    (l ++ l').findSomeM? f = firstSome (l.findSomeM? f) (l'.findSomeM? f) := by
  induction l with
  | nil => rfl
  | cons c l ih =>
    rw [List.cons_append, findSomeM?_cons_eq, findSomeM?_cons_eq, ih, firstSome_assoc]

theorem findSomeM?_congr {l : List γ} (h : ∀ c ∈ l, f c = g c) :
    l.findSomeM? f = l.findSomeM? g := by
  induction l with
  | nil => rfl
  | cons c l ih =>
    rw [findSomeM?_cons_eq, findSomeM?_cons_eq, h c List.mem_cons_self,
      ih fun c' hc => h c' (List.mem_cons_of_mem c hc)]

theorem findSomeM?_eq_none {l : List γ} (h : ∀ c ∈ l, f c = .ok none) :
    l.findSomeM? f = .ok none := by
  induction l with
  | nil => rfl
  | cons c l ih =>
    rw [findSomeM?_cons_eq, h c List.mem_cons_self, firstSome_none]
    exact ih fun c' hc => h c' (List.mem_cons_of_mem c hc)

theorem findSomeM?_eq_some {l : List γ} {r : α} :
    l.findSomeM? f = .ok (some r) ↔ ∃ before c after, l = before ++ c :: after ∧
      (∀ b ∈ before, f b = .ok none) ∧ f c = .ok (some r) := by
  constructor
  · intro h
    induction l with
    | nil => cases h
    | cons c l ih =>
      rw [findSomeM?_cons_eq] at h
      by_cases hc : f c = .ok none
      · rw [hc, firstSome_none] at h
        obtain ⟨before, c', after, rfl, hb, hc'⟩ := ih h
        refine ⟨c :: before, c', after, rfl, fun b hmem => ?_, hc'⟩
        rcases List.mem_cons.mp hmem with rfl | hmem
        · exact hc
        · exact hb b hmem
      · rw [firstSome_of_ne_none hc] at h
        exact ⟨[], c, l, rfl, fun b hmem => absurd hmem List.not_mem_nil, h⟩
  · intro ⟨before, c, after, hl, hb, hc⟩
    rw [hl, findSomeM?_append, findSomeM?_eq_none hb, firstSome_none, findSomeM?_cons_eq, hc,
      firstSome_some]

theorem findSomeM?_map {δ : Type*} (k : δ → γ) (l : List δ) :
    (l.map k).findSomeM? f = l.findSomeM? fun d => f (k d) := by
  induction l with
  | nil => rfl
  | cons d l ih => rw [List.map_cons, findSomeM?_cons_eq, findSomeM?_cons_eq, ih]

theorem findSomeM?_flatMap {δ : Type*} (k : δ → List γ) (l : List δ) :
    (l.flatMap k).findSomeM? f = l.findSomeM? fun d => (k d).findSomeM? f := by
  induction l with
  | nil => rfl
  | cons d l ih => rw [List.flatMap_cons, findSomeM?_append, findSomeM?_cons_eq, ih]

theorem findSomeM?_filter (p : γ → Bool) (l : List γ) :
    (l.filter p).findSomeM? f = l.findSomeM? fun c => if p c then f c else .ok none := by
  induction l with
  | nil => rfl
  | cons c l ih =>
    rw [findSomeM?_cons_eq, List.filter_cons]
    by_cases hc : p c = true
    · rw [if_pos hc, if_pos hc, findSomeM?_cons_eq, ih]
    · rw [if_neg hc, if_neg hc, firstSome_none, ih]

end FindSome

end Result
