import Mathlib.Logic.Relation

/-!
# Calls on a pool of locked resources

A call takes a free resource, moves on it alone until it has an answer, and gives it back. Calls on
different resources interleave freely. Since a resource answers to the call that holds its lock and
to no other, every answer is one the call gets alone, on a resource that others have used before
(`Reachable.served`).
-/

namespace Pooled

/-- How a call `α` with a local state `κ` goes about its answer `β`: it answers at once or asks for
a resource, and then moves on. `unserved` is its answer when there is no resource at all. -/
structure Protocol (R α κ β : Type) where
  start : α → κ ⊕ β
  unserved : α → β
  move : κ → R → (κ ⊕ β) × R

/-- A resource under its lock, with the call that holds it. -/
structure Slot (R α κ : Type) where
  resource : R
  holder : Option (α × κ)

/-- The pool, and the calls answered so far. -/
structure State (R α κ β : Type) where
  slots : List (Slot R α κ)
  log : List (α × β)

variable {R α κ β : Type}

/-- A pool of free resources, before the first call. -/
def State.init (resources : List R) : State R α κ β := ⟨resources.map (⟨·, none⟩), []⟩

/-- What can happen next. -/
inductive Step (P : Protocol R α κ β) : State R α κ β → State R α κ β → Prop
  | direct {s : State R α κ β} {a : α} {b : β} (ha : P.start a = .inr b) :
      Step P s { s with log := (a, b) :: s.log }
  | unserved {s : State R α κ β} {a : α} {k : κ} (ha : P.start a = .inl k)
      (hs : s.slots = []) : Step P s { s with log := (a, P.unserved a) :: s.log }
  | checkout {s : State R α κ β} {a : α} {k : κ} {j : Nat} {r : R} (ha : P.start a = .inl k)
      (hj : s.slots[j]? = some ⟨r, none⟩) :
      Step P s { s with slots := s.slots.set j ⟨r, some (a, k)⟩ }
  | move {s : State R α κ β} {a : α} {k k' : κ} {j : Nat} {r r' : R}
      (hj : s.slots[j]? = some ⟨r, some (a, k)⟩) (hk : P.move k r = (.inl k', r')) :
      Step P s { s with slots := s.slots.set j ⟨r', some (a, k')⟩ }
  | answer {s : State R α κ β} {a : α} {k : κ} {b : β} {j : Nat} {r r' : R}
      (hj : s.slots[j]? = some ⟨r, some (a, k)⟩) (hk : P.move k r = (.inr b, r')) :
      Step P s ⟨s.slots.set j ⟨r', none⟩, (a, b) :: s.log⟩

/-- The states reached from a pool of free resources, in any order of the calls. -/
def Reachable (P : Protocol R α κ β) (resources : List R) (s : State R α κ β) : Prop :=
  Relation.ReflTransGen (Step P) (.init resources) s

/-- A call that nothing interrupts, from a resource to its answer. -/
inductive Alone (P : Protocol R α κ β) : κ → R → β → R → Prop
  | answer {k : κ} {r r' : R} {b : β} (hk : P.move k r = (.inr b, r')) : Alone P k r b r'
  | move {k k' : κ} {r r' r'' : R} {b : β} (hk : P.move k r = (.inl k', r'))
      (rest : Alone P k' r' b r'') : Alone P k r b r''

/-- A call alone has one answer. -/
theorem Alone.unique {P : Protocol R α κ β} {k : κ} {r r₁ r₂ : R} {b₁ b₂ : β}
    (h₁ : Alone P k r b₁ r₁) (h₂ : Alone P k r b₂ r₂) : b₁ = b₂ ∧ r₁ = r₂ := by
  induction h₁ with
  | answer hk =>
    cases h₂ with
    | answer hk' =>
      cases hk.symm.trans hk'
      exact ⟨rfl, rfl⟩
    | move hk' _ => cases hk.symm.trans hk'
  | move hk _ ih =>
    cases h₂ with
    | answer hk' => cases hk.symm.trans hk'
    | move hk' rest =>
      cases hk.symm.trans hk'
      exact ih rest

/-- The call gets the answer at once, or alone on some resource that satisfies `I`. -/
inductive Served (P : Protocol R α κ β) (I : R → Prop) (a : α) (b : β) : Prop
  | direct (ha : P.start a = .inr b)
  | alone {k : κ} {r r' : R} (ha : P.start a = .inl k) (hr : I r) (h : Alone P k r b r')

/-! ## Every interleaving -/

section Invariant

variable (P : Protocol R α κ β) (I : R → Prop)

/-- Moves keep what the resources satisfy. -/
def Protocol.Keeps : Prop := ∀ k r x r', P.move k r = (x, r') → I r → I r'

/-- Whatever answer the holder still gets alone, it gets from where it began. -/
structure Slot.Ok (slot : Slot R α κ) : Prop where
  resource : I slot.resource
  holder : ∀ a k, slot.holder = some (a, k) → ∀ b r', Alone P k slot.resource b r' →
    Served P I a b

/-- What holds in every state. -/
structure State.Ok (s : State R α κ β) : Prop where
  slots : ∀ slot ∈ s.slots, slot.Ok P I
  nonempty : s.slots ≠ []
  log : ∀ call ∈ s.log, Served P I call.1 call.2

variable {P I}

/-- A slot replaced by one in order leaves all in order. -/
theorem State.Ok.set {s : State R α κ β} (h : s.Ok P I) (j : Nat) {slot : Slot R α κ}
    (hslot : slot.Ok P I) : State.Ok P I { s with slots := s.slots.set j slot } := by
  refine ⟨fun x hx => ?_, fun hnil => ?_, h.log⟩
  · rcases List.mem_or_eq_of_mem_set hx with hmem | rfl
    · exact h.slots x hmem
    · exact hslot
  · exact h.nonempty ((List.set_eq_nil_iff _ _).mp hnil)

theorem State.Ok.answered {s : State R α κ β} (h : s.Ok P I) {a : α} {b : β}
    (hb : Served P I a b) : State.Ok P I { s with log := (a, b) :: s.log } := by
  refine ⟨h.slots, h.nonempty, fun call hcall => ?_⟩
  rcases List.mem_cons.mp hcall with rfl | hmem
  · exact hb
  · exact h.log call hmem

theorem State.Ok.init {resources : List R} (hne : resources ≠ []) (h : ∀ r ∈ resources, I r) :
    (State.init resources : State R α κ β).Ok P I := by
  refine ⟨fun slot hslot => ?_, fun hnil => hne (List.map_eq_nil_iff.mp hnil), nofun⟩
  obtain ⟨r, hr, rfl⟩ := List.mem_map.mp hslot
  exact ⟨h r hr, fun a k hak => by cases hak⟩

/-- **One step.** -/
theorem Step.ok (hI : P.Keeps I) {s s' : State R α κ β} (h : Step P s s') (hs : s.Ok P I) :
    s'.Ok P I := by
  cases h with
  | direct ha => exact hs.answered (.direct ha)
  | unserved _ hnil => exact absurd hnil hs.nonempty
  | checkout ha hj =>
    have hr := (hs.slots _ (List.mem_of_getElem? hj)).resource
    refine hs.set _ ⟨hr, fun a k hak b r' hb => ?_⟩
    cases hak
    exact .alone ha hr hb
  | move hj hk =>
    have hslot := hs.slots _ (List.mem_of_getElem? hj)
    have hr := hI _ _ _ _ hk hslot.resource
    refine hs.set _ ⟨hr, fun a k hak b r' hb => ?_⟩
    cases hak
    exact hslot.holder _ _ rfl b r' (.move hk hb)
  | answer hj hk =>
    have hslot := hs.slots _ (List.mem_of_getElem? hj)
    have hr := hI _ _ _ _ hk hslot.resource
    have hfree : Slot.Ok P I ⟨_, none⟩ := ⟨hr, fun a k hak => by cases hak⟩
    exact (hs.set _ hfree).answered (hslot.holder _ _ rfl _ _ (.answer hk))

/-- **Every answer is one the call gets alone**, whatever the interleaving. -/
theorem Reachable.served (hI : P.Keeps I) {resources : List R} (hne : resources ≠ [])
    (hr : ∀ r ∈ resources, I r) {s : State R α κ β} (h : Reachable P resources s) :
    ∀ call ∈ s.log, Served P I call.1 call.2 := by
  have hok : s.Ok P I := by
    induction h with
    | refl => exact .init hne hr
    | tail _ hstep ih => exact hstep.ok hI ih
  exact hok.log

end Invariant

/-! ## The size of the pool -/

theorem Step.length_slots {P : Protocol R α κ β} {s s' : State R α κ β} (h : Step P s s') :
    s'.slots.length = s.slots.length := by
  cases h with
  | direct | unserved => rfl
  | checkout | move | answer => exact List.length_set

theorem Reachable.length_slots {P : Protocol R α κ β} {resources : List R} {s : State R α κ β}
    (h : Reachable P resources s) : s.slots.length = resources.length := by
  induction h with
  | refl => exact List.length_map _
  | tail _ hstep ih => rw [hstep.length_slots, ih]

/-- Without a resource every call is answered at once. -/
theorem Reachable.answered_of_nil {P : Protocol R α κ β} {s : State R α κ β}
    (h : Reachable P [] s) :
    ∀ call ∈ s.log, P.start call.1 = .inr call.2 ∨ call.2 = P.unserved call.1 := by
  have hslot : ∀ {s : State R α κ β} {j : Nat} {slot : Slot R α κ}, Reachable P [] s →
      s.slots[j]? ≠ some slot := by
    intro s j slot hs hj
    have hlen := (List.getElem?_eq_some_iff.mp hj).1
    rw [hs.length_slots] at hlen
    exact Nat.not_lt_zero j hlen
  induction h with
  | refl => exact fun call hcall => absurd hcall List.not_mem_nil
  | tail hs hstep ih =>
    cases hstep with
    | direct ha =>
      intro call hcall
      rcases List.mem_cons.mp hcall with rfl | hcall
      · exact .inl ha
      · exact ih call hcall
    | unserved =>
      intro call hcall
      rcases List.mem_cons.mp hcall with rfl | hcall
      · exact .inr rfl
      · exact ih call hcall
    | checkout _ hj | move hj | answer hj => exact absurd hj (hslot hs)

end Pooled
