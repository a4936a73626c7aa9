import Mathlib.Algebra.GroupWithZero.Nat
import ForensicVfs.Lib.Pooled

/-!
# Clients of a pool of locked resources

The calls of `Pooled`, seen from the clients that make them. A client looks at the resources one
after another and takes the first one it finds free; a client that has found every one locked waits
for the first. The looks of one client interleave with whatever the others do, so it may pass a
resource just before that becomes free. Seen from the pool every run is one of `Pooled`
(`Run.reachable`), a held resource and the client that holds it belong to each other
(`Consistent`), no schedule blocks before all clients have their answer (`Consistent.exists_step`)
and none goes on for ever (`Run.length_le`).
-/

namespace Pooled

variable {R α κ β : Type}

/-- Where a client is in its call. -/
inductive Phase (α β : Type) where
  | ready (a : α)
  | scanning (a : α) (i : Nat)
  | waiting (a : α)
  | holding (a : α) (j : Nat)
  | done (a : α) (b : β)

/-- The call. -/
def Phase.call : Phase α β → α
  | .ready a | .scanning a _ | .waiting a | .holding a _ | .done a _ => a

/-- What holds of a client by itself: one that looks for a resource needs one, one that waits has
something to wait for, and what one has been answered is on record. -/
def Phase.Ok (P : Protocol R α κ β) (pool : State R α κ β) : Phase α β → Prop
  | .ready _ | .holding _ _ => True
  | .scanning a _ => ∃ k, P.start a = .inl k
  | .waiting a => (∃ k, P.start a = .inl k) ∧ pool.slots ≠ []
  | .done a b => (a, b) ∈ pool.log

theorem Phase.Ok.mono {P : Protocol R α κ β} {pool pool' : State R α κ β} {ph : Phase α β}
    (h : ph.Ok P pool) (hslots : pool.slots ≠ [] → pool'.slots ≠ [])
    (hlog : ∀ call ∈ pool.log, call ∈ pool'.log) : ph.Ok P pool' := by
  cases ph with
  | ready | holding => trivial
  | scanning => exact h
  | waiting => exact ⟨h.1, hslots h.2⟩
  | done => exact hlog _ h

/-- The client holds nothing. -/
def Phase.Idle (ph : Phase α β) : Prop := ∀ a j, ph ≠ .holding a j

/-- The pool and its clients. -/
structure System (R α κ β : Type) where
  pool : State R α κ β
  clients : List (Phase α β)

namespace System

/-- Free resources, and clients that have not begun. -/
def init (resources : List R) (calls : List α) : System R α κ β :=
  ⟨.init resources, calls.map .ready⟩

/-- One step of a client that holds nothing: it begins, looks for a resource, or locks one. -/
inductive Enter (start : α → κ ⊕ β) (unserved : α → β) : System R α κ β → System R α κ β → Prop
  | direct {s : System R α κ β} {c : Nat} {a : α} {b : β} (hc : s.clients[c]? = some (.ready a))
      (ha : start a = .inr b) : Enter start unserved s
        ⟨{ s.pool with log := (a, b) :: s.pool.log }, s.clients.set c (.done a b)⟩
  | scan {s : System R α κ β} {c : Nat} {a : α} {k : κ} (hc : s.clients[c]? = some (.ready a))
      (ha : start a = .inl k) : Enter start unserved s ⟨s.pool, s.clients.set c (.scanning a 0)⟩
  | pass {s : System R α κ β} {c i : Nat} {a : α} {r : R} {held : α × κ}
      (hc : s.clients[c]? = some (.scanning a i)) (hi : s.pool.slots[i]? = some ⟨r, some held⟩) :
      Enter start unserved s ⟨s.pool, s.clients.set c (.scanning a (i + 1))⟩
  | take {s : System R α κ β} {c i : Nat} {a : α} {k : κ} {r : R}
      (hc : s.clients[c]? = some (.scanning a i)) (ha : start a = .inl k)
      (hi : s.pool.slots[i]? = some ⟨r, none⟩) : Enter start unserved s
        ⟨{ s.pool with slots := s.pool.slots.set i ⟨r, some (a, k)⟩ },
          s.clients.set c (.holding a i)⟩
  | wait {s : System R α κ β} {c i : Nat} {a : α} (hc : s.clients[c]? = some (.scanning a i))
      (hi : s.pool.slots[i]? = none) (hne : s.pool.slots ≠ []) :
      Enter start unserved s ⟨s.pool, s.clients.set c (.waiting a)⟩
  | unserved {s : System R α κ β} {c i : Nat} {a : α} {k : κ}
      (hc : s.clients[c]? = some (.scanning a i)) (ha : start a = .inl k)
      (hnil : s.pool.slots = []) : Enter start unserved s
        ⟨{ s.pool with log := (a, unserved a) :: s.pool.log },
          s.clients.set c (.done a (unserved a))⟩
  | acquire {s : System R α κ β} {c : Nat} {a : α} {k : κ} {r : R}
      (hc : s.clients[c]? = some (.waiting a)) (ha : start a = .inl k)
      (hi : s.pool.slots[0]? = some ⟨r, none⟩) : Enter start unserved s
        ⟨{ s.pool with slots := s.pool.slots.set 0 ⟨r, some (a, k)⟩ },
          s.clients.set c (.holding a 0)⟩

/-- One step of one client. -/
inductive Step (P : Protocol R α κ β) : System R α κ β → System R α κ β → Prop
  | enter {s s' : System R α κ β} (h : Enter P.start P.unserved s s') : Step P s s'
  | move {s : System R α κ β} {c j : Nat} {a : α} {k k' : κ} {r r' : R}
      (hc : s.clients[c]? = some (.holding a j))
      (hj : s.pool.slots[j]? = some ⟨r, some (a, k)⟩) (hk : P.move k r = (.inl k', r')) :
      Step P s ⟨{ s.pool with slots := s.pool.slots.set j ⟨r', some (a, k')⟩ }, s.clients⟩
  | answer {s : System R α κ β} {c j : Nat} {a : α} {k : κ} {b : β} {r r' : R}
      (hc : s.clients[c]? = some (.holding a j))
      (hj : s.pool.slots[j]? = some ⟨r, some (a, k)⟩) (hk : P.move k r = (.inr b, r')) :
      Step P s ⟨⟨s.pool.slots.set j ⟨r', none⟩, (a, b) :: s.pool.log⟩,
        s.clients.set c (.done a b)⟩

/-- A run of so many steps. -/
inductive Run (P : Protocol R α κ β) : Nat → System R α κ β → System R α κ β → Prop
  | refl (s : System R α κ β) : Run P 0 s s
  | tail {s t u : System R α κ β} {n : Nat} (h : Run P n s t) (hstep : Step P t u) :
      Run P (n + 1) s u

/-! ## Seen from the pool -/

/-- A client's step is a step of the pool, or the pool does not notice it. -/
theorem Step.pool {P : Protocol R α κ β} {s s' : System R α κ β} (h : Step P s s') :
    s'.pool = s.pool ∨ Pooled.Step P s.pool s'.pool := by
  cases h with
  | enter h =>
    cases h with
    | direct _ ha => exact .inr (.direct ha)
    | scan | pass | wait => exact .inl rfl
    | take _ ha hi | acquire _ ha hi => exact .inr (.checkout ha hi)
    | unserved _ ha hnil => exact .inr (.unserved ha hnil)
  | move _ hj hk => exact .inr (.move hj hk)
  | answer _ hj hk => exact .inr (.answer hj hk)

/-- **Every run of the clients is one of the pool.** -/
theorem Run.reachable {P : Protocol R α κ β} {resources : List R} {calls : List α} {n : Nat}
    {s : System R α κ β} (h : Run P n (init resources calls) s) :
    Reachable P resources s.pool := by
  generalize hs : init resources calls = s₀ at h
  induction h with
  | refl s =>
    subst hs
    exact .refl
  | tail _ hstep ih =>
    rcases hstep.pool with heq | hpool
    · rw [heq]
      exact ih hs
    · exact (ih hs).tail hpool

/-! ## Who holds what -/

theorem getElem?_set_cases {γ : Type} {l : List γ} {i j : Nat} {x y : γ}
    (h : (l.set i x)[j]? = some y) : j = i ∧ y = x ∨ j ≠ i ∧ l[j]? = some y := by
  by_cases hij : i = j
  · subst hij
    rw [List.getElem?_set_self'] at h
    obtain ⟨z, -, hz⟩ := Option.map_eq_some_iff.mp h
    exact .inl ⟨rfl, hz.symm⟩
  · rw [List.getElem?_set_ne hij] at h
    exact .inr ⟨fun hji => hij hji.symm, h⟩

theorem getElem?_set_of_some {γ : Type} {l : List γ} {i : Nat} {x y : γ} (h : l[i]? = some y) :
    (l.set i x)[i]? = some x := by
  rw [List.getElem?_set_self', h]
  rfl

/-- What holds in every state: a resource is locked for a call exactly when a client holds it for
that call, and no two clients hold one resource. -/
structure Consistent (P : Protocol R α κ β) (s : System R α κ β) : Prop where
  phases : ∀ ph ∈ s.clients, ph.Ok P s.pool
  holds : ∀ (c : Nat) (a : α) (j : Nat), s.clients[c]? = some (.holding a j) →
    ∃ r k, s.pool.slots[j]? = some ⟨r, some (a, k)⟩
  held : ∀ (j : Nat) (r : R) (a : α) (k : κ), s.pool.slots[j]? = some ⟨r, some (a, k)⟩ →
    ∃ c : Nat, s.clients[c]? = some (.holding a j)
  alone : ∀ (c c' : Nat) (a a' : α) (j : Nat), s.clients[c]? = some (.holding a j) →
    s.clients[c']? = some (.holding a' j) → c = c'

namespace Consistent

variable {P : Protocol R α κ β}

theorem init (resources : List R) (calls : List α) :
    Consistent P (System.init resources calls) := by
  have hready : ∀ (c : Nat) (ph : Phase α β), (calls.map Phase.ready)[c]? = some ph →
      ∃ a, ph = .ready a := by
    intro c ph h
    obtain ⟨a, -, rfl⟩ := List.mem_map.mp (List.mem_of_getElem? h)
    exact ⟨a, rfl⟩
  refine ⟨fun ph h => ?_, fun c a j h => ?_, fun j r a k h => ?_, fun c c' a a' j h => ?_⟩
  · obtain ⟨a, -, rfl⟩ := List.mem_map.mp h
    trivial
  · obtain ⟨a', ha⟩ := hready c _ h
    exact nomatch ha
  · obtain ⟨r', -, hslot⟩ := List.mem_map.mp (List.mem_of_getElem? h)
    exact nomatch hslot
  · obtain ⟨a'', ha⟩ := hready c _ h
    exact nomatch ha

variable {s : System R α κ β} {c j : Nat} {a : α} {ph : Phase α β}

/-- A client that holds nothing goes on without a resource. -/
theorem idle (h : Consistent P s) {pool : State R α κ β} {ph' : Phase α β}
    (hc : s.clients[c]? = some ph) (hph : ph.Idle) (hph' : ph'.Idle)
    (hslots : pool.slots = s.pool.slots) (hlog : ∀ call ∈ s.pool.log, call ∈ pool.log)
    (hok : ph'.Ok P pool) : Consistent P ⟨pool, s.clients.set c ph'⟩ := by
  -- the clients that hold something are the same as before
  have hback : ∀ {c' : Nat} {a' : α} {j' : Nat},
      (s.clients.set c ph')[c']? = some (.holding a' j') →
        s.clients[c']? = some (.holding a' j') := by
    intro c' a' j' h'
    rcases getElem?_set_cases h' with ⟨-, heq⟩ | ⟨-, h'⟩
    · exact absurd heq.symm (hph' a' j')
    · exact h'
  refine ⟨fun x hx => ?_, fun c' a' j' h' => ?_, fun j' r a' k hj => ?_,
    fun c₁ c₂ a₁ a₂ j' h₁ h₂ => h.alone c₁ c₂ a₁ a₂ j' (hback h₁) (hback h₂)⟩
  · rcases List.mem_or_eq_of_mem_set hx with hx | rfl
    · exact (h.phases x hx).mono (fun hne => hslots ▸ hne) hlog
    · exact hok
  · rw [hslots]
    exact h.holds c' a' j' (hback h')
  · rw [hslots] at hj
    obtain ⟨c', hc'⟩ := h.held j' r a' k hj
    refine ⟨c', ?_⟩
    rw [List.getElem?_set_ne, hc']
    rintro rfl
    exact hph a' j' (Option.some.inj (hc.symm.trans hc'))

/-- A client locks a free resource. -/
theorem lock (h : Consistent P s) {r : R} {k : κ} (hc : s.clients[c]? = some ph) (hph : ph.Idle)
    (hj : s.pool.slots[j]? = some ⟨r, none⟩) :
    Consistent P ⟨{ s.pool with slots := s.pool.slots.set j ⟨r, some (a, k)⟩ },
      s.clients.set c (.holding a j)⟩ := by
  have hset : (s.pool.slots.set j ⟨r, some (a, k)⟩)[j]? = some ⟨r, some (a, k)⟩ :=
    getElem?_set_of_some hj
  -- nobody held it
  have hfree : ∀ (c' : Nat) (a' : α), s.clients[c']? ≠ some (.holding a' j) := by
    intro c' a' hc'
    obtain ⟨r', k', hj'⟩ := h.holds c' a' j hc'
    cases hj.symm.trans hj'
  refine ⟨fun x hx => ?_, fun c' a' j' h' => ?_, fun j' r' a' k' hj' => ?_,
    fun c₁ c₂ a₁ a₂ j' h₁ h₂ => ?_⟩
  · rcases List.mem_or_eq_of_mem_set hx with hx | rfl
    · exact (h.phases x hx).mono (fun hne hnil => hne ((List.set_eq_nil_iff _ _).mp hnil))
        fun _ hcall => hcall
    · trivial
  · rcases getElem?_set_cases h' with ⟨-, heq⟩ | ⟨-, h'⟩
    · cases heq
      exact ⟨r, k, hset⟩
    · obtain ⟨r', k', hj'⟩ := h.holds c' a' j' h'
      refine ⟨r', k', ?_⟩
      rw [List.getElem?_set_ne, hj']
      rintro rfl
      exact hfree c' a' h'
  · rcases getElem?_set_cases hj' with ⟨rfl, heq⟩ | ⟨-, hj'⟩
    · cases heq
      exact ⟨c, getElem?_set_of_some hc⟩
    · obtain ⟨c', hc'⟩ := h.held j' r' a' k' hj'
      refine ⟨c', ?_⟩
      rw [List.getElem?_set_ne, hc']
      rintro rfl
      exact hph a' j' (Option.some.inj (hc.symm.trans hc'))
  · rcases getElem?_set_cases h₁ with ⟨rfl, heq₁⟩ | ⟨-, old₁⟩ <;>
      rcases getElem?_set_cases h₂ with ⟨rfl, heq₂⟩ | ⟨-, old₂⟩
    · rfl
    · cases heq₁
      exact absurd old₂ (hfree c₂ a₂)
    · cases heq₂
      exact absurd old₁ (hfree c₁ a₁)
    · exact h.alone c₁ c₂ a₁ a₂ j' old₁ old₂

/-- A holder moves on. -/
theorem moved (h : Consistent P s) {r r' : R} {k k' : κ}
    (hj : s.pool.slots[j]? = some ⟨r, some (a, k)⟩) :
    Consistent P ⟨{ s.pool with slots := s.pool.slots.set j ⟨r', some (a, k')⟩ }, s.clients⟩ := by
  refine ⟨fun x hx => ?_, fun c' a' j' h' => ?_, fun j' r₁ a' k₁ hj' => ?_, h.alone⟩
  · exact (h.phases x hx).mono (fun hne hnil => hne ((List.set_eq_nil_iff _ _).mp hnil))
      fun _ hcall => hcall
  · obtain ⟨r₁, k₁, hj'⟩ := h.holds c' a' j' h'
    by_cases hjj : j = j'
    · subst hjj
      cases hj.symm.trans hj'
      exact ⟨r', k', getElem?_set_of_some hj⟩
    · exact ⟨r₁, k₁, by rw [List.getElem?_set_ne hjj, hj']⟩
  · rcases getElem?_set_cases hj' with ⟨rfl, heq⟩ | ⟨-, hj'⟩
    · cases heq
      exact h.held j' r a k hj
    · exact h.held j' r₁ a' k₁ hj'

/-- A holder has its answer and gives the resource back. -/
theorem freed (h : Consistent P s) {r' : R} {b : β} (hc : s.clients[c]? = some (.holding a j)) :
    Consistent P ⟨⟨s.pool.slots.set j ⟨r', none⟩, (a, b) :: s.pool.log⟩,
      s.clients.set c (.done a b)⟩ := by
  have hback : ∀ {c' : Nat} {a' : α} {j' : Nat},
      (s.clients.set c (.done a b))[c']? = some (.holding a' j') →
        c' ≠ c ∧ s.clients[c']? = some (.holding a' j') := by
    intro c' a' j' h'
    rcases getElem?_set_cases h' with ⟨-, heq⟩ | h'
    · exact nomatch heq
    · exact h'
  refine ⟨fun x hx => ?_, fun c' a' j' h' => ?_, fun j' r₁ a' k₁ hj' => ?_,
    fun c₁ c₂ a₁ a₂ j' h₁ h₂ => h.alone c₁ c₂ a₁ a₂ j' (hback h₁).2 (hback h₂).2⟩
  · rcases List.mem_or_eq_of_mem_set hx with hx | rfl
    · exact (h.phases x hx).mono (fun hne hnil => hne ((List.set_eq_nil_iff _ _).mp hnil))
        fun _ hcall => List.mem_cons_of_mem _ hcall
    · exact List.mem_cons_self
  · obtain ⟨hcc, h'⟩ := hback h'
    obtain ⟨r₁, k₁, hj'⟩ := h.holds c' a' j' h'
    refine ⟨r₁, k₁, ?_⟩
    rw [List.getElem?_set_ne, hj']
    rintro rfl
    exact hcc (h.alone c' c a' a j h' hc)
  · rcases getElem?_set_cases hj' with ⟨-, heq⟩ | ⟨hjj, hj'⟩
    · exact nomatch heq
    · obtain ⟨c', hc'⟩ := h.held j' r₁ a' k₁ hj'
      refine ⟨c', ?_⟩
      rw [List.getElem?_set_ne, hc']
      rintro rfl
      cases hc.symm.trans hc'
      exact hjj rfl

theorem enter (h : Consistent P s) {s' : System R α κ β}
    (hstep : Enter P.start P.unserved s s') : Consistent P s' := by
  cases hstep with
  | direct hc ha =>
    exact h.idle hc nofun nofun rfl (fun _ => List.mem_cons_of_mem _) List.mem_cons_self
  | scan hc ha => exact h.idle hc nofun nofun rfl (fun _ hcall => hcall) ⟨_, ha⟩
  | @pass c i a r held hc hi =>
    have hstart : ∃ k, P.start a = .inl k := h.phases _ (List.mem_of_getElem? hc)
    exact h.idle hc nofun nofun rfl (fun _ hcall => hcall) hstart
  | take hc ha hi => exact h.lock hc nofun hi
  | wait hc hi hne =>
    have hstart := h.phases _ (List.mem_of_getElem? hc)
    exact h.idle hc nofun nofun rfl (fun _ hcall => hcall) ⟨hstart, hne⟩
  | unserved hc ha hnil =>
    exact h.idle hc nofun nofun rfl (fun _ => List.mem_cons_of_mem _) List.mem_cons_self
  | acquire hc ha hi => exact h.lock hc nofun hi

/-- **One step.** -/
theorem step (h : Consistent P s) {s' : System R α κ β} (hstep : Step P s s') :
    Consistent P s' := by
  cases hstep with
  | enter hstep => exact h.enter hstep
  | move hc hj hk => exact h.moved hj
  | answer hc hj hk => exact h.freed hc

/-- While nothing is locked, nothing is in the way of a client without its answer. -/
theorem exists_enter (h : Consistent P s)
    (hfree : ∀ (c : Nat) (a : α) (j : Nat), s.clients[c]? ≠ some (.holding a j))
    (hph : ph ∈ s.clients) (hopen : ∀ a b, ph ≠ .done a b) :
    ∃ s', Enter P.start P.unserved s s' := by
  have hslot : ∀ {j : Nat} {slot : Slot R α κ}, s.pool.slots[j]? = some slot →
      slot.holder = none := by
    intro j slot hj
    obtain ⟨r, holder⟩ := slot
    cases holder with
    | none => rfl
    | some held =>
      obtain ⟨c, hc⟩ := h.held j r held.1 held.2 hj
      exact absurd hc (hfree c _ _)
  obtain ⟨c, hc⟩ := List.mem_iff_getElem?.mp hph
  cases ph with
  | ready a =>
    cases ha : P.start a with
    | inl k => exact ⟨_, .scan hc ha⟩
    | inr b => exact ⟨_, .direct hc ha⟩
  | scanning a i =>
    obtain ⟨k, ha⟩ : ∃ k, P.start a = .inl k := h.phases _ hph
    cases hi : s.pool.slots[i]? with
    | some slot =>
      obtain ⟨r, holder⟩ := slot
      obtain rfl : holder = none := hslot hi
      exact ⟨_, .take hc ha hi⟩
    | none =>
      by_cases hnil : s.pool.slots = []
      · exact ⟨_, .unserved hc ha hnil⟩
      · exact ⟨_, .wait hc hi hnil⟩
  | waiting a =>
    obtain ⟨⟨k, ha⟩, hne⟩ : (∃ k, P.start a = .inl k) ∧ s.pool.slots ≠ [] := h.phases _ hph
    have hi : s.pool.slots[0]? = some ⟨(s.pool.slots.head hne).resource, none⟩ := by
      have hhead := List.head?_eq_some_head hne
      rw [List.head?_eq_getElem?] at hhead
      rw [hhead, ← hslot hhead]
    exact ⟨_, .acquire hc ha hi⟩
  | holding a j => exact absurd hc (hfree c a j)
  | done a b => exact absurd rfl (hopen a b)

/-- **No deadlock**: while a client is without its answer, some client can take a step. -/
theorem exists_step (h : Consistent P s) (hph : ph ∈ s.clients) (hopen : ∀ a b, ph ≠ .done a b) :
    ∃ s', Step P s s' := by
  by_cases hheld : ∃ (c : Nat) (a : α) (j : Nat), s.clients[c]? = some (.holding a j)
  · -- whoever holds a resource can move on
    obtain ⟨c, a, j, hc⟩ := hheld
    obtain ⟨r, k, hj⟩ := h.holds c a j hc
    cases hk : P.move k r with
    | mk x r' =>
      cases x with
      | inl k' => exact ⟨_, .move hc hj hk⟩
      | inr b => exact ⟨_, .answer hc hj hk⟩
  · obtain ⟨s', hs'⟩ := h.exists_enter (fun c a j hc => hheld ⟨c, a, j, hc⟩) hph hopen
    exact ⟨s', .enter hs'⟩

end Consistent

/-- What holds of the first state and is kept by every step holds along every run. -/
theorem Run.consistent {P : Protocol R α κ β} {resources : List R} {calls : List α} {n : Nat}
    {s : System R α κ β} (h : Run P n (init resources calls) s) : Consistent P s := by
  generalize hs : init resources calls = s₀ at h
  induction h with
  | refl s =>
    subst hs
    exact .init resources calls
  | tail _ hstep ih => exact (ih hs).step hstep

/-- **What a step of a client that holds nothing does** to the clients: one without its answer goes
on with its call. -/
theorem Enter.client {start : α → κ ⊕ β} {unserved : α → β} {s s' : System R α κ β}
    (h : Enter start unserved s s') : ∃ c ph ph', s.clients[c]? = some ph ∧
      (∀ a b, ph ≠ .done a b) ∧ s'.clients = s.clients.set c ph' ∧ ph'.call = ph.call := by
  cases h with
  | direct hc | scan hc | pass hc | take hc | wait hc | unserved hc | acquire hc =>
    exact ⟨_, _, _, hc, nofun, rfl, rfl⟩

theorem map_call_set {clients : List (Phase α β)} {c : Nat} {ph ph' : Phase α β}
    (hc : clients[c]? = some ph) (hcall : ph'.call = ph.call) :
    (clients.set c ph').map Phase.call = clients.map Phase.call := by
  apply List.ext_getElem?
  intro i
  rw [List.getElem?_map, List.getElem?_map]
  by_cases hi : c = i
  · subst hi
    rw [getElem?_set_of_some hc, hc, Option.map_some, Option.map_some, hcall]
  · rw [List.getElem?_set_ne hi]

/-- A client stays with its call. -/
theorem Step.calls {P : Protocol R α κ β} {s s' : System R α κ β} (h : Step P s s') :
    s'.clients.map Phase.call = s.clients.map Phase.call := by
  cases h with
  | enter h =>
    obtain ⟨c, ph, ph', hc, -, hs', hcall⟩ := h.client
    rw [hs', map_call_set hc hcall]
  | move => rfl
  | answer hc => exact map_call_set hc rfl

/-- Clients that are done do nothing more. -/
theorem not_step_of_done {P : Protocol R α κ β} {s s' : System R α κ β}
    (h : ∀ ph ∈ s.clients, ∃ a b, ph = .done a b) : ¬Step P s s' := by
  have hopen : ∀ {c : Nat} {ph : Phase α β}, s.clients[c]? = some ph → ∃ a b, ph = .done a b :=
    fun hc => h _ (List.mem_of_getElem? hc)
  intro hstep
  cases hstep with
  | enter hstep =>
    obtain ⟨c, ph, ph', hc, hnot, -, -⟩ := hstep.client
    obtain ⟨a, b, heq⟩ := hopen hc
    exact hnot a b heq
  | move hc | answer hc =>
    obtain ⟨a, b, heq⟩ := hopen hc
    cases heq

theorem Run.calls {P : Protocol R α κ β} {n : Nat} {s s' : System R α κ β} (h : Run P n s s') :
    s'.clients.map Phase.call = s.clients.map Phase.call := by
  induction h with
  | refl => rfl
  | tail _ hstep ih => rw [hstep.calls, ih]

/-- The clients of a run are those that began it. -/
theorem Run.exists_client {P : Protocol R α κ β} {resources : List R} {calls : List α} {n : Nat}
    {s : System R α κ β} (h : Run P n (init resources calls) s) {c : Nat} {a : α}
    (hc : calls[c]? = some a) : ∃ ph, s.clients[c]? = some ph ∧ ph.call = a := by
  have hcalls : s.clients.map Phase.call = calls := by
    rw [h.calls, init, List.map_map]
    exact List.map_id calls
  rw [← hcalls, List.getElem?_map] at hc
  exact Option.map_eq_some_iff.mp hc

/-! ## A client that nobody disturbs -/

/-- It passes the resources that are locked. -/
theorem run_pass {P : Protocol R α κ β} {s : System R α κ β} {c : Nat} {a : α}
    (hc : s.clients[c]? = some (.scanning a 0)) (i : Nat)
    (hlocked : ∀ j < i, ∃ r held, s.pool.slots[j]? = some ⟨r, some held⟩) :
    Run P i s ⟨s.pool, s.clients.set c (.scanning a i)⟩ := by
  induction i with
  | zero =>
    obtain ⟨hlt, heq⟩ := List.getElem?_eq_some_iff.mp hc
    rw [← heq, List.set_getElem_self]
    exact .refl s
  | succ i ih =>
    obtain ⟨r, held, hi⟩ := hlocked i (Nat.lt_succ_self i)
    have hrun := ih fun j hj => hlocked j (Nat.lt_succ_of_lt hj)
    have hstep : Enter P.start P.unserved ⟨s.pool, s.clients.set c (.scanning a i)⟩ _ :=
      .pass (getElem?_set_of_some hc) hi
    rw [List.set_set] at hstep
    exact hrun.tail (.enter hstep)

/-- It takes the first one that is free. -/
theorem run_take {P : Protocol R α κ β} {s : System R α κ β} {c i : Nat} {a : α} {k : κ} {r : R}
    (hc : s.clients[c]? = some (.scanning a 0)) (ha : P.start a = .inl k)
    (hlocked : ∀ j < i, ∃ r held, s.pool.slots[j]? = some ⟨r, some held⟩)
    (hi : s.pool.slots[i]? = some ⟨r, none⟩) :
    Run P (i + 1) s ⟨{ s.pool with slots := s.pool.slots.set i ⟨r, some (a, k)⟩ },
      s.clients.set c (.holding a i)⟩ := by
  have hstep : Enter P.start P.unserved ⟨s.pool, s.clients.set c (.scanning a i)⟩ _ :=
    .take (getElem?_set_of_some hc) ha hi
  rw [List.set_set] at hstep
  exact (run_pass hc i hlocked).tail (.enter hstep)

/-- Where all are locked it waits. -/
theorem run_wait {P : Protocol R α κ β} {s : System R α κ β} {c : Nat} {a : α}
    (hc : s.clients[c]? = some (.scanning a 0)) (hne : s.pool.slots ≠ [])
    (hlocked : ∀ j < s.pool.slots.length, ∃ r held, s.pool.slots[j]? = some ⟨r, some held⟩) :
    Run P (s.pool.slots.length + 1) s ⟨s.pool, s.clients.set c (.waiting a)⟩ := by
  have hstep : Enter P.start P.unserved
      ⟨s.pool, s.clients.set c (.scanning a s.pool.slots.length)⟩ _ :=
    .wait (getElem?_set_of_some hc) (List.getElem?_eq_none (Nat.le_refl _)) hne
  rw [List.set_set] at hstep
  exact (run_pass hc _ hlocked).tail (.enter hstep)

/-! ## How long it can go on -/

section Length

variable (P : Protocol R α κ β) (left : κ → Nat)

/-- Every move leaves fewer moves. -/
def Falls : Prop := ∀ k r k' r', P.move k r = (.inl k', r') → left k' < left k

/-- The moves a call needs once it has its resource. -/
def cost (start : α → κ ⊕ β) (a : α) : Nat :=
  match start a with
  | .inl k => left k + 1
  | .inr _ => 0

/-- The steps a client has before it, one that holds a resource leaving them to the resource; `n`
is the number of resources. -/
def phaseSteps (start : α → κ ⊕ β) (n : Nat) : Phase α β → Nat
  | .ready a => cost left start a + n + 3
  | .scanning a i => cost left start a + (n - i) + 2
  | .waiting a => cost left start a + 1
  | .holding _ _ | .done _ _ => 0

/-- The moves of the holder of a resource. -/
def slotSteps : Slot R α κ → Nat
  | ⟨_, none⟩ => 0
  | ⟨_, some (_, k)⟩ => left k + 1

/-- The steps that are left, the resources weighed by `w`. -/
def stepsLeft (start : α → κ ⊕ β) (w : Nat → Slot R α κ → Nat) (s : System R α κ β) : Nat :=
  (s.clients.map (phaseSteps left start s.pool.slots.length)).sum + (s.pool.slots.mapIdx w).sum

theorem sum_map_set {γ : Type} {l : List γ} {i : Nat} {y : γ} (f : γ → Nat) (x : γ)
    (h : l[i]? = some y) : ((l.set i x).map f).sum + f y = (l.map f).sum + f x := by
  induction l generalizing i with
  | nil => exact nomatch h
  | cons z l ih =>
    cases i with
    | zero =>
      cases h
      simp only [List.set_cons_zero, List.map_cons, List.sum_cons]
      omega
    | succ i =>
      have := ih h
      simp only [List.set_cons_succ, List.map_cons, List.sum_cons]
      omega

/-- One element changes, and what the function makes of that one. -/
theorem sum_mapIdx_set {γ : Type} {l : List γ} {i : Nat} {y : γ} {f g : Nat → γ → Nat} (x : γ)
    (h : l[i]? = some y) (hfg : ∀ j, j ≠ i → g j = f j) :
    ((l.set i x).mapIdx g).sum + f i y = (l.mapIdx f).sum + g i x := by
  induction l generalizing i f g with
  | nil => cases h
  | cons z l ih =>
    cases i with
    | zero =>
      cases h
      have hrest : (fun j => g (j + 1)) = fun j => f (j + 1) :=
        funext fun j => hfg (j + 1) (Nat.succ_ne_zero j)
      simp only [List.set_cons_zero, List.mapIdx_cons, List.sum_cons, hrest]
      omega
    | succ i =>
      have hrest := ih h fun j hj => hfg (j + 1) fun heq => hj (Nat.succ.inj heq)
      simp only [List.set_cons_succ, List.mapIdx_cons, List.sum_cons, hfg 0 (Nat.zero_ne_add_one i)]
      omega

variable {P left}

theorem cost_eq {start : α → κ ⊕ β} {a : α} {k : κ} (ha : start a = .inl k) :
    cost left start a = left k + 1 := by
  rw [cost, ha]

/-- **A client that holds nothing leaves fewer steps**, if a lock it takes weighs no more than the
moves behind it. -/
theorem Enter.stepsLeft_lt {start : α → κ ⊕ β} {unserved : α → β} {s s' : System R α κ β}
    (h : Enter start unserved s s') {w : Nat → Slot R α κ → Nat}
    (hw : ∀ (i : Nat) (r : R) (a : α) (k : κ), s.pool.slots[i]? = some ⟨r, none⟩ →
      w i ⟨r, some (a, k)⟩ ≤ left k + 1) :
    stepsLeft left start w s' < stepsLeft left start w s := by
  have hclient := fun {c : Nat} {ph : Phase α β} (ph' : Phase α β)
      (hc : s.clients[c]? = some ph) =>
    sum_map_set (phaseSteps left start s.pool.slots.length) ph' hc
  unfold stepsLeft
  cases h with
  | @direct c a b hc ha =>
    have hsum := hclient (.done a b) hc
    simp only [phaseSteps] at hsum ⊢
    omega
  | @scan c a k hc ha =>
    have hsum := hclient (.scanning a 0) hc
    simp only [phaseSteps] at hsum ⊢
    omega
  | @pass c i a r held hc hi =>
    have hlt := (List.getElem?_eq_some_iff.mp hi).1
    have hsum := hclient (.scanning a (i + 1)) hc
    simp only [phaseSteps] at hsum ⊢
    omega
  | @take c i a k r hc ha hi =>
    have hsum := hclient (.holding a i) hc
    have hweight := sum_mapIdx_set (g := w) ⟨r, some (a, k)⟩ hi fun _ _ => rfl
    have hle := hw i r a k hi
    simp only [phaseSteps, cost_eq ha, List.length_set] at hsum ⊢
    omega
  | @wait c i a hc hi hne =>
    have hsum := hclient (.waiting a) hc
    simp only [phaseSteps] at hsum ⊢
    omega
  | @unserved c i a k hc ha hnil =>
    have hsum := hclient (.done a (unserved a)) hc
    simp only [phaseSteps] at hsum ⊢
    omega
  | @acquire c a k r hc ha hi =>
    have hsum := hclient (.holding a 0) hc
    have hweight := sum_mapIdx_set (g := w) ⟨r, some (a, k)⟩ hi fun _ _ => rfl
    have hle := hw 0 r a k hi
    simp only [phaseSteps, cost_eq ha, List.length_set] at hsum ⊢
    omega

/-- **Every step leaves fewer steps.** -/
theorem Step.stepsLeft_lt (hleft : Falls P left) {s s' : System R α κ β} (h : Step P s s') :
    stepsLeft left P.start (fun _ => slotSteps left) s' <
      stepsLeft left P.start (fun _ => slotSteps left) s := by
  have hslot := fun {j : Nat} {slot : Slot R α κ} (slot' : Slot R α κ)
      (hj : s.pool.slots[j]? = some slot) =>
    sum_mapIdx_set (f := fun _ => slotSteps left) slot' hj fun _ _ => rfl
  cases h with
  | enter h => exact h.stepsLeft_lt fun i r a k _ => Nat.le_refl _
  | @move c j a k k' r r' hc hj hk =>
    have hfewer := hleft k r k' r' hk
    have hmoves := hslot ⟨r', some (a, k')⟩ hj
    unfold stepsLeft
    simp only [slotSteps, List.length_set] at hmoves ⊢
    omega
  | @answer c j a k b r r' hc hj hk =>
    have hsum := sum_map_set (phaseSteps left P.start s.pool.slots.length) (.done a b) hc
    have hmoves := hslot ⟨r', none⟩ hj
    unfold stepsLeft
    simp only [phaseSteps, slotSteps, List.length_set] at hsum hmoves ⊢
    omega

theorem sum_mapIdx_eq_zero {γ : Type} {l : List γ} {f : Nat → γ → Nat}
    (h : ∀ i, ∀ x ∈ l, f i x = 0) : (l.mapIdx f).sum = 0 := by
  induction l generalizing f with
  | nil => rfl
  | cons x l ih =>
    rw [List.mapIdx_cons, List.sum_cons, h 0 x List.mem_cons_self,
      ih fun i y hy => h (i + 1) y (List.mem_cons_of_mem x hy)]

/-- The steps before the first one. -/
theorem stepsLeft_init {start : α → κ ⊕ β} {w : Nat → Slot R α κ → Nat} (resources : List R)
    (calls : List α) (hw : ∀ i r, w i ⟨r, none⟩ = 0) :
    stepsLeft left start w (init resources calls : System R α κ β) =
      (calls.map fun a => cost left start a + resources.length + 3).sum := by
  have hfree : ((resources.map (⟨·, none⟩)).mapIdx w).sum = 0 := by
    refine sum_mapIdx_eq_zero fun i slot hslot => ?_
    obtain ⟨r, -, rfl⟩ := List.mem_map.mp hslot
    exact hw i r
  unfold stepsLeft init State.init
  rw [hfree, List.map_map, List.length_map]
  rfl

/-- **No run goes on for ever.** -/
theorem Run.length_le (hleft : Falls P left) {n : Nat} {s s' : System R α κ β}
    (h : Run P n s s') : n + stepsLeft left P.start (fun _ => slotSteps left) s' ≤
      stepsLeft left P.start (fun _ => slotSteps left) s := by
  induction h with
  | refl s => exact Nat.le_of_eq (Nat.zero_add _)
  | tail _ hstep ih =>
    have hlt := hstep.stepsLeft_lt hleft
    omega

end Length

end System

end Pooled
