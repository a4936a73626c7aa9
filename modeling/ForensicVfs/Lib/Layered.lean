import Mathlib.Logic.Function.Basic
import ForensicVfs.Lib.Clients
import ForensicVfs.Lib.Service

/-!
# Pools in front of a service

The clients of a pool whose moves may ask a service below, with the resource locked until the
answer is there. Whatever the service is doing meanwhile, and for whom, a client sees one answer of
it; so a run of both levels is one of the pool alone, with the service's function in its moves
(`Step.sys`). And as the service goes on while it owes an answer, and asks nothing of the clients
above it, the locks of the two levels do not block each other: the pool serves in its turn
(`serves`).
-/

namespace Pooled

variable {R α κ β α' β' : Type}

namespace System

/-- A client comes in. -/
def arrive (s : System R α κ β) (a : α) : System R α κ β := ⟨s.pool, s.clients ++ [.ready a]⟩

/-- The holder of a resource goes on to its next move, or gives the resource back. -/
def proceed (s : System R α κ β) (c j : Nat) (a : α) : (κ ⊕ β) × R → System R α κ β
  | (.inl k, r) => ⟨{ s.pool with slots := s.pool.slots.set j ⟨r, some (a, k)⟩ }, s.clients⟩
  | (.inr b, r) =>
    ⟨⟨s.pool.slots.set j ⟨r, none⟩, (a, b) :: s.pool.log⟩, s.clients.set c (.done a b)⟩

theorem step_proceed {P : Protocol R α κ β} {s : System R α κ β} {c j : Nat} {a : α} {k : κ} {r : R}
    (hc : s.clients[c]? = some (.holding a j)) (hj : s.pool.slots[j]? = some ⟨r, some (a, k)⟩) :
    Step P s (s.proceed c j a (P.move k r)) := by
  cases hk : P.move k r with
  | mk next r' =>
    cases next with
    | inl k' => exact .move hc hj hk
    | inr b => exact .answer hc hj hk

theorem slots_proceed {s : System R α κ β} {c j j' : Nat} {a : α} (next : (κ ⊕ β) × R)
    (hjj : j ≠ j') : (s.proceed c j a next).pool.slots[j']? = s.pool.slots[j']? := by
  obtain ⟨k | b, r⟩ := next
  all_goals exact List.getElem?_set_ne hjj

theorem calls_proceed {s : System R α κ β} {c j : Nat} {a : α}
    (hc : s.clients[c]? = some (.holding a j)) (next : (κ ⊕ β) × R) :
    (s.proceed c j a next).clients.map Phase.call = s.clients.map Phase.call := by
  obtain ⟨k | b, r⟩ := next
  · rfl
  · exact map_call_set hc rfl

/-- A client that holds nothing leaves the resources that are locked. -/
theorem Enter.held {start : α → κ ⊕ β} {unserved : α → β} {s s' : System R α κ β}
    (h : Enter start unserved s s') {j : Nat} {r : R} {held : α × κ}
    (hj : s.pool.slots[j]? = some ⟨r, some held⟩) :
    s'.pool.slots[j]? = some ⟨r, some held⟩ := by
  cases h with
  | direct | scan | pass | wait | unserved => exact hj
  | take hc ha hi | acquire hc ha hi =>
    show (List.set _ _ _)[j]? = _
    rw [List.getElem?_set_ne, hj]
    rintro rfl
    cases hi.symm.trans hj

theorem Consistent.arrive {P : Protocol R α κ β} {s : System R α κ β} (h : Consistent P s) (a : α) :
    Consistent P (s.arrive a) := by
  have hback : ∀ {c : Nat} {a' : α} {j : Nat}, (s.arrive a).clients[c]? = some (.holding a' j) →
      s.clients[c]? = some (.holding a' j) := by
    intro c a' j hc
    by_cases hlt : c < s.clients.length
    · rwa [System.arrive, List.getElem?_append_left hlt] at hc
    · rw [System.arrive, List.getElem?_append_right (Nat.not_lt.mp hlt)] at hc
      cases List.mem_singleton.mp (List.mem_of_getElem? hc)
  refine ⟨fun ph hph => ?_, fun c a' j hc => h.holds c a' j (hback hc), fun j r a' k hj => ?_,
    fun c c' a₁ a₂ j hc hc' => h.alone c c' a₁ a₂ j (hback hc) (hback hc')⟩
  · rcases List.mem_append.mp hph with hph | hph
    · exact h.phases ph hph
    · cases List.mem_singleton.mp hph
      trivial
  · obtain ⟨c, hc⟩ := h.held j r a' k hj
    refine ⟨c, ?_⟩
    rw [System.arrive, List.getElem?_append_left (List.getElem?_eq_some_iff.mp hc).1, hc]

end System

/-- The answer of a client that is done. -/
def Phase.answer : Phase α β → Option β
  | .done _ b => some b
  | _ => none

/-! ## Two levels -/

/-- How a call goes about its answer when a move may ask the service below. -/
structure Asking (R α κ β α' β' : Type) where
  start : α → κ ⊕ β
  unserved : α → β
  move : Service.Request (κ × R) ((κ ⊕ β) × R) α' β'

/-- The calls with a function in the place of the service. -/
def Asking.closed (A : Asking R α κ β α' β') (f : α' → β') : Protocol R α κ β :=
  ⟨A.start, A.unserved, fun k r => A.move.answer f (k, r)⟩

theorem Asking.closed_of_inl {A : Asking R α κ β α' β'} (f : α' → β') {k : κ} {r : R}
    {next : (κ ⊕ β) × R} (hk : A.move (k, r) = .inl next) : (A.closed f).move k r = next := by
  show A.move.answer f (k, r) = next
  rw [Service.Request.answer, hk]

theorem Asking.closed_of_inr {A : Asking R α κ β α' β'} (f : α' → β') {k : κ} {r : R} {a' : α'}
    {go : β' → (κ ⊕ β) × R} (hk : A.move (k, r) = .inr (a', go)) :
    (A.closed f).move k r = go (f a') := by
  show A.move.answer f (k, r) = go (f a')
  rw [Service.Request.answer, hk]

/-- A pool with its clients, the service below, and for each resource the question that its holder
has there. -/
structure Layered (R α κ β : Type) (S : Service α' β') where
  sys : System R α κ β
  below : S.State
  asked : Nat → Option Nat

namespace Layered

open Pooled.System

variable {S : Service α' β'} {A : Asking R α κ β α' β'}

/-- One step of one client, or of the service. -/
inductive Step (A : Asking R α κ β α' β') : Layered R α κ β S → Layered R α κ β S → Prop
  | enter {s : Layered R α κ β S} {sys' : System R α κ β}
      (h : Enter A.start A.unserved s.sys sys') : Step A s { s with sys := sys' }
  | move {s : Layered R α κ β S} {c j : Nat} {a : α} {k : κ} {r : R} {next : (κ ⊕ β) × R}
      (hc : s.sys.clients[c]? = some (.holding a j))
      (hj : s.sys.pool.slots[j]? = some ⟨r, some (a, k)⟩) (hk : A.move (k, r) = .inl next) :
      Step A s { s with sys := s.sys.proceed c j a next }
  | ask {s : Layered R α κ β S} {j : Nat} {a : α} {k : κ} {r : R} {a' : α'}
      {go : β' → (κ ⊕ β) × R} (hj : s.sys.pool.slots[j]? = some ⟨r, some (a, k)⟩)
      (hk : A.move (k, r) = .inr (a', go)) (hasked : s.asked j = none) : Step A s
        ⟨s.sys, S.submit s.below a',
          Function.update s.asked j (some (S.calls s.below).length)⟩
  | resume {s : Layered R α κ β S} {c j t : Nat} {a : α} {k : κ} {r : R} {a' : α'}
      {go : β' → (κ ⊕ β) × R} {b' : β'} (hc : s.sys.clients[c]? = some (.holding a j))
      (hj : s.sys.pool.slots[j]? = some ⟨r, some (a, k)⟩) (hk : A.move (k, r) = .inr (a', go))
      (hasked : s.asked j = some t) (hb : (S.calls s.below)[t]? = some (a', some b')) : Step A s
        ⟨s.sys.proceed c j a (go b'), s.below, Function.update s.asked j none⟩
  | below {s : Layered R α κ β S} {below' : S.State} (h : S.Step s.below below') :
      Step A s { s with below := below' }

/-- A client stays with its call. -/
theorem Step.calls {s s' : Layered R α κ β S} (h : Step A s s') :
    s'.sys.clients.map Phase.call = s.sys.clients.map Phase.call := by
  cases h with
  | enter h =>
    obtain ⟨c, ph, ph', hc, -, hs', hcall⟩ := h.client
    show List.map _ _ = _
    rw [hs', map_call_set hc hcall]
  | move hc | resume hc => exact calls_proceed hc _
  | ask | below => rfl

end Layered

/-- The two levels as one service. -/
def layered (A : Asking R α κ β α' β') (S : Service α' β') (resources : List R) : Service α β where
  State := Layered R α κ β S
  init := ⟨.init resources [], S.init, fun _ => none⟩
  submit s a := { s with sys := s.sys.arrive a }
  Step := Layered.Step A
  calls s := s.sys.clients.map fun ph => (ph.call, ph.answer)
  calls_init := rfl
  calls_submit s a := by
    rw [System.arrive, List.map_map, List.map_map, List.map_append]
    rfl
  calls_step s s' h := by
    rw [List.map_map, List.map_map]
    exact h.calls

namespace Layered

open Pooled.System

variable {S : Service α' β'} {A : Asking R α κ β α' β'} {f : α' → β'} {resources : List R}

/-! ## What holds in every state -/

/-- The holder of resource `j` waits for the answer to call `t` of the service. -/
def Waits (A : Asking R α κ β α' β') (s : Layered R α κ β S) (j t : Nat) : Prop :=
  ∃ r a k a' go, s.sys.pool.slots[j]? = some ⟨r, some (a, k)⟩ ∧ A.move (k, r) = .inr (a', go) ∧
    ((S.calls s.below).map Prod.fst)[t]? = some a'

/-- Seen from the pool the service is its function, and who has asked it waits. -/
structure Inv (A : Asking R α κ β α' β') (f : α' → β') (resources : List R)
    (Below : S.State → Prop) (s : Layered R α κ β S) : Prop where
  clients : Consistent (A.closed f) s.sys
  pool : Reachable (A.closed f) resources s.sys.pool
  below : Below s.below
  asked : ∀ j t, s.asked j = some t → s.Waits A j t

variable {cost : α' → Nat} {Below : S.State → Prop} {left' : S.State → Nat}

/-- **A step of both levels is one of the pool**, with the service's function in it, or the pool
does not notice it. -/
theorem Step.sys (h : S.Serves f cost Below left') {s s' : Layered R α κ β S}
    (hs : s.Inv A f resources Below) (hstep : Step A s s') :
    s'.sys = s.sys ∨ System.Step (A.closed f) s.sys s'.sys := by
  cases hstep with
  | enter hstep => exact .inr (.enter hstep)
  | move hc hj hk =>
    rw [← Asking.closed_of_inl f hk]
    exact .inr (step_proceed hc hj)
  | ask | below => exact .inl rfl
  | resume hc hj hk hasked hb =>
    rw [h.answers hs.below (List.mem_of_getElem? hb), ← Asking.closed_of_inr f hk]
    exact .inr (step_proceed hc hj)

/-- A question that has been asked stays with its resource. -/
theorem Step.asked {s s' : Layered R α κ β S} (hs : s.Inv A f resources Below)
    (hstep : Step A s s') (j t : Nat) (hj : s'.asked j = some t) : s'.Waits A j t := by
  cases hstep with
  | enter hstep =>
    obtain ⟨r, a, k, a', go, hslot, hk, ht⟩ := hs.asked j t hj
    exact ⟨r, a, k, a', go, hstep.held hslot, hk, ht⟩
  | @move c i a k r next hc hi hmove =>
    obtain ⟨r', a', k', a'', go, hslot, hk, ht⟩ := hs.asked j t hj
    refine ⟨r', a', k', a'', go, ?_, hk, ht⟩
    show (s.sys.proceed c i a next).pool.slots[j]? = _
    rw [slots_proceed, hslot]
    -- the resource that moves has no question below
    rintro rfl
    cases hi.symm.trans hslot
    cases hmove.symm.trans hk
  | @ask i a k r a' go hi hk hasked =>
    dsimp only at hj
    by_cases hij : j = i
    · subst hij
      rw [Function.update_self] at hj
      cases hj
      exact ⟨r, a, k, a', go, hi, hk, Service.getElem?_submit_self S s.below a'⟩
    · rw [Function.update_of_ne hij] at hj
      obtain ⟨r', a₁, k', a₁', go', hslot, hk', ht⟩ := hs.asked j t hj
      exact ⟨r', a₁, k', a₁', go', hslot, hk', Service.getElem?_submit ht a'⟩
  | @resume c i t' a k r a' go b' hc hi hk hasked hb =>
    dsimp only at hj
    by_cases hij : j = i
    · subst hij
      rw [Function.update_self] at hj
      cases hj
    · rw [Function.update_of_ne hij] at hj
      obtain ⟨r', a₁, k', a₁', go', hslot, hk', ht⟩ := hs.asked j t hj
      refine ⟨r', a₁, k', a₁', go', ?_, hk', ht⟩
      show (s.sys.proceed c i a (go b')).pool.slots[j]? = _
      rw [slots_proceed _ fun heq => hij heq.symm, hslot]
  | below hstep =>
    obtain ⟨r, a, k, a', go, hslot, hk, ht⟩ := hs.asked j t hj
    refine ⟨r, a, k, a', go, hslot, hk, ?_⟩
    show ((S.calls _).map Prod.fst)[t]? = _
    rw [S.calls_step _ _ hstep, ht]

theorem Inv.init (h : S.Serves f cost Below left') :
    Inv A f resources Below ⟨.init resources [], S.init, fun _ => none⟩ :=
  ⟨.init resources [], .refl, h.init, fun j t hj => by cases hj⟩

theorem Inv.arrive {s : Layered R α κ β S} (hs : s.Inv A f resources Below) (a : α) :
    Inv A f resources Below { s with sys := s.sys.arrive a } :=
  ⟨hs.clients.arrive a, hs.pool, hs.below, hs.asked⟩

/-- **One step.** -/
theorem Inv.step (h : S.Serves f cost Below left') {s s' : Layered R α κ β S}
    (hs : s.Inv A f resources Below) (hstep : Step A s s') : s'.Inv A f resources Below := by
  refine ⟨?_, ?_, ?_, hstep.asked hs⟩
  · rcases hstep.sys h hs with heq | hsys
    · rw [heq]
      exact hs.clients
    · exact hs.clients.step hsys
  · rcases hstep.sys h hs with heq | hsys
    · rw [heq]
      exact hs.pool
    · rcases hsys.pool with heq | hpool
      · rw [heq]
        exact hs.pool
      · exact hs.pool.tail hpool
  · cases hstep with
    | enter | move | resume => exact hs.below
    | @ask j a k r a' go => exact h.submit a' hs.below
    | below hstep => exact h.step hs.below hstep

/-! ## Nobody waits for ever -/

/-- **No deadlock over two levels**: while a client is without its answer, one of them can take a
step, or the service can. -/
theorem Inv.exists_step (h : S.Serves f cost Below left') {s : Layered R α κ β S}
    (hs : s.Inv A f resources Below) {ph : Phase α β} (hph : ph ∈ s.sys.clients)
    (hopen : ∀ a b, ph ≠ .done a b) : ∃ s', Step A s s' := by
  by_cases hheld : ∃ (c : Nat) (a : α) (j : Nat), s.sys.clients[c]? = some (.holding a j)
  · obtain ⟨c, a, j, hc⟩ := hheld
    obtain ⟨r, k, hj⟩ := hs.clients.holds c a j hc
    cases hk : A.move (k, r) with
    | inl next => exact ⟨_, .move hc hj hk⟩
    | inr question =>
      obtain ⟨a', go⟩ := question
      cases hasked : s.asked j with
      | none => exact ⟨_, .ask hj hk hasked⟩
      | some t =>
        -- the holder waits for the service, and that goes on until the answer is there
        obtain ⟨r₁, a₁, k₁, a₁', go₁, hj₁, hk₁, ht⟩ := hs.asked j t hasked
        cases hj.symm.trans hj₁
        cases hk.symm.trans hk₁
        rcases h.answered_or_step hs.below ht with ⟨b', hb⟩ | ⟨below', hbelow⟩
        · exact ⟨_, .resume hc hj hk hasked hb⟩
        · exact ⟨_, .below hbelow⟩
  · obtain ⟨sys', hsys⟩ := hs.clients.exists_enter (fun c a j hc => hheld ⟨c, a, j, hc⟩) hph hopen
    exact ⟨_, .enter hsys⟩

/-! ## How long it can go on -/

section Length

variable (A cost) (left : κ → Nat)

/-- What the question that a holder has below takes from its steps. -/
def debt : Option Nat → ((κ ⊕ β) × R) ⊕ α' × (β' → (κ ⊕ β) × R) → Nat
  | some _, .inr (a', _) => cost a' + 1
  | _, _ => 0

/-- The steps of the holder of a resource, less those that the service has before it for a question
of the holder. -/
def weight (asked : Nat → Option Nat) (j : Nat) : Slot R α κ → Nat
  | ⟨_, none⟩ => 0
  | ⟨r, some (_, k)⟩ => left k + 1 - debt cost (asked j) (A.move (k, r))

/-- What the holder's next move leaves. -/
def nextSteps : κ ⊕ β → Nat
  | .inl k => left k + 1
  | .inr _ => 0

/-- The steps that are left on both levels. -/
def stepsLeft (left' : S.State → Nat) (s : Layered R α κ β S) : Nat :=
  System.stepsLeft left A.start (weight A cost left s.asked) s.sys + left' s.below

/-- Every move leaves fewer steps, and one that asks pays for its question. -/
structure Priced (f : α' → β') : Prop where
  move : ∀ k r next, A.move (k, r) = .inl next → nextSteps left next.1 ≤ left k
  ask : ∀ k r a' go, A.move (k, r) = .inr (a', go) →
    nextSteps left (go (f a')).1 + cost a' < left k

variable {A cost left}

theorem weight_le (asked : Nat → Option Nat) (j : Nat) (r : R) (a : α) (k : κ) :
    weight A cost left asked j ⟨r, some (a, k)⟩ ≤ left k + 1 :=
  Nat.sub_le _ _

theorem weight_free (asked : Nat → Option Nat) (j : Nat) (r : R) :
    weight A cost left asked j (⟨r, none⟩ : Slot R α κ) = 0 := rfl

theorem weight_update {asked : Nat → Option Nat} {i j : Nat} (t : Option Nat) (hij : j ≠ i) :
    (weight A cost left (Function.update asked i t) j : Slot R α κ → Nat) =
      weight A cost left asked j := by
  funext ⟨r, holder⟩
  unfold weight
  rw [Function.update_of_ne hij]

theorem weight_of_inl {asked : Nat → Option Nat} {j : Nat} {r : R} {a : α} {k : κ}
    {next : (κ ⊕ β) × R} (hk : A.move (k, r) = .inl next) :
    weight A cost left asked j ⟨r, some (a, k)⟩ = left k + 1 := by
  rw [weight, hk]
  cases asked j with
  | none | some => rfl

theorem weight_of_none {asked : Nat → Option Nat} {j : Nat} {r : R} {a : α} {k : κ}
    (hasked : asked j = none) : weight A cost left asked j ⟨r, some (a, k)⟩ = left k + 1 := by
  rw [weight, hasked]
  rfl

theorem weight_of_asked {asked : Nat → Option Nat} {j t : Nat} {r : R} {a : α} {k : κ} {a' : α'}
    {go : β' → (κ ⊕ β) × R} (hasked : asked j = some t) (hk : A.move (k, r) = .inr (a', go)) :
    weight A cost left asked j ⟨r, some (a, k)⟩ = left k - cost a' := by
  rw [weight, hasked, hk]
  exact Nat.add_sub_add_right (left k) 1 (cost a')

/-- A holder that goes on leaves what its next move leaves. -/
theorem stepsLeft_proceed {asked asked' : Nat → Option Nat} {sys : System R α κ β} {c j : Nat}
    {a : α} {slot : Slot R α κ} (hc : sys.clients[c]? = some (.holding a j))
    (hj : sys.pool.slots[j]? = some slot) (next : (κ ⊕ β) × R)
    (hasked : ∀ i, i ≠ j → (weight A cost left asked' i : Slot R α κ → Nat) =
      weight A cost left asked i) :
    System.stepsLeft left A.start (weight A cost left asked') (sys.proceed c j a next) +
        weight A cost left asked j slot ≤
      System.stepsLeft left A.start (weight A cost left asked) sys + nextSteps left next.1 := by
  unfold System.stepsLeft
  obtain ⟨k | b, r⟩ := next
  · have hslot := sum_mapIdx_set (g := weight A cost left asked') ⟨r, some (a, k)⟩ hj hasked
    have hle : weight A cost left asked' j ⟨r, some (a, k)⟩ ≤ left k + 1 := weight_le ..
    simp only [proceed, nextSteps, List.length_set]
    omega
  · have hslot := sum_mapIdx_set (g := weight A cost left asked') ⟨r, none⟩ hj hasked
    have hclient := sum_map_set (phaseSteps left A.start sys.pool.slots.length) (.done a b) hc
    rw [weight_free] at hslot
    simp only [phaseSteps] at hclient
    simp only [proceed, nextSteps, List.length_set]
    omega

variable (cost left) in
/-- A holder that asks leaves its steps to the service. -/
theorem stepsLeft_ask {asked : Nat → Option Nat} {sys : System R α κ β} {j : Nat} {a : α} {k : κ}
    {r : R} {a' : α'} {go : β' → (κ ⊕ β) × R}
    (hj : sys.pool.slots[j]? = some ⟨r, some (a, k)⟩) (hk : A.move (k, r) = .inr (a', go))
    (hasked : asked j = none) (t : Nat) :
    System.stepsLeft left A.start (weight A cost left (Function.update asked j (some t))) sys +
        (left k + 1) =
      System.stepsLeft left A.start (weight A cost left asked) sys + (left k - cost a') := by
  have hslots : sys.pool.slots.set j ⟨r, some (a, k)⟩ = sys.pool.slots := by
    obtain ⟨hlt, heq⟩ := List.getElem?_eq_some_iff.mp hj
    rw [← heq, List.set_getElem_self]
  have hsum := sum_mapIdx_set (f := weight A cost left asked)
    (g := weight A cost left (Function.update asked j (some t))) ⟨r, some (a, k)⟩ hj
    fun i hi => weight_update (some t) hi
  rw [hslots, weight_of_none hasked, weight_of_asked (Function.update_self ..) hk] at hsum
  unfold System.stepsLeft
  omega

/-- **Every step of either level leaves fewer steps.** -/
theorem Step.stepsLeft_lt (h : S.Serves f cost Below left') (hpriced : Priced A cost left f)
    {s s' : Layered R α κ β S} (hs : s.Inv A f resources Below) (hstep : Step A s s') :
    stepsLeft A cost left left' s' < stepsLeft A cost left left' s := by
  unfold stepsLeft
  cases hstep with
  | @enter sys' hstep =>
    have hlt : System.stepsLeft left A.start (weight A cost left s.asked) sys' <
        System.stepsLeft left A.start (weight A cost left s.asked) s.sys :=
      hstep.stepsLeft_lt fun i r a k _ => weight_le s.asked i r a k
    exact Nat.add_lt_add_right hlt _
  | @move c j a k r next hc hj hk =>
    have hsame : ∀ i, i ≠ j → (weight A cost left s.asked i : Slot R α κ → Nat) =
        weight A cost left s.asked i := fun _ _ => rfl
    have hle := stepsLeft_proceed hc hj next hsame
    have hnext := hpriced.move k r next hk
    rw [weight_of_inl hk] at hle
    dsimp only
    omega
  | @ask j a k r a' go hj hk hasked =>
    have hsteps := stepsLeft_ask cost left hj hk hasked (S.calls s.below).length
    have hcost := hpriced.ask k r a' go hk
    have hbelow := h.left_submit a' hs.below
    dsimp only
    omega
  | @resume c j t a k r a' go b' hc hj hk hasked hb =>
    have hsame : ∀ i, i ≠ j → (weight A cost left (Function.update s.asked j none) i :
        Slot R α κ → Nat) = weight A cost left s.asked i := fun i hi => weight_update none hi
    have hle := stepsLeft_proceed hc hj (go b') hsame
    have hcost := hpriced.ask k r a' go hk
    rw [weight_of_asked hasked hk] at hle
    rw [← h.answers hs.below (List.mem_of_getElem? hb)] at hcost
    dsimp only
    omega
  | below hstep =>
    have hlt := h.left_step hs.below hstep
    exact Nat.add_lt_add_left hlt _

theorem stepsLeft_init (h : S.Serves f cost Below left') (resources : List R) :
    stepsLeft A cost left left' ⟨.init resources [], S.init, fun _ => none⟩ = 0 := by
  unfold stepsLeft
  rw [System.stepsLeft_init _ _ fun i r => rfl, h.left_init]
  rfl

/-- The steps that a call adds. -/
theorem Inv.stepsLeft_arrive {s : Layered R α κ β S} (hs : s.Inv A f resources Below) (a : α) :
    stepsLeft A cost left left' { s with sys := s.sys.arrive a } =
      stepsLeft A cost left left' s + (System.cost left A.start a + resources.length + 3) := by
  unfold stepsLeft System.stepsLeft System.arrive
  rw [List.map_append, List.sum_append, List.map_singleton, List.sum_singleton,
    hs.pool.length_slots]
  simp only [phaseSteps]
  omega

/-- **A pool in front of a service serves**: what its calls answer with the service's function in
their moves, and at the cost of their moves and of their questions. -/
theorem serves (h : S.Serves f cost Below left') (hpriced : Priced A cost left f)
    (resources : List R) {g : α → β} (hg : ∀ pool, Reachable (A.closed f) resources pool →
      ∀ call ∈ pool.log, call.2 = g call.1) :
    (layered A S resources).Serves g
      (fun a => System.cost left A.start a + resources.length + 3)
      (Inv A f resources Below) (stepsLeft A cost left left') where
  init := .init h
  left_init := stepsLeft_init h resources
  submit a hs := hs.arrive a
  left_submit a hs := Nat.le_of_eq (hs.stepsLeft_arrive a)
  step hs hstep := hs.step h hstep
  left_step hs hstep := hstep.stepsLeft_lt h hpriced hs
  answers {s a b} hs hb := by
    obtain ⟨ph, hph, heq⟩ := List.mem_map.mp hb
    obtain ⟨rfl, hanswer⟩ := Prod.mk.inj heq
    cases ph with
    | ready | scanning | waiting | holding => cases hanswer
    | done a b' =>
      cases hanswer
      exact hg s.sys.pool hs.pool (a, b) (hs.clients.phases _ hph)
  progress {s a} hs ha := by
    obtain ⟨ph, hph, heq⟩ := List.mem_map.mp ha
    refine hs.exists_step h hph fun a' b' hdone => ?_
    rw [hdone] at heq
    cases heq

end Length

end Layered

end Pooled
