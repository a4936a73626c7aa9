import Mathlib.Algebra.GroupWithZero.Nat
import Mathlib.Data.List.Basic

/-!
# Services

A service takes calls at any time, works on them in steps of its own, and answers each; calls that
are under way at once may interleave in any way. It `Serves` a function if it answers every call
with the function's value, goes on as long as a call is without its answer, and makes no more steps
than its calls cost. Then every run ends, with all calls answered as the function does
(`Serves.totally_correct`). A function by itself is a service (`ofFn_serves`), and what asks a
service at most once for each of its calls is one too (`Serves.wrap`).
-/

/-- A service. Its calls are in the order they came in, each with its answer if it has one. -/
structure Service (α β : Type) where
  State : Type
  init : State
  submit : State → α → State
  Step : State → State → Prop
  calls : State → List (α × Option β)
  calls_init : calls init = []
  calls_submit : ∀ s a, (calls (submit s a)).map Prod.fst = (calls s).map Prod.fst ++ [a]
  calls_step : ∀ s s', Step s s' → (calls s').map Prod.fst = (calls s).map Prod.fst

namespace Service

variable {α β α' β' : Type}

/-! ## Runs -/

/-- A run in which these calls have come in, and so many steps been made. -/
inductive Run (S : Service α β) : List α → Nat → S.State → Prop
  | init : Run S [] 0 S.init
  | submit {calls : List α} {n : Nat} {s : S.State} (h : Run S calls n s) (a : α) :
      Run S (calls ++ [a]) n (S.submit s a)
  | step {calls : List α} {n : Nat} {s s' : S.State} (h : Run S calls n s)
      (hstep : S.Step s s') : Run S calls (n + 1) s'

theorem Run.calls_eq {S : Service α β} {calls : List α} {n : Nat} {s : S.State}
    (h : Run S calls n s) : (S.calls s).map Prod.fst = calls := by
  induction h with
  | init => rw [S.calls_init, List.map_nil]
  | submit _ a ih => rw [S.calls_submit, ih]
  | step _ hstep ih => rw [S.calls_step _ _ hstep, ih]

/-- The service answers as the function does, and within the cost of its calls. What holds in every
state is `Inv`, and `left` bounds the steps that are still to come. -/
structure Serves (S : Service α β) (f : α → β) (cost : α → Nat) (Inv : S.State → Prop)
    (left : S.State → Nat) : Prop where
  init : Inv S.init
  left_init : left S.init = 0
  submit : ∀ {s} a, Inv s → Inv (S.submit s a)
  left_submit : ∀ {s} a, Inv s → left (S.submit s a) ≤ left s + cost a
  step : ∀ {s s'}, Inv s → S.Step s s' → Inv s'
  left_step : ∀ {s s'}, Inv s → S.Step s s' → left s' < left s
  answers : ∀ {s a b}, Inv s → (a, some b) ∈ S.calls s → b = f a
  progress : ∀ {s a}, Inv s → (a, none) ∈ S.calls s → ∃ s', S.Step s s'

section Serves

variable {S : Service α β} {f : α → β} {cost : α → Nat} {Inv : S.State → Prop}
  {left : S.State → Nat}

/-- What one step keeps holds along every run. -/
theorem Serves.run (h : Serves S f cost Inv left) {calls : List α} {n : Nat} {s : S.State}
    (hr : Run S calls n s) : Inv s ∧ n + left s ≤ (calls.map cost).sum := by
  induction hr with
  | init => exact ⟨h.init, Nat.le_of_eq (by rw [h.left_init]; rfl)⟩
  | submit _ a ih =>
    have hleft := h.left_submit a ih.1
    rw [List.map_append, List.sum_append, List.map_singleton, List.sum_singleton]
    exact ⟨h.submit a ih.1, by omega⟩
  | step _ hstep ih =>
    have hleft := h.left_step ih.1 hstep
    exact ⟨h.step ih.1 hstep, by omega⟩

/-- **Every run ends, with every call answered** as the function does. -/
theorem Serves.totally_correct (h : Serves S f cost Inv left) {calls : List α} {n : Nat}
    {s : S.State} (hr : Run S calls n s) :
    n ≤ (calls.map cost).sum ∧ (∀ a b, (a, some b) ∈ S.calls s → b = f a) ∧
      ((∀ s', ¬S.Step s s') → S.calls s = calls.map fun a => (a, some (f a))) := by
  obtain ⟨hinv, hcost⟩ := h.run hr
  refine ⟨by omega, fun a b hab => h.answers hinv hab, fun hend => ?_⟩
  rw [← hr.calls_eq, List.map_map]
  refine (List.map_id _).symm.trans (List.map_congr_left fun call hcall => ?_)
  obtain ⟨a, b⟩ := call
  cases b with
  | none =>
    obtain ⟨s', hs'⟩ := h.progress hinv hcall
    exact absurd hs' (hend s')
  | some b => exact congrArg (fun b => (a, some b)) (h.answers hinv hcall)

/-- It may cost more. -/
theorem Serves.mono (h : Serves S f cost Inv left) {cost' : α → Nat}
    (hle : ∀ a, cost a ≤ cost' a) : Serves S f cost' Inv left := by
  refine { h with left_submit := ?_ }
  intro s a hs
  have hleft := h.left_submit a hs
  have hcost := hle a
  omega

/-- The answer that a call has is in its place. -/
theorem Serves.answer_at (h : Serves S f cost Inv left) {s : S.State} (hs : Inv s) {t : Nat}
    {a a' : α} {b : β} (ha : ((S.calls s).map Prod.fst)[t]? = some a)
    (hb : (S.calls s)[t]? = some (a', some b)) : a' = a ∧ b = f a := by
  rw [List.getElem?_map, hb] at ha
  obtain rfl : a' = a := Option.some.inj ha
  exact ⟨rfl, h.answers hs (List.mem_of_getElem? hb)⟩

/-- A call that has come in is answered, or something can happen. -/
theorem Serves.answered_or_step (h : Serves S f cost Inv left) {s : S.State} (hs : Inv s) {t : Nat}
    {a : α} (ha : ((S.calls s).map Prod.fst)[t]? = some a) :
    (∃ b, (S.calls s)[t]? = some (a, some b)) ∨ ∃ s', S.Step s s' := by
  rw [List.getElem?_map] at ha
  obtain ⟨⟨a', b⟩, ht, rfl⟩ := Option.map_eq_some_iff.mp ha
  cases b with
  | none => exact .inr (h.progress hs (List.mem_of_getElem? ht))
  | some b => exact .inl ⟨b, ht⟩

end Serves

/-- A call keeps its place when others come in. -/
theorem getElem?_submit {S : Service α β} {s : S.State} {t : Nat} {a : α}
    (ha : ((S.calls s).map Prod.fst)[t]? = some a) (a' : α) :
    ((S.calls (S.submit s a')).map Prod.fst)[t]? = some a := by
  rw [S.calls_submit, List.getElem?_append_left (List.getElem?_eq_some_iff.mp ha).1, ha]

/-- And the next one comes behind it. -/
theorem getElem?_submit_self (S : Service α β) (s : S.State) (a : α) :
    ((S.calls (S.submit s a)).map Prod.fst)[(S.calls s).length]? = some a := by
  rw [S.calls_submit, ← List.length_map (f := Prod.fst), List.getElem?_concat_length]

/-! ## A function -/

/-- The service that evaluates a function, one call after the other in any order. -/
def ofFn (f : α → β) : Service α β where
  State := List (α × Option β)
  init := []
  submit s a := List.append s [(a, none)]
  Step s s' := ∃ (i : Nat) (a : α), s[i]? = some (a, none) ∧ s' = s.set i (a, some (f a))
  calls s := s
  calls_init := rfl
  calls_submit s a := List.map_append
  calls_step s s' := by
    rintro ⟨i, a, hi, rfl⟩
    have hfst : (s.map Prod.fst)[i]? = some a := by
      rw [List.getElem?_map, hi, Option.map_some]
    obtain ⟨hlt, ha⟩ := List.getElem?_eq_some_iff.mp hfst
    rw [List.map_set, ← ha, List.set_getElem_self]

theorem ofFn_step {f : α → β} {s : List (α × Option β)} {i : Nat} {a : α}
    (hi : s[i]? = some (a, none)) : (ofFn f).Step s (s.set i (a, some (f a))) :=
  ⟨i, a, hi, rfl⟩

/-- The calls without an answer. -/
def unanswered (s : List (α × Option β)) : Nat := s.countP fun call => call.2.isNone

theorem unanswered_set {s : List (α × Option β)} {i : Nat} {a : α} (b : β)
    (h : s[i]? = some (a, none)) : unanswered (s.set i (a, some b)) < unanswered s := by
  obtain ⟨hlt, heq⟩ := List.getElem?_eq_some_iff.mp h
  have hpos : 0 < s.countP fun call => call.2.isNone :=
    List.countP_pos_iff.mpr ⟨_, List.mem_of_getElem? h, rfl⟩
  unfold unanswered
  simp only [List.countP_set hlt, heq, Option.isNone_none, Option.isNone_some, if_true,
    Bool.false_eq_true, if_false]
  omega

/-- It serves the function, a step for each call. -/
theorem ofFn_serves (f : α → β) : Serves (ofFn f) f (fun _ => 1)
    (fun s : List (α × Option β) => ∀ a b, (a, some b) ∈ s → b = f a) unanswered where
  init a b h := absurd h List.not_mem_nil
  left_init := rfl
  submit a h a' b hb := by
    rcases List.mem_append.mp hb with hb | hb
    · exact h a' b hb
    · cases List.mem_singleton.mp hb
  left_submit {s} a _ := by
    show List.countP _ (List.append s [(a, none)]) ≤ _
    exact Nat.le_of_eq List.countP_append
  step := by
    rintro s s' h ⟨i, a, hi, rfl⟩ a' b hb
    rcases List.mem_or_eq_of_mem_set hb with hb | heq
    · exact h a' b hb
    · cases heq
      rfl
  left_step := by
    rintro s s' - ⟨i, a, hi, rfl⟩
    exact unanswered_set _ hi
  answers h hb := h _ _ hb
  progress := by
    intro s a _ ha
    obtain ⟨i, hi⟩ := List.mem_iff_getElem?.mp ha
    exact ⟨_, ofFn_step hi⟩

/-! ## A service in front of another -/

section Wrap

/-- What a call comes to: its answer, or a call of the service behind and what to make of the answer
to that. -/
abbrev Request (α β α' β' : Type) := α → β ⊕ α' × (β' → β)

/-- The function that answers so. -/
def Request.answer (request : Request α β α' β') (f : α' → β') (a : α) : β :=
  match request a with
  | .inl b => b
  | .inr (a', go) => go (f a')

/-- What has become of a call. -/
inductive Slip (β β' : Type) where
  | answered (b : β)
  | asked (ticket : Nat) (go : β' → β)

/-- The answer, as soon as the service behind has its own. -/
def Slip.answer (calls : List (α' × Option β')) : Slip β β' → Option β
  | .answered b => some b
  | .asked ticket go => (calls[ticket]?.bind Prod.snd).map go

/-- The call comes in behind the calls there are. -/
def Slip.of (request : Request α β α' β') (ticket : Nat) (a : α) : Slip β β' :=
  match request a with
  | .inl b => .answered b
  | .inr (_, go) => .asked ticket go

/-- What comes of a call in the service behind. -/
def passOn (S : Service α' β') (request : Request α β α' β') (s : S.State) (a : α) : S.State :=
  match request a with
  | .inl _ => s
  | .inr (a', _) => S.submit s a'

/-- The service that passes calls on and needs no steps of its own. -/
def wrap (S : Service α' β') (request : Request α β α' β') : Service α β where
  State := S.State × List (α × Slip β β')
  init := (S.init, [])
  submit s a := (S.passOn request s.1 a, s.2 ++ [(a, .of request (S.calls s.1).length a)])
  Step s s' := S.Step s.1 s'.1 ∧ s'.2 = s.2
  calls s := s.2.map fun call => (call.1, call.2.answer (S.calls s.1))
  calls_init := rfl
  calls_submit s a := by
    simp only [List.map_append, List.map_map, List.map_cons, List.map_nil]
    rfl
  calls_step s s' := by
    rintro ⟨-, heq⟩
    rw [heq, List.map_map, List.map_map]
    rfl

/-- The slip is one for the call. -/
def Slip.Ok (S : Service α' β') (request : Request α β α' β') (s : S.State) (a : α) :
    Slip β β' → Prop
  | .answered b => request a = .inl b
  | .asked ticket go => ∃ a', request a = .inr (a', go) ∧
      ((S.calls s).map Prod.fst)[ticket]? = some a'

variable {S : Service α' β'} {request : Request α β α' β'} {f : α' → β'} {cost : α' → Nat}
  {Inv : S.State → Prop} {left : S.State → Nat}

theorem wrap_step {s : (S.wrap request).State} {t : S.State} (h : S.Step s.1 t) :
    (S.wrap request).Step s (t, s.2) :=
  ⟨h, rfl⟩

theorem Slip.Ok.passOn {s : S.State} {a : α} {slip : Slip β β'} (h : slip.Ok S request s a)
    (a₁ : α) : slip.Ok S request (S.passOn request s a₁) a := by
  unfold Service.passOn
  cases request a₁ with
  | inl b => exact h
  | inr asked =>
    cases slip with
    | answered b => exact h
    | asked ticket go =>
      obtain ⟨a', ha, ht⟩ := h
      exact ⟨a', ha, getElem?_submit ht _⟩

theorem Slip.ok_of (s : S.State) (a : α) :
    (Slip.of request (S.calls s).length a).Ok S request (S.passOn request s a) a := by
  unfold Slip.of Service.passOn
  cases ha : request a with
  | inl b => exact ha
  | inr asked => exact ⟨asked.1, ha, getElem?_submit_self S s asked.1⟩

theorem Slip.Ok.step {s s' : S.State} {a : α} {slip : Slip β β'} (h : slip.Ok S request s a)
    (hstep : S.Step s s') : slip.Ok S request s' a := by
  cases slip with
  | answered b => exact h
  | asked ticket go =>
    obtain ⟨a', ha, ht⟩ := h
    exact ⟨a', ha, by rw [S.calls_step s s' hstep, ht]⟩

/-- **What asks a service once for each call** serves if that one does. -/
theorem Serves.wrap (h : Serves S f cost Inv left) (request : Request α β α' β')
    {cost' : α → Nat} (hcost : ∀ a a' go, request a = .inr (a', go) → cost a' ≤ cost' a) :
    Serves (S.wrap request) (request.answer f) cost'
      (fun s => Inv s.1 ∧ ∀ call ∈ s.2, call.2.Ok S request s.1 call.1)
      (fun s => left s.1) where
  init := ⟨h.init, fun _ hcall => absurd hcall List.not_mem_nil⟩
  left_init := h.left_init
  submit {s} a hs := by
    refine ⟨?_, fun call hcall => ?_⟩
    · show Inv (S.passOn request s.1 a)
      unfold passOn
      cases request a with
      | inl b => exact hs.1
      | inr asked => exact h.submit asked.1 hs.1
    · rcases List.mem_append.mp hcall with hcall | hcall
      · exact (hs.2 call hcall).passOn a
      · obtain rfl := List.mem_singleton.mp hcall
        exact Slip.ok_of s.1 a
  left_submit {s} a hs := by
    show left (S.passOn request s.1 a) ≤ left s.1 + cost' a
    unfold passOn
    cases ha : request a with
    | inl b => exact Nat.le_add_right _ _
    | inr asked =>
      have hleft := h.left_submit asked.1 hs.1
      have hle := hcost a asked.1 asked.2 ha
      show left (S.submit s.1 asked.1) ≤ _
      omega
  step {s s'} hs hstep := by
    obtain ⟨hstep, heq⟩ := hstep
    refine ⟨h.step hs.1 hstep, fun call hcall => ?_⟩
    rw [heq] at hcall
    exact (hs.2 call hcall).step hstep
  left_step hs hstep := h.left_step hs.1 hstep.1
  answers {s a b} hs hb := by
    obtain ⟨⟨a, slip⟩, hmem, heq⟩ := List.mem_map.mp hb
    obtain ⟨rfl, hslip⟩ := Prod.mk.inj heq
    have hok := hs.2 _ hmem
    unfold Request.answer
    cases slip with
    | answered b' =>
      rw [show request a = .inl b' from hok]
      exact (Option.some.inj hslip).symm
    | asked ticket go =>
      obtain ⟨a', ha, ht⟩ := hok
      obtain ⟨b', hb', rfl⟩ := Option.map_eq_some_iff.mp hslip
      obtain ⟨⟨a'', b''⟩, hticket, rfl⟩ := Option.bind_eq_some_iff.mp hb'
      obtain ⟨-, rfl⟩ := h.answer_at hs.1 ht hticket
      rw [ha]
  progress {s a} hs ha := by
    obtain ⟨⟨a, slip⟩, hmem, heq⟩ := List.mem_map.mp ha
    obtain ⟨rfl, hslip⟩ := Prod.mk.inj heq
    have hok := hs.2 _ hmem
    cases slip with
    | answered b => cases hslip
    | asked ticket go =>
      obtain ⟨a', -, ht⟩ := hok
      rcases h.answered_or_step hs.1 ht with ⟨b, hb⟩ | ⟨s', hs'⟩
      · have hslip : (((S.calls s.1)[ticket]?).bind Prod.snd).map go = none := hslip
        rw [hb] at hslip
        cases hslip
      · exact ⟨_, wrap_step hs'⟩

end Wrap

end Service
