import Mathlib.Algebra.Order.BigOperators.Group.List
import Mathlib.Algebra.Order.Group.Nat
import ForensicVfs.Lib.Clients
import ForensicVfs.Verify.Adapters.Pool

/-!
# Every schedule of pooled reads comes to an end

The clients of a pool as threads: each tries the cursors one after another, as `checkout` does, and
each seek and each read of the cursor it has locked is one step. A locked cursor and the client that
holds it belong to each other (`pool_excludes`); whatever the readers answer, no schedule goes on
for ever and none blocks before every client has its answer (`pool_serves_every_call`), which on
readers of `B` that never fail is the exact one (`pool_totally_correct`).
-/

namespace ForensicVfs

open Slice Pooled System

namespace SeekPoolSource

variable {R : Type} [ReadSeek R]

/-- A pool with the clients that read from it. -/
abbrev PoolSystem (R : Type) := System R (UInt64 × Bytes) Held (VfsResult Nat × Bytes)

/-! ## The moves of a call -/

/-- The seeks and reads a call has before it at most. -/
def movesLeft : Held → Nat
  | .seek _ buf => buf.length + 1
  | .fill dst _ total => dst.length - total

theorem calls_falls (p : SeekPoolSource R) : Falls p.calls movesLeft := by
  intro k r k' r' hk
  cases k with
  | seek offset buf =>
    simp only [calls] at hk
    split at hk
    · cases hk
    · cases hk
      simp only [movesLeft, List.length_take]
      omega
  | fill dst rest total =>
    by_cases h : total < dst.length
    · simp only [calls, if_pos h] at hk
      split at hk
      · cases hk
      · next m hm =>
        by_cases hzero : m = 0
        · rw [if_pos hzero] at hk
          cases hk
        · rw [if_neg hzero] at hk
          cases hk
          simp only [movesLeft, length_refill]
          omega
    · simp only [calls, if_neg h] at hk
      cases hk

theorem cost_le (p : SeekPoolSource R) (call : UInt64 × Bytes) :
    cost movesLeft p.calls.start call ≤ call.2.length + 2 := by
  unfold cost
  simp only [calls]
  by_cases hpast : call.1 ≥ p.len
  · rw [if_pos hpast]
    exact Nat.zero_le _
  · rw [if_neg hpast]
    exact Nat.le_refl _

/-! ## What a client that nobody disturbs checks out -/

/-- The cursors that are locked. -/
def busy {α κ : Type} (slots : List (Slot R α κ)) : List Nat :=
  (List.range slots.length).filter fun j => (slots[j]?.bind Slot.holder).isSome

omit [ReadSeek R] in
theorem mem_busy {α κ : Type} {slots : List (Slot R α κ)} {j : Nat} :
    j ∈ busy slots ↔ ∃ r held, slots[j]? = some ⟨r, some held⟩ := by
  unfold busy
  rw [List.mem_filter, List.mem_range]
  constructor
  · rintro ⟨-, hsome⟩
    obtain ⟨held, hheld⟩ := Option.isSome_iff_exists.mp hsome
    obtain ⟨⟨r, holder⟩, hj, rfl⟩ := Option.bind_eq_some_iff.mp hheld
    exact ⟨r, held, hj⟩
  · rintro ⟨r, held, hj⟩
    refine ⟨(List.getElem?_eq_some_iff.mp hj).1, ?_⟩
    rw [hj]
    rfl

/-- The client `c`, whose call is in `k` once it has a cursor, locks the cursor `j`, which is free,
or waits for it where it is the first one and all are locked. -/
def ChecksOut (p : SeekPoolSource R) (s : PoolSystem R) (c : Nat) (call : UInt64 × Bytes)
    (k : Held) (j : Nat) : Prop :=
  (∃ r, s.pool.slots[j]? = some ⟨r, none⟩ ∧ Run p.calls (j + 1) s
      ⟨{ s.pool with slots := s.pool.slots.set j ⟨r, some (call, k)⟩ },
        s.clients.set c (.holding call j)⟩) ∨
    (j = 0 ∧ (∀ i < p.pool.length, i ∈ busy s.pool.slots) ∧
      Run p.calls (p.pool.length + 1) s ⟨s.pool, s.clients.set c (.waiting call)⟩)

/-- **A client that nobody disturbs** gets the cursor `checkout` answers. -/
theorem run_checkout (p : SeekPoolSource R) {s : PoolSystem R}
    (hlen : s.pool.slots.length = p.pool.length) {c j : Nat} {call : UInt64 × Bytes} {k : Held}
    (hc : s.clients[c]? = some (.scanning call 0)) (ha : p.calls.start call = .inl k)
    (hj : p.checkout (busy s.pool.slots) = some j) : ChecksOut p s c call k j := by
  rcases checkout_cases hj with ⟨hlt, hfree, hbefore⟩ | ⟨rfl, hne, hbusy⟩
  · rw [← hlen] at hlt
    have hget : s.pool.slots[j]? = some ⟨s.pool.slots[j].resource, none⟩ := by
      rw [List.getElem?_eq_getElem hlt]
      cases hholder : s.pool.slots[j].holder with
      | none => rw [← hholder]
      | some held =>
        refine absurd (mem_busy.mpr ⟨s.pool.slots[j].resource, held, ?_⟩) hfree
        rw [List.getElem?_eq_getElem hlt, ← hholder]
    exact .inl ⟨_, hget, run_take hc ha (fun i hi => mem_busy.mp (hbefore i hi)) hget⟩
  · have hpos := List.length_pos_of_ne_nil hne
    rw [← hlen] at hpos
    refine .inr ⟨rfl, hbusy, ?_⟩
    rw [← hlen]
    exact run_wait hc (List.ne_nil_of_length_pos hpos) fun i hi =>
      mem_busy.mp (hbusy i (hlen ▸ hi))

/-! ## Calls that cannot fail -/

/-- The readers that satisfy `live` answer every seek and every read. -/
structure NeverFails (live : R → Prop) : Prop where
  seek : ∀ r o, live r → ∃ q, (ReadSeek.seek r (.start o)).1 = .ok q
  read : ∀ r slot, live r → ∃ n, (ReadSeek.read r slot).1.1 = .ok n

variable {live : R → Prop}

theorem fill_succeeds (hlive : Steady live) (hok : NeverFails live) {r : R} (dst : Bytes)
    (total : Nat) (hr : live r) : ∃ n, (fill r dst total).1.1 = .ok n := by
  fun_induction fill r dst total with
  | case1 r dst total h a dst' e he =>
    obtain ⟨n, hn⟩ := hok.read r (dst.drop total) hr
    cases hn.symm.trans he
  | case2 r dst total h a dst' he => exact ⟨total, rfl⟩
  | case3 r dst total h a dst' m he hm ih => exact ih (hlive.read r _ hr)
  | case4 r dst total h => exact ⟨total, rfl⟩

theorem readWith_succeeds (hlive : Steady live) (hok : NeverFails live) (p : SeekPoolSource R)
    {r : R} (hr : live r) (offset : UInt64) (buf : Bytes) :
    ∃ n, (p.readWith r offset buf).1.1 = .ok n := by
  obtain ⟨q, hq⟩ := hok.seek r offset hr
  obtain ⟨n, hn⟩ := fill_succeeds hlive hok (buf.take (min buf.length (p.len - offset).toNat)) 0
    (hlive.seek r offset hr)
  refine ⟨n, ?_⟩
  simp only [readWith, hq, hn]
  rfl

end SeekPoolSource

section Schedule

variable {R : Type} [ReadSeek R] (p : SeekPoolSource R) {calls : List (UInt64 × Bytes)} {n : Nat}
  {s : SeekPoolSource.PoolSystem R}

/-- **Who holds a cursor**: at every moment of every schedule a cursor is locked exactly when a
client holds it, and then it is one client; and a client that begins to look for one gets the cursor
`checkout` answers, if nobody else takes a step. -/
theorem pool_excludes (h : Run p.calls n (.init p.pool calls) s) (j : Nat) :
    (j ∈ SeekPoolSource.busy s.pool.slots ↔
        ∃ (c : Nat) (call : _), s.clients[c]? = some (.holding call j)) ∧
      (∀ (c c' : Nat) (call call' : _), s.clients[c]? = some (.holding call j) →
        s.clients[c']? = some (.holding call' j) → c = c') ∧
      ∀ (c : Nat) (call : _) (k : _), s.clients[c]? = some (.scanning call 0) →
        p.calls.start call = .inl k → p.checkout (SeekPoolSource.busy s.pool.slots) = some j →
          p.ChecksOut s c call k j := by
  have hs := h.consistent
  have hlen : s.pool.slots.length = p.pool.length := h.reachable.length_slots
  rw [SeekPoolSource.mem_busy]
  refine ⟨⟨?_, ?_⟩, fun c c' call call' => hs.alone c c' call call' j,
    fun c call k hc ha => p.run_checkout hlen hc ha⟩
  · rintro ⟨r, held, hj⟩
    obtain ⟨c, hc⟩ := hs.held j r held.1 held.2 hj
    exact ⟨c, held.1, hc⟩
  · rintro ⟨c, call, hc⟩
    obtain ⟨r, k, hj⟩ := hs.holds c call j hc
    exact ⟨r, (call, k), hj⟩

/-- A schedule that blocks has answered every client. -/
theorem done_of_ended (h : Run p.calls n (.init p.pool calls) s) (hend : ∀ s', ¬Step p.calls s s')
    {ph : Phase (UInt64 × Bytes) (VfsResult Nat × Bytes)} (hph : ph ∈ s.clients) :
    ∃ call answer, ph = .done call answer := by
  by_contra hopen
  have hopen : ∀ call answer, ph ≠ .done call answer := fun call answer heq =>
    hopen ⟨call, answer, heq⟩
  obtain ⟨s', hstep⟩ := h.consistent.exists_step hph hopen
  exact hend s' hstep

/-- **Every schedule ends, with every call answered**: whatever the readers do, it has a bounded
number of steps, and it blocks only when all clients are done. -/
theorem pool_serves_every_call (h : Run p.calls n (.init p.pool calls) s) :
    n ≤ (calls.map fun call => call.2.length + p.pool.length + 5).sum ∧
      ((∀ s', ¬Step p.calls s s') → ∀ ph ∈ s.clients, ∃ call answer, ph = .done call answer) := by
  refine ⟨?_, fun hend ph hph => done_of_ended p h hend hph⟩
  have hlen := h.length_le p.calls_falls
  rw [stepsLeft_init _ _ fun i r => rfl] at hlen
  have hsum : (calls.map fun call => cost SeekPoolSource.movesLeft p.calls.start call +
      p.pool.length + 3).sum ≤ (calls.map fun call => call.2.length + p.pool.length + 5).sum := by
    apply List.sum_le_sum
    intro call _
    have hcost := p.cost_le call
    omega
  omega

/-- **When a schedule has ended every call has its bytes**, if the readers present `B` and never
fail. -/
theorem pool_totally_correct {B : Bytes} {live : R → Prop} {pos : R → Nat}
    (hB : Presents B live pos) (hok : SeekPoolSource.NeverFails live) (hne : p.pool ≠ [])
    (hlive : ∀ r ∈ p.pool, live r) (h : Run p.calls n (.init p.pool calls) s)
    (hend : ∀ s', ¬Step p.calls s s') {c : Nat} {offset : UInt64} {buf : Bytes}
    (hc : calls[c]? = some (offset, buf)) :
    ∃ m out, s.clients[c]? = some (.done (offset, buf) (.ok m, out)) ∧
      m = min (min buf.length (p.len.toNat - offset.toNat)) (B.length - offset.toNat) ∧
      out.take m = slice B offset.toNat m := by
  -- the client is done, with the call it came with
  obtain ⟨ph, hph, hcall⟩ := h.exists_client hc
  obtain ⟨call, ⟨answer, out⟩, rfl⟩ := done_of_ended p h hend (List.mem_of_getElem? hph)
  obtain rfl : call = (offset, buf) := hcall
  have hlog : ((offset, buf), (answer, out)) ∈ s.pool.log :=
    h.consistent.phases _ (List.mem_of_getElem? hph)
  -- and its answer is one of a reader of the stream
  have hserved : Served p.calls live (offset, buf) (answer, out) :=
    h.reachable.served (p.calls_keeps hB.toSteady) hne hlive _ hlog
  rcases p.served_cases hserved with ⟨hpast, hb⟩ | ⟨hoff, r, hr, hb⟩
  · have hpast : p.len.toNat ≤ offset.toNat := hpast
    obtain ⟨rfl, rfl⟩ := Prod.mk.inj hb
    exact ⟨0, _, hph, by omega, slice_zero.symm⟩
  · obtain ⟨m, hm⟩ := p.readWith_succeeds hB.toSteady hok hr offset buf
    obtain ⟨hexact, hbytes⟩ := p.readWith_exact hB hr hoff hm
    obtain ⟨rfl, rfl⟩ := Prod.mk.inj hb
    exact ⟨m, _, by rw [hph, hm], hexact, hbytes⟩

end Schedule

/-! ## Two clients on two cursors -/

theorem memCursor_neverFails (B : Bytes) :
    SeekPoolSource.NeverFails fun r : MemCursor => r.data = B :=
  ⟨fun _ o _ => ⟨o, rfl⟩, fun _ _ _ => ⟨_, rfl⟩⟩

/-- The calls of two clients, both of which ask for more than there is. -/
def twoCalls : List (UInt64 × Bytes) := [(1, [0, 0, 0, 0]), (3, [0, 0])]

/-- The first client locks the first cursor, the second passes it and locks the other, and a third
one begins to look. -/
theorem longPool_held : ∃ s,
    Run longPool.calls 6 (.init longPool.pool (twoCalls ++ [(0, [0])])) s ∧
      s.clients =
        [.holding (1, [0, 0, 0, 0]) 0, .holding (3, [0, 0]) 1, .scanning (0, [0]) 0] ∧
      SeekPoolSource.busy s.pool.slots = [0, 1] :=
  ⟨_, Run.refl (P := longPool.calls) (.init longPool.pool (twoCalls ++ [(0, [0])]))
    |>.tail (.enter (.scan (c := 0) rfl rfl))
    |>.tail (.enter (.take (c := 0) rfl rfl rfl))
    |>.tail (.enter (.scan (c := 1) rfl rfl))
    |>.tail (.enter (.pass (c := 1) rfl rfl))
    |>.tail (.enter (.take (c := 1) rfl rfl rfl))
    |>.tail (.enter (.scan (c := 2) rfl rfl)), rfl, rfl⟩

/-- They read in turns, and the second is done first. -/
theorem longPool_run : ∃ s, Run longPool.calls 11 (.init longPool.pool twoCalls) s ∧
    s.clients = [.done (1, [0, 0, 0, 0]) (.ok 3, [2, 3, 4, 0]),
      .done (3, [0, 0]) (.ok 1, [4, 0])] :=
  ⟨_, Run.refl (P := longPool.calls) (.init longPool.pool twoCalls)
    |>.tail (.enter (.scan (c := 0) rfl rfl))
    |>.tail (.enter (.take (c := 0) rfl rfl rfl))
    |>.tail (.enter (.scan (c := 1) rfl rfl))
    |>.tail (.enter (.pass (c := 1) rfl rfl))
    |>.tail (.enter (.take (c := 1) rfl rfl rfl))
    |>.tail (.move (c := 1) rfl rfl rfl)
    |>.tail (.move (c := 0) rfl rfl rfl)
    |>.tail (.move (c := 0) rfl rfl rfl)
    |>.tail (.move (c := 1) rfl rfl rfl)
    |>.tail (.answer (c := 1) rfl rfl rfl)
    |>.tail (.answer (c := 0) rfl rfl rfl), rfl⟩

theorem not_step_longPool {s : SeekPoolSource.PoolSystem MemCursor}
    (hdone : s.clients = [.done (1, [0, 0, 0, 0]) (.ok 3, [2, 3, 4, 0]),
      .done (3, [0, 0]) (.ok 1, [4, 0])]) (s' : SeekPoolSource.PoolSystem MemCursor) :
    ¬Step longPool.calls s s' := by
  refine not_step_of_done fun ph hph => ?_
  rw [hdone] at hph
  rcases List.mem_cons.mp hph with rfl | hph
  · exact ⟨_, _, rfl⟩
  · obtain rfl := List.mem_singleton.mp hph
    exact ⟨_, _, rfl⟩

theorem pool_excludes_longPool : ∃ s : SeekPoolSource.PoolSystem MemCursor,
    s.clients = [.holding (1, [0, 0, 0, 0]) 0, .holding (3, [0, 0]) 1, .scanning (0, [0]) 0] ∧
      (0 ∈ SeekPoolSource.busy s.pool.slots ↔
        ∃ (c : Nat) (call : _), s.clients[c]? = some (.holding call 0)) ∧
      (∀ (c c' : Nat) (call call' : _), s.clients[c]? = some (.holding call 0) →
        s.clients[c']? = some (.holding call' 0) → c = c') ∧
      longPool.ChecksOut s 2 (0, [0]) (.seek 0 [0]) 0 := by
  obtain ⟨s, hrun, hclients, hbusy⟩ := longPool_held
  obtain ⟨hheld, halone, hfirst⟩ := pool_excludes longPool hrun 0
  refine ⟨s, hclients, hheld, halone, hfirst 2 _ _ ?_ rfl ?_⟩
  · rw [hclients]
    rfl
  · rw [hbusy]
    rfl

theorem pool_serves_every_call_longPool : ∃ s : SeekPoolSource.PoolSystem MemCursor,
    11 ≤ (twoCalls.map fun call => call.2.length + 2 + 5).sum ∧ s.clients.length = 2 ∧
      ∀ ph ∈ s.clients, ∃ call answer, ph = .done call answer := by
  obtain ⟨s, hrun, hdone⟩ := longPool_run
  obtain ⟨hlen, hserved⟩ := pool_serves_every_call longPool hrun
  exact ⟨s, hlen, congrArg List.length hdone, hserved (not_step_longPool hdone)⟩

theorem pool_totally_correct_longPool : ∃ (s : SeekPoolSource.PoolSystem MemCursor) (m : Nat)
    (out : Bytes),
    s.clients[1]? = some (.done (3, [0, 0]) (.ok m, out)) ∧
      m = min (min 2 (6 - 3)) (4 - 3) ∧ out.take m = slice [1, 2, 3, 4] 3 m := by
  obtain ⟨s, hrun, hdone⟩ := longPool_run
  exact ⟨s, pool_totally_correct longPool (memCursor_presents (B := [1, 2, 3, 4]) (by decide))
    (memCursor_neverFails _) (List.cons_ne_nil _ _) (by decide) hrun (not_step_longPool hdone)
    (c := 1) rfl⟩

end ForensicVfs
