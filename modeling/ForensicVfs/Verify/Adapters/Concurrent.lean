import ForensicVfs.Lib.Layered
import ForensicVfs.Verify.Adapters.Transparent

/-!
# Whole stacks under concurrent reads

A pool keeps a cursor locked while the source below is read, and that may be a pool in its turn, so
a read of a stack holds a lock of each pool it has come through. Each seek and each read of a cursor
is a step here, at every level, and so is each read of the base. However the steps of the readers
interleave, every read gets what the stack answers while nothing else is going on, no schedule goes
on for ever, and none blocks before every read has its answer (`stack_serves`).
-/

namespace ForensicVfs

open Pooled Service

/-- A read: its offset and its buffer. -/
abbrev ReadCall := UInt64 × Bytes

/-- The answer, and what is then in the buffer. -/
abbrev ReadAnswer := VfsResult Nat × Bytes

/-! ## What an adapter asks of its parent -/

/-- A read as one function. -/
def ImageSource.answer (s : ImageSource) (call : ReadCall) : ReadAnswer := s.readAt call.1 call.2

/-- A read of a window is one of its parent, or none. -/
def SubRange.request (s : SubRange) : Request ReadCall ReadAnswer ReadCall ReadAnswer :=
  fun (offset, buf) =>
    match s.issued offset buf with
    | none => .inl (.ok 0, buf)
    | some (abs, dst) => .inr ((abs, dst), fun r => (r.1, r.2 ++ buf.drop dst.length))

theorem SubRange.answer_request (s : SubRange) :
    s.request.answer s.parent.answer = s.source.answer := by
  funext ⟨offset, buf⟩
  show _ = s.readAt offset buf
  rw [s.readAt_eq_issued]
  simp only [Request.answer, request]
  cases s.issued offset buf with
  | none | some => rfl

theorem SubRange.length_request {s : SubRange} {call call' : ReadCall}
    {go : ReadAnswer → ReadAnswer} (h : s.request call = .inr (call', go)) :
    call'.2.length ≤ call.2.length := by
  simp only [request] at h
  split at h
  · cases h
  · next abs dst hissued =>
    cases h
    exact (prefix_of_issued hissued).length_le

/-- So is one of a cursor. -/
def SourceCursor.request :
    Request (SourceCursor × Bytes) ((IoResult Nat × Bytes) × SourceCursor) ReadCall ReadAnswer :=
  fun (c, buf) =>
    if c.pos ≥ c.len then .inl ((.ok 0, buf), c)
    else
      let remaining := c.len - c.pos
      let want := min buf.length remaining.toNat
      let abs := saturatingAdd c.base c.pos
      .inr ((abs, buf.take want), fun r =>
        let out := r.2 ++ buf.drop want
        match r.1 with
        | .error e => ((.error (.other e), out), c)
        | .ok n => ((.ok n, out), { c with pos := saturatingAdd c.pos (.ofNat n) }))

theorem SourceCursor.answer_request (c : SourceCursor) (buf : Bytes) :
    request.answer c.src.answer (c, buf) = c.read buf := by
  rw [read_eq]
  unfold Request.answer request
  by_cases hend : c.pos ≥ c.len
  · simp only [if_pos hend]
  · simp only [if_neg hend]
    rfl

theorem SourceCursor.request_inl {c : SourceCursor} {buf : Bytes}
    {a : (IoResult Nat × Bytes) × SourceCursor} (h : request (c, buf) = .inl a) :
    a = ((.ok 0, buf), c) := by
  unfold request at h
  by_cases hend : c.pos ≥ c.len
  · simp only [if_pos hend] at h
    exact (Sum.inl.inj h).symm
  · simp only [if_neg hend] at h
    cases h

/-- A read of the parent is no longer than the cursor's own, whose buffer keeps its length. -/
theorem SourceCursor.request_inr {c : SourceCursor} {buf : Bytes} {call : ReadCall}
    {go : ReadAnswer → (IoResult Nat × Bytes) × SourceCursor}
    (h : request (c, buf) = .inr (call, go)) (s : ImageSource) :
    call.2.length ≤ buf.length ∧ (go (s.answer call)).1.2.length = buf.length := by
  unfold request at h
  by_cases hend : c.pos ≥ c.len
  · simp only [if_pos hend] at h
    cases h
  · simp only [if_neg hend] at h
    obtain ⟨rfl, rfl⟩ := Prod.mk.inj (Sum.inr.inj h)
    refine ⟨List.length_take_le' _ _, ?_⟩
    have hlen : (overPrefix (min buf.length (c.len - c.pos).toNat) buf
        (s.readAt (saturatingAdd c.base c.pos))).2.length = buf.length :=
      length_overPrefix (s.length_readAt _)
    dsimp only
    split <;> exact hlen

namespace SeekPoolSource

/-- What the loop makes of a read of its cursor. -/
def took (dst rest : Bytes) (total : Nat) (a : (IoResult Nat × Bytes) × SourceCursor) :
    (Held ⊕ ReadAnswer) × SourceCursor :=
  let dst' := dst.take total ++ a.1.2
  match a.1.1 with
  | .error e => (.inr (.error (.io "read" e), dst' ++ rest), a.2)
  | .ok n =>
    if n = 0 then (.inr (.ok total, dst' ++ rest), a.2)
    else (.inl (.fill dst' rest (total + n)), a.2)

/-- The moves of `calls`, with the read of the parent left open. -/
def asking (p : SeekPoolSource SourceCursor) :
    Asking SourceCursor ReadCall Held ReadAnswer ReadCall ReadAnswer where
  start := p.calls.start
  unserved := p.calls.unserved
  move
    | (.seek offset buf, c) => .inl (p.calls.move (.seek offset buf) c)
    | (.fill dst rest total, c) =>
      if total < dst.length then
        match SourceCursor.request (c, dst.drop total) with
        | .inl a => .inl (took dst rest total a)
        | .inr (call, go) => .inr (call, fun r => took dst rest total (go r))
      else .inl (.inr (.ok total, dst ++ rest), c)

/-- With the parent in its place the moves are those of `calls`. -/
theorem closed_move (p : SeekPoolSource SourceCursor) (k : Held) (c : SourceCursor) :
    (p.asking.closed c.src.answer).move k c = p.calls.move k c := by
  show p.asking.move.answer c.src.answer (k, c) = _
  cases k with
  | seek offset buf => rfl
  | fill dst rest total =>
    by_cases h : total < dst.length
    · have hread : ReadSeek.read c (dst.drop total) =
          SourceCursor.request.answer c.src.answer (c, dst.drop total) :=
        (SourceCursor.answer_request c _).symm
      simp only [calls, if_pos h, hread]
      unfold Request.answer
      simp only [asking, if_pos h]
      cases SourceCursor.request (c, dst.drop total) with
      | inl a => rfl
      | inr asked => rfl
    · simp only [calls, if_neg h]
      unfold Request.answer
      simp only [asking, if_neg h]

/-! ## The answers of a pool -/

section Answers

variable {s : DynSource} {base len : UInt64} (p : SeekPoolSource SourceCursor)

/-- The moves leave a cursor over its window. -/
theorem asking_keeps : (p.asking.closed s.answer).Keeps (OverWindow s base len) := by
  intro k c x c' hk hc
  have hmove := p.closed_move k c
  rw [hc.src, hk] at hmove
  obtain rfl : (p.calls.move k c).2 = c' := congrArg Prod.snd hmove.symm
  rcases p.calls_resource k c with ⟨o, hmove⟩ | ⟨slot, hmove⟩ | hmove
  · rw [hmove]
    exact hc.seek (.start o)
  · rw [hmove]
    exact hc.read slot
  · rwa [hmove]

/-- A call that nothing interrupts is one of `calls`. -/
theorem alone_calls {k : Held} {c c' : SourceCursor} {b : ReadAnswer}
    (h : Alone (p.asking.closed s.answer) k c b c') (hc : OverWindow s base len c) :
    Alone p.calls k c b c' := by
  have hmove : ∀ k c, OverWindow s base len c →
      (p.asking.closed s.answer).move k c = p.calls.move k c := fun k c hc => by
    rw [← p.closed_move k c, hc.src]
  induction h with
  | answer hk => exact .answer ((hmove _ _ hc).symm.trans hk)
  | move hk _ ih =>
    exact .move ((hmove _ _ hc).symm.trans hk) (ih (p.asking_keeps _ _ _ _ hk hc))

/-- **Where the cursor stands does not matter**: a call goes to its offset first. -/
theorem readWith_overWindow {c c' : SourceCursor} (hc : OverWindow s base len c)
    (hc' : OverWindow s base len c') (offset : UInt64) (buf : Bytes) :
    p.readWith c offset buf = p.readWith c' offset buf := by
  obtain ⟨pos, rfl⟩ := hc
  obtain ⟨pos', rfl⟩ := hc'
  have hseek : ∀ pos, ReadSeek.seek { SourceCursor.new s base len with pos } (.start offset) =
      (.ok offset, { SourceCursor.new s base len with pos := offset }) := fun pos =>
    seek_start { SourceCursor.new s base len with pos } offset
  unfold readWith
  rw [hseek pos, hseek pos']

/-- **Whatever the interleaving**, a call gets what it gets alone. -/
theorem answered_alone (hp : ∀ c ∈ p.pool, OverWindow s base len c)
    {pool : State SourceCursor ReadCall Held ReadAnswer}
    (h : Reachable (p.asking.closed s.answer) p.pool pool) :
    ∀ call ∈ pool.log, call.2 = p.source.answer call.1 := by
  rintro ⟨⟨offset, buf⟩, b⟩ hcall
  show b = (p.readAt offset buf).1
  by_cases hnil : p.pool = []
  · rw [hnil] at h
    have hb : b = (.ok 0, buf) := by
      rcases h.answered_of_nil _ hcall with hstart | hb
      · have hstart : (if offset ≥ p.len then .inr (.ok 0, buf) else .inl (.seek offset buf)) =
            (.inr b : Held ⊕ ReadAnswer) := hstart
        split at hstart
        · exact (Sum.inr.inj hstart).symm
        · cases hstart
      · exact hb
    rcases p.readAt_cases offset buf with ⟨-, hread⟩ | ⟨-, c', hc', -⟩
    · rw [hread, hb]
    · rw [hnil] at hc'
      cases hc'
  · have hcalls : Served p.calls (OverWindow s base len) (offset, buf) b := by
      cases h.served p.asking_keeps hnil hp _ hcall with
      | direct ha => exact .direct ha
      | alone ha hc halone => exact .alone ha hc (p.alone_calls halone hc)
    rcases p.served_cases hcalls with ⟨hpast, rfl⟩ | ⟨hoff, c, hc, rfl⟩ <;>
      rcases p.readAt_cases offset buf with ⟨hend, hread⟩ | ⟨hoff', c', hc', hread⟩
    · rw [hread]
    · exact absurd hoff' (UInt64.not_lt.mpr hpast)
    · exact absurd hoff (UInt64.not_lt.mpr (hend.resolve_right hnil))
    · rw [hread, p.readWith_overWindow hc (hp c' hc')]

end Answers

/-! ## The steps of a pool -/

section Steps

variable (steps : Nat → Nat)

/-- The steps of the loop with `n` bytes to go, where a read of the parent takes `steps`. -/
def loopSteps (n : Nat) : Nat := (n + 1) * (steps n + 2)

/-- The steps of a call that holds a cursor. -/
def heldSteps : Held → Nat
  | .seek _ buf => loopSteps steps buf.length + 1
  | .fill dst _ total => loopSteps steps (dst.length - total)

variable {steps}

theorem loopSteps_mono (hmono : Monotone steps) : Monotone (loopSteps steps) := by
  intro m n hle
  have hsteps := hmono hle
  exact Nat.mul_le_mul (Nat.succ_le_succ hle) (Nat.add_le_add_right hsteps 2)

theorem lt_loopSteps (n : Nat) : steps n < loopSteps steps n := by
  have hle : 1 * (steps n + 2) ≤ (n + 1) * (steps n + 2) :=
    Nat.mul_le_mul_right _ (Nat.succ_le_succ (Nat.zero_le n))
  unfold loopSteps
  omega

/-- A byte less leaves room for one more read. -/
theorem loopSteps_succ (hmono : Monotone steps) (n : Nat) :
    loopSteps steps n + 1 + steps (n + 1) < loopSteps steps (n + 1) := by
  have hle : (n + 1) * (steps n + 2) ≤ (n + 1) * (steps (n + 1) + 2) :=
    Nat.mul_le_mul_left _ (Nat.add_le_add_right (hmono (Nat.le_succ n)) 2)
  unfold loopSteps
  rw [Nat.succ_mul (n + 1)]
  omega

open Layered in
/-- After a read the loop has a byte less to go, or ends. -/
theorem nextSteps_took (hmono : Monotone steps) {dst : Bytes} (rest : Bytes) {total : Nat}
    {a : (IoResult Nat × Bytes) × SourceCursor} (h : total < dst.length)
    (hlen : a.1.2.length = (dst.drop total).length) :
    nextSteps (heldSteps steps) (took dst rest total a).1 + steps (dst.length - total) <
      loopSteps steps (dst.length - total) := by
  have hend : 0 + steps (dst.length - total) < loopSteps steps (dst.length - total) := by
    rw [Nat.zero_add]
    exact lt_loopSteps _
  unfold took
  cases a.1.1 with
  | error e => exact hend
  | ok n =>
    by_cases hn : n = 0
    · simp only [if_pos hn]
      exact hend
    · simp only [if_neg hn, nextSteps, heldSteps]
      rw [List.length_append, hlen, ← List.length_append, List.take_append_drop]
      obtain ⟨m, hm⟩ : ∃ m, dst.length - total = m + 1 := ⟨dst.length - total - 1, by omega⟩
      have hsucc := loopSteps_succ hmono m
      have hle := loopSteps_mono hmono (show dst.length - (total + n) ≤ m by omega)
      rw [hm]
      omega

/-- **Every move of a call leaves fewer steps**, and pays for the read that it asks for. -/
theorem asking_priced (p : SeekPoolSource SourceCursor) (hmono : Monotone steps) (s : DynSource) :
    Layered.Priced p.asking (fun call => steps call.2.length) (heldSteps steps) s.answer := by
  refine ⟨fun k c next hk => ?_, fun k c call go hk => ?_⟩
  · cases k with
    | seek offset buf =>
      obtain rfl : p.calls.move (.seek offset buf) c = next := Sum.inl.inj hk
      simp only [calls]
      split
      · exact Nat.zero_le _
      · refine Nat.succ_le_succ (loopSteps_mono hmono ?_)
        rw [Nat.sub_zero]
        exact List.length_take_le' _ _
    | fill dst rest total =>
      simp only [asking] at hk
      split at hk
      · split at hk
        · next a ha =>
          cases SourceCursor.request_inl ha
          cases hk
          exact Nat.zero_le _
        · cases hk
      · cases hk
        exact Nat.zero_le _
  · cases k with
    | seek offset buf => cases hk
    | fill dst rest total =>
      simp only [asking] at hk
      split at hk
      · next h =>
        split at hk
        · cases hk
        · next call' go' hask =>
          cases hk
          obtain ⟨hle, hlen⟩ := SourceCursor.request_inr hask s
          rw [List.length_drop] at hle
          have hnext := nextSteps_took hmono rest h hlen
          have hcost := hmono hle
          simp only [heldSteps]
          omega
      · cases hk

variable (steps) in
theorem cost_asking (p : SeekPoolSource SourceCursor) (call : ReadCall) :
    System.cost (heldSteps steps) p.asking.start call ≤ loopSteps steps call.2.length + 2 := by
  unfold System.cost
  simp only [asking, calls]
  by_cases hpast : call.1 ≥ p.len
  · rw [if_pos hpast]
    exact Nat.zero_le _
  · rw [if_neg hpast]
    exact Nat.le_refl _

end Steps

end SeekPoolSource

/-! ## The whole stack -/

namespace Tower

/-- The stack with its readers: the reads of the base, each at one moment, and on them window by
window and pool by pool. A window holds no lock and takes no step of its own. -/
def service (s : DynSource) : Tower → Service ReadCall ReadAnswer
  | bare => .ofFn s.answer
  | subRange parent base len =>
    (parent.service s).wrap (SubRange.new (parent.top s) base len).request
  | pool parent base len positions total =>
    let cursors := positions.map fun pos => { SourceCursor.new (parent.top s) base len with pos }
    Pooled.layered (SeekPoolSource.asking ⟨cursors, total⟩) (parent.service s) cursors

/-- The steps that a read of so many bytes takes at most. -/
def steps : Tower → Nat → Nat
  | bare, _ => 1
  | subRange parent _ _, n => parent.steps n
  | pool parent _ _ positions _, n =>
    SeekPoolSource.loopSteps parent.steps n + positions.length + 5

theorem steps_mono (t : Tower) : Monotone t.steps := by
  induction t with
  | bare => exact fun _ _ _ => Nat.le_refl _
  | subRange parent base len ih => exact ih
  | pool parent base len positions total ih =>
    intro m n hle
    have hloop := SeekPoolSource.loopSteps_mono ih hle
    show SeekPoolSource.loopSteps parent.steps m + _ + 5 ≤ SeekPoolSource.loopSteps _ n + _ + 5
    omega

/-- **The stack serves what it reads alone**, by induction on its levels. -/
theorem serves (s : DynSource) (t : Tower) : ∃ Inv left, (t.service s).Serves (t.top s).answer
    (fun call => t.steps call.2.length) Inv left := by
  induction t with
  | bare => exact ⟨_, _, ofFn_serves s.answer⟩
  | subRange parent base len ih =>
    obtain ⟨Inv, left, h⟩ := ih
    have hwrap : Serves _ ((SubRange.new (parent.top s) base len).request.answer
        (SubRange.new (parent.top s) base len).parent.answer) _ _ _ :=
      h.wrap _ fun call call' go hask => parent.steps_mono (SubRange.length_request hask)
    rw [SubRange.answer_request] at hwrap
    exact ⟨_, _, hwrap⟩
  | pool parent base len positions total ih =>
    obtain ⟨Inv, left, h⟩ := ih
    let p : SeekPoolSource SourceCursor :=
      ⟨positions.map fun pos => { SourceCursor.new (parent.top s) base len with pos }, total⟩
    have hp : ∀ c ∈ p.pool, OverWindow (parent.top s) base len c := by
      intro c hc
      obtain ⟨pos, -, rfl⟩ := List.mem_map.mp hc
      exact ⟨pos, rfl⟩
    have hlayered := Layered.serves h (p.asking_priced parent.steps_mono (parent.top s)) p.pool
      fun pool hpool => p.answered_alone hp hpool
    refine ⟨_, _, hlayered.mono fun call => ?_⟩
    have hcost := p.cost_asking parent.steps call
    have hlen : p.pool.length = positions.length := List.length_map _
    show _ ≤ SeekPoolSource.loopSteps parent.steps call.2.length + positions.length + 5
    omega

end Tower

/-- **Every read of a stack gets what it gets alone**: however the steps of its readers interleave
at all levels, they are bounded, every answer is that of the stack while nothing else is going on,
and when no step is left every read has its answer. -/
theorem stack_serves (s : DynSource) (t : Tower) {calls : List ReadCall} {n : Nat}
    {now : (t.service s).State} (h : (t.service s).Run calls n now) :
    n ≤ (calls.map fun call => t.steps call.2.length).sum ∧
      (∀ call answer, (call, some answer) ∈ (t.service s).calls now →
        answer = (t.top s).readAt call.1 call.2) ∧
      ((∀ next, ¬(t.service s).Step now next) → (t.service s).calls now =
        calls.map fun call => (call, some ((t.top s).readAt call.1 call.2))) := by
  obtain ⟨Inv, left, hserves⟩ := t.serves s
  exact hserves.totally_correct h

/-- A pool over the pool of `cappedTower`. -/
def nestedTower : Tower := .pool cappedTower 0 3 [0] 2

/-- The service of `nestedTower` over a file of six bytes that reads two at a time. -/
abbrev nestedService : Service ReadCall ReadAnswer :=
  nestedTower.service (FileSource.source ⟨cappedFile 6 2, 6⟩)

open Service Layered in
/-- Two readers and one upper cursor: the second reader finds it locked and waits, while the first
reads through the pool below. -/
theorem nestedTower_run : ∃ now, nestedService.Run [(0, [0]), (1, [0])] 28 now ∧
    nestedService.calls now = [((0, [0]), some (.ok 1, [2])), ((1, [0]), some (.ok 1, [3]))] := by
  refine ⟨_, Run.init (S := nestedService)
    |>.submit (0, [0])
    |>.submit (1, [0])
    |>.step (Step.enter (.scan (c := 0) rfl rfl))
    |>.step (Step.enter (.take (c := 0) rfl rfl rfl))
    |>.step (Step.enter (.scan (c := 1) rfl rfl))
    |>.step (Step.enter (.pass (c := 1) rfl rfl))
    |>.step (Step.enter (.wait (c := 1) rfl rfl (List.cons_ne_nil _ _)))
    -- the first reader seeks, and asks for the byte below
    |>.step (Step.move (c := 0) rfl rfl rfl)
    |>.step (Step.ask (j := 0) rfl rfl rfl)
    |>.step (Step.below (Step.enter (.scan (c := 0) (a := (0, [0])) rfl rfl)))
    |>.step (Step.below (Step.enter (.take (c := 0) (a := (0, [0])) rfl rfl rfl)))
    |>.step (Step.below (Step.move (c := 0) (a := (0, [0])) rfl rfl rfl))
    |>.step (Step.below (Step.ask (j := 0) (a := (0, [0])) rfl rfl rfl))
    |>.step (Step.below (Step.below (wrap_step (ofFn_step (i := 0) (a := (1, [0])) rfl))))
    |>.step (Step.below (Step.resume (c := 0) (j := 0) (a := (0, [0])) rfl rfl rfl rfl rfl))
    |>.step (Step.below (Step.move (c := 0) (a := (0, [0])) rfl rfl rfl))
    |>.step (Step.resume (c := 0) (j := 0) (a := (0, [0])) rfl rfl rfl rfl rfl)
    |>.step (Step.move (c := 0) (a := (0, [0])) rfl rfl rfl)
    -- it has let go of the cursor, and the second reader does the same
    |>.step (Step.enter (.acquire (c := 1) (a := (1, [0])) rfl rfl rfl))
    |>.step (Step.move (c := 1) (a := (1, [0])) rfl rfl rfl)
    |>.step (Step.ask (j := 0) (a := (1, [0])) rfl rfl rfl)
    |>.step (Step.below (Step.enter (.scan (c := 1) (a := (1, [0])) rfl rfl)))
    |>.step (Step.below (Step.enter (.take (c := 1) (a := (1, [0])) rfl rfl rfl)))
    |>.step (Step.below (Step.move (c := 1) (a := (1, [0])) rfl rfl rfl))
    |>.step (Step.below (Step.ask (j := 0) (a := (1, [0])) rfl rfl rfl))
    |>.step (Step.below (Step.below (wrap_step (ofFn_step (i := 1) (a := (2, [0])) rfl))))
    |>.step (Step.below (Step.resume (c := 1) (j := 0) (a := (1, [0])) rfl rfl rfl rfl rfl))
    |>.step (Step.below (Step.move (c := 1) (a := (1, [0])) rfl rfl rfl))
    |>.step (Step.resume (c := 1) (j := 0) (a := (1, [0])) rfl rfl rfl rfl rfl)
    |>.step (Step.move (c := 1) (a := (1, [0])) rfl rfl rfl), rfl⟩

theorem stack_serves_nested :
    let s : DynSource := FileSource.source ⟨cappedFile 6 2, 6⟩
    let calls : List ReadCall := [(0, [0]), (1, [0])]
    28 ≤ (calls.map fun call => nestedTower.steps call.2.length).sum ∧
      (nestedTower.top s).readAt 0 [0] = (.ok 1, [2]) ∧
      (nestedTower.top s).readAt 1 [0] = (.ok 1, [3]) := by
  obtain ⟨now, hrun, hcalls⟩ := nestedTower_run
  obtain ⟨hsteps, hanswers, -⟩ := stack_serves _ nestedTower hrun
  rw [hcalls] at hanswers
  exact ⟨hsteps, (hanswers (0, [0]) _ List.mem_cons_self).symm,
    (hanswers (1, [0]) _ (List.mem_cons_of_mem _ List.mem_cons_self)).symm⟩

end ForensicVfs
