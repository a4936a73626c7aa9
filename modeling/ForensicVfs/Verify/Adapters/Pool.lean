import ForensicVfs.Core.Adapters
import ForensicVfs.Lib.Pooled
import ForensicVfs.Lib.Result
import ForensicVfs.Resolver.Doubles

/-!
# Pooled reads do not depend on history

Readers that present one byte stream answer every pooled read with the bytes of the window, in every
interleaving of the calls, on whichever cursor a call gets and wherever earlier reads and failures
have left it (`pooled_reads_exact`).
-/

namespace ForensicVfs

open Slice Pooled Result

/-! ## Readers of one stream -/

/-- The readers that satisfy `live` go on satisfying it, and their reads stay within the buffer. -/
structure Steady {R : Type} [ReadSeek R] (live : R → Prop) : Prop where
  seek : ∀ r o, live r → live (ReadSeek.seek r (.start o)).2
  read : ∀ r slot, live r → live (ReadSeek.read r slot).2
  read_le : ∀ r slot n, live r → (ReadSeek.read r slot).1.1 = .ok n → n ≤ slot.length

/-- The readers that satisfy `live` present the stream `B`, each at its position: a read gives some
bytes before the end and none at it, or fails and leaves the cursor anywhere. -/
structure Presents {R : Type} [ReadSeek R] (B : Bytes) (live : R → Prop) (pos : R → Nat) : Prop
    extends Steady live where
  seek_ok : ∀ r o q, live r → (ReadSeek.seek r (.start o)).1 = .ok q →
    pos (ReadSeek.seek r (.start o)).2 = o.toNat
  read_ok : ∀ r slot n, live r → (ReadSeek.read r slot).1.1 = .ok n →
    (ReadSeek.read r slot).1.2.take n = slice B (pos r) n ∧
      pos (ReadSeek.read r slot).2 = pos r + n ∧ (n = 0 → slot = [] ∨ B.length ≤ pos r)

namespace SeekPoolSource

variable {R : Type} [ReadSeek R]

/-! ## The fill loop -/

variable {B : Bytes} {live : R → Prop} {pos : R → Nat}

/-- **The loop fills the window**, or as much of it as the stream has. -/
theorem fill_exact (hB : Presents B live pos) {o n : Nat} {r : R} {dst : Bytes} {total : Nat}
    (hr : live r) (hpos : pos r = o + total) (hle : total ≤ dst.length)
    (hdst : dst.take total = slice B o total) (hn : (fill r dst total).1.1 = .ok n) :
    n = min dst.length (B.length - o) ∧ (fill r dst total).1.2.take n = slice B o n := by
  have hgot := congrArg List.length hdst
  rw [List.length_take, length_slice] at hgot
  fun_induction fill r dst total with
  | case1 r dst total h a dst' e he => cases hn
  | case2 r dst total h a dst' he =>
    -- the read was empty though there was room, so the stream has ended
    obtain ⟨-, -, hend⟩ := hB.read_ok r _ _ hr he
    have hend : B.length ≤ pos r := (hend rfl).resolve_left fun hnil => by
      rw [List.drop_eq_nil_iff] at hnil
      omega
    have htake : dst'.take total = slice B o total := by
      rw [List.take_append_of_le_length (by rw [List.length_take]; omega), List.take_take,
        Nat.min_self, hdst]
    cases hn
    exact ⟨by omega, htake⟩
  | case3 r dst total h a dst' m he hm ih =>
    have hslot := hB.read_le r _ _ hr he
    obtain ⟨hbytes, hnext, -⟩ := hB.read_ok r _ _ hr he
    have hlen : dst'.length = dst.length := length_refill r dst total
    rw [List.length_drop] at hslot
    have htake : dst'.take (total + m) = slice B o (total + m) := by
      have hprefix : (dst.take total).length = total := by
        rw [List.length_take]
        omega
      rw [List.take_append, hprefix, List.take_of_length_le (by omega), Nat.add_sub_cancel_left,
        hdst, hbytes, hpos, slice_append]
    have hgot' : min (total + m) dst'.length = min (total + m) (B.length - o) := by
      rw [← List.length_take, htake, length_slice]
    obtain ⟨hmin, hslice⟩ := ih (hB.read r _ hr) (hnext.trans (by omega)) (by omega) htake hn hgot'
    exact ⟨by omega, hslice⟩
  | case4 r dst total h =>
    cases hn
    exact ⟨by omega, hdst⟩

/-- However the readers answer, the loop does not leave the window. -/
theorem fill_le (hlive : Steady live) {n : Nat} {r : R} {dst : Bytes} {total : Nat} (hr : live r)
    (hle : total ≤ dst.length) (hn : (fill r dst total).1.1 = .ok n) : n ≤ dst.length := by
  fun_induction fill r dst total with
  | case1 r dst total h a dst' e he => cases hn
  | case2 r dst total h a dst' he =>
    cases hn
    exact hle
  | case3 r dst total h a dst' m he hm ih =>
    have hslot := hlive.read_le r _ _ hr he
    have hlen : dst'.length = dst.length := length_refill r dst total
    rw [List.length_drop] at hslot
    rw [← hlen]
    exact ih (hlive.read r _ hr) (by omega) hn
  | case4 r dst total h =>
    cases hn
    exact hle

/-! ## A call on one cursor -/

/-- A call that succeeds has sought its offset and filled the window from there. -/
theorem readWith_ok {p : SeekPoolSource R} {r : R} {offset : UInt64} (hoff : offset < p.len)
    {buf : Bytes} {n : Nat} (hn : (p.readWith r offset buf).1.1 = .ok n) :
    ∃ q want, (ReadSeek.seek r (.start offset)).1 = .ok q ∧
      want = min buf.length (p.len.toNat - offset.toNat) ∧
      (fill (ReadSeek.seek r (.start offset)).2 (buf.take want) 0).1.1 = .ok n ∧
      (p.readWith r offset buf).1.2 =
        (fill (ReadSeek.seek r (.start offset)).2 (buf.take want) 0).1.2 ++ buf.drop want := by
  have hremaining := toNat_sub_of_lt hoff
  unfold readWith at hn ⊢
  cases hseek : (ReadSeek.seek r (.start offset)).1 with
  | error e =>
    simp only [hseek] at hn
    cases hn
  | ok q =>
    simp only [hseek, hremaining] at hn ⊢
    refine ⟨q, _, rfl, rfl, ?_, rfl⟩
    exact mapError_eq_ok.mp hn

/-- **A read that succeeds is exact**, wherever the cursor stood. -/
theorem readWith_exact (hB : Presents B live pos) (p : SeekPoolSource R) {r : R} (hr : live r)
    {offset : UInt64} (hoff : offset < p.len) {buf : Bytes} {n : Nat}
    (hn : (p.readWith r offset buf).1.1 = .ok n) :
    n = min (min buf.length (p.len.toNat - offset.toNat)) (B.length - offset.toNat) ∧
      (p.readWith r offset buf).1.2.take n = slice B offset.toNat n := by
  obtain ⟨q, want, hseek, hwant, hfill, hbuf⟩ := readWith_ok hoff hn
  obtain ⟨hmin, hbytes⟩ := fill_exact (o := offset.toNat) hB (hB.seek r offset hr)
    (hB.seek_ok r offset q hr hseek) (Nat.zero_le _) slice_zero.symm hfill
  rw [List.length_take] at hmin
  refine ⟨by omega, ?_⟩
  rw [hbuf, List.take_append_of_le_length (by rw [length_fill, List.length_take]; omega), hbytes]

/-- However the readers answer, it stays within the buffer and the window. -/
theorem readWith_le (hlive : Steady live) (p : SeekPoolSource R) {r : R} (hr : live r)
    {offset : UInt64} (hoff : offset < p.len) {buf : Bytes} {n : Nat}
    (hn : (p.readWith r offset buf).1.1 = .ok n) :
    n ≤ buf.length ∧ offset.toNat + n ≤ p.len.toNat := by
  obtain ⟨q, want, -, hwant, hfill, -⟩ := readWith_ok hoff hn
  have hle := fill_le hlive (hlive.seek r offset hr) (Nat.zero_le _) hfill
  rw [UInt64.lt_iff_toNat_lt] at hoff
  rw [List.length_take] at hle
  omega

/-! ## Calls in moves -/

/-- Where a call stands that holds a cursor. -/
inductive Held where
  | seek (offset : UInt64) (buf : Bytes)
  | fill (dst rest : Bytes) (total : Nat)

/-- A `read_at`, move by move: each seek and each read of the cursor is one move. -/
def calls (p : SeekPoolSource R) :
    Protocol R (UInt64 × Bytes) Held (VfsResult Nat × Bytes) where
  start c := if c.1 ≥ p.len then .inr (.ok 0, c.2) else .inl (.seek c.1 c.2)
  unserved c := (.ok 0, c.2)
  move
    | .seek offset buf, r =>
      let s := ReadSeek.seek r (.start offset)
      match s.1 with
      | .error e => (.inr (.error (.io "seek" e), buf), s.2)
      | .ok _ =>
        let want := min buf.length (p.len - offset).toNat
        (.inl (.fill (buf.take want) (buf.drop want) 0), s.2)
    | .fill dst rest total, r =>
      if total < dst.length then
        let a := ReadSeek.read r (dst.drop total)
        let dst' := dst.take total ++ a.1.2
        match a.1.1 with
        | .error e => (.inr (.error (.io "read" e), dst' ++ rest), a.2)
        | .ok n =>
          if n = 0 then (.inr (.ok total, dst' ++ rest), a.2)
          else (.inl (.fill dst' rest (total + n)), a.2)
      else (.inr (.ok total, dst ++ rest), r)

variable (p : SeekPoolSource R)

/-- The moves of the loop come to an end, with its answer. -/
theorem alone_fill (dst rest : Bytes) (total : Nat) (r : R) :
    Alone p.calls (.fill dst rest total) r
      ((fill r dst total).1.1.mapError (.io "read"), (fill r dst total).1.2 ++ rest)
      (fill r dst total).2 := by
  fun_induction fill r dst total with
  | case1 r dst total h a dst' e he =>
    have he : (ReadSeek.read r (dst.drop total)).1.1 = .error e := he
    refine .answer ?_
    simp only [calls, if_pos h, he]
    rfl
  | case2 r dst total h a dst' he =>
    have he : (ReadSeek.read r (dst.drop total)).1.1 = .ok 0 := he
    refine .answer ?_
    simp only [calls, if_pos h, he]
    rfl
  | case3 r dst total h a dst' m he hm ih =>
    have he : (ReadSeek.read r (dst.drop total)).1.1 = .ok m := he
    refine .move ?_ ih
    simp only [calls, if_pos h, he, if_neg hm]
    rfl
  | case4 r dst total h => exact .answer (if_neg h)

/-- So do those of a call. -/
theorem alone_readWith (r : R) (offset : UInt64) (buf : Bytes) :
    Alone p.calls (.seek offset buf) r (p.readWith r offset buf).1
      (p.readWith r offset buf).2 := by
  unfold readWith
  cases hseek : (ReadSeek.seek r (.start offset)).1 with
  | error e =>
    simp only [hseek]
    refine .answer ?_
    simp only [calls, hseek]
  | ok q =>
    simp only [hseek]
    refine .move ?_ (p.alone_fill _ _ 0 _)
    simp only [calls, hseek]

/-- A move is a seek or a read of the cursor, or leaves it alone. -/
theorem calls_resource (k : Held) (r : R) :
    (∃ o, (p.calls.move k r).2 = (ReadSeek.seek r (.start o)).2) ∨
      (∃ slot, (p.calls.move k r).2 = (ReadSeek.read r slot).2) ∨ (p.calls.move k r).2 = r := by
  cases k with
  | seek offset buf =>
    refine .inl ⟨offset, ?_⟩
    simp only [calls]
    split <;> rfl
  | fill dst rest total =>
    by_cases h : total < dst.length
    · refine .inr (.inl ⟨dst.drop total, ?_⟩)
      simp only [calls, if_pos h]
      split
      · rfl
      · split <;> rfl
    · have hmove : p.calls.move (.fill dst rest total) r = (.inr (.ok total, dst ++ rest), r) :=
        if_neg h
      exact .inr (.inr (congrArg Prod.snd hmove))

/-- The moves of a call leave the cursors as they should be. -/
theorem calls_keeps (hlive : Steady live) : p.calls.Keeps live := by
  intro k r x r' hk hr
  obtain rfl : (p.calls.move k r).2 = r' := congrArg Prod.snd hk
  rcases p.calls_resource k r with ⟨o, hmove⟩ | ⟨slot, hmove⟩ | hmove
  · rw [hmove]
    exact hlive.seek r o hr
  · rw [hmove]
    exact hlive.read r slot hr
  · rwa [hmove]

/-- A call past the end reads nothing; any other is one of `readWith`. -/
theorem served_cases {c : UInt64 × Bytes} {b : VfsResult Nat × Bytes}
    (h : Served p.calls live c b) : (p.len ≤ c.1 ∧ b = (.ok 0, c.2)) ∨
      (c.1 < p.len ∧ ∃ r, live r ∧ b = (p.readWith r c.1 c.2).1) := by
  have hstart : p.calls.start c = if c.1 ≥ p.len then .inr (.ok 0, c.2) else .inl (.seek c.1 c.2) :=
    rfl
  by_cases hpast : p.len ≤ c.1
  · rw [if_pos hpast] at hstart
    cases h with
    | direct ha =>
      cases hstart.symm.trans ha
      exact .inl ⟨hpast, rfl⟩
    | alone ha _ _ => cases hstart.symm.trans ha
  · rw [if_neg hpast] at hstart
    cases h with
    | direct ha => cases hstart.symm.trans ha
    | alone ha hr hb =>
      cases hstart.symm.trans ha
      exact .inr ⟨UInt64.not_le.mp hpast, _, hr, (hb.unique (p.alone_readWith _ _ _)).1⟩

/-! ## A pool that nobody else uses -/

/-- **A read by the only client is exact.** -/
theorem readAt_exact (hB : Presents B live pos) (hne : p.pool ≠ []) (hlive : ∀ r ∈ p.pool, live r)
    {offset : UInt64} {buf : Bytes} {n : Nat} (hn : (p.readAt offset buf).1.1 = .ok n) :
    n = min (min buf.length (p.len.toNat - offset.toNat)) (B.length - offset.toNat) ∧
      (p.readAt offset buf).1.2.take n = slice B offset.toNat n := by
  rcases p.readAt_cases offset buf with ⟨hend, hread⟩ | ⟨hoff, r, hr, hread⟩
  · have hpast := UInt64.le_iff_toNat_le.mp (hend.resolve_right hne)
    rw [hread] at hn ⊢
    cases hn
    exact ⟨by omega, slice_zero.symm⟩
  · rw [hread] at hn ⊢
    exact p.readWith_exact hB (hlive r hr) hoff hn

/-- A pool is a source of the bytes its readers present. -/
theorem source_reads (hB : Presents B live pos) (hne : p.pool ≠ []) (hlive : ∀ r ∈ p.pool, live r) :
    p.source.Reads B := by
  intro offset buf n hn
  obtain ⟨hmin, hbytes⟩ := p.readAt_exact hB hne hlive hn
  exact ⟨by omega, hbytes⟩

/-- However its readers answer, a pool reads within the buffer and its length. -/
theorem readAt_le (h : Steady live) (hlive : ∀ r ∈ p.pool, live r) {offset : UInt64} {buf : Bytes}
    {n : Nat} (hn : (p.readAt offset buf).1.1 = .ok n) :
    n ≤ buf.length ∧ (n = 0 ∨ offset.toNat + n ≤ p.len.toNat) := by
  rcases p.readAt_cases offset buf with ⟨-, hread⟩ | ⟨hoff, r, hr, hread⟩
  · rw [hread] at hn
    cases hn
    exact ⟨Nat.zero_le _, .inl rfl⟩
  · rw [hread] at hn
    obtain ⟨hle, hend⟩ := p.readWith_le h (hlive r hr) hoff hn
    exact ⟨hle, .inr hend⟩

end SeekPoolSource

/-- **Pooled reads are exact**: in every interleaving of calls on readers of `B`, each of which is
`readWith` taken move by move, a read that succeeds gives the bytes of `B` in the window, all of
them that the buffer holds. -/
theorem pooled_reads_exact {R : Type} [ReadSeek R] {B : Bytes} {live : R → Prop} {pos : R → Nat}
    (hB : Presents B live pos) (p : SeekPoolSource R) (hne : p.pool ≠ [])
    (hlive : ∀ r ∈ p.pool, live r) {s : State R (UInt64 × Bytes) _ (VfsResult Nat × Bytes)}
    (h : Reachable p.calls p.pool s) {offset : UInt64} {buf : Bytes} {n : Nat} {out : Bytes}
    (hlog : ((offset, buf), (.ok n, out)) ∈ s.log) :
    (∀ r, Alone p.calls (.seek offset buf) r (p.readWith r offset buf).1
      (p.readWith r offset buf).2) ∧
      n = min (min buf.length (p.len.toNat - offset.toNat)) (B.length - offset.toNat) ∧
      out.take n = slice B offset.toNat n := by
  refine ⟨fun r => p.alone_readWith r offset buf, ?_⟩
  have hserved := h.served (p.calls_keeps hB.toSteady) hne hlive _ hlog
  rcases p.served_cases hserved with ⟨hpast, hb⟩ | ⟨hoff, r, hr, hb⟩
  · have hpast : p.len.toNat ≤ offset.toNat := hpast
    obtain ⟨hn, -⟩ := Prod.mk.inj hb
    cases hn
    exact ⟨by omega, slice_zero.symm⟩
  · have hn : (p.readWith r offset buf).1.1 = .ok n := congrArg Prod.fst hb.symm
    have hout : (p.readWith r offset buf).1.2 = out := congrArg Prod.snd hb.symm
    rw [← hout]
    exact SeekPoolSource.readWith_exact hB p hr hoff hn

/-! ## Readers of a byte vector -/

theorem memCursor_presents {B : Bytes} (hB : B.length < 2 ^ 64) :
    Presents B (fun r : MemCursor => r.data = B) (fun r => r.pos.toNat) := by
  refine ⟨⟨fun r o hr => hr, fun r slot hr => hr, fun r slot n hr hn => ?_⟩,
    fun r o q hr hq => rfl, fun r slot n hr hn => ?_⟩
  · exact Except.ok.inj hn ▸ Nat.min_le_right _ _
  · subst hr
    have hn : min (r.data.drop r.pos.toNat).length slot.length = n := Except.ok.inj hn
    have hpos := r.pos.toNat_lt
    have hsrc : n ≤ (r.data.drop r.pos.toNat).length := hn ▸ Nat.min_le_left _ _
    refine ⟨?_, ?_, fun hzero => ?_⟩
    · show (List.take (min _ _) _ ++ List.drop (min _ _) slot).take n = _
      rw [hn]
      exact take_copied hsrc
    · show (r.pos + .ofNat (min _ _)).toNat = _
      rw [hn, UInt64.toNat_add, UInt64.toNat_ofNat']
      rw [List.length_drop] at hsrc
      omega
    · rw [← List.length_eq_zero_iff]
      rw [List.length_drop] at hn
      omega

/-- Two cursors over four bytes, in a pool that promises six. -/
def longPool : SeekPoolSource MemCursor := ⟨[⟨[1, 2, 3, 4], 0⟩, ⟨[1, 2, 3, 4], 9⟩], 6⟩

/-- Two clients take a cursor each, and the one that comes first is served last. -/
theorem longPool_reachable : ∃ s, Reachable longPool.calls longPool.pool s ∧
    ((1, [0, 0, 0, 0]), (.ok 3, [2, 3, 4, 0])) ∈ s.log := by
  refine ⟨_, .tail (.tail (.tail (.tail (.tail (.tail (.tail (.tail .refl
    (.checkout (a := (1, [0, 0, 0, 0])) (j := 0) rfl rfl))
    (.checkout (a := (3, [0, 0])) (j := 1) rfl rfl))
    (.move (j := 1) rfl rfl)) (.move (j := 0) rfl rfl)) (.move (j := 0) rfl rfl))
    (.move (j := 1) rfl rfl)) (.answer (j := 1) rfl rfl)) (.answer (j := 0) rfl rfl), .head _⟩

theorem pooled_reads_exact_longPool : ∃ s, Reachable longPool.calls longPool.pool s ∧
    ((1, [0, 0, 0, 0]), (.ok 3, [2, 3, 4, 0])) ∈ s.log ∧
      (∀ r, Alone longPool.calls (.seek 1 [0, 0, 0, 0]) r (longPool.readWith r 1 [0, 0, 0, 0]).1
        (longPool.readWith r 1 [0, 0, 0, 0]).2) ∧
      3 = min (min 4 (6 - 1)) (4 - 1) ∧
        List.take 3 ([2, 3, 4, 0] : Bytes) = slice [1, 2, 3, 4] 1 3 := by
  obtain ⟨s, hs, hlog⟩ := longPool_reachable
  have hlive : ∀ r ∈ longPool.pool, r.data = [1, 2, 3, 4] := by decide
  have hB := memCursor_presents (B := [1, 2, 3, 4]) (by decide)
  exact ⟨s, hs, hlog, pooled_reads_exact hB longPool (List.cons_ne_nil _ _) hlive hs hlog⟩

end ForensicVfs
