import ForensicVfs.Resolver.Descent
import ForensicVfs.Verify.Adapters.Pool

/-!
# When a sniff match is a match in the source

A prober tests for a magic from the head of its window, and from the end of its tail. The head of
the window is where the source begins. The tail is what one read of the last bytes gave; where that
read stops short, the tail ends before the source does, and a match counted from its end is a match
elsewhere (`sniff_sound_iff`).
-/

namespace ForensicVfs

open Slice Result

/-! ## Queries -/

theorem getRange_eq (xs : Bytes) (i n : Nat) :
    getRange xs i (i + n) = if i + n ≤ xs.length then some (slice xs i n) else none := by
  unfold getRange slice
  rw [Nat.add_sub_cancel_left]
  exact if_congr (and_iff_right (Nat.le_add_right i n)) rfl rfl

/-- The window answers as it would over the integers: no query overflows. -/
structure SniffWindow.Exact (w : SniffWindow) : Prop where
  head : ∀ off n, w.at off n =
    if off + n ≤ w.bytes.length then some (slice w.bytes off n) else none
  tail : ∀ fromEnd n, w.tailAt fromEnd n =
    if n ≤ fromEnd ∧ fromEnd ≤ w.tail.length then
      some (slice w.tail (w.tail.length - fromEnd) n)
    else none

/-- A checked sum that overflows is past the end of any buffer. -/
theorem checked_getRange {xs : Bytes} (hxs : xs.length < 2 ^ 64) (i n : Nat) :
    ((checkedAdd i n).bind fun stop => getRange xs i stop) =
      if i + n ≤ xs.length then some (slice xs i n) else none := by
  unfold checkedAdd
  by_cases h : i + n < 2 ^ 64
  · rw [if_pos h]
    exact getRange_eq xs i n
  · rw [if_neg h, if_neg (by omega)]
    rfl

theorem SniffWindow.exact {w : SniffWindow} (hbytes : w.bytes.length < 2 ^ 64)
    (htail : w.tail.length < 2 ^ 64) : w.Exact := by
  refine ⟨fun off n => checked_getRange hbytes off n, fun fromEnd n => ?_⟩
  by_cases h : fromEnd ≤ w.tail.length
  · have htailAt : w.tailAt fromEnd n = (checkedAdd (w.tail.length - fromEnd) n).bind fun stop =>
        getRange w.tail (w.tail.length - fromEnd) stop := by
      unfold SniffWindow.tailAt
      rw [if_pos h]
      rfl
    rw [htailAt, checked_getRange htail]
    exact if_congr (by omega) rfl rfl
  · have htailAt : w.tailAt fromEnd n = none := by
      unfold SniffWindow.tailAt
      rw [if_neg h]
      rfl
    rw [htailAt, if_neg fun hand => h hand.2]

/-- A match at the head is one in the window's bytes. -/
theorem SniffWindow.Exact.hasMagic_iff {w : SniffWindow} (h : w.Exact) {off : Nat}
    {magic : Bytes} : w.hasMagic off magic = true ↔
      off + magic.length ≤ w.bytes.length ∧ slice w.bytes off magic.length = magic := by
  unfold SniffWindow.hasMagic
  rw [h.head, beq_iff_eq, Option.ite_none_right_eq_some, Option.some.injEq]

/-- A match from the end is one in the tail. -/
theorem SniffWindow.Exact.hasMagicFromEnd_iff {w : SniffWindow} (h : w.Exact) {fromEnd : Nat}
    {magic : Bytes} : w.hasMagicFromEnd fromEnd magic = true ↔
      (magic.length ≤ fromEnd ∧ fromEnd ≤ w.tail.length) ∧
        slice w.tail (w.tail.length - fromEnd) magic.length = magic := by
  unfold SniffWindow.hasMagicFromEnd
  rw [h.tail, beq_iff_eq, Option.ite_none_right_eq_some, Option.some.injEq]

/-- The tail is a match from where it begins. -/
theorem SniffWindow.Exact.hasMagicFromEnd_tail {w : SniffWindow} (h : w.Exact) :
    w.hasMagicFromEnd w.tail.length w.tail = true := by
  rw [h.hasMagicFromEnd_iff, Nat.sub_self]
  exact ⟨⟨Nat.le_refl _, Nat.le_refl _⟩, slice_self⟩

/-! ## The two reads -/

/-- The read of the head, and the buffer after it. -/
def headRead (s : DynSource) : VfsResult Nat × Bytes :=
  s.readAt 0 (List.replicate (clamp s.len 1 sniffCap).toNat 0)

/-- The read of the tail, and the buffer after it. -/
def tailRead (s : DynSource) : VfsResult Nat × Bytes :=
  s.readAt (s.len - min s.len tailCap) (List.replicate (min s.len tailCap).toNat 0)

section Build

variable {s : DynSource} {B : Bytes} {w : SniffWindow}

/-- What a read filled is what the source has there. -/
theorem filled (hB : s.Reads B) {offset : UInt64} {buf : Bytes} {n : Nat}
    (hn : (s.readAt offset buf).1 = .ok n) :
    (getRange (s.readAt offset buf).2 0 n).getD [] = slice B offset.toNat n := by
  obtain ⟨hle, hbytes⟩ := hB offset buf n hn
  have hlen := s.length_readAt offset buf
  unfold getRange
  rw [if_pos ⟨Nat.zero_le _, by omega⟩]
  exact hbytes

theorem length_filled (hB : s.Reads B) {offset : UInt64} {buf : Bytes} {n : Nat}
    (hn : (s.readAt offset buf).1 = .ok n) :
    n ≤ buf.length ∧ (slice B offset.toNat n).length = n := by
  obtain ⟨hle, hbytes⟩ := hB offset buf n hn
  rw [← hbytes, List.length_take, s.length_readAt]
  exact ⟨hle, Nat.min_eq_left hle⟩

/-- Where the tail's start comes out exact, the buffers are those of the two reads. -/
theorem readSniffBuffersBy_eq {m : Type → Type} [Monad m] [LawfulMonad m] {arith : Arith m}
    {s : DynSource}
    (h : arith.sub s.len (min s.len tailCap) = pure (s.len - min s.len tailCap)) :
    (readSniffBuffersBy arith s).run = pure (do
      let n ← (headRead s).1
      let tn ← (tailRead s).1
      return ⟨(headRead s).2, n, (tailRead s).2, tn, s.len⟩) := by
  show ExceptT.run (liftM (headRead s).1 >>= _) = _
  rw [run_bind_except]
  cases (headRead s).1 with
  | error e => rfl
  | ok n =>
    show ExceptT.run (liftM (arith.sub s.len (min s.len tailCap)) >>= _) = _
    rw [h, run_bind_pure]
    show ExceptT.run (liftM (tailRead s).1 >>= _) = _
    rw [run_bind_except]
    cases (tailRead s).1 <;> rfl

theorem readSniffBuffers_eq (s : DynSource) : readSniffBuffers s = (do
    let n ← (headRead s).1
    let tn ← (tailRead s).1
    return ⟨(headRead s).2, n, (tailRead s).2, tn, s.len⟩) :=
  @readSniffBuffersBy_eq Id _ _ .plain s rfl

/-- No operation overflows while the buffers are read: done with the checked arithmetic, that gets
through, with the same outcome. The two buffers have the lengths they have over the integers, and
the tail's begins where it should. -/
structure BuiltExactly (s : DynSource) : Prop where
  buffers : (readSniffBuffersBy .checked s).run = some (readSniffBuffers s)
  head : (clamp s.len 1 sniffCap).toNat = max 1 (min s.len.toNat sniffCap.toNat)
  tail : (min s.len tailCap).toNat = min s.len.toNat tailCap.toNat
  tailStart : (s.len - min s.len tailCap).toNat = s.len.toNat - min s.len.toNat tailCap.toNat

theorem builtExactly (s : DynSource) : BuiltExactly s := by
  have hcap : sniffCap.toNat = 131072 := rfl
  have hone : (1 : UInt64).toNat = 1 := rfl
  have hle : min s.len tailCap ≤ s.len := by
    rw [UInt64.le_iff_toNat_le, UInt64.toNat_min]
    exact Nat.min_le_left _ _
  refine ⟨?_, ?_, UInt64.toNat_min _ _, ?_⟩
  · rw [readSniffBuffers_eq]
    exact readSniffBuffersBy_eq (Arith.checked_sub hle)
  · unfold clamp
    split
    · next hlo =>
      rw [UInt64.lt_iff_toNat_lt] at hlo
      omega
    · next hlo =>
      rw [UInt64.lt_iff_toNat_lt] at hlo
      split
      · next hhi =>
        rw [UInt64.lt_iff_toNat_lt] at hhi
        omega
      · next hhi =>
        rw [UInt64.lt_iff_toNat_lt] at hhi
        omega
  · rw [UInt64.toNat_sub_of_le _ _ hle, UInt64.toNat_min]

/-- **The window** is what the two reads filled. -/
theorem sniffWindow_ok (hB : s.Reads B) (hw : sniffWindow s = .ok w) :
    ∃ n tn, (headRead s).1 = .ok n ∧ (tailRead s).1 = .ok tn ∧
      w = ⟨0, slice B 0 n, s.len, slice B (s.len - min s.len tailCap).toNat tn⟩ := by
  unfold sniffWindow at hw
  rw [readSniffBuffers_eq] at hw
  obtain ⟨b, hb, hw⟩ := bind_eq_ok.mp hw
  simp only [bind_eq_ok, pure_eq_ok] at hb hw
  obtain ⟨n, hn, tn, htn, rfl⟩ := hb
  refine ⟨n, tn, hn, htn, ?_⟩
  have hhead : (getRange (headRead s).2 0 n).getD [] = slice B 0 n := filled hB hn
  have htail : (getRange (tailRead s).2 0 tn).getD [] =
      slice B (s.len - min s.len tailCap).toNat tn := filled hB htn
  rw [← hw, ← hhead, ← htail]
  rfl

/-! ## Matches -/

/-- A match in the window is a match in the source. -/
structure MatchesSource (s : DynSource) (B : Bytes) (w : SniffWindow) : Prop where
  head : ∀ off magic, w.hasMagic off magic = true → slice B off magic.length = magic
  tail : ∀ fromEnd magic, w.hasMagicFromEnd fromEnd magic = true →
    fromEnd ≤ s.len.toNat ∧ slice B (s.len.toNat - fromEnd) magic.length = magic

/-- What the tail read filled is what the source has before its end. -/
def TailEnds (s : DynSource) (B : Bytes) : Prop :=
  ∀ tn, (tailRead s).1 = .ok tn →
    slice B (s.len.toNat - min s.len.toNat tailCap.toNat) tn = slice B (s.len.toNat - tn) tn

/-- A tail read that fills its buffer ends at the source's end. -/
theorem tailEnds_of_filled (h : (tailRead s).1 = .ok (min s.len.toNat tailCap.toNat)) :
    TailEnds s B := by
  intro tn htn
  cases h.symm.trans htn
  rfl

/-- A match at the head is one in the source. -/
theorem slice_of_hasMagic (hw : w.Exact) {n : Nat} (hbytes : w.bytes = slice B 0 n) {off : Nat}
    {magic : Bytes} (hmagic : w.hasMagic off magic = true) : slice B off magic.length = magic := by
  obtain ⟨hoff, hslice⟩ := hw.hasMagic_iff.mp hmagic
  rw [hbytes, length_slice] at hoff
  rwa [hbytes, slice_slice, Nat.zero_add, Nat.min_eq_left (by omega)] at hslice

/-- A match from the end of a tail that ends at `total` is one in the source. -/
theorem slice_of_hasMagicFromEnd (hw : w.Exact) {total tn : Nat}
    (htail : w.tail = slice B (total - tn) tn) (hlen : w.tail.length = tn) (hle : tn ≤ total)
    {fromEnd : Nat} {magic : Bytes} (hmagic : w.hasMagicFromEnd fromEnd magic = true) :
    fromEnd ≤ total ∧ slice B (total - fromEnd) magic.length = magic := by
  obtain ⟨⟨hmagicLe, hfromEnd⟩, hslice⟩ := hw.hasMagicFromEnd_iff.mp hmagic
  rw [hlen] at hfromEnd hslice
  have hstart : total - tn + (tn - fromEnd) = total - fromEnd := by omega
  rw [htail, slice_slice, hstart, Nat.min_eq_left (by omega)] at hslice
  exact ⟨Nat.le_trans hfromEnd hle, hslice⟩

/-- **Which sniffs are sound**: those whose tail read does not stop short of the source's end. -/
theorem sniff_sound_iff (hB : s.Reads B) (hw : sniffWindow s = .ok w) :
    MatchesSource s B w ∧ w.Exact ∧ BuiltExactly s ↔ TailEnds s B := by
  obtain ⟨n, tn, hn, htn, rfl⟩ := sniffWindow_ok hB hw
  have hbuilt := builtExactly s
  obtain ⟨hnle, hnlen⟩ := length_filled hB hn
  obtain ⟨htnle, htnlen⟩ := length_filled hB htn
  rw [List.length_replicate, hbuilt.head] at hnle
  rw [List.length_replicate, hbuilt.tail] at htnle
  rw [hbuilt.tailStart] at htnlen ⊢
  have hcap : sniffCap.toNat = 131072 := rfl
  have htailCap : tailCap.toNat = 4096 := rfl
  generalize ht : slice B (s.len.toNat - min s.len.toNat tailCap.toNat) tn = t at htnlen ⊢
  have hexact : SniffWindow.Exact ⟨0, slice B 0 n, s.len, t⟩ := by
    apply SniffWindow.exact
    · exact Nat.lt_of_le_of_lt (Nat.le_of_eq hnlen) (by omega)
    · exact Nat.lt_of_le_of_lt (Nat.le_of_eq htnlen) (by omega)
  constructor
  · rintro ⟨hmatch, -, -⟩ m hm
    cases htn.symm.trans hm
    -- the whole tail is a match from its own end
    obtain ⟨-, hend⟩ := hmatch.tail _ _ hexact.hasMagicFromEnd_tail
    have hend : slice B (s.len.toNat - t.length) t.length = t := hend
    rw [htnlen] at hend
    rw [ht, hend]
  · intro htail
    have hend : t = slice B (s.len.toNat - tn) tn := ht.symm.trans (htail tn htn)
    refine ⟨⟨fun off magic hm => slice_of_hasMagic hexact rfl hm, fun fromEnd magic hm => ?_⟩,
      hexact, hbuilt⟩
    exact slice_of_hasMagicFromEnd hexact hend htnlen (by omega) hm

end Build

theorem sniff_sound_iff_koly :
    MatchesSource (memSource (str "koly")) (str "koly") ⟨0, str "koly", 4, str "koly"⟩ ∧
      SniffWindow.Exact ⟨0, str "koly", 4, str "koly"⟩ ∧
        BuiltExactly (memSource (str "koly")) := by
  have hw : sniffWindow (memSource (str "koly")) = .ok ⟨0, str "koly", 4, str "koly"⟩ := rfl
  exact (sniff_sound_iff (memSource_reads _) hw).mpr (tailEnds_of_filled rfl)

/-! ## A truncated trailer -/

/-- A pool that promises six bytes over a reader of four. -/
def kolyPool : SeekPoolSource MemCursor := .single ⟨str "koly", 0⟩ 6

theorem kolyPool_readAt :
    kolyPool.source.readAt 0 (List.replicate 6 0) = (.ok 4, str "koly" ++ [0, 0]) := by
  have halone : Pooled.Alone kolyPool.calls (.seek 0 (List.replicate 6 0)) ⟨str "koly", 0⟩
      (.ok 4, str "koly" ++ [0, 0]) ⟨str "koly", 4⟩ :=
    .move rfl (.move rfl (.answer rfl))
  exact ((kolyPool.alone_readWith _ 0 _).unique halone).1

theorem kolyPool_sniff :
    sniffWindow kolyPool.source = .ok ⟨0, str "koly", 6, str "koly"⟩ := by
  have hhead : headRead kolyPool.source = (.ok 4, str "koly" ++ [0, 0]) := kolyPool_readAt
  have htail : tailRead kolyPool.source = (.ok 4, str "koly" ++ [0, 0]) := kolyPool_readAt
  unfold sniffWindow
  rw [readSniffBuffers_eq, hhead, htail]
  rfl

/-- The trailer's magic matches four bytes before an end that the bytes do not reach. -/
theorem kolyPool_misplaced : ∃ w, kolyPool.source.Reads (str "koly") ∧
    sniffWindow kolyPool.source = .ok w ∧ ¬MatchesSource kolyPool.source (str "koly") w := by
  have hreads : kolyPool.source.Reads (str "koly") :=
    kolyPool.source_reads (memCursor_presents (by decide)) (List.cons_ne_nil _ _) (by decide)
  refine ⟨_, hreads, kolyPool_sniff, fun h => ?_⟩
  have hmagic := (h.tail 4 (str "koly") (by decide)).2
  revert hmagic
  decide

end ForensicVfs
