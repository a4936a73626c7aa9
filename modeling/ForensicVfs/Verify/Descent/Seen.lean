import ForensicVfs.Verify.Adapters.Transparent
import ForensicVfs.Verify.Descent.Sniff

/-!
# What a prober can see

A source that holds its bytes is probed with its first `sniffCap` bytes and its last `tailCap`
bytes. A prober then finds a magic exactly where the source has it within these bounds, both from
the start and from the end (`sniff_sees_iff`).
-/

namespace ForensicVfs

open Slice Result

section Seen

variable {s : DynSource} {B : Bytes}

/-- The window of a source that holds its bytes. -/
theorem sniffWindow_of_holds (h : s.Holds B) :
    sniffWindow s = .ok ⟨0, B.take sniffCap.toNat, s.len, B.drop (B.length - tailCap.toNat)⟩ := by
  have hbuilt := builtExactly s
  have hB := h.len
  have hone : sniffCap.toNat = 131072 := rfl
  obtain ⟨w, hw⟩ : ∃ w, sniffWindow s = .ok w := by
    unfold sniffWindow
    rw [readSniffBuffers_eq, headRead, tailRead, h.readAt, h.readAt]
    exact ⟨_, rfl⟩
  obtain ⟨n, tn, hn, htn, hwindow⟩ := sniffWindow_ok h.supplies.reads hw
  rw [headRead, h.readAt, List.length_replicate, hbuilt.head, Except.ok.injEq] at hn
  rw [tailRead, h.readAt, List.length_replicate, hbuilt.tail, hbuilt.tailStart,
    Except.ok.injEq] at htn
  have hzero : (0 : UInt64).toNat = 0 := rfl
  have hhead : slice B 0 n = B.take sniffCap.toNat := by
    rw [slice_congr (n := sniffCap.toNat) (by omega), slice, List.drop_zero]
  have htail : slice B (s.len - min s.len tailCap).toNat tn =
      B.drop (B.length - tailCap.toNat) := by
    have hstart : s.len.toNat - min s.len.toNat tailCap.toNat = B.length - tailCap.toNat := by
      omega
    rw [hbuilt.tailStart, hstart, slice, List.take_of_length_le (by rw [List.length_drop]; omega)]
  rw [hw, hwindow, hhead, htail]

/-- **What a prober sees** of a source that holds its bytes: every magic within the first
`sniffCap` bytes, and every one within the last `tailCap` bytes, and nothing else. -/
theorem sniff_sees_iff (h : s.Holds B) : ∃ w, sniffWindow s = .ok w ∧
    (∀ off magic, w.hasMagic off magic = true ↔
      off + magic.length ≤ min B.length sniffCap.toNat ∧
        slice B off magic.length = magic) ∧
    ∀ fromEnd magic, w.hasMagicFromEnd fromEnd magic = true ↔
      magic.length ≤ fromEnd ∧ fromEnd ≤ min B.length tailCap.toNat ∧
        slice B (B.length - fromEnd) magic.length = magic := by
  have hB := h.len
  have hlt := s.len.toNat_lt
  refine ⟨_, sniffWindow_of_holds h, ?_⟩
  have hexact : SniffWindow.Exact
      ⟨0, B.take sniffCap.toNat, s.len, B.drop (B.length - tailCap.toNat)⟩ := by
    apply SniffWindow.exact
    · rw [List.length_take]
      omega
    · rw [List.length_drop]
      omega
  refine ⟨fun off magic => ?_, fun fromEnd magic => ?_⟩
  · rw [hexact.hasMagic_iff, List.length_take, Nat.min_comm]
    refine and_congr_right fun hend => ?_
    rw [slice_take, Nat.min_eq_left (by omega)]
  · rw [hexact.hasMagicFromEnd_iff, List.length_drop, and_assoc]
    refine and_congr_right fun hle => ?_
    have hlast : B.length - (B.length - tailCap.toNat) = min B.length tailCap.toNat := by
      omega
    rw [hlast]
    refine and_congr_right fun hfrom => ?_
    -- counted from the end, the tail and the source agree
    have hstart : B.length - tailCap.toNat + (min B.length tailCap.toNat - fromEnd) =
        B.length - fromEnd := by
      omega
    rw [slice, List.drop_drop, hstart, slice]

/-- The trailer of a disk image, seen from its end. -/
theorem sniff_sees_iff_koly : ∃ w, sniffWindow (memSource (str "....koly..")) = .ok w ∧
    w.hasMagicFromEnd 6 (str "koly") = true ∧ w.hasMagicFromEnd 4 (str "koly") = false := by
  have hholds : (memSource (str "....koly..")).Holds (str "....koly..") :=
    memSource_holds (by decide)
  obtain ⟨w, hw, -, hend⟩ := sniff_sees_iff hholds
  refine ⟨w, hw, (hend _ _).mpr (by decide), ?_⟩
  rw [Bool.eq_false_iff, ne_eq, hend]
  decide

end Seen

end ForensicVfs
