import ForensicVfs.Lib.Slice
import ForensicVfs.Resolver.Snapshot

/-!
# Epochs order like time

An epoch is the creation time as a 32-byte big-endian number (`toList_epochBytes`), and numbers of
one width are ordered as their bytes are. So the order of the tags is that of the times
(`epoch_orders`), provided that tags keep their bytes and compare by them (`Bytewise`).
-/

namespace ForensicVfs

open BigEndian Slice

/-- Tags keep the bytes they are made from and compare by them. -/
structure Bytewise (Tag : Type) [EpochTag Tag] : Prop where
  keeps : ∀ bytes, EpochTag.bytes (EpochTag.fromBytes bytes : Tag) = bytes
  beq_iff : ∀ s t : Tag, (s == t) = true ↔ EpochTag.bytes s = EpochTag.bytes t
  lt_iff : ∀ s t : Tag, s < t ↔ (EpochTag.bytes s).toList < (EpochTag.bytes t).toList

/-! ## The bytes of a time -/

theorem value_toBeBytes (n : UInt64) : value (bytes 8 n.toNat) = n.toNat := by
  rw [value_bytes]
  exact Nat.mod_eq_of_lt n.toNat_lt

section Epoch

variable {Tag : Type} [EpochTag Tag] (h : Bytewise Tag)

include h

/-- The last eight bytes are the time, the others are zero. -/
theorem toList_epochBytes (t : UInt64) :
    (EpochTag.bytes (epochFromCreateTime t : Tag)).toList =
      List.replicate 24 0 ++ bytes 8 t.toNat := by
  rw [epochFromCreateTime, h.keeps]
  show List.take 24 (List.replicate 32 0) ++ bytes 8 t.toNat ++ _ = _
  rw [List.take_replicate]
  exact List.append_nil _

theorem value_epochBytes (t : UInt64) :
    value (EpochTag.bytes (epochFromCreateTime t : Tag)).toList = t.toNat := by
  rw [toList_epochBytes h, value_zeros_append, value_toBeBytes]

theorem epochBytes_lt_iff (a b : UInt64) :
    (EpochTag.bytes (epochFromCreateTime a : Tag)).toList <
        (EpochTag.bytes (epochFromCreateTime b : Tag)).toList ↔ a < b := by
  rw [lt_iff_value_lt (by rw [Vector.length_toList, Vector.length_toList]), value_epochBytes h,
    value_epochBytes h, UInt64.lt_iff_toNat_lt]

theorem epochBytes_eq_iff (a b : UInt64) :
    EpochTag.bytes (epochFromCreateTime a : Tag) = EpochTag.bytes (epochFromCreateTime b : Tag) ↔
      a = b := by
  constructor
  · intro heq
    apply UInt64.toNat_inj.mp
    rw [← value_epochBytes h a, ← value_epochBytes h b, heq]
  · rintro rfl
    rfl

theorem fromBeBytes_epoch (t : UInt64) :
    fromBeBytes (slice (EpochTag.bytes (epochFromCreateTime t : Tag)).toList 24 8) = t := by
  have hslice : slice (List.replicate 24 0 ++ bytes 8 t.toNat) 24 8 = bytes 8 t.toNat := by
    have hdrop : (List.replicate 24 0 ++ bytes 8 t.toNat).drop 24 = bytes 8 t.toNat := rfl
    rw [slice, hdrop]
    exact List.take_of_length_le (Nat.le_of_eq (length_bytes 8 t.toNat))
  rw [toList_epochBytes h, hslice, fromBeBytes, value_toBeBytes, UInt64.ofNat_toNat]

theorem epoch_lt_iff (a b : UInt64) :
    (epochFromCreateTime a : Tag) < epochFromCreateTime b ↔ a < b := by
  rw [h.lt_iff]
  exact epochBytes_lt_iff h a b

end Epoch

/-- **Epochs order like time.** Of two creation times the earlier one has the lexicographically
smaller epoch, as its 32 bytes and as a tag; only equal times have equal epochs; and the time can be
read back from the last eight bytes. -/
theorem epoch_orders {Tag : Type} [EpochTag Tag] (h : Bytewise Tag) (a b : UInt64) :
    let s : Tag := epochFromCreateTime a
    let t : Tag := epochFromCreateTime b
    ((EpochTag.bytes s).toList < (EpochTag.bytes t).toList ↔ a < b) ∧ (s < t ↔ a < b) ∧
      ((s == t) = true ↔ a = b) ∧ fromBeBytes (slice (EpochTag.bytes s).toList 24 8) = a := by
  refine ⟨epochBytes_lt_iff h a b, epoch_lt_iff h a b, ?_, fromBeBytes_epoch h a⟩
  rw [h.beq_iff]
  exact epochBytes_eq_iff h a b

/-- A tag that is its 32 bytes. -/
structure ByteTag where
  bytes : Vector UInt8 32

instance : EpochTag ByteTag where
  beq s t := s.bytes == t.bytes
  lt s t := s.bytes.toList < t.bytes.toList
  fromBytes := ByteTag.mk
  bytes := ByteTag.bytes

theorem bytewise_byteTag : Bytewise ByteTag where
  keeps _ := rfl
  beq_iff s t := (beq_iff_eq : (s.bytes == t.bytes) = true ↔ s.bytes = t.bytes)
  lt_iff _ _ := Iff.rfl

theorem epoch_orders_byteTag :
    let s : ByteTag := epochFromCreateTime 0x0123456789ABCDEF
    let t : ByteTag := epochFromCreateTime 0x0123456789ABCDF0
    ((EpochTag.bytes s).toList < (EpochTag.bytes t).toList ↔
        (0x0123456789ABCDEF : UInt64) < 0x0123456789ABCDF0) ∧
      (s < t ↔ (0x0123456789ABCDEF : UInt64) < 0x0123456789ABCDF0) ∧
      ((s == t) = true ↔ (0x0123456789ABCDEF : UInt64) = 0x0123456789ABCDF0) ∧
      fromBeBytes (slice (EpochTag.bytes s).toList 24 8) = 0x0123456789ABCDEF :=
  epoch_orders bytewise_byteTag _ _

end ForensicVfs
