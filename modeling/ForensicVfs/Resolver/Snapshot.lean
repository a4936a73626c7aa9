import ForensicVfs.Core.Locator
import ForensicVfs.Lib.BigEndian

/-!
# Snapshots as states in time

`snapshot_view` of the resolver crate and the epoch it derives from a snapshot's creation time.
`EpochTag` belongs to `state-history-forensic` and is a parameter: a type made from 32 bytes, with
a comparison of its own.
-/

namespace ForensicVfs

/-! ## Byte arrays -/

/-- `u64::to_be_bytes` -/
def toBeBytes (n : UInt64) : Vector UInt8 8 :=
  ⟨(BigEndian.bytes 8 n.toNat).toArray, BigEndian.length_bytes 8 n.toNat⟩

/-- `u64::from_be_bytes` -/
def fromBeBytes (bytes : Bytes) : UInt64 := .ofNat (BigEndian.value bytes)

theorem length_copyFromSlice {n m start : Nat} (bytes : Vector UInt8 n) (src : Vector UInt8 m)
    (h : start + m ≤ n) :
    (bytes.toList.take start ++ src.toList ++ bytes.toList.drop (start + m)).length = n := by
  rw [List.length_append, List.length_append, List.length_take, List.length_drop,
    Vector.length_toList, Vector.length_toList]
  omega

/-- `bytes[start..start + m].copy_from_slice(src)` -/
def copyFromSlice {n m : Nat} (bytes : Vector UInt8 n) (start : Nat) (src : Vector UInt8 m)
    (h : start + m ≤ n) : Vector UInt8 n :=
  ⟨(bytes.toList.take start ++ src.toList ++ bytes.toList.drop (start + m)).toArray,
    length_copyFromSlice bytes src h⟩

/-! ## Epochs -/

/-- The type of epoch tags. -/
class EpochTag (Tag : Type) extends BEq Tag, LT Tag where
  fromBytes : Vector UInt8 32 → Tag
  /-- The bytes of a tag, its field `0`. -/
  bytes : Tag → Vector UInt8 32

/-- Derive an epoch from a snapshot's creation time, in nanoseconds: the time big-endian in the last
eight bytes, the rest zero. -/
def epochFromCreateTime {Tag : Type} [EpochTag Tag] (createTimeNs : UInt64) : Tag :=
  EpochTag.fromBytes
    (copyFromSlice (Vector.replicate 32 0) 24 (toBeBytes createTimeNs) (Nat.le_refl 32))

/-- One snapshot of a filesystem, viewed as a time-indexed state. -/
structure SnapshotView (Tag : Type) where
  epoch : Tag
  xid : UInt64
  name : String
  locator : Locator

/-- The view of a snapshot under the locator of its source. -/
def snapshotView {Tag : Type} [EpochTag Tag] (sourceSpec : Locator) (xid : UInt64) (name : String)
    (createTime : UInt64) : SnapshotView Tag where
  epoch := epochFromCreateTime createTime
  xid := xid
  name := name
  locator := sourceSpec.push (.snapshot (.apfsXid xid))

end ForensicVfs
