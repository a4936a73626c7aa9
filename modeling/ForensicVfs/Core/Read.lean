import ForensicVfs.Core.Registry
import ForensicVfs.Lib.BigEndian

/-!
# Bounded readers

The fixed-width readers of `read.rs`, the front door for every number in an image. They are one
macro, `boundedReader`, at a type, its width and a byte order; where the bytes run past the end of
the buffer, or the offset overflows, each answers 0.
-/

namespace ForensicVfs

/-- An unsigned integer type of `width` bytes, one at least. -/
class Word (T : Type) (width : outParam Nat) where
  pos : 0 < width
  toNat : T → Nat
  ofNat : Nat → T
  toNat_ofNat : ∀ n, toNat (ofNat n) = n % 256 ^ width
  ofNat_toNat : ∀ t, ofNat (toNat t) = t

instance : Word UInt16 2 :=
  ⟨by decide, UInt16.toNat, UInt16.ofNat, fun _ => UInt16.toNat_ofNat', fun _ => UInt16.ofNat_toNat⟩

instance : Word UInt32 4 :=
  ⟨by decide, UInt32.toNat, UInt32.ofNat, fun _ => UInt32.toNat_ofNat', fun _ => UInt32.ofNat_toNat⟩

instance : Word UInt64 8 :=
  ⟨by decide, UInt64.toNat, UInt64.ofNat, fun _ => UInt64.toNat_ofNat', fun _ => UInt64.ofNat_toNat⟩

namespace Word

variable {T : Type} {width : Nat} [Word T width]

/-- `<$ty>::from_be_bytes` -/
def fromBeBytes (buf : Bytes) : T := ofNat (BigEndian.value buf)

/-- `<$ty>::from_le_bytes` -/
def fromLeBytes (buf : Bytes) : T := ofNat (BigEndian.value buf.reverse)

theorem toNat_injective : Function.Injective (toNat : T → Nat) :=
  Function.LeftInverse.injective ofNat_toNat

theorem toNat_lt (t : T) : toNat t < 256 ^ width := by
  rw [← ofNat_toNat t, toNat_ofNat]
  exact Nat.mod_lt _ (Nat.pos_of_neZero _)

@[simp] theorem toNat_zero : toNat (ofNat 0 : T) = 0 := by
  rw [toNat_ofNat, Nat.zero_mod]

theorem toNat_fromBeBytes {buf : Bytes} (h : buf.length = width) :
    toNat (fromBeBytes buf : T) = BigEndian.value buf := by
  rw [fromBeBytes, toNat_ofNat, ← h, Nat.mod_eq_of_lt (BigEndian.value_lt buf)]

theorem fromLeBytes_eq (buf : Bytes) : (fromLeBytes buf : T) = fromBeBytes buf.reverse := rfl

end Word

/-- The macro `bounded_reader!`: the bytes at `off` as a number, 0 if out of range. -/
def boundedReader {T : Type} (width : Nat) [Word T width] (fromBytes : Bytes → T) (data : Bytes)
    (off : Nat) : T :=
  match checkedAdd off width with
  | none => Word.ofNat 0
  | some stop =>
    match getRange data off stop with
    | some slice => fromBytes slice
    | none => Word.ofNat 0

def beU16 : Bytes → Nat → UInt16 := boundedReader 2 Word.fromBeBytes
def beU32 : Bytes → Nat → UInt32 := boundedReader 4 Word.fromBeBytes
def beU64 : Bytes → Nat → UInt64 := boundedReader 8 Word.fromBeBytes
def leU16 : Bytes → Nat → UInt16 := boundedReader 2 Word.fromLeBytes
def leU32 : Bytes → Nat → UInt32 := boundedReader 4 Word.fromLeBytes
def leU64 : Bytes → Nat → UInt64 := boundedReader 8 Word.fromLeBytes

end ForensicVfs
