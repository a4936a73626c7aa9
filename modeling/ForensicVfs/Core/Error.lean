import Mathlib.Algebra.GroupWithZero.Nat

/-!
# The one error type

`VfsError` and `SmallHex` of `error.rs`. A Rust `str` is its bytes here (`Str`): the parsers of
this development look at bytes only, so nothing below depends on them being valid UTF-8 and every
statement over `Str` covers every `&str`. A `&'static str` or `String` that is only carried, never
inspected, is a Lean `String`.
-/

namespace ForensicVfs

/-- A byte slice or byte vector. -/
abbrev Bytes := List UInt8

/-- A `str`, as its bytes. -/
abbrev Str := List UInt8

/-- The bytes of a literal. -/
def str (s : String) : Str := s.toUTF8.data.toList

/-- `usize`, at its 64-bit width. -/
abbrev Usize := UInt64

/-- A short snapshot of offending bytes, capped at `SmallHex.cap`. -/
structure SmallHex where
  bytes : Bytes
  length_le : bytes.length ≤ 16
  deriving DecidableEq

namespace SmallHex

/-- Maximum captured bytes. -/
def cap : Nat := 16

/-- Capture up to `cap` bytes; a longer slice is truncated. -/
def new (bytes : Bytes) : SmallHex := ⟨bytes.take cap, List.length_take_le cap bytes⟩

end SmallHex

/-- The kinds of `std::io::Error` this crate makes or meets. -/
inductive IoErrorKind where
  | invalidInput
  | other
  | os (code : Int)
  deriving DecidableEq

/-- A `std::io::Error`: its kind and what it prints. -/
structure IoError where
  kind : IoErrorKind
  message : String
  deriving DecidableEq

/-- Every fallible operation in the VFS returns this. -/
inductive VfsError where
  | io (op : String) (source : IoError)
  | decode (layer : String) (offset : UInt64) (detail : String) (bytes : SmallHex)
  | unrecognized (site : String) (offset : UInt64) (bytes : SmallHex)
  | ambiguous (candidates : List String)
  | bootstrap (stage detail : String)
  | unsupported (layer scheme : String)
  | budget (cap : String) (limit : UInt64)
  | needCredentials (scheme target : String)
  | outOfRange (what : String) (offset len bound : UInt64)
  deriving DecidableEq

abbrev VfsResult := Except VfsError

abbrev IoResult := Except IoError

/-! ## What an error prints -/

/-- A byte as two hexadecimal digits. -/
def hexByte (b : UInt8) : String :=
  .ofList [Nat.digitChar (b.toNat / 16), Nat.digitChar (b.toNat % 16)]

/-- The `Display` of a snapshot. -/
def SmallHex.display (hex : SmallHex) : String := " ".intercalate (hex.bytes.map hexByte)

/-- The `Display` of an error. -/
def VfsError.display : VfsError → String
  | .io op source => "I/O during " ++ op ++ ": " ++ source.message
  | .decode layer offset detail bytes =>
    "decode failed in " ++ layer ++ " at offset " ++ toString offset ++ ": " ++ detail ++
      " (bytes: " ++ bytes.display ++ ")"
  | .unrecognized site offset bytes =>
    "unrecognized data at " ++ site ++ " offset " ++ toString offset ++ " (bytes: " ++
      bytes.display ++ ")"
  | .ambiguous candidates =>
    "ambiguous detection: [" ++ ", ".intercalate (candidates.map String.quote) ++ "]"
  | .bootstrap stage detail => "bootstrap failed at " ++ stage ++ ": " ++ detail
  | .unsupported layer scheme => "unsupported " ++ layer ++ ": " ++ scheme
  | .budget cap limit => "budget exceeded: " ++ cap ++ " (limit " ++ toString limit ++ ")"
  | .needCredentials scheme target =>
    "credentials required for " ++ scheme ++ " (" ++ target ++ ")"
  | .outOfRange what offset len bound =>
    what ++ ": offset " ++ toString offset ++ "+" ++ toString len ++ " past bound " ++
      toString bound

/-- `io::Error::other` of an error. -/
def IoError.other (e : VfsError) : IoError := ⟨.other, e.display⟩

end ForensicVfs
