import ForensicVfs.Core.Fs
import ForensicVfs.Core.Layers

/-!
# The plugin contracts and the dispatch table

`registry.rs`: prober verdicts, the sniff window and the table of registered openers. An opener is
the record of its trait methods; every method is a function, so an opener answers the same question
the same way.
-/

namespace ForensicVfs

/-- The outer container/image format. -/
inductive ContainerFormat where
  | ewf | vmdk | vhdx | vhd | qcow2 | dmg | aff4 | ad1 | dar | raw | auto
  deriving DecidableEq

/-! ## Verdicts -/

/-- A prober's verdict; `yes` carries how it matched. -/
inductive Confidence where
  | no
  | maybe
  | yes (how : String)
  deriving DecidableEq

namespace Confidence

/-- True for `yes` and `maybe`: worth attempting `open`. -/
def isCandidate : Confidence → Bool
  | .no => false
  | _ => true

/-- True only for a definite `yes`. -/
def isYes : Confidence → Bool
  | .yes _ => true
  | _ => false

@[simp] theorem isCandidate_no : isCandidate .no = false := rfl
@[simp] theorem isCandidate_maybe : isCandidate .maybe = true := rfl
@[simp] theorem isCandidate_yes (how : String) : isCandidate (.yes how) = true := rfl
@[simp] theorem isYes_no : isYes .no = false := rfl
@[simp] theorem isYes_maybe : isYes .maybe = false := rfl
@[simp] theorem isYes_yes (how : String) : isYes (.yes how) = true := rfl

end Confidence

/-! ## The sniff window -/

/-- A bounded window of bytes handed to a prober: a head that starts at `base` and a tail that ends
at the source's end. -/
structure SniffWindow where
  base : UInt64
  bytes : Bytes
  totalLen : UInt64
  tail : Bytes
  deriving DecidableEq

/-- `usize::checked_add`. -/
def checkedAdd (a b : Nat) : Option Nat := if a + b < 2 ^ 64 then some (a + b) else none

/-- `slice::get` of the range `a..b`. -/
def getRange (s : Bytes) (a b : Nat) : Option Bytes :=
  if a ≤ b ∧ b ≤ s.length then some ((s.drop a).take (b - a)) else none

namespace SniffWindow

/-- A window carrying both a head and a tail. -/
def withTail (base : UInt64) (bytes : Bytes) (totalLen : UInt64) (tail : Bytes) : SniffWindow :=
  { base, bytes, totalLen, tail }

/-- The `n` bytes at window-relative `off`, if they are in range. -/
def «at» (w : SniffWindow) (off n : Nat) : Option Bytes := do
  let stop ← checkedAdd off n
  getRange w.bytes off stop

/-- The window has `magic` at window-relative `off`. -/
def hasMagic (w : SniffWindow) (off : Nat) (magic : Bytes) : Bool :=
  w.at off magic.length == some magic

/-- The `n` bytes of the tail beginning `fromEnd` bytes before the source's end. -/
def tailAt (w : SniffWindow) (fromEnd n : Nat) : Option Bytes := do
  let start ← if fromEnd ≤ w.tail.length then some (w.tail.length - fromEnd) else none
  let stop ← checkedAdd start n
  getRange w.tail start stop

/-- The tail carries `magic` starting `fromEnd` bytes before the source's end. -/
def hasMagicFromEnd (w : SniffWindow) (fromEnd : Nat) (magic : Bytes) : Bool :=
  w.tailAt fromEnd magic.length == some magic

end SniffWindow

/-! ## The openers -/

/-- Decodes an outer container to a raw byte stream. -/
structure ContainerOpen where
  format : ContainerFormat
  probe : SniffWindow → Confidence
  «open» : DynSource → VfsResult DynSource

/-- Recognizes and opens a partitioning/volume scheme. -/
structure VolumeSystemOpen where
  scheme : VolumeScheme
  probe : SniffWindow → Confidence
  «open» : DynSource → VfsResult VolumeSystem

/-- Recognizes and opens a full-disk-encryption layer. -/
structure EncryptionOpen where
  scheme : EncryptionScheme
  probe : SniffWindow → Confidence
  «open» : DynSource → VfsResult EncryptionLayer

/-- Recognizes and mounts a filesystem. -/
structure FileSystemOpen where
  kind : FsKind
  probe : SniffWindow → Confidence
  «open» : DynSource → VfsResult DynFs

/-- Recognizes and peels an archive/compression wrapper. -/
structure ArchiveOpen where
  probe : SniffWindow → Confidence
  «open» : DynSource → VfsResult ArchiveContents

/-- Recognizes and mounts evidence rooted at a directory. -/
structure TreeOpen where
  name : String
  probe : Bytes → Confidence
  «open» : Bytes → CredentialSource → VfsResult DynFs

/-- The compiled-in dispatch table, each list in registration order. -/
structure Openers where
  containers : List ContainerOpen := []
  volumeSystems : List VolumeSystemOpen := []
  encryption : List EncryptionOpen := []
  filesystems : List FileSystemOpen := []
  archives : List ArchiveOpen := []
  trees : List TreeOpen := []

end ForensicVfs
