import ForensicVfs.Core.Adapters
import ForensicVfs.Resolver.Descent

/-!
# Test doubles

The synthetic sources, readers and probers the tests run against, for the concrete inputs of this
development. A probe answers by the magic at the head of the window. The volume and archive doubles
expose given sources rather than sub-ranges of their parent.
-/

namespace ForensicVfs

open Slice

theorem take_copied {src buf : Bytes} {n : Nat} (hn : n ≤ src.length) :
    (src.take n ++ buf.drop n).take n = src.take n := by
  rw [List.take_append_of_le_length (by rw [List.length_take]; omega), List.take_take, Nat.min_self]

theorem length_copied {src buf : Bytes} {n : Nat} (hsrc : n ≤ src.length) (hbuf : n ≤ buf.length) :
    (src.take n ++ buf.drop n).length = buf.length := by
  rw [List.length_append, List.length_take, List.length_drop]
  omega

/-- A source over a byte vector. -/
def memSource (data : Bytes) : DynSource where
  len := .ofNat data.length
  readAt offset buf :=
    if offset.toNat ≤ data.length then
      let src := data.drop offset.toNat
      let n := min src.length buf.length
      (.ok n, src.take n ++ buf.drop n)
    else (.ok 0, buf)
  length_readAt offset buf := by
    split
    · simp only [List.length_append, List.length_take, List.length_drop]
      omega
    · rfl

/-- It reads the bytes of the vector. -/
theorem memSource_reads (data : Bytes) : (memSource data).Reads data := by
  intro offset buf n hn
  unfold memSource at hn ⊢
  by_cases hoff : offset.toNat ≤ data.length
  · simp only [if_pos hoff] at hn ⊢
    cases hn
    exact ⟨Nat.min_le_right _ _, take_copied (Nat.min_le_left _ _)⟩
  · simp only [if_neg hoff] at hn ⊢
    cases hn
    exact ⟨Nat.zero_le _, rfl⟩

/-- The bytes 1, 2, 3 and so on. -/
def numbered (size : Nat) : Bytes := (List.range size).map fun i => .ofNat (i + 1)

theorem length_numbered (size : Nat) : (numbered size).length = size := by
  rw [numbered, List.length_map, List.length_range]

theorem take_numbered {size i n : Nat} {rest : Bytes} (hn : n ≤ size - i) :
    (slice (numbered size) i n ++ rest).take n = slice (numbered size) i n := by
  have hlen : (slice (numbered size) i n).length = n := by
    rw [length_slice, length_numbered, Nat.min_eq_left hn]
  rw [List.take_append_of_le_length (Nat.le_of_eq hlen.symm),
    List.take_of_length_le (Nat.le_of_eq hlen)]

theorem length_slice_numbered {size i n : Nat} {buf : Bytes} (hn : n ≤ size - i)
    (hbuf : n ≤ buf.length) :
    (slice (numbered size) i n ++ buf.drop n).length = buf.length := by
  rw [List.length_append, length_slice, length_numbered, List.length_drop]
  omega

/-- A file of numbered bytes that reads all it is asked for. -/
def numberedFile (size : Nat) : File where
  content := numbered size
  metadata := if size < 2 ^ 64 then .ok (.ofNat size) else .error ⟨.other, "file too large"⟩
  metadata_ok len hlen := by
    split at hlen
    · next h =>
      cases hlen
      rw [length_numbered]
      exact UInt64.toNat_ofNat_of_lt' h
    · cases hlen
  readAt offset buf :=
    let n := min buf.length (size - offset.toNat)
    (.ok n, slice (numbered size) offset.toNat n ++ buf.drop n)
  length_readAt _ _ := length_slice_numbered (Nat.min_le_right _ _) (Nat.min_le_left _ _)
  readAt_ok offset buf n hn := by
    cases hn
    exact ⟨Nat.min_le_left _ _, take_numbered (Nat.min_le_right _ _)⟩

/-- A file of numbered bytes that reads at most `cap` of them at a time. -/
def cappedFile (size cap : Nat) : File where
  content := numbered size
  metadata := (numberedFile size).metadata
  metadata_ok := (numberedFile size).metadata_ok
  readAt offset buf :=
    let n := min (min buf.length cap) (size - offset.toNat)
    (.ok n, slice (numbered size) offset.toNat n ++ buf.drop n)
  length_readAt _ _ := length_slice_numbered (Nat.min_le_right _ _)
    (Nat.le_trans (Nat.min_le_left _ _) (Nat.min_le_left _ _))
  readAt_ok offset buf n hn := by
    cases hn
    exact ⟨Nat.le_trans (Nat.min_le_left _ _) (Nat.min_le_left _ _),
      take_numbered (Nat.min_le_right _ _)⟩

/-- `std::io::Cursor` over a byte vector. -/
structure MemCursor where
  data : Bytes
  pos : UInt64

/-- A seek relative to the start, the position or the end. -/
def MemCursor.seekBy (c : MemCursor) (base : Nat) (offset : Int64) : IoResult UInt64 × MemCursor :=
  let target := base + offset.toInt
  if 0 ≤ target ∧ target < 2 ^ 64 then
    (.ok (.ofNat target.toNat), { c with pos := .ofNat target.toNat })
  else (.error ⟨.invalidInput, "invalid seek to a negative or overflowing position"⟩, c)

instance : ReadSeek MemCursor where
  read c buf :=
    let src := c.data.drop c.pos.toNat
    let n := min src.length buf.length
    ((.ok n, src.take n ++ buf.drop n), { c with pos := c.pos + .ofNat n })
  seek c
    | .start o => (.ok o, { c with pos := o })
    | .fromEnd o => c.seekBy c.data.length o
    | .current o => c.seekBy c.pos.toNat o
  length_read _ _ := length_copied (Nat.min_le_left _ _) (Nat.min_le_right _ _)

def probeMagic (magic : Bytes) (w : SniffWindow) : Confidence :=
  if w.hasMagic 0 magic then .yes "fake" else .no

/-- Metadata of a node of the given kind. -/
def fakeMeta (kind : NodeKind) : FsMeta where
  ino := 0
  kind := kind
  allocated := .allocated
  size := 0
  nlink := 1
  uid := none
  gid := none
  mode := none
  times := {}
  streams := []
  residency := .resident 0
  linkTarget := none

/-- A filesystem whose directories are listed by `children`, every listed node being of the kind
`kindOf`. -/
def treeFs (children : UInt64 → List (Bytes × UInt64)) (kindOf : UInt64 → NodeKind) :
    FileSystem where
  kind := ⟨str "ntfs"⟩
  root := .opaqueId 0
  readDir
    | .opaqueId n => .ok ((children n).map fun (name, id) => .ok ⟨name, .opaqueId id, kindOf id⟩)
    | _ => .ok []
  «meta»
    | .opaqueId n => .ok (fakeMeta (kindOf n))
    | _ => .ok (fakeMeta .file)

/-- A filesystem with an empty root. -/
def emptyFs : FileSystem := treeFs (fun _ => []) (fun _ => .dir)

def fakeFsProbe (magic : Bytes) : FileSystemOpen where
  kind := ⟨str "ntfs"⟩
  probe := probeMagic magic
  «open» _ := .ok emptyFs

/-- A volume system of the given volumes. -/
def fakeVsProbe (magic : Bytes) (subs : List DynSource) (h : subs.length < 2 ^ 64) :
    VolumeSystemOpen where
  scheme := .gpt
  probe := probeMagic magic
  «open» _ := .ok
    { scheme := .gpt
      volumes := subs.map fun s => ⟨0, .partition, 0, s.len, none, none⟩
      length_volumes := by rwa [List.length_map]
      openVolume := fun i =>
        match subs[i.toNat]? with
        | some s => .ok s
        | none => .error (.outOfRange "fake volume" i 1 (.ofNat subs.length)) }

def fakeContainer (magic : Bytes) (decode : DynSource → DynSource) : ContainerOpen where
  format := .raw
  probe := probeMagic magic
  «open» src := .ok (decode src)

def fakeArchive (magic : Bytes) (contents : ArchiveContents) : ArchiveOpen where
  probe := probeMagic magic
  «open» _ := .ok contents

/-- The signature-less model: `maybe` on every window. -/
def fakeAttempt (layer : DynSource → VfsResult EncryptionLayer) : EncryptionOpen where
  scheme := .veraCrypt
  probe _ := .maybe
  «open» := layer

end ForensicVfs
