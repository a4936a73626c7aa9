import ForensicVfs.Core.Error

/-!
# The filesystem navigation contract

The identities and metadata of `fs.rs` and the part of the `FileSystem` trait that a traversal
uses. `FileId` and `FsKind` come from `forensicnomicon-core`: the field widths of a `FileId` are
the ones the casts of `parse_file_id` use, and an `FsKind` is a newtype over its token. A directory
stream is the list of what it yields, so every listing here is finite.
-/

namespace ForensicVfs

/-- Filesystem-specific stable identity. -/
inductive FileId where
  | ntfsRef (entry : UInt64) (seq : UInt16)
  | extInode (ino : UInt64) (gen : UInt32)
  | apfsOid (oid xid : UInt64)
  | fatDirEntry (cluster : UInt32) (index : UInt16)
  | isoExtent (block : UInt32)
  | opaqueId (n : UInt64)
  deriving DecidableEq

/-- Which stream of a node an operation addresses. -/
inductive StreamId where
  | default
  | named (n : UInt16)
  | resourceFork
  | xattr (n : UInt16)
  | slack
  deriving DecidableEq

/-- The filesystem family: a newtype over its canonical token. -/
structure FsKind where
  asStr : Str
  deriving DecidableEq

inductive StreamKind where
  | ntfsData | ntfsAds | hfsDataFork | hfsResourceFork | apfsNamed | data | xattr | syntheticSlack
  deriving DecidableEq

inductive ResidencyKind where
  | resident (inlineLen : UInt32)
  | nonResident
  deriving DecidableEq

/-- A named data stream on a node. -/
structure StreamInfo where
  id : StreamId
  name : Option Bytes
  size : UInt64
  residency : ResidencyKind
  kind : StreamKind
  deriving DecidableEq

/-- Name/metadata-layer allocation status. -/
inductive Allocation where
  | allocated | deleted | orphan
  deriving DecidableEq

/-- What kind of node this is. -/
inductive NodeKind where
  | file | dir | symlink | device | charDevice | blockDevice | fifo | socket | other
  deriving DecidableEq

inductive TimeSource where
  | si | fn | inodeTable | dirEntry | unspecified
  deriving DecidableEq

inductive TimeResolution where
  | winFileTime | nanos | micros | seconds | twoSeconds
  deriving DecidableEq

/-- One timestamp with its provenance. -/
structure TimeStamp where
  unixNanos : Int
  source : TimeSource
  resolution : TimeResolution
  deriving DecidableEq

/-- MAC(B) times; `none` is "not present in this filesystem". -/
structure MacbTimes where
  modified : Option TimeStamp := none
  accessed : Option TimeStamp := none
  changed : Option TimeStamp := none
  born : Option TimeStamp := none
  deriving DecidableEq

/-- One directory entry. -/
structure DirEntry where
  name : Bytes
  id : FileId
  kind : NodeKind
  deriving DecidableEq

/-- The unified forensic metadata record. -/
structure FsMeta where
  ino : UInt64
  kind : NodeKind
  allocated : Allocation
  size : UInt64
  nlink : UInt32
  uid : Option UInt32
  gid : Option UInt32
  mode : Option UInt32
  times : MacbTimes
  streams : List StreamInfo
  residency : ResidencyKind
  linkTarget : Option Bytes
  deriving DecidableEq

/-- One mounted, read-only filesystem, as far as a traversal uses it. `object` stands for the rest
of the trait object: filesystems are equal only if their other methods answer alike, too. -/
structure FileSystem where
  kind : FsKind
  root : FileId
  readDir : FileId → VfsResult (List (VfsResult DirEntry))
  «meta» : FileId → VfsResult FsMeta
  object : Nat := 0

/-- The shared filesystem handle. -/
abbrev DynFs := FileSystem

end ForensicVfs
