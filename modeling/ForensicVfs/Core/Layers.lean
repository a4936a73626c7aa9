import ForensicVfs.Core.Source

/-!
# The layer contracts

Volume systems (`volume.rs`), encryption layers (`encryption.rs`) and archive peels
(`archive.rs`). The tables they expose are slices and vectors, whose length is a `usize`; each
carries that bound, so an index into one is a `usize` without loss.
-/

namespace ForensicVfs

/-! ## Volumes -/

/-- The partitioning/volume scheme. -/
inductive VolumeScheme where
  | mbr | gpt | apm | vss | apfsContainer | lvm
  deriving DecidableEq

inductive VolumeKind where
  | partition | shadowStore | snapshot | unallocated
  deriving DecidableEq

/-- A description of one volume within a scheme, in the parent's address space. -/
structure VolumeDesc where
  index : Usize
  kind : VolumeKind
  start : UInt64
  len : UInt64
  typeHint : Option String
  label : Option String
  deriving DecidableEq

/-- A partitioning/volume scheme over one source. -/
structure VolumeSystem where
  scheme : VolumeScheme
  volumes : List VolumeDesc
  length_volumes : volumes.length < 2 ^ 64
  openVolume : Usize → VfsResult DynSource

/-! ## Encryption -/

/-- The encryption scheme a credential is being offered for. -/
inductive EncryptionScheme where
  | bitlocker | luks1 | luks2 | fileVault | apfsEncrypted | veraCrypt | iosBackup
  deriving DecidableEq

/-- One credential offered to an encryption layer. -/
inductive Credential where
  | password (text : String)
  | recoveryKey (text : String)
  | keyBytes (key : Bytes)
  | keyFile (path : Bytes)
  deriving DecidableEq

/-- Supplies credentials at resolve time. -/
structure CredentialSource where
  credentialsFor : EncryptionScheme → String → List Credential

/-- A credential source that offers nothing. -/
def noCredentials : CredentialSource := ⟨fun _ _ => []⟩

/-- An encryption translation over one source. -/
structure EncryptionLayer where
  scheme : EncryptionScheme
  «open» : CredentialSource → VfsResult DynSource

/-! ## Archives -/

/-- One member of a multi-member archive: its raw name and byte source. -/
structure Member where
  name : Bytes
  source : DynSource

/-- What an archive peel produces. -/
inductive ArchiveContents where
  | stream (inner : DynSource)
  | members (table : List Member) (length_table : table.length < 2 ^ 64)

end ForensicVfs
