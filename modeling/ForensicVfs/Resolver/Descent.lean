import ForensicVfs.Core.Arith
import ForensicVfs.Core.Locator
import ForensicVfs.Lib.Result

/-!
# The layer resolver

The `SourceOpen` methods of the resolver crate. Each descent pass is a function of its own that
takes the continuation as an argument, as `descend_packaging` does; `openNode` and `sourceNode` are
the bodies of the two recursive methods, closed by recursion on the depth that is left.
-/

namespace ForensicVfs

open Result

/-- Depth cap on the recursive resolve. -/
def maxDepth : Nat := 8

/-- Bytes read into the sniff window. -/
def sniffCap : UInt64 := 128 * 1024

/-- Bytes read into the tail sniff window. -/
def tailCap : UInt64 := 4096

/-- One resolved layer stack. -/
structure Resolved where
  fs : DynFs
  spec : Locator
  source : DynSource
  sourceSpec : Locator

/-- One fully-peeled raw byte edge. -/
structure ResolvedSource where
  source : DynSource
  spec : Locator

/-- One mounted directory-rooted tree. -/
structure ResolvedTree where
  fs : DynFs
  spec : Locator

/-! ## Sniffing -/

/-- The sniff buffers, their filled lengths and the source's length. -/
structure SniffBuffers where
  head : Bytes
  n : Nat
  tail : Bytes
  tn : Nat
  total : UInt64

/-- `u64::clamp` -/
def clamp (x lo hi : UInt64) : UInt64 := if x < lo then lo else if hi < x then hi else x

/-- `read_sniff_buffers`, with the arithmetic as a parameter. -/
def readSniffBuffersBy {m : Type → Type} [Monad m] (arith : Arith m) (source : DynSource) :
    ExceptT VfsError m SniffBuffers := do
  let total := source.len
  let cap := clamp total 1 sniffCap
  let head := source.readAt 0 (List.replicate cap.toNat 0)
  let n ← head.1
  let tailLen := min total tailCap
  let tailStart ← arith.sub total tailLen
  let tail := source.readAt tailStart (List.replicate tailLen.toNat 0)
  let tn ← tail.1
  return { head := head.2, n, tail := tail.2, tn, total }

def readSniffBuffers (source : DynSource) : VfsResult SniffBuffers :=
  (readSniffBuffersBy .plain source).run.run

/-- The window a source is probed with. -/
def sniffWindow (source : DynSource) : VfsResult SniffWindow := do
  let b ← readSniffBuffers source
  return .withTail 0 ((getRange b.head 0 b.n).getD []) b.total ((getRange b.tail 0 b.tn).getD [])

/-! ## The passes -/

section Passes

variable (openers : Openers) (window : SniffWindow) (source : DynSource) (spec : Locator)
  (depth : Nat) (creds : CredentialSource)

/-- The filesystem loop. -/
def mountFilesystem : VfsResult (Option Resolved) :=
  openers.filesystems.findSomeM? fun probe => do
    if (probe.probe window).isCandidate then
      let fs ← probe.open source
      let fsSpec := spec.push (.fs probe.kind (.path []))
      return some { fs, spec := fsSpec, source, sourceSpec := spec }
    else return none

variable {T : Type} (recurse : DynSource → Locator → Nat → VfsResult (Option T))

/-- The volume-system loop. -/
def descendVolumes : VfsResult (Option T) :=
  openers.volumeSystems.findSomeM? fun vsp => do
    if (vsp.probe window).isCandidate then
      let vs ← vsp.open source
      (List.range vs.volumes.length).findSomeM? fun index => do
        let sub ← vs.openVolume (.ofNat index)
        let child := spec.push (.volume vsp.scheme (.ofNat index) none)
        recurse sub child (depth + 1)
    else return none

/-- The loop of the signature pass over the schemes and their indices: a `maybe` is recorded for
the last-resort pass. -/
def signatureLoop : List (EncryptionOpen × Nat) → List Nat → VfsResult (Option T × List Nat)
  | [], credentialAttempt => .ok (none, credentialAttempt)
  | (enc, i) :: rest, credentialAttempt =>
    match enc.probe window with
    | .yes _ => do
      let layer ← enc.open source
      let decrypted ← layer.open creds
      let child := spec.push (.encryption enc.scheme)
      match ← recurse decrypted child (depth + 1) with
      | some found => return (some found, credentialAttempt)
      | none => signatureLoop rest credentialAttempt
    | .maybe => signatureLoop rest (credentialAttempt ++ [i])
    | .no => signatureLoop rest credentialAttempt

def descendSignatureEncryption : VfsResult (Option T × List Nat) :=
  signatureLoop window source spec depth creds recurse openers.encryption.zipIdx []

/-- Try each container decoder, then each archive peeler. -/
def descendPackaging : VfsResult (Option T) :=
  firstSome
    (openers.containers.findSomeM? fun cd => do
      if (cd.probe window).isCandidate then
        let decoded ← cd.open source
        let child := spec.push (.container cd.format)
        recurse decoded child (depth + 1)
      else return none)
    (openers.archives.findSomeM? fun ar => do
      if (ar.probe window).isCandidate then
        match ← ar.open source with
        | .stream inner =>
          let child := spec.push (.archive none)
          recurse inner child (depth + 1)
        | .members members _ =>
          members.zipIdx.findSomeM? fun (member, index) =>
            let child := spec.push (.archive (some (.ofNat index)))
            recurse member.source child (depth + 1)
      else return none)

/-- The last resort: a failed decrypt is skipped, a failed construction is not. -/
def descendCredentialAttemptEncryption (credentialAttempt : List Nat) : VfsResult (Option T) :=
  credentialAttempt.findSomeM? fun i =>
    match openers.encryption[i]? with
    | none => .ok none
    | some enc => do
      let layer ← enc.open source
      match layer.open creds with
      | .error _ => return none
      | .ok decrypted =>
        let child := spec.push (.encryption enc.scheme)
        recurse decrypted child (depth + 1)

end Passes

/-! ## The two terminals -/

/-- The body of `open_with_credentials`. -/
def openNode (openers : Openers) (creds : CredentialSource)
    (recurse : DynSource → Locator → Nat → VfsResult (Option Resolved))
    (source : DynSource) (spec : Locator) (depth : Nat) : VfsResult (Option Resolved) :=
  if depth > maxDepth then .ok none
  else do
    let window ← sniffWindow source
    firstSome (mountFilesystem openers window source spec) <|
      firstSome (descendVolumes openers window source spec depth recurse) do
        let (found, credentialAttempt) ←
          descendSignatureEncryption openers window source spec depth creds recurse
        firstSome (.ok found) <|
          firstSome (descendPackaging openers window source spec depth recurse) <|
            descendCredentialAttemptEncryption openers source spec depth creds recurse
              credentialAttempt

/-- The body of `resolve_to_source`. -/
def sourceNode (openers : Openers)
    (recurse : DynSource → Locator → Nat → VfsResult (Option ResolvedSource))
    (source : DynSource) (spec : Locator) (depth : Nat) : VfsResult (Option ResolvedSource) :=
  if depth > maxDepth then .ok none
  else do
    let window ← sniffWindow source
    firstSome (descendPackaging openers window source spec depth recurse)
      (.ok (some { source, spec }))

namespace Openers

/-- `open_with_credentials`, on `left` levels of recursion. -/
def openLeft (openers : Openers) (creds : CredentialSource) :
    Nat → DynSource → Locator → Nat → VfsResult (Option Resolved)
  | 0 => fun _ _ _ => .ok none
  | left + 1 => openNode openers creds (openLeft openers creds left)

/-- Recursively resolve a source to a filesystem. From `depth` on the cap leaves
`maxDepth + 1 - depth` levels. -/
def openWithCredentials (openers : Openers) (source : DynSource) (spec : Locator) (depth : Nat)
    (creds : CredentialSource) : VfsResult (Option Resolved) :=
  openers.openLeft creds (maxDepth + 1 - depth) source spec depth

/-- `open`: resolve without credentials. -/
def «open» (openers : Openers) (source : DynSource) (spec : Locator) (depth : Nat) :
    VfsResult (Option Resolved) :=
  openers.openWithCredentials source spec depth noCredentials

/-- `resolve_to_source`, on `left` levels of recursion. -/
def sourceLeft (openers : Openers) :
    Nat → DynSource → Locator → Nat → VfsResult (Option ResolvedSource)
  | 0 => fun _ _ _ => .ok none
  | left + 1 => sourceNode openers (sourceLeft openers left)

/-- Resolve a source to its innermost raw byte edge. -/
def resolveToSource (openers : Openers) (source : DynSource) (spec : Locator) (depth : Nat) :
    VfsResult (Option ResolvedSource) :=
  openers.sourceLeft (maxDepth + 1 - depth) source spec depth

/-- Mount evidence rooted at a directory. -/
def openTree (openers : Openers) (root : Bytes) (creds : CredentialSource) :
    VfsResult (Option ResolvedTree) :=
  openers.trees.findSomeM? fun opener => do
    if (opener.probe root).isCandidate then
      let fs ← opener.open root creds
      return some { fs, spec := Locator.directory root }
    else return none

end Openers

end ForensicVfs
