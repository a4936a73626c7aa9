import ForensicVfs.Lib.OrderedSearch
import ForensicVfs.Resolver.Descent

/-!
# The candidate tree of a descent

What the registered openers offer at a source, as data: `descentItems` lists the mounts, the
failures and the peeled child sources in the order of the decision record, each group in
registration order. The passes of the resolver are searches over these lists, one pass a list
(`mountFilesystem_eq`, ..., `descendPackaging_eq`), so both terminals are an ordered search of the
candidate tree (`openWithCredentials_eq_search`, `resolveToSource_eq_search`), which answers its
first decisive event.
-/

namespace ForensicVfs

open Result OrderedSearch

/-- A source and the locator it was reached by. -/
structure Node where
  source : DynSource
  spec : Locator

/-- The node one layer below. -/
def Node.push (n : Node) (source : DynSource) (layer : Layer) : Node := ⟨source, n.spec.push layer⟩

@[simp] theorem Node.push_source (n : Node) (source : DynSource) (layer : Layer) :
    (n.push source layer).source = source := rfl

@[simp] theorem Node.push_spec (n : Node) (source : DynSource) (layer : Layer) :
    (n.push source layer).spec = n.spec.push layer := rfl

/-! ## What a source offers -/

section Items

variable {α T : Type}

/-- An item of a computation whose failure is loud. -/
def loud (x : VfsResult α) (item : α → Item VfsError T Node) : Item VfsError T Node :=
  match x with
  | .ok a => item a
  | .error e => .fail e

variable (o : Openers) (creds : CredentialSource) (w : SniffWindow) (n : Node)

def mountItems : List (Item VfsError Resolved Node) :=
  (o.filesystems.filter fun p => (p.probe w).isCandidate).map fun p =>
    loud (p.open n.source) fun fs =>
      .found { fs, spec := n.spec.push (.fs p.kind (.path [])), source := n.source,
               sourceSpec := n.spec }

/-- The volumes of one candidate, by index. -/
def volumesOf (v : VolumeSystemOpen) : List (Item VfsError T Node) :=
  match v.open n.source with
  | .error e => [.fail e]
  | .ok vs => (List.range vs.volumes.length).map fun i =>
    loud (vs.openVolume (.ofNat i)) fun sub =>
      .child (n.push sub (.volume v.scheme (.ofNat i) none))

def volumeItems : List (Item VfsError T Node) :=
  (o.volumeSystems.filter fun v => (v.probe w).isCandidate).flatMap (volumesOf n)

/-- The plaintext of a signature scheme. -/
def decryptItem (enc : EncryptionOpen) : Item VfsError T Node :=
  loud (enc.open n.source >>= fun layer => layer.open creds) fun decrypted =>
    .child (n.push decrypted (.encryption enc.scheme))

def signatureItems : List (Item VfsError T Node) :=
  (o.encryption.filter fun e => (e.probe w).isYes).map (decryptItem creds n)

def containerItems : List (Item VfsError T Node) :=
  (o.containers.filter fun c => (c.probe w).isCandidate).map fun c =>
    loud (c.open n.source) fun decoded => .child (n.push decoded (.container c.format))

/-- The stream or the members, by index, of one candidate. -/
def peelsOf (a : ArchiveOpen) : List (Item VfsError T Node) :=
  match a.open n.source with
  | .error e => [.fail e]
  | .ok (.stream inner) => [.child (n.push inner (.archive none))]
  | .ok (.members members _) => members.zipIdx.map fun p =>
    .child (n.push p.1.source (.archive (some (.ofNat p.2))))

def archiveItems : List (Item VfsError T Node) :=
  (o.archives.filter fun a => (a.probe w).isCandidate).flatMap (peelsOf n)

def packagingItems : List (Item VfsError T Node) := containerItems o w n ++ archiveItems o w n

/-- The plaintext of a credential-attempt scheme, if it decrypts. -/
def attemptOf (enc : EncryptionOpen) : List (Item VfsError T Node) :=
  match enc.open n.source with
  | .error e => [.fail e]
  | .ok layer =>
    match layer.open creds with
    | .error _ => []
    | .ok decrypted => [.child (n.push decrypted (.encryption enc.scheme))]

def attemptItems : List (Item VfsError T Node) :=
  (o.encryption.filter fun e => e.probe w == .maybe).flatMap (attemptOf creds n)

/-- What the disk descent offers at a node, in its order. -/
def descentItems : List (Item VfsError Resolved Node) :=
  match sniffWindow n.source with
  | .error e => [.fail e]
  | .ok w => mountItems o w n ++ volumeItems o w n ++ signatureItems o creds w n ++
    packagingItems o w n ++ attemptItems o creds w n

/-- What the packaging peel offers at a node: the peeled children, then the source itself. -/
def sourceItems : List (Item VfsError ResolvedSource Node) :=
  match sniffWindow n.source with
  | .error e => [.fail e]
  | .ok w => packagingItems o w n ++ [.found ⟨n.source, n.spec⟩]

end Items

/-! ## The passes are searches -/

section Passes

variable (o : Openers) (creds : CredentialSource) (w : SniffWindow) (source : DynSource)
  (spec : Locator) (depth : Nat)

theorem mountFilesystem_eq (rec : Node → VfsResult (Option Resolved)) :
    mountFilesystem o w source spec = (mountItems o w ⟨source, spec⟩).findSomeM? (visit rec) := by
  unfold mountFilesystem mountItems
  rw [findSomeM?_map, findSomeM?_filter]
  refine findSomeM?_congr fun p _ => ?_
  split
  · cases p.open source <;> rfl
  · rfl

variable {T : Type} {recurse : DynSource → Locator → Nat → VfsResult (Option T)}
  {rec : Node → VfsResult (Option T)} (hrec : ∀ n, recurse n.source n.spec (depth + 1) = rec n)

include hrec

theorem descendVolumes_eq :
    descendVolumes o w source spec depth recurse =
      (volumeItems o w ⟨source, spec⟩).findSomeM? (visit rec) := by
  unfold descendVolumes volumeItems
  rw [findSomeM?_flatMap, findSomeM?_filter]
  refine findSomeM?_congr fun v _ => ?_
  split
  · unfold volumesOf
    cases v.open source with
    | error e => rfl
    | ok vs =>
      show List.findSomeM? _ _ = List.findSomeM? _ _
      rw [findSomeM?_map]
      refine findSomeM?_congr fun i _ => ?_
      cases vs.openVolume (.ofNat i) with
      | error e => rfl
      | ok sub => exact hrec ⟨sub, _⟩
  · rfl

theorem descendPackaging_eq :
    descendPackaging o w source spec depth recurse =
      (packagingItems o w ⟨source, spec⟩).findSomeM? (visit rec) := by
  unfold descendPackaging packagingItems containerItems archiveItems
  rw [findSomeM?_append, findSomeM?_map, findSomeM?_filter, findSomeM?_flatMap, findSomeM?_filter]
  congr 1
  · refine findSomeM?_congr fun c _ => ?_
    split
    · cases c.open source with
      | error e => rfl
      | ok decoded => exact hrec ⟨decoded, _⟩
    · rfl
  · refine findSomeM?_congr fun a _ => ?_
    split
    · unfold peelsOf
      cases a.open source with
      | error e => rfl
      | ok contents =>
        cases contents with
        | stream inner =>
          show recurse _ _ _ = List.findSomeM? _ [_]
          rw [findSomeM?_singleton]
          exact hrec ⟨inner, _⟩
        | members members h =>
          show List.findSomeM? _ _ = List.findSomeM? _ _
          rw [findSomeM?_map]
          refine findSomeM?_congr fun p _ => ?_
          exact hrec ⟨p.1.source, _⟩
    · rfl

/-- The signature pass and what comes after it: the `yes` schemes are searched in order, and the
indices of the `maybe` ones handed on. -/
theorem signatureLoop_eq (l : List (EncryptionOpen × Nat)) (attempt : List Nat)
    (k : List Nat → VfsResult (Option T)) :
    (do
      let (found, attempt) ← signatureLoop w source spec depth creds recurse l attempt
      firstSome (.ok found) (k attempt)) =
      firstSome
        ((((l.map Prod.fst).filter fun e => (e.probe w).isYes).map
          (decryptItem creds ⟨source, spec⟩)).findSomeM? (visit rec))
        (k (attempt ++ (l.filter fun p => p.1.probe w == .maybe).map Prod.snd)) := by
  induction l generalizing attempt with
  | nil =>
    show firstSome (.ok none) (k attempt) = firstSome (.ok none) (k (attempt ++ []))
    rw [List.append_nil]
  | cons p l ih =>
    obtain ⟨enc, i⟩ := p
    rw [signatureLoop, List.map_cons]
    cases hv : enc.probe w with
    | no => simpa [hv] using ih attempt
    | maybe => simpa [hv] using ih (attempt ++ [i])
    | yes how =>
      rw [List.filter_cons_of_pos (by simp [hv]), List.filter_cons_of_neg (by simp [hv]),
        List.map_cons, findSomeM?_cons_eq, firstSome_assoc]
      unfold decryptItem
      cases enc.open source with
      | error e => rfl
      | ok layer =>
        cases hd : layer.open creds with
        | error e => simp [hd, loud, visit]
        | ok decrypted =>
          have hr : recurse decrypted (spec.push (.encryption enc.scheme)) (depth + 1) =
              rec ⟨decrypted, spec.push (.encryption enc.scheme)⟩ := hrec ⟨decrypted, _⟩
          simp only [ok_bind, hd, loud, visit, hr, Node.push]
          cases rec ⟨decrypted, spec.push (.encryption enc.scheme)⟩ with
          | error e => rfl
          | ok found =>
            cases found with
            | some found => rfl
            | none => exact ih attempt

theorem descendSignatureEncryption_eq :
    Prod.fst <$> descendSignatureEncryption o w source spec depth creds recurse =
      (signatureItems o creds w ⟨source, spec⟩).findSomeM? (visit rec) := by
  have h := signatureLoop_eq creds w source spec depth hrec o.encryption.zipIdx []
    fun _ => .ok none
  rw [List.zipIdx_map_fst, firstSome_none_right] at h
  unfold signatureItems
  rw [← h]
  unfold descendSignatureEncryption
  cases signatureLoop w source spec depth creds recurse o.encryption.zipIdx [] with
  | error e => rfl
  | ok found => exact (firstSome_none_right (.ok found.1)).symm

theorem descendCredentialAttemptEncryption_eq :
    descendCredentialAttemptEncryption o source spec depth creds recurse
        ((o.encryption.zipIdx.filter fun p => p.1.probe w == .maybe).map Prod.snd) =
      (attemptItems o creds w ⟨source, spec⟩).findSomeM? (visit rec) := by
  unfold descendCredentialAttemptEncryption attemptItems
  rw [findSomeM?_map, findSomeM?_filter, findSomeM?_flatMap, findSomeM?_filter]
  nth_rewrite 3 [← List.zipIdx_map_fst 0 o.encryption]
  rw [findSomeM?_map]
  refine findSomeM?_congr fun p hp => ?_
  split
  · have hget : o.encryption[p.2]? = some p.1 := List.mem_zipIdx_iff_getElem?.mp hp
    simp only [hget]
    unfold attemptOf
    cases p.1.open source with
    | error e => rfl
    | ok layer =>
      cases hd : layer.open creds with
      | error e => simp [hd, pure, Except.pure]
      | ok decrypted =>
        simp only [ok_bind, hd, findSomeM?_singleton]
        exact hrec ⟨decrypted, _⟩
  · rfl

end Passes

/-! ## The terminals are searches -/

/-- The levels the depth cap leaves from `depth` on. -/
def levels (depth : Nat) : Nat := maxDepth + 1 - depth

theorem levels_succ {depth : Nat} (hd : depth ≤ maxDepth) :
    levels depth = levels (depth + 1) + 1 := by
  unfold levels
  omega

/-- The layers down to a node that is searched keep within the cap. -/
theorem add_length_le_maxDepth {depth k : Nat} {ls : List Layer} (hk : k < levels depth)
    (hlen : ls.length = k) : depth + ls.length ≤ maxDepth := by
  unfold levels at hk
  omega

section Terminals

variable (o : Openers) (creds : CredentialSource)

/-- **One call of the disk descent** searches what its source offers. -/
theorem openNode_eq {recurse : DynSource → Locator → Nat → VfsResult (Option Resolved)}
    {rec : Node → VfsResult (Option Resolved)} {depth : Nat}
    (hrec : ∀ n, recurse n.source n.spec (depth + 1) = rec n) (hd : depth ≤ maxDepth)
    (source : DynSource) (spec : Locator) :
    openNode o creds recurse source spec depth =
      (descentItems o creds ⟨source, spec⟩).findSomeM? (visit rec) := by
  unfold openNode descentItems
  rw [if_neg (Nat.not_lt.mpr hd)]
  cases sniffWindow source with
  | error e => rfl
  | ok w =>
    have hsig := signatureLoop_eq creds w source spec depth hrec o.encryption.zipIdx []
      fun attempt => firstSome (descendPackaging o w source spec depth recurse)
        (descendCredentialAttemptEncryption o source spec depth creds recurse attempt)
    rw [List.zipIdx_map_fst, List.nil_append,
      descendCredentialAttemptEncryption_eq o creds w source spec depth hrec,
      descendPackaging_eq o w source spec depth hrec] at hsig
    simp only [ok_bind, findSomeM?_append, firstSome_assoc]
    rw [mountFilesystem_eq o w source spec rec, descendVolumes_eq o w source spec depth hrec,
      descendPackaging_eq o w source spec depth hrec]
    exact congrArg (firstSome _) (congrArg (firstSome _) hsig)

/-- **One call of the packaging peel** searches what its source offers. -/
theorem sourceNode_eq {recurse : DynSource → Locator → Nat → VfsResult (Option ResolvedSource)}
    {rec : Node → VfsResult (Option ResolvedSource)} {depth : Nat}
    (hrec : ∀ n, recurse n.source n.spec (depth + 1) = rec n) (hd : depth ≤ maxDepth)
    (source : DynSource) (spec : Locator) :
    sourceNode o recurse source spec depth =
      (sourceItems o ⟨source, spec⟩).findSomeM? (visit rec) := by
  unfold sourceNode sourceItems
  rw [if_neg (Nat.not_lt.mpr hd)]
  cases sniffWindow source with
  | error e => rfl
  | ok w =>
    rw [findSomeM?_append, findSomeM?_singleton, ← descendPackaging_eq o w source spec depth hrec]
    rfl

theorem openLeft_eq_search (left : Nat) {depth : Nat} (h : depth + left = maxDepth + 1)
    (source : DynSource) (spec : Locator) :
    o.openLeft creds left source spec depth =
      search (descentItems o creds) left ⟨source, spec⟩ := by
  induction left generalizing depth source spec with
  | zero => rfl
  | succ left ih =>
    exact openNode_eq o creds (fun n => ih (by omega) n.source n.spec) (by omega) source spec

theorem sourceLeft_eq_search (left : Nat) {depth : Nat} (h : depth + left = maxDepth + 1)
    (source : DynSource) (spec : Locator) :
    o.sourceLeft left source spec depth = search (sourceItems o) left ⟨source, spec⟩ := by
  induction left generalizing depth source spec with
  | zero => rfl
  | succ left ih =>
    exact sourceNode_eq o (fun n => ih (by omega) n.source n.spec) (by omega) source spec

/-- **The disk descent is an ordered search** of the candidate tree. -/
theorem openWithCredentials_eq_search (source : DynSource) (spec : Locator) (depth : Nat) :
    o.openWithCredentials source spec depth creds =
      search (descentItems o creds) (levels depth) ⟨source, spec⟩ := by
  unfold Openers.openWithCredentials levels
  by_cases h : depth ≤ maxDepth + 1
  · exact openLeft_eq_search o creds _ (by omega) source spec
  · rw [show maxDepth + 1 - depth = 0 by omega]
    rfl

/-- **The packaging peel is an ordered search** of the packaging part of the tree. -/
theorem resolveToSource_eq_search (source : DynSource) (spec : Locator) (depth : Nat) :
    o.resolveToSource source spec depth = search (sourceItems o) (levels depth) ⟨source, spec⟩ := by
  unfold Openers.resolveToSource levels
  by_cases h : depth ≤ maxDepth + 1
  · exact sourceLeft_eq_search o _ (by omega) source spec
  · rw [show maxDepth + 1 - depth = 0 by omega]
    rfl

/-- `open_with_credentials` satisfies its recursion equation, so the levels never run out. -/
theorem openWithCredentials_eq (source : DynSource) (spec : Locator) (depth : Nat) :
    o.openWithCredentials source spec depth creds =
      openNode o creds (fun s sp d => o.openWithCredentials s sp d creds) source spec depth := by
  by_cases hd : depth ≤ maxDepth
  · have hnode : openNode o creds (fun s sp d => o.openWithCredentials s sp d creds) source spec
        depth = (descentItems o creds ⟨source, spec⟩).findSomeM?
          (visit (search (descentItems o creds) (levels (depth + 1)))) := by
      refine openNode_eq o creds ?_ hd source spec
      exact fun n => openWithCredentials_eq_search o creds n.source n.spec (depth + 1)
    rw [openWithCredentials_eq_search, hnode, levels_succ hd]
    rfl
  · rw [openWithCredentials_eq_search, show levels depth = 0 by unfold levels; omega, openNode,
      if_pos (by omega)]
    rfl

/-- `resolve_to_source` satisfies its recursion equation. -/
theorem resolveToSource_eq (source : DynSource) (spec : Locator) (depth : Nat) :
    o.resolveToSource source spec depth =
      sourceNode o (fun s sp d => o.resolveToSource s sp d) source spec depth := by
  by_cases hd : depth ≤ maxDepth
  · have hnode : sourceNode o (fun s sp d => o.resolveToSource s sp d) source spec depth =
        (sourceItems o ⟨source, spec⟩).findSomeM?
          (visit (search (sourceItems o) (levels (depth + 1)))) := by
      refine sourceNode_eq o ?_ hd source spec
      exact fun n => resolveToSource_eq_search o n.source n.spec (depth + 1)
    rw [resolveToSource_eq_search, hnode, levels_succ hd]
    rfl
  · rw [resolveToSource_eq_search, show levels depth = 0 by unfold levels; omega, sourceNode,
      if_pos (by omega)]
    rfl

end Terminals

/-! ## The first decisive event -/

/-- The decisive events of a source's candidate tree in pre-order: mounts and loud failures, the
tree cut where `maxDepth` cuts the descent. -/
def candidateEvents (o : Openers) (source : DynSource) (spec : Locator) (depth : Nat)
    (creds : CredentialSource) : List (VfsResult Resolved) :=
  events (descentItems o creds) (levels depth) ⟨source, spec⟩

theorem openWithCredentials_eq_outcome (o : Openers) (source : DynSource) (spec : Locator)
    (depth : Nat) (creds : CredentialSource) :
    o.openWithCredentials source spec depth creds =
      outcome (candidateEvents o source spec depth creds) := by
  rw [openWithCredentials_eq_search, search_eq_outcome]
  rfl

/-- **The descent answers the first decisive event of the candidate tree**: a mount, a loud failure,
or, exactly when there is none, `none`. It is the recursion of the source, whose levels do not run
out. -/
theorem openWithCredentials_first_event (o : Openers) (source : DynSource) (spec : Locator)
    (depth : Nat) (creds : CredentialSource) :
    let evs := candidateEvents o source spec depth creds
    let out := o.openWithCredentials source spec depth creds
    (∀ r, out = .ok (some r) ↔ evs.head? = some (.ok r)) ∧
      (∀ e, out = .error e ↔ evs.head? = some (.error e)) ∧ (out = .ok none ↔ evs = []) ∧
      out = openNode o creds (fun s sp d => o.openWithCredentials s sp d creds) source spec
        depth := by
  intro evs out
  have hout : out = outcome evs := openWithCredentials_eq_outcome o source spec depth creds
  refine ⟨fun r => ?_, fun e => ?_, ?_, openWithCredentials_eq o creds source spec depth⟩
  · rw [hout]
    exact outcome_eq_some
  · rw [hout]
    exact outcome_eq_error
  · rw [hout]
    exact outcome_eq_none

end ForensicVfs
