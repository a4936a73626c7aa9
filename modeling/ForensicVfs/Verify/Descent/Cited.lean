import ForensicVfs.Resolver.Snapshot
import ForensicVfs.Verify.Descent.Invariance
import ForensicVfs.Verify.Descent.Leftmost
import ForensicVfs.Verify.Uri.Stored

/-!
# The locators a report cites

Every locator the resolver hands out is built on the one it was given: the layers of the peels, and
the mount or the snapshot on top. A peel names no filesystem, so with a table of known kinds all of
them are well named, and each is read back from its URI, which goes on behind the URI it was built
on (`resolved_locators_stored`). A mounted directory has a locator of its own (`openTree_stored`).
-/

namespace ForensicVfs

open OrderedSearch Result

/-- Every filesystem opener mounts a known kind, written without the two separators of a URI. -/
def KindsKnown (known : List FsKind) (o : Openers) : Prop :=
  ∀ p ∈ o.filesystems, p.kind ∈ known ∧ comma ∉ p.kind.asStr ∧ layerSep ∉ p.kind.asStr

/-- The locator is read back from its URI, which goes on behind the other locator's. -/
def StoredAbove (known : List FsKind) (below loc : Locator) : Prop :=
  Locator.fromUri known loc.toUri = .ok loc ∧
    (loc.toUri = below.toUri ∨ below.toUri ++ [layerSep] <+: loc.toUri)

section Stored

variable {known : List FsKind} {o : Openers} {creds : CredentialSource} {s t : DynSource}
  {l : Layer} {ls : List Layer} {loc : Locator}

/-- A peel names no filesystem. -/
theorem Peel.fsKind?_eq_none (h : Peel o creds s l t) : l.fsKind? = none := by
  cases h <;> rfl

theorem Peels.fsKind?_eq_none (h : Peels o creds s ls t) : ∀ l ∈ ls, l.fsKind? = none := by
  induction h with
  | nil s => exact fun l hl => absurd hl List.not_mem_nil
  | cons h _ ih => exact List.forall_mem_cons.mpr ⟨h.fsKind?_eq_none, ih⟩

theorem WellNamed.pushAll (h : WellNamed known loc)
    (hls : ∀ l ∈ ls, ∀ k ∈ l.fsKind?, k ∈ known ∧ comma ∉ k.asStr ∧ layerSep ∉ k.asStr) :
    WellNamed known (loc.pushAll ls) := by
  intro l hl
  rw [Locator.layers_pushAll] at hl
  rcases List.mem_append.mp hl with hl | hl
  · exact h l hl
  · exact hls l hl

/-- A locator that peels were pushed on is well named. -/
theorem WellNamed.peels (h : WellNamed known loc) (hs : Peels o creds s ls t) :
    WellNamed known (loc.pushAll ls) :=
  h.pushAll fun l hl k hk => by
    rw [hs.fsKind?_eq_none l hl] at hk
    cases hk

theorem WellNamed.storedAbove (h : WellNamed known loc)
    (hls : WellNamed known (loc.pushAll ls)) : StoredAbove known loc (loc.pushAll ls) :=
  ⟨fromUri_eq_ok.mpr hls.uriText,
    (h.toUri_prefix_iff hls).mpr (Locator.exists_pushAll_iff.mp ⟨ls, rfl⟩)⟩

end Stored

/-! ## Directory trees -/

/-- **The first opener that claims a directory decides**: its filesystem or its failure, and `none`
only where none claims it. -/
theorem openTree_eq (o : Openers) (root : Bytes) (creds : CredentialSource) :
    o.openTree root creds =
      match o.trees.find? fun t => (t.probe root).isCandidate with
      | none => .ok none
      | some t => (t.open root creds).map fun fs => some ⟨fs, .directory root⟩ := by
  unfold Openers.openTree
  induction o.trees with
  | nil => rfl
  | cons t trees ih =>
    rw [findSomeM?_cons_eq, List.find?_cons]
    cases hclaim : (t.probe root).isCandidate with
    | false =>
      rw [← ih]
      rfl
    | true =>
      dsimp only
      cases t.open root creds with
      | error e => rfl
      | ok fs => rfl

/-- The locator of a mounted directory is read back, whatever bytes its path has. -/
theorem openTree_stored {o : Openers} {root : Bytes} {creds : CredentialSource} {r : ResolvedTree}
    (h : o.openTree root creds = .ok (some r)) (known : List FsKind) :
    r.spec = .directory root ∧ Locator.fromUri known r.spec.toUri = .ok r.spec := by
  have hnamed : WellNamed known (.directory root) := by
    intro l hl k hk
    obtain rfl := List.mem_singleton.mp hl
    cases hk
  rw [openTree_eq] at h
  cases hfind : o.trees.find? fun t => (t.probe root).isCandidate with
  | none =>
    rw [hfind] at h
    cases h
  | some t =>
    rw [hfind] at h
    obtain ⟨fs, -, hfs⟩ := map_eq_ok.mp h
    obtain rfl := Option.some.inj hfs
    exact ⟨rfl, fromUri_eq_ok.mpr hnamed.uriText⟩

/-! ## What the resolver hands out -/

/-- What the resolver hands out for a source is stored above the locator it was given: the locators
of a source, of the filesystem mounted on it, of a snapshot of it, and of a raw source. They keep
the root, and grow by a layer a level at most. A mounted directory is stored as itself. -/
structure LocatorsStored (known : List FsKind) (o : Openers) (source : DynSource) (spec : Locator)
    (depth : Nat) (creds : CredentialSource) : Prop where
  opened : ∀ r, o.openWithCredentials source spec depth creds = .ok (some r) →
    StoredAbove known spec r.sourceSpec ∧ StoredAbove known r.sourceSpec r.spec ∧
      r.spec.base = spec.base ∧ depth + r.spec.depth ≤ spec.depth + (maxDepth + 1) ∧
      ∀ (Tag : Type) [EpochTag Tag] (xid : UInt64) (name : String) (created : UInt64),
        StoredAbove known r.sourceSpec
          (snapshotView r.sourceSpec xid name created : SnapshotView Tag).locator
  raw : ∀ r, o.resolveToSource source spec depth = .ok (some r) →
    StoredAbove known spec r.spec ∧ r.spec.base = spec.base ∧
      depth + r.spec.depth ≤ spec.depth + maxDepth
  tree : ∀ root r, o.openTree root creds = .ok (some r) →
    r.spec = .directory root ∧ Locator.fromUri known r.spec.toUri = .ok r.spec

/-- **Every locator the resolver hands out can be stored** as its URI and read back, with a table of
known kinds and a well-named locator to start from. -/
theorem resolved_locators_stored {known : List FsKind} {o : Openers} {spec : Locator}
    (hkinds : KindsKnown known o) (hspec : WellNamed known spec) (source : DynSource) (depth : Nat)
    (creds : CredentialSource) : LocatorsStored known o source spec depth creds := by
  refine ⟨?_, ?_, fun root r hr => openTree_stored hr known⟩
  · intro r hr
    rw [openWithCredentials_eq_search] at hr
    obtain ⟨k, m, hk, p, hfound⟩ := exists_path_of_search hr
    obtain ⟨ls, hlen, hs, hm⟩ := peels_of_path p
    obtain ⟨-, hsourceSpec, opener, hopener, w, -, -, -, hmount⟩ := mounted_of_descentItems hfound
    have hbelow : WellNamed known r.sourceSpec := by
      rw [hsourceSpec, hm]
      exact hspec.peels hs
    have hfs : WellNamed known (r.sourceSpec.pushAll [.fs opener.kind (.path [])]) := by
      refine hbelow.pushAll (List.forall_mem_singleton.mpr ?_)
      rintro k ⟨⟩
      exact hkinds opener hopener
    refine ⟨?_, ?_, ?_, ?_, fun Tag _ xid name created => ?_⟩
    · rw [hsourceSpec, hm]
      exact hspec.storedAbove (hspec.peels hs)
    · have hstored := hbelow.storedAbove hfs
      rw [hmount]
      exact hstored
    · rw [hmount, hsourceSpec, hm, Locator.base, Locator.base_pushAll]
    · have hdepth := add_length_le_maxDepth hk hlen
      rw [hmount, hsourceSpec, hm, Locator.depth, Locator.depth_pushAll]
      show depth + (1 + (spec.depth + ls.length)) ≤ _
      omega
    · have hsnapshot : WellNamed known (r.sourceSpec.pushAll [.snapshot (.apfsXid xid)]) := by
        refine hbelow.pushAll (List.forall_mem_singleton.mpr ?_)
        rintro k ⟨⟩
      have hstored := hbelow.storedAbove hsnapshot
      exact hstored
  · intro r hr
    rw [resolveToSource_eq_search] at hr
    obtain ⟨k, m, hk, p, hfound⟩ := exists_path_of_search hr
    obtain ⟨ls, hlen, hs, hm⟩ := peels_of_sourcePath creds p
    rw [eq_of_found_mem_sourceItems hfound, hm]
    refine ⟨hspec.storedAbove (hspec.peels hs), Locator.base_pushAll spec ls, ?_⟩
    have hdepth := add_length_le_maxDepth hk hlen
    rw [Locator.depth_pushAll]
    show depth + (spec.depth + ls.length) ≤ _
    omega

theorem resolved_locators_stored_zipped :
    LocatorsStored [⟨str "ntfs"⟩] zippedFs (memSource (str "PK")) (.file (str "/e|1.zip")) 0
      noCredentials :=
  resolved_locators_stored (by unfold KindsKnown; decide) (by decide) _ _ _

end ForensicVfs
