import ForensicVfs.Verify.Descent.Source

/-!
# More openers and more keys

An opener that is registered on top of a table, wherever it goes, adds decisive events to a source's
candidate tree and takes none away; so a source that was no clean unknown does not become one
(`openers_only_add`). Credentials that unlock more take away failures, but no filesystem
(`credentials_only_add`). What either may change is which event comes first.
-/

namespace ForensicVfs

open Result OrderedSearch

/-- The openers of `o` are all registered in `o'`, in their order. -/
structure Openers.Within (o o' : Openers) : Prop where
  containers : o.containers.Sublist o'.containers
  volumeSystems : o.volumeSystems.Sublist o'.volumeSystems
  encryption : o.encryption.Sublist o'.encryption
  filesystems : o.filesystems.Sublist o'.filesystems
  archives : o.archives.Sublist o'.archives

/-- Every layer over a source that opens under `creds` opens under `creds'`, to the same plaintext.
-/
def Unlocks (o : Openers) (creds creds' : CredentialSource) : Prop :=
  ∀ e ∈ o.encryption, ∀ s layer t, e.open s = .ok layer → layer.open creds = .ok t →
    layer.open creds' = .ok t

/-! ## Openers -/

section Openers

variable {o o' : Openers} {creds : CredentialSource} {T : Type}

theorem packagingItems_sublist (h : o.Within o') (w : SniffWindow) (n : Node) :
    (packagingItems o w n : List (Item VfsError T Node)).Sublist (packagingItems o' w n) := by
  unfold packagingItems containerItems archiveItems
  exact ((h.containers.filter _).map _).append ((h.archives.filter _).flatMap _)

theorem descentItems_sublist (h : o.Within o') (n : Node) :
    (descentItems o creds n).Sublist (descentItems o' creds n) := by
  unfold descentItems
  cases sniffWindow n.source with
  | error e => exact List.Sublist.refl _
  | ok w =>
    have hmount : (mountItems o w n).Sublist (mountItems o' w n) :=
      (h.filesystems.filter _).map _
    have hvolume : (volumeItems o w n : List (Item VfsError Resolved Node)).Sublist
        (volumeItems o' w n) := (h.volumeSystems.filter _).flatMap _
    have hsignature : (signatureItems o creds w n : List (Item VfsError Resolved Node)).Sublist
        (signatureItems o' creds w n) := (h.encryption.filter _).map _
    have hattempt : (attemptItems o creds w n : List (Item VfsError Resolved Node)).Sublist
        (attemptItems o' creds w n) := (h.encryption.filter _).flatMap _
    exact (((hmount.append hvolume).append hsignature).append (packagingItems_sublist h w n)).append
      hattempt

end Openers

/-- **Registering openers takes no event away**, and makes no clean unknown. -/
theorem openers_only_add {o o' : Openers} (h : o.Within o') (source : DynSource) (spec : Locator)
    (depth : Nat) (creds : CredentialSource) :
    (candidateEvents o source spec depth creds).Sublist
        (candidateEvents o' source spec depth creds) ∧
      (o'.openWithCredentials source spec depth creds = .ok none →
        o.openWithCredentials source spec depth creds = .ok none) := by
  have hsub : (candidateEvents o source spec depth creds).Sublist
      (candidateEvents o' source spec depth creds) :=
    events_sublist_of_items (descentItems_sublist h) _ _
  refine ⟨hsub, fun hnone => ?_⟩
  rw [openWithCredentials_eq_outcome, outcome_eq_none] at hnone ⊢
  rw [hnone] at hsub
  exact List.sublist_nil.mp hsub

/-- An archive over a filesystem, and one more filesystem registered before that. -/
def extendedFs : Openers :=
  { zippedFs with filesystems := fakeFsProbe (str "EXT") :: zippedFs.filesystems }

theorem within_extendedFs : zippedFs.Within extendedFs :=
  ⟨.refl _, .refl _, .refl _, List.sublist_cons_self _ _, .refl _⟩

theorem openers_only_add_extendedFs :
    (candidateEvents zippedFs (memSource (str "PK")) (.root (.range 0 2)) 0 noCredentials).Sublist
        (candidateEvents extendedFs (memSource (str "PK")) (.root (.range 0 2)) 0 noCredentials) ∧
      (extendedFs.openWithCredentials (memSource (str "PK")) (.root (.range 0 2)) 0 noCredentials =
          .ok none →
        zippedFs.openWithCredentials (memSource (str "PK")) (.root (.range 0 2)) 0 noCredentials =
          .ok none) :=
  openers_only_add within_extendedFs (memSource (str "PK")) (.root (.range 0 2)) 0 noCredentials

/-! ## Credentials -/

section Credentials

variable {o : Openers} {creds creds' : CredentialSource} {w : SniffWindow} {n : Node} {T : Type}

theorem flatMap_quiet {α : Type} {l : List α} {f g : α → List (Item VfsError T Node)}
    (h : ∀ a ∈ l, ((f a).filter Item.quiet).Sublist (g a)) :
    ((l.flatMap f).filter Item.quiet).Sublist (l.flatMap g) := by
  rw [List.filter_flatMap]
  exact List.Sublist.flatMap_right l h

theorem signatureItems_quiet (h : Unlocks o creds creds') :
    ((signatureItems o creds w n : List (Item VfsError T Node)).filter Item.quiet).Sublist
      (signatureItems o creds' w n) := by
  unfold signatureItems
  rw [List.map_eq_flatMap, List.map_eq_flatMap]
  refine flatMap_quiet fun e he => ?_
  have hmem : e ∈ o.encryption := (List.mem_filter.mp he).1
  unfold decryptItem
  cases hlayer : e.open n.source with
  | error err => exact List.nil_sublist _
  | ok layer =>
    rw [ok_bind, ok_bind]
    cases hopen : layer.open creds with
    | error err => exact List.nil_sublist _
    | ok t =>
      rw [h e hmem n.source layer t hlayer hopen]
      exact List.filter_sublist

theorem attemptItems_quiet (h : Unlocks o creds creds') :
    ((attemptItems o creds w n : List (Item VfsError T Node)).filter Item.quiet).Sublist
      (attemptItems o creds' w n) := by
  unfold attemptItems
  refine flatMap_quiet fun e he => ?_
  have hmem : e ∈ o.encryption := (List.mem_filter.mp he).1
  unfold attemptOf
  cases hlayer : e.open n.source with
  | error err => exact List.nil_sublist _
  | ok layer =>
    dsimp only
    cases hopen : layer.open creds with
    | error err => exact List.nil_sublist _
    | ok t =>
      rw [h e hmem n.source layer t hlayer hopen]
      exact List.filter_sublist

theorem descentItems_quiet (h : Unlocks o creds creds') (n : Node) :
    ((descentItems o creds n).filter Item.quiet).Sublist (descentItems o creds' n) := by
  unfold descentItems
  cases sniffWindow n.source with
  | error e => exact List.filter_sublist
  | ok w =>
    simp only [List.filter_append]
    exact (((List.filter_sublist.append List.filter_sublist).append
      (signatureItems_quiet h)).append List.filter_sublist).append (attemptItems_quiet h)

end Credentials

/-- **Credentials that unlock more lose no filesystem**: what mounted under the old ones still does,
in its order, and a source that resolved is no clean unknown. -/
theorem credentials_only_add {o : Openers} {creds creds' : CredentialSource}
    (h : Unlocks o creds creds') (source : DynSource) (spec : Locator) (depth : Nat) :
    (results (candidateEvents o source spec depth creds)).Sublist
        (results (candidateEvents o source spec depth creds')) ∧
      ∀ r, o.openWithCredentials source spec depth creds = .ok (some r) →
        o.openWithCredentials source spec depth creds' ≠ .ok none := by
  have hsub : (results (candidateEvents o source spec depth creds)).Sublist
      (results (candidateEvents o source spec depth creds')) :=
    results_sublist_of_items (descentItems_quiet h) _ _
  refine ⟨hsub, fun r hr => ?_⟩
  rw [openWithCredentials_eq_search, search_eq_outcome] at hr ⊢
  apply outcome_ne_none_of_results
  intro hnil
  have hempty := hsub
  rw [candidateEvents, candidateEvents, hnil, List.sublist_nil] at hempty
  exact results_ne_nil_of_outcome hr hempty

/-- The credential source that offers some passwords. -/
def passwords (texts : List String) : CredentialSource := ⟨fun _ _ => texts.map .password⟩

/-- An encrypted filesystem that opens with one password. -/
def lockedFs : Openers where
  encryption := [fakeAttempt fun _ => .ok
    { scheme := .veraCrypt
      «open» := fun creds =>
        if .password "key" ∈ creds.credentialsFor .veraCrypt "" then .ok (memSource (str "FSFS"))
        else .error (.needCredentials "veracrypt" "volume") }]
  filesystems := [fakeFsProbe (str "FSFS")]

theorem unlocks_lockedFs :
    Unlocks lockedFs (passwords ["key"]) (passwords ["guess", "key"]) := by
  intro e he s layer t hlayer hopen
  obtain rfl := List.mem_singleton.mp he
  cases hlayer
  exact hopen

theorem credentials_only_add_lockedFs :
    let volume := memSource (str "??")
    let spec := Locator.root (.range 0 2)
    (results (candidateEvents lockedFs volume spec 0 (passwords ["key"]))).Sublist
        (results (candidateEvents lockedFs volume spec 0 (passwords ["guess", "key"]))) ∧
      ∀ r, lockedFs.openWithCredentials volume spec 0 (passwords ["key"]) = .ok (some r) →
        lockedFs.openWithCredentials volume spec 0 (passwords ["guess", "key"]) ≠ .ok none :=
  credentials_only_add unlocks_lockedFs _ _ _

end ForensicVfs
