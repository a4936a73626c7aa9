import ForensicVfs.Verify.Descent.Source
import ForensicVfs.Verify.Descent.Identity

/-!
# Failures and clean unknowns

`Failure o creds s e` lists what can go wrong at a source with the error `e`: the sniff reads, the
opening of a candidate, of a volume or of a decrypted layer. A failed decrypt of a scheme that
answered `maybe` is not among them. Every error of the disk descent is such a failure of a source it
reached (`open_error_genuine`), and it reports a clean unknown exactly when every source within the
cap is free of failures and claimed by no filesystem (`open_none_iff`).
-/

namespace ForensicVfs

open Result OrderedSearch

/-- What goes wrong at a source with the error `e`. -/
inductive Failure (o : Openers) (creds : CredentialSource) (s : DynSource) : VfsError → Prop
  | sniff {e : VfsError} (hw : sniffWindow s = .error e) : Failure o creds s e
  | mount {p : FileSystemOpen} {w : SniffWindow} {e : VfsError} (hp : p ∈ o.filesystems)
      (hw : sniffWindow s = .ok w) (hc : (p.probe w).isCandidate = true)
      (he : p.open s = .error e) : Failure o creds s e
  | volumeSystem {v : VolumeSystemOpen} {w : SniffWindow} {e : VfsError} (hv : v ∈ o.volumeSystems)
      (hw : sniffWindow s = .ok w) (hc : (v.probe w).isCandidate = true)
      (he : v.open s = .error e) : Failure o creds s e
  | volume {v : VolumeSystemOpen} {w : SniffWindow} {vs : VolumeSystem} {i : Usize} {e : VfsError}
      (hv : v ∈ o.volumeSystems) (hw : sniffWindow s = .ok w)
      (hc : (v.probe w).isCandidate = true) (hvs : v.open s = .ok vs)
      (hi : i.toNat < vs.volumes.length) (he : vs.openVolume i = .error e) : Failure o creds s e
  | layer {enc : EncryptionOpen} {w : SniffWindow} {e : VfsError} (hm : enc ∈ o.encryption)
      (hw : sniffWindow s = .ok w) (hc : (enc.probe w).isCandidate = true)
      (he : enc.open s = .error e) : Failure o creds s e
  | decrypt {enc : EncryptionOpen} {w : SniffWindow} {layer : EncryptionLayer} {e : VfsError}
      (hm : enc ∈ o.encryption) (hw : sniffWindow s = .ok w) (hyes : (enc.probe w).isYes = true)
      (hl : enc.open s = .ok layer) (he : layer.open creds = .error e) : Failure o creds s e
  | container {c : ContainerOpen} {w : SniffWindow} {e : VfsError} (hm : c ∈ o.containers)
      (hw : sniffWindow s = .ok w) (hc : (c.probe w).isCandidate = true)
      (he : c.open s = .error e) : Failure o creds s e
  | archive {a : ArchiveOpen} {w : SniffWindow} {e : VfsError} (hm : a ∈ o.archives)
      (hw : sniffWindow s = .ok w) (hc : (a.probe w).isCandidate = true)
      (he : a.open s = .error e) : Failure o creds s e

/-! ## What a node fails with -/

section Items

variable {o : Openers} {creds : CredentialSource} {w : SniffWindow} {n m : Node} {e : VfsError}
  {α T : Type}

theorem loud_eq_fail {x : VfsResult α} {item : α → Item VfsError T Node} :
    loud x item = .fail e ↔ x = .error e ∨ ∃ a, x = .ok a ∧ item a = .fail e := by
  cases x <;> simp [loud]

theorem isCandidate_of_isYes {v : Confidence} (h : v.isYes = true) : v.isCandidate = true := by
  cases v with
  | no => exact nomatch h
  | maybe => rfl
  | yes how => rfl

theorem failure_of_mountItems (hw : sniffWindow n.source = .ok w)
    (h : .fail e ∈ mountItems o w n) : Failure o creds n.source e := by
  obtain ⟨p, hp, he⟩ := List.mem_map.mp h
  obtain ⟨hp, hc⟩ := List.mem_filter.mp hp
  rcases loud_eq_fail.mp he with he | ⟨fs, -, he⟩
  · exact .mount hp hw hc he
  · exact nomatch he

theorem failure_of_volumeItems (hw : sniffWindow n.source = .ok w)
    (h : (.fail e : Item VfsError T Node) ∈ volumeItems o w n) : Failure o creds n.source e := by
  obtain ⟨v, hv, he⟩ := List.mem_flatMap.mp h
  obtain ⟨hv, hc⟩ := List.mem_filter.mp hv
  unfold volumesOf at he
  cases hvs : v.open n.source with
  | error err =>
    rw [hvs] at he
    cases List.mem_singleton.mp he
    exact .volumeSystem hv hw hc hvs
  | ok vs =>
    rw [hvs] at he
    obtain ⟨i, hi, he⟩ := List.mem_map.mp he
    rcases loud_eq_fail.mp he with he | ⟨sub, -, he⟩
    · have hlt : i < vs.volumes.length := List.mem_range.mp hi
      have htoNat : (UInt64.ofNat i).toNat = i :=
        UInt64.toNat_ofNat_of_lt' (Nat.lt_trans hlt vs.length_volumes)
      exact .volume hv hw hc hvs (htoNat.symm ▸ hlt) he
    · exact nomatch he

theorem failure_of_signatureItems (hw : sniffWindow n.source = .ok w)
    (h : (.fail e : Item VfsError T Node) ∈ signatureItems o creds w n) :
    Failure o creds n.source e := by
  obtain ⟨enc, henc, he⟩ := List.mem_map.mp h
  obtain ⟨hm, hyes⟩ := List.mem_filter.mp henc
  rcases loud_eq_fail.mp he with he | ⟨t, -, he⟩
  · cases hl : enc.open n.source with
    | error err =>
      rw [hl] at he
      cases he
      exact .layer hm hw (isCandidate_of_isYes hyes) hl
    | ok layer =>
      rw [hl, ok_bind] at he
      exact .decrypt hm hw hyes hl he
  · exact nomatch he

theorem failure_of_packagingItems (hw : sniffWindow n.source = .ok w)
    (h : (.fail e : Item VfsError T Node) ∈ packagingItems o w n) :
    Failure o creds n.source e := by
  rcases List.mem_append.mp h with h | h
  · obtain ⟨c, hc, he⟩ := List.mem_map.mp h
    obtain ⟨hm, hc⟩ := List.mem_filter.mp hc
    rcases loud_eq_fail.mp he with he | ⟨t, -, he⟩
    · exact .container hm hw hc he
    · exact nomatch he
  · obtain ⟨a, ha, he⟩ := List.mem_flatMap.mp h
    obtain ⟨hm, hc⟩ := List.mem_filter.mp ha
    unfold peelsOf at he
    cases hopen : a.open n.source with
    | error err =>
      rw [hopen] at he
      cases List.mem_singleton.mp he
      exact .archive hm hw hc hopen
    | ok contents =>
      rw [hopen] at he
      cases contents with
      | stream inner => exact nomatch List.mem_singleton.mp he
      | members members hlen =>
        obtain ⟨p, -, he⟩ := List.mem_map.mp he
        exact nomatch he

theorem failure_of_attemptItems (hw : sniffWindow n.source = .ok w)
    (h : (.fail e : Item VfsError T Node) ∈ attemptItems o creds w n) :
    Failure o creds n.source e := by
  obtain ⟨enc, henc, he⟩ := List.mem_flatMap.mp h
  obtain ⟨hm, hmaybe⟩ := List.mem_filter.mp henc
  have hc : (enc.probe w).isCandidate = true := by
    rw [eq_of_beq hmaybe]
    rfl
  unfold attemptOf at he
  cases hl : enc.open n.source with
  | error err =>
    rw [hl] at he
    cases List.mem_singleton.mp he
    exact .layer hm hw hc hl
  | ok layer =>
    cases ht : layer.open creds with
    | error err => simp [hl, ht] at he
    | ok t => simp [hl, ht] at he

theorem failure_of_descentItems (h : .fail e ∈ descentItems o creds n) :
    Failure o creds n.source e := by
  unfold descentItems at h
  cases hw : sniffWindow n.source with
  | error err =>
    rw [hw] at h
    cases List.mem_singleton.mp h
    exact .sniff hw
  | ok w =>
    simp only [hw, List.mem_append] at h
    rcases h with (((h | h) | h) | h) | h
    · exact failure_of_mountItems hw h
    · exact failure_of_volumeItems hw h
    · exact failure_of_signatureItems hw h
    · exact failure_of_packagingItems hw h
    · exact failure_of_attemptItems hw h

variable (creds) in
/-- A failing layer fails in the signature pass, or in the last resort, by its verdict. -/
theorem fail_of_layer {enc : EncryptionOpen} (hm : enc ∈ o.encryption)
    (hc : (enc.probe w).isCandidate = true) (he : enc.open n.source = .error e) :
    (.fail e : Item VfsError T Node) ∈ signatureItems o creds w n ∨
      (.fail e : Item VfsError T Node) ∈ attemptItems o creds w n := by
  cases hverdict : enc.probe w with
  | no =>
    rw [hverdict] at hc
    cases hc
  | maybe =>
    refine .inr (List.mem_flatMap.mpr ⟨enc, List.mem_filter.mpr ⟨hm, by rw [hverdict]; rfl⟩, ?_⟩)
    unfold attemptOf
    rw [he]
    exact List.mem_singleton.mpr rfl
  | yes how =>
    refine .inl (List.mem_map.mpr ⟨enc, List.mem_filter.mpr ⟨hm, by rw [hverdict]; rfl⟩, ?_⟩)
    unfold decryptItem
    rw [he]
    rfl

theorem fail_of_failure (h : Failure o creds n.source e) : .fail e ∈ descentItems o creds n := by
  cases h with
  | sniff hw =>
    unfold descentItems
    rw [hw]
    exact List.mem_singleton.mpr rfl
  | mount hp hw hc he =>
    unfold descentItems
    rw [hw]
    simp only [List.mem_append]
    refine .inl (.inl (.inl (.inl (List.mem_map.mpr ⟨_, List.mem_filter.mpr ⟨hp, hc⟩, ?_⟩))))
    rw [he]
    rfl
  | volumeSystem hv hw hc he =>
    unfold descentItems
    rw [hw]
    simp only [List.mem_append]
    refine .inl (.inl (.inl (.inr (List.mem_flatMap.mpr ⟨_, List.mem_filter.mpr ⟨hv, hc⟩, ?_⟩))))
    unfold volumesOf
    rw [he]
    exact List.mem_singleton.mpr rfl
  | @volume v w vs i e hv hw hc hvs hi he =>
    unfold descentItems
    rw [hw]
    simp only [List.mem_append]
    refine .inl (.inl (.inl (.inr (List.mem_flatMap.mpr ⟨_, List.mem_filter.mpr ⟨hv, hc⟩, ?_⟩))))
    unfold volumesOf
    rw [hvs]
    refine List.mem_map.mpr ⟨i.toNat, List.mem_range.mpr hi, ?_⟩
    rw [UInt64.ofNat_toNat, he]
    rfl
  | layer hm hw hc he =>
    unfold descentItems
    rw [hw]
    simp only [List.mem_append]
    rcases fail_of_layer creds hm hc he with h | h
    · exact .inl (.inl (.inr h))
    · exact .inr h
  | @decrypt enc w layer e hm hw hyes hl he =>
    unfold descentItems
    rw [hw]
    simp only [List.mem_append]
    refine .inl (.inl (.inr (List.mem_map.mpr ⟨enc, List.mem_filter.mpr ⟨hm, hyes⟩, ?_⟩)))
    unfold decryptItem
    rw [hl, ok_bind, he]
    rfl
  | container hm hw hc he =>
    unfold descentItems packagingItems
    rw [hw]
    simp only [List.mem_append]
    refine .inl (.inr (.inl (List.mem_map.mpr ⟨_, List.mem_filter.mpr ⟨hm, hc⟩, ?_⟩)))
    rw [he]
    rfl
  | archive hm hw hc he =>
    unfold descentItems packagingItems
    rw [hw]
    simp only [List.mem_append]
    refine .inl (.inr (.inr (List.mem_flatMap.mpr ⟨_, List.mem_filter.mpr ⟨hm, hc⟩, ?_⟩)))
    exact fail_mem_peelsOf.mpr he

/-- **A node fails with what goes wrong at its source**, and with nothing else. -/
theorem fail_mem_descentItems :
    .fail e ∈ descentItems o creds n ↔ Failure o creds n.source e :=
  ⟨failure_of_descentItems, fail_of_failure⟩

/-! ## What a node mounts -/

/-- Some filesystem opener that is a candidate on the source opens it. -/
def Mounts (o : Openers) (s : DynSource) : Prop :=
  ∃ w, sniffWindow s = .ok w ∧ ∃ p ∈ o.filesystems, (p.probe w).isCandidate = true ∧
    ∃ fs, p.open s = .ok fs

theorem found_mem_descentItems : (∃ r, .found r ∈ descentItems o creds n) ↔ Mounts o n.source := by
  constructor
  · intro ⟨r, hr⟩
    obtain ⟨hsource, -, p, hp, w, hw, hc, hfs, -⟩ := mounted_of_descentItems hr
    rw [hsource] at hw hfs
    exact ⟨w, hw, p, hp, hc, r.fs, hfs⟩
  · intro ⟨w, hw, p, hp, hc, fs, hfs⟩
    refine ⟨⟨fs, n.spec.push (.fs p.kind (.path [])), n.source, n.spec⟩, ?_⟩
    unfold descentItems
    rw [hw]
    simp only [List.mem_append]
    refine .inl (.inl (.inl (.inl (List.mem_map.mpr ⟨p, List.mem_filter.mpr ⟨hp, hc⟩, ?_⟩))))
    rw [hfs]
    rfl

end Items

/-! ## The answers -/

section Answers

variable {o : Openers} {creds : CredentialSource} {source s : DynSource} {spec : Locator}
  {depth : Nat}

/-- A chain of peels is a path of the candidate tree. -/
theorem path_of_peels {ls : List Layer} (h : Peels o creds source ls s) (spec : Locator) :
    Path (descentItems o creds) ⟨source, spec⟩ ls.length ⟨s, spec.pushAll ls⟩ := by
  induction h generalizing spec with
  | nil s => exact .refl _
  | @cons s t u l ls h _ ih => exact .step (child_of_peel (n := ⟨s, spec⟩) h) (ih (spec.push l))

end Answers

/-- **Every error is genuine**: it went wrong at a source that a chain of peels within the cap leads
to. -/
theorem open_error_genuine {o : Openers} {source : DynSource} {spec : Locator} {depth : Nat}
    {creds : CredentialSource} {e : VfsError}
    (h : o.openWithCredentials source spec depth creds = .error e) :
    ∃ ls s, depth + ls.length ≤ maxDepth ∧ Peels o creds source ls s ∧ Failure o creds s e := by
  rw [openWithCredentials_eq_search, search_eq_outcome, outcome_eq_error] at h
  obtain ⟨k, m, hk, p, hfail⟩ := exists_path_of_mem_events (List.mem_of_head? h)
  obtain ⟨ls, hlen, hs, -⟩ := peels_of_path p
  exact ⟨ls, m.source, add_length_le_maxDepth hk hlen, hs, fail_mem_descentItems.mp hfail⟩

/-- A volume that a filesystem opener claims and fails to mount. -/
def brokenMount : Openers where
  volumeSystems := [fakeVsProbe (str "GPT!") [memSource (str "boot"), memSource (str "FSFS")]
    (by decide)]
  filesystems := [{ fakeFsProbe (str "FSFS") with «open» := fun _ => .error (.unsupported
    "fake" "feature") }]

theorem open_error_genuine_brokenMount :
    ∃ ls s, 0 + ls.length ≤ maxDepth ∧
      Peels brokenMount noCredentials (memSource (str "GPT!")) ls s ∧
      Failure brokenMount noCredentials s (.unsupported "fake" "feature") :=
  @open_error_genuine brokenMount _ (.root (.range 0 4)) 0 _ _ (by rfl)

/-- **A clean unknown means nothing was there to find**: no source that a chain of peels within the
cap leads to fails in any way, and none of them is mounted. -/
theorem open_none_iff (o : Openers) (source : DynSource) (spec : Locator) (depth : Nat)
    (creds : CredentialSource) :
    o.openWithCredentials source spec depth creds = .ok none ↔
      ∀ ls s, depth + ls.length ≤ maxDepth → Peels o creds source ls s →
        ¬Mounts o s ∧ ∀ e, ¬Failure o creds s e := by
  rw [openWithCredentials_eq_search, search_eq_outcome, outcome_eq_none, events_eq_nil_iff]
  constructor
  · intro h ls s hcap hs
    have hlevel : ls.length < levels depth := by
      unfold levels
      omega
    have hno := h _ _ hlevel (path_of_peels hs spec)
    constructor
    · intro hmounts
      obtain ⟨r, hr⟩ := (found_mem_descentItems (n := ⟨s, spec.pushAll ls⟩)).mpr hmounts
      exact hno (.ok r) hr
    · intro e he
      exact hno (.error e) (fail_mem_descentItems.mpr he)
  · intro h k m hk p ev hev
    obtain ⟨ls, hlen, hs, -⟩ := peels_of_path p
    have hcap := add_length_le_maxDepth hk hlen
    obtain ⟨hmounts, hfail⟩ := h ls m.source hcap hs
    cases ev with
    | ok r => exact hmounts (found_mem_descentItems.mp ⟨r, hev⟩)
    | error e => exact hfail e (fail_mem_descentItems.mp hev)

end ForensicVfs
