import ForensicVfs.Resolver.Doubles
import ForensicVfs.Verify.Descent.Tree

/-!
# The locator is a record of the descent

`Peel o creds s l t` says that a registered opener, a candidate on the window of `s`, made `t` out
of `s`, and that `l` names how. Every child a node offers is peeled off it under the layer its
locator gets, so along every path of the candidate tree locator and sources stay in step
(`peels_of_path`), and so they do in the resolved stack.
-/

namespace ForensicVfs

open Result OrderedSearch

/-- `t` is peeled off `s` by a candidate opener, as the layer says. -/
inductive Peel (o : Openers) (creds : CredentialSource) (s : DynSource) : Layer → DynSource → Prop
  | volume {v : VolumeSystemOpen} {w : SniffWindow} {vs : VolumeSystem} {i : Usize} {t : DynSource}
      (hv : v ∈ o.volumeSystems) (hw : sniffWindow s = .ok w) (hc : (v.probe w).isCandidate = true)
      (hvs : v.open s = .ok vs) (hi : i.toNat < vs.volumes.length) (ht : vs.openVolume i = .ok t) :
      Peel o creds s (.volume v.scheme i none) t
  | encryption {e : EncryptionOpen} {w : SniffWindow} {layer : EncryptionLayer} {t : DynSource}
      (he : e ∈ o.encryption) (hw : sniffWindow s = .ok w) (hc : (e.probe w).isCandidate = true)
      (hl : e.open s = .ok layer) (ht : layer.open creds = .ok t) :
      Peel o creds s (.encryption e.scheme) t
  | container {c : ContainerOpen} {w : SniffWindow} {t : DynSource} (hm : c ∈ o.containers)
      (hw : sniffWindow s = .ok w) (hc : (c.probe w).isCandidate = true) (ht : c.open s = .ok t) :
      Peel o creds s (.container c.format) t
  | stream {a : ArchiveOpen} {w : SniffWindow} {t : DynSource} (ha : a ∈ o.archives)
      (hw : sniffWindow s = .ok w) (hc : (a.probe w).isCandidate = true)
      (ht : a.open s = .ok (.stream t)) : Peel o creds s (.archive none) t
  | member {a : ArchiveOpen} {w : SniffWindow} {members : List Member} {hlen} {i : Usize}
      {m : Member} (ha : a ∈ o.archives) (hw : sniffWindow s = .ok w)
      (hc : (a.probe w).isCandidate = true) (hms : a.open s = .ok (.members members hlen))
      (hm : members[i.toNat]? = some m) : Peel o creds s (.archive (some i)) m.source

/-- A chain of peels, the outermost first. -/
inductive Peels (o : Openers) (creds : CredentialSource) : DynSource → List Layer → DynSource → Prop
  | nil (s : DynSource) : Peels o creds s [] s
  | cons {s t u : DynSource} {l : Layer} {ls : List Layer} (h : Peel o creds s l t)
      (hs : Peels o creds t ls u) : Peels o creds s (l :: ls) u

/-- The filesystem of `r` is what a candidate filesystem opener opened from its source. -/
def MountedBy (o : Openers) (r : Resolved) : Prop :=
  ∃ p ∈ o.filesystems, ∃ w, sniffWindow r.source = .ok w ∧ (p.probe w).isCandidate = true ∧
    p.open r.source = .ok r.fs ∧ r.spec = r.sourceSpec.push (.fs p.kind (.path []))

section Items

variable {o : Openers} {creds : CredentialSource} {w : SniffWindow} {n m : Node} {α T : Type}

theorem loud_eq_child {x : VfsResult α} {item : α → Item VfsError T Node} :
    loud x item = .child m ↔ ∃ a, x = .ok a ∧ item a = .child m := by
  cases x <;> simp [loud]

theorem loud_eq_found {x : VfsResult α} {item : α → Item VfsError T Node} {r : T} :
    loud x item = .found r ↔ ∃ a, x = .ok a ∧ item a = .found r := by
  cases x <;> simp [loud]

/-- `m` is one peel below `n`. -/
def PeelBelow (o : Openers) (creds : CredentialSource) (n m : Node) : Prop :=
  ∃ l, Peel o creds n.source l m.source ∧ m.spec = n.spec.push l

theorem peel_of_volumeItems (hw : sniffWindow n.source = .ok w)
    (h : (.child m : Item VfsError T Node) ∈ volumeItems o w n) : PeelBelow o creds n m := by
  obtain ⟨v, hv, hm⟩ := List.mem_flatMap.mp h
  obtain ⟨hv, hc⟩ := List.mem_filter.mp hv
  unfold volumesOf at hm
  cases hvs : v.open n.source with
  | error e => simp [hvs] at hm
  | ok vs =>
    rw [hvs] at hm
    obtain ⟨i, hi, hm⟩ := List.mem_map.mp hm
    obtain ⟨sub, hsub, hm⟩ := loud_eq_child.mp hm
    cases hm
    have hlt : i < vs.volumes.length := List.mem_range.mp hi
    have htoNat : (UInt64.ofNat i).toNat = i :=
      UInt64.toNat_ofNat_of_lt' (Nat.lt_trans hlt vs.length_volumes)
    exact ⟨_, .volume hv hw hc hvs (htoNat.symm ▸ hlt) hsub, rfl⟩

theorem peel_of_signatureItems (hw : sniffWindow n.source = .ok w)
    (h : (.child m : Item VfsError T Node) ∈ signatureItems o creds w n) :
    PeelBelow o creds n m := by
  obtain ⟨e, he, hm⟩ := List.mem_map.mp h
  obtain ⟨he, hyes⟩ := List.mem_filter.mp he
  obtain ⟨t, ht, hm⟩ := loud_eq_child.mp hm
  obtain ⟨layer, hl, ht⟩ := bind_eq_ok.mp ht
  cases hm
  have hc : (e.probe w).isCandidate = true := by
    cases hp : e.probe w <;> simp [hp] at hyes ⊢
  exact ⟨_, .encryption he hw hc hl ht, rfl⟩

theorem peel_of_containerItems (hw : sniffWindow n.source = .ok w)
    (h : (.child m : Item VfsError T Node) ∈ containerItems o w n) : PeelBelow o creds n m := by
  obtain ⟨c, hc, hm⟩ := List.mem_map.mp h
  obtain ⟨hc, hcand⟩ := List.mem_filter.mp hc
  obtain ⟨t, ht, hm⟩ := loud_eq_child.mp hm
  cases hm
  exact ⟨_, .container hc hw hcand ht, rfl⟩

theorem peel_of_archiveItems (hw : sniffWindow n.source = .ok w)
    (h : (.child m : Item VfsError T Node) ∈ archiveItems o w n) : PeelBelow o creds n m := by
  obtain ⟨a, ha, hm⟩ := List.mem_flatMap.mp h
  obtain ⟨ha, hc⟩ := List.mem_filter.mp ha
  unfold peelsOf at hm
  cases hopen : a.open n.source with
  | error e => simp [hopen] at hm
  | ok contents =>
    cases contents with
    | stream inner =>
      rw [hopen] at hm
      cases List.mem_singleton.mp hm
      exact ⟨_, .stream ha hw hc hopen, rfl⟩
    | members members hlen =>
      rw [hopen] at hm
      obtain ⟨p, hp, hm⟩ := List.mem_map.mp hm
      cases hm
      have hget : members[p.2]? = some p.1 := List.mem_zipIdx_iff_getElem?.mp hp
      have hlt : p.2 < members.length := (List.getElem?_eq_some_iff.mp hget).1
      have htoNat : (UInt64.ofNat p.2).toNat = p.2 :=
        UInt64.toNat_ofNat_of_lt' (Nat.lt_trans hlt hlen)
      exact ⟨_, .member ha hw hc hopen (htoNat.symm ▸ hget), rfl⟩

theorem peel_of_attemptItems (hw : sniffWindow n.source = .ok w)
    (h : (.child m : Item VfsError T Node) ∈ attemptItems o creds w n) :
    PeelBelow o creds n m := by
  obtain ⟨e, he, hm⟩ := List.mem_flatMap.mp h
  obtain ⟨he, hmaybe⟩ := List.mem_filter.mp he
  unfold attemptOf at hm
  cases hl : e.open n.source with
  | error err => simp [hl] at hm
  | ok layer =>
    cases ht : layer.open creds with
    | error err => simp [hl, ht] at hm
    | ok t =>
      simp only [hl, ht, List.mem_singleton] at hm
      cases hm
      have hc : (e.probe w).isCandidate = true := by rw [eq_of_beq hmaybe]; rfl
      exact ⟨_, .encryption he hw hc hl ht, rfl⟩

theorem peel_of_packagingItems (hw : sniffWindow n.source = .ok w)
    (h : (.child m : Item VfsError T Node) ∈ packagingItems o w n) : PeelBelow o creds n m := by
  rcases List.mem_append.mp h with h | h
  · exact peel_of_containerItems hw h
  · exact peel_of_archiveItems hw h

/-- The children a node offers are peeled off it. -/
theorem peel_of_descentItems (h : .child m ∈ descentItems o creds n) : PeelBelow o creds n m := by
  unfold descentItems at h
  cases hw : sniffWindow n.source with
  | error e => simp [hw] at h
  | ok w =>
    simp only [hw, List.mem_append] at h
    rcases h with (((h | h) | h) | h) | h
    · obtain ⟨p, -, hm⟩ := List.mem_map.mp h
      obtain ⟨fs, -, hm⟩ := loud_eq_child.mp hm
      cases hm
    · exact peel_of_volumeItems hw h
    · exact peel_of_signatureItems hw h
    · exact peel_of_packagingItems hw h
    · exact peel_of_attemptItems hw h

/-! ## Only the filesystem group mounts -/

theorem found_not_mem_volumeItems {r : T} : .found r ∉ volumeItems o w n := by
  intro h
  obtain ⟨v, -, h⟩ := List.mem_flatMap.mp h
  unfold volumesOf at h
  split at h
  · simp at h
  · obtain ⟨i, -, h⟩ := List.mem_map.mp h
    obtain ⟨sub, -, h⟩ := loud_eq_found.mp h
    cases h

theorem found_not_mem_signatureItems {r : T} : .found r ∉ signatureItems o creds w n := by
  intro h
  obtain ⟨e, -, h⟩ := List.mem_map.mp h
  obtain ⟨t, -, h⟩ := loud_eq_found.mp h
  cases h

theorem found_not_mem_packagingItems {r : T} : .found r ∉ packagingItems o w n := by
  intro h
  rcases List.mem_append.mp h with h | h
  · obtain ⟨c, -, h⟩ := List.mem_map.mp h
    obtain ⟨t, -, h⟩ := loud_eq_found.mp h
    cases h
  · obtain ⟨a, -, h⟩ := List.mem_flatMap.mp h
    unfold peelsOf at h
    split at h <;> simp at h

theorem found_not_mem_attemptItems {r : T} : .found r ∉ attemptItems o creds w n := by
  intro h
  obtain ⟨e, -, h⟩ := List.mem_flatMap.mp h
  unfold attemptOf at h
  split at h
  · simp at h
  · split at h <;> simp at h

/-- A mount a node offers is a candidate's, at the node's own source and locator. -/
theorem mounted_of_descentItems {r : Resolved} (h : .found r ∈ descentItems o creds n) :
    r.source = n.source ∧ r.sourceSpec = n.spec ∧ MountedBy o r := by
  unfold descentItems at h
  cases hw : sniffWindow n.source with
  | error e => simp [hw] at h
  | ok w =>
    simp only [hw, List.mem_append] at h
    rcases h with (((h | h) | h) | h) | h
    · obtain ⟨p, hp, hr⟩ := List.mem_map.mp h
      obtain ⟨hp, hc⟩ := List.mem_filter.mp hp
      obtain ⟨fs, hfs, hr⟩ := loud_eq_found.mp hr
      cases hr
      exact ⟨rfl, rfl, p, hp, w, hw, hc, hfs, rfl⟩
    · exact absurd h found_not_mem_volumeItems
    · exact absurd h found_not_mem_signatureItems
    · exact absurd h found_not_mem_packagingItems
    · exact absurd h found_not_mem_attemptItems

end Items

/-- **Locator and sources stay in step** along every path of the candidate tree. -/
theorem peels_of_path {o : Openers} {creds : CredentialSource} {n m : Node} {k : Nat}
    (p : Path (descentItems o creds) n k m) :
    ∃ ls, ls.length = k ∧ Peels o creds n.source ls m.source ∧ m.spec = n.spec.pushAll ls := by
  induction p with
  | refl n => exact ⟨[], rfl, .nil n.source, rfl⟩
  | @step n m m' k h _ ih =>
    obtain ⟨l, hl, hspec⟩ := peel_of_descentItems h
    obtain ⟨ls, hlen, hs, hspec'⟩ := ih
    refine ⟨l :: ls, by rw [List.length_cons, hlen], .cons hl hs, ?_⟩
    rw [hspec', hspec, Locator.pushAll_cons]

/-- **The returned locator is a true record of the descent.** -/
theorem openWithCredentials_record {o : Openers} {source : DynSource} {spec : Locator}
    {depth : Nat} {creds : CredentialSource} {r : Resolved}
    (h : o.openWithCredentials source spec depth creds = .ok (some r)) :
    ∃ ls, depth + ls.length ≤ maxDepth ∧ r.sourceSpec = spec.pushAll ls ∧
      Peels o creds source ls r.source ∧ MountedBy o r := by
  rw [openWithCredentials_eq_search] at h
  obtain ⟨k, m, hk, p, hr⟩ := exists_path_of_search h
  obtain ⟨ls, hlen, hs, hspec⟩ := peels_of_path p
  obtain ⟨hsource, hsourceSpec, hmount⟩ := mounted_of_descentItems hr
  refine ⟨ls, ?_, ?_, ?_, hmount⟩
  · rw [hlen]
    unfold levels at hk
    omega
  · rw [hsourceSpec, hspec]
  · rwa [hsource]

/-- A volume of a two-volume image, found after the first volume gave nothing. -/
theorem openWithCredentials_record_volume :
    let fs := memSource (str "FSFS")
    let o : Openers :=
      { volumeSystems := [fakeVsProbe (str "GPT!") [memSource (str "data"), fs] (by decide)]
        filesystems := [fakeFsProbe (str "FSFS")] }
    let base := Locator.root (.range 0 4)
    let top := base.push (.volume .gpt 1 none)
    let r : Resolved :=
      ⟨emptyFs, top.push (.fs ⟨str "ntfs"⟩ (.path [])), fs, top⟩
    ∃ ls, 0 + ls.length ≤ maxDepth ∧ r.sourceSpec = base.pushAll ls ∧
      Peels o noCredentials (memSource (str "GPT!")) ls r.source ∧ MountedBy o r :=
  openWithCredentials_record (by rfl)

end ForensicVfs
