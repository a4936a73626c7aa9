import ForensicVfs.Verify.Descent.Record

/-!
# The raw-source terminal

Every node of the packaging peel has an answer of its own: itself. So the peel follows the first
child of each source (`resolveToSource_eq_last`) until a source offers none, or the depth cap leaves
no level for it, and hands that source back unless one of its claimants fails. A source with a claim
on it is handed back in two cases, which `resolveToSource_unwrapped_iff` shows to be all: every
claimant is an archive without members, or the cap is reached. Along sources that only packaging
openers claim, the disk descent follows the same children (`open_agrees_with_source`).
-/

namespace ForensicVfs

open Result OrderedSearch

/-! ## Claims on a source -/

/-- A container or archive opener is a candidate on the window of the source. -/
def Claimed (o : Openers) (s : DynSource) : Prop :=
  ∃ w, sniffWindow s = .ok w ∧ ((∃ c ∈ o.containers, (c.probe w).isCandidate = true) ∨
    ∃ a ∈ o.archives, (a.probe w).isCandidate = true)

/-- The only claimants of the source are archives, each of which opens to no members. -/
def Hollow (o : Openers) (s : DynSource) : Prop :=
  ∃ w, sniffWindow s = .ok w ∧ (∀ c ∈ o.containers, ¬(c.probe w).isCandidate = true) ∧
    ∀ a ∈ o.archives, (a.probe w).isCandidate = true → ∃ h, a.open s = .ok (.members [] h)

/-- Every claimant of the source opens it. -/
def OpensClean (o : Openers) (s : DynSource) : Prop :=
  ∃ w, sniffWindow s = .ok w ∧
    (∀ c ∈ o.containers, (c.probe w).isCandidate = true → ∃ t, c.open s = .ok t) ∧
    ∀ a ∈ o.archives, (a.probe w).isCandidate = true → ∃ t, a.open s = .ok t

section Items

variable {o : Openers} {w : SniffWindow} {n : Node} {T : Type}

theorem peelsOf_eq_nil {a : ArchiveOpen} :
    (peelsOf n a : List (Item VfsError T Node)) = [] ↔
      ∃ h, a.open n.source = .ok (.members [] h) := by
  unfold peelsOf
  cases a.open n.source with
  | error e => simp
  | ok contents =>
    cases contents with
    | stream inner => simp
    | members members h => cases members <;> simp

theorem fail_mem_peelsOf {a : ArchiveOpen} {e : VfsError} :
    (.fail e : Item VfsError T Node) ∈ peelsOf n a ↔ a.open n.source = .error e := by
  unfold peelsOf
  cases a.open n.source with
  | error e' => simp [eq_comm]
  | ok contents => cases contents <;> simp

theorem packagingItems_eq_nil :
    (packagingItems o w n : List (Item VfsError T Node)) = [] ↔
      (∀ c ∈ o.containers, ¬(c.probe w).isCandidate = true) ∧
        ∀ a ∈ o.archives, (a.probe w).isCandidate = true →
          ∃ h, a.open n.source = .ok (.members [] h) := by
  unfold packagingItems containerItems archiveItems
  rw [List.append_eq_nil_iff, List.map_eq_nil_iff, List.filter_eq_nil_iff,
    List.flatMap_eq_nil_iff]
  apply and_congr_right
  intro _
  simp only [List.mem_filter, peelsOf_eq_nil, and_imp]

theorem fail_not_mem_packagingItems (hw : sniffWindow n.source = .ok w) :
    (∀ e, (.fail e : Item VfsError T Node) ∉ packagingItems o w n) ↔ OpensClean o n.source := by
  unfold OpensClean
  constructor
  · intro h
    refine ⟨w, hw, fun c hc hcand => ?_, fun a ha hcand => ?_⟩
    · cases hopen : c.open n.source with
      | ok t => exact ⟨t, rfl⟩
      | error e =>
        refine absurd (List.mem_append_left _ ?_) (h e)
        refine List.mem_map.mpr ⟨c, List.mem_filter.mpr ⟨hc, hcand⟩, ?_⟩
        rw [hopen]
        rfl
    · cases hopen : a.open n.source with
      | ok t => exact ⟨t, rfl⟩
      | error e =>
        refine absurd (List.mem_append_right _ ?_) (h e)
        exact List.mem_flatMap.mpr ⟨a, List.mem_filter.mpr ⟨ha, hcand⟩, fail_mem_peelsOf.mpr hopen⟩
  · intro ⟨w', hw', hcs, has⟩ e he
    obtain rfl : w = w' := Except.ok.inj (hw.symm.trans hw')
    rcases List.mem_append.mp he with he | he
    · obtain ⟨c, hc, he⟩ := List.mem_map.mp he
      obtain ⟨hc, hcand⟩ := List.mem_filter.mp hc
      obtain ⟨t, ht⟩ := hcs c hc hcand
      rw [ht] at he
      cases he
    · obtain ⟨a, ha, he⟩ := List.mem_flatMap.mp he
      obtain ⟨ha, hcand⟩ := List.mem_filter.mp ha
      obtain ⟨t, ht⟩ := has a ha hcand
      rw [fail_mem_peelsOf.mp he] at ht
      cases ht

end Items

/-! ## The peel follows the first children -/

section Peel

variable {o : Openers} {n m : Node}

theorem sourceItems_eq {w : SniffWindow} (hw : sniffWindow n.source = .ok w) :
    sourceItems o n = packagingItems o w n ++ [.found ⟨n.source, n.spec⟩] := by
  unfold sourceItems
  rw [hw]

/-- Alone, a node answers itself unless a claimant fails. -/
theorem search_one_eq_some {r : ResolvedSource} :
    search (sourceItems o) 1 n = .ok (some r) ↔
      r = ⟨n.source, n.spec⟩ ∧ OpensClean o n.source := by
  cases hw : sniffWindow n.source with
  | error e =>
    constructor
    · intro h
      unfold search sourceItems at h
      rw [hw] at h
      cases h
    · intro h
      obtain ⟨w, hw', -⟩ := h.2
      rw [hw] at hw'
      cases hw'
  | ok w =>
    have hclean : (∀ e, (.fail e : Item VfsError ResolvedSource Node) ∉ packagingItems o w n) ↔
        OpensClean o n.source := fail_not_mem_packagingItems hw
    rw [← hclean, search, sourceItems_eq hw, findSomeM?_append, findSomeM?_singleton]
    rcases findSomeM?_last_level fun r => found_not_mem_packagingItems with ⟨h, hnone⟩ | ⟨e, he, h⟩
    · rw [h]
      constructor
      · intro hr
        cases hr
        exact ⟨rfl, hnone⟩
      · rintro ⟨rfl, -⟩
        rfl
    · rw [h]
      constructor
      · intro hr
        cases hr
      · intro hr
        exact absurd he (hr.2 e)

theorem search_one_ne_none : search (sourceItems o) 1 n ≠ .ok none := by
  intro hnone
  cases hw : sniffWindow n.source with
  | error e =>
    unfold search sourceItems at hnone
    rw [hw] at hnone
    cases hnone
  | ok w =>
    rw [search, sourceItems_eq hw, findSomeM?_append, findSomeM?_singleton] at hnone
    rcases findSomeM?_last_level fun r => found_not_mem_packagingItems with ⟨h, -⟩ | ⟨e, -, h⟩
    · rw [h] at hnone
      cases hnone
    · rw [h] at hnone
      cases hnone

end Peel

/-- **The peel answers as the last of the first children does alone.** -/
theorem resolveToSource_eq_last {o : Openers} {source : DynSource} {spec : Locator}
    {depth k : Nat} {m : Node} (hk : depth + k ≤ maxDepth)
    (hm : firstChildren (sourceItems o) k ⟨source, spec⟩ = some m)
    (hlast : firstChild (sourceItems o) m = none ∨ depth + k = maxDepth) :
    o.resolveToSource source spec depth = search (sourceItems o) 1 m := by
  have hlevels : levels depth = (maxDepth - depth) + 1 := by
    unfold levels
    omega
  rw [resolveToSource_eq_search, hlevels]
  refine search_eq_of_last (fun n => search_one_ne_none) (by omega) hm ?_
  rcases hlast with hlast | hlast
  · exact .inl hlast
  · right
    omega

/-- The peel ends somewhere within the cap. -/
theorem exists_last {o : Openers} {source : DynSource} {spec : Locator} {depth : Nat}
    (hd : depth ≤ maxDepth) :
    ∃ k m, depth + k ≤ maxDepth ∧ firstChildren (sourceItems o) k ⟨source, spec⟩ = some m ∧
      (firstChild (sourceItems o) m = none ∨ depth + k = maxDepth) := by
  obtain ⟨k, m, hk, hm, hlast⟩ := exists_last_firstChild (maxDepth - depth) (Node.mk source spec)
  refine ⟨k, m, by omega, hm, ?_⟩
  rcases hlast with hlast | hlast
  · exact .inl hlast
  · right
    omega

theorem resolveToSource_of_gt {o : Openers} {source : DynSource} {spec : Locator} {depth : Nat}
    (hd : maxDepth < depth) : o.resolveToSource source spec depth = .ok none := by
  rw [resolveToSource_eq, sourceNode, if_pos hd]

/-- Where the peel ends without a child to follow, nothing is claimed but hollow archives. -/
theorem hollow_of_firstChild_eq_none {o : Openers} {m : Node}
    (hm : firstChild (sourceItems o) m = none) (hclean : OpensClean o m.source) :
    Hollow o m.source := by
  obtain ⟨w, hw, -⟩ := id hclean
  have hfail : ∀ e, (.fail e : Item VfsError ResolvedSource Node) ∉ packagingItems o w m :=
    (fail_not_mem_packagingItems hw).mpr hclean
  refine ⟨w, hw, (packagingItems_eq_nil (T := ResolvedSource)).mp ?_⟩
  unfold firstChild at hm
  rw [sourceItems_eq hw] at hm
  cases hitems : (packagingItems o w m : List (Item VfsError ResolvedSource Node)) with
  | nil => rfl
  | cons item rest =>
    have hmem : item ∈ packagingItems o w m := hitems ▸ List.mem_cons_self
    cases item with
    | found r => exact absurd hmem found_not_mem_packagingItems
    | fail e => exact absurd hmem (hfail e)
    | child m' =>
      rw [hitems] at hm
      exact nomatch hm

/-- A hollow source offers no child. -/
theorem firstChild_of_hollow {o : Openers} {m : Node} (h : Hollow o m.source) :
    firstChild (sourceItems o) m = none := by
  obtain ⟨w, hw, hempty⟩ := h
  unfold firstChild
  rw [sourceItems_eq hw, packagingItems_eq_nil.mpr hempty]
  rfl

theorem Hollow.opensClean {o : Openers} {s : DynSource} (h : Hollow o s) : OpensClean o s := by
  obtain ⟨w, hw, hcs, has⟩ := h
  refine ⟨w, hw, fun c hc hcand => absurd hcand (hcs c hc), fun a ha hcand => ?_⟩
  obtain ⟨hlen, ht⟩ := has a ha hcand
  exact ⟨_, ht⟩

/-- **What the peel hands back is unwrapped exactly when** no claimed source among the first
children within the cap is hollow, or is at the cap with claimants that all open. -/
theorem resolveToSource_unwrapped_iff (o : Openers) (source : DynSource) (spec : Locator)
    (depth : Nat) :
    (∀ r, o.resolveToSource source spec depth = .ok (some r) → ¬Claimed o r.source) ↔
      ∀ k m, depth + k ≤ maxDepth → firstChildren (sourceItems o) k ⟨source, spec⟩ = some m →
        Claimed o m.source →
          ¬Hollow o m.source ∧ (depth + k = maxDepth → ¬OpensClean o m.source) := by
  constructor
  · intro h k m hk hm hclaim
    -- a source the peel ends at without a failure is handed back
    have hback : firstChild (sourceItems o) m = none ∨ depth + k = maxDepth →
        ¬OpensClean o m.source := by
      intro hlast hclean
      refine h ⟨m.source, m.spec⟩ ?_ hclaim
      rw [resolveToSource_eq_last hk hm hlast]
      exact search_one_eq_some.mpr ⟨rfl, hclean⟩
    refine ⟨fun hhollow => ?_, fun hcap => hback (.inr hcap)⟩
    exact hback (.inl (firstChild_of_hollow hhollow)) hhollow.opensClean
  · intro h r hr hclaim
    by_cases hd : depth ≤ maxDepth
    · obtain ⟨k, m, hk, hm, hlast⟩ := exists_last hd
      rw [resolveToSource_eq_last hk hm hlast] at hr
      obtain ⟨rfl, hclean⟩ := search_one_eq_some.mp hr
      obtain ⟨hhollow, hcap⟩ := h k m hk hm hclaim
      rcases hlast with hlast | hlast
      · exact hhollow (hollow_of_firstChild_eq_none hlast hclean)
      · exact hcap hlast hclean
    · rw [resolveToSource_of_gt (by omega)] at hr
      exact nomatch hr

/-- An archive without members, and a container that decodes to itself: both are handed back
although they are claimed. -/
theorem not_unwrapped :
    (∃ r, Openers.resolveToSource { archives := [fakeArchive (str "PK") (.members [] (by decide))] }
        (memSource (str "PK")) (.root (.range 0 2)) 0 = .ok (some r) ∧
      Claimed { archives := [fakeArchive (str "PK") (.members [] (by decide))] } r.source) ∧
    ∃ r, Openers.resolveToSource { containers := [fakeContainer (str "EVF") id] }
        (memSource (str "EVF")) (.root (.range 0 3)) 0 = .ok (some r) ∧
      Claimed { containers := [fakeContainer (str "EVF") id] } r.source := by
  refine ⟨⟨_, rfl, _, rfl, .inr ⟨_, List.mem_cons_self, rfl⟩⟩, ?_⟩
  exact ⟨_, rfl, _, rfl, .inl ⟨_, List.mem_cons_self, rfl⟩⟩

/-! ## Both terminals follow the same children -/

/-- No filesystem, volume-system or encryption opener is a candidate on the source. -/
def PackagingOnly (o : Openers) (s : DynSource) : Prop :=
  ∀ w, sniffWindow s = .ok w → (∀ p ∈ o.filesystems, ¬(p.probe w).isCandidate = true) ∧
    (∀ v ∈ o.volumeSystems, ¬(v.probe w).isCandidate = true) ∧
    ∀ e ∈ o.encryption, ¬(e.probe w).isCandidate = true

section Agree

variable {o : Openers} {creds : CredentialSource} {n m : Node}

theorem descentItems_of_packagingOnly {w : SniffWindow} (hw : sniffWindow n.source = .ok w)
    (h : PackagingOnly o n.source) : descentItems o creds n = packagingItems o w n := by
  obtain ⟨hfs, hvs, hencs⟩ := h w hw
  have hmount : mountItems o w n = [] := by
    unfold mountItems
    rw [List.filter_eq_nil_iff.mpr hfs, List.map_nil]
  have hvolume : (volumeItems o w n : List (Item VfsError Resolved Node)) = [] := by
    unfold volumeItems
    rw [List.filter_eq_nil_iff.mpr hvs, List.flatMap_nil]
  have hsignature : (signatureItems o creds w n : List (Item VfsError Resolved Node)) = [] := by
    unfold signatureItems
    rw [List.filter_eq_nil_iff.mpr, List.map_nil]
    intro e he hyes
    apply hencs e he
    cases hp : e.probe w <;> simp [hp] at hyes ⊢
  have hattempt : (attemptItems o creds w n : List (Item VfsError Resolved Node)) = [] := by
    unfold attemptItems
    rw [List.filter_eq_nil_iff.mpr, List.flatMap_nil]
    intro e he hmaybe
    apply hencs e he
    rw [eq_of_beq hmaybe]
    rfl
  unfold descentItems
  rw [hw]
  simp only [hmount, hvolume, hsignature, hattempt, List.nil_append, List.append_nil]

/-- The packaging openers offer the same to both terminals. -/
theorem map_packagingItems {T T' : Type} (f : T → T') (w : SniffWindow) :
    (packagingItems o w n).map (Item.map f) = packagingItems o w n := by
  unfold packagingItems containerItems archiveItems
  rw [List.map_append, List.map_map, List.map_flatMap]
  congr 1
  · apply List.map_congr_left
    intro c _
    show Item.map f (loud (c.open n.source) _) = _
    cases c.open n.source <;> rfl
  · apply List.flatMap_congr
    intro a _
    unfold peelsOf
    cases a.open n.source with
    | error e => rfl
    | ok contents =>
      cases contents with
      | stream inner => rfl
      | members members h =>
        show List.map _ (List.map _ _) = _
        rw [List.map_map]
        rfl

theorem packagingItems_cons {T T' : Type} {w : SniffWindow} {rest : List (Item VfsError T Node)}
    (h : packagingItems o w n = .child m :: rest) :
    ∃ rest' : List (Item VfsError T' Node), packagingItems o w n = .child m :: rest' := by
  -- both are images of the list without results
  rw [← map_packagingItems (T := Empty) (fun r => nomatch r)] at h ⊢
  cases hitems : (packagingItems o w n : List (Item VfsError Empty Node)) with
  | nil =>
    rw [hitems] at h
    exact nomatch h
  | cons item items =>
    rw [hitems] at h
    obtain ⟨hitem, -⟩ := List.cons.inj h
    cases item with
    | found r => exact nomatch r
    | fail e => exact nomatch hitem
    | child m' =>
      cases hitem
      exact ⟨_, rfl⟩

/-- On a source that only packaging openers claim, the disk descent tries the child the peel
follows first. -/
theorem firstChild_of_packagingOnly (h : PackagingOnly o n.source)
    (hm : firstChild (sourceItems o) n = some m) :
    firstChild (descentItems o creds) n = some m := by
  obtain ⟨rest, hn⟩ := firstChild_eq_some.mp hm
  cases hw : sniffWindow n.source with
  | error e =>
    unfold sourceItems at hn
    rw [hw] at hn
    exact nomatch hn
  | ok w =>
    rw [sourceItems_eq hw] at hn
    rw [firstChild_eq_some, descentItems_of_packagingOnly hw h]
    cases hitems : (packagingItems o w n : List (Item VfsError ResolvedSource Node)) with
    | nil =>
      rw [hitems] at hn
      exact nomatch hn
    | cons item items =>
      rw [hitems] at hn
      obtain ⟨rfl, -⟩ := List.cons.inj hn
      exact packagingItems_cons hitems

theorem firstChildren_of_packagingOnly {k : Nat}
    (h : ∀ j l, j < k → firstChildren (sourceItems o) j n = some l → PackagingOnly o l.source)
    (hm : firstChildren (sourceItems o) k n = some m) :
    firstChildren (descentItems o creds) k n = some m := by
  induction k generalizing n with
  | zero => exact hm
  | succ k ih =>
    obtain ⟨n', hn', hm'⟩ := Option.bind_eq_some_iff.mp hm
    have hfirst : firstChild (descentItems o creds) n = some n' :=
      firstChild_of_packagingOnly (h 0 n (Nat.succ_pos k) rfl) hn'
    rw [firstChildren_succ hfirst]
    refine ih (fun j l hj hl => h (j + 1) l (Nat.succ_lt_succ hj) ?_) hm'
    rw [firstChildren_succ hn', hl]

theorem push_of_firstChild (h : firstChild (sourceItems o) n = some m) :
    ∃ l, m.spec = n.spec.push l := by
  obtain ⟨rest, hn⟩ := firstChild_eq_some.mp h
  have hmem : .child m ∈ sourceItems o n := hn ▸ List.mem_cons_self
  cases hw : sniffWindow n.source with
  | error e =>
    unfold sourceItems at hmem
    rw [hw] at hmem
    exact nomatch List.mem_singleton.mp hmem
  | ok w =>
    rw [sourceItems_eq hw] at hmem
    rcases List.mem_append.mp hmem with hmem | hmem
    · have hbelow : PeelBelow o noCredentials n m := peel_of_packagingItems hw hmem
      obtain ⟨l, -, hspec⟩ := hbelow
      exact ⟨l, hspec⟩
    · exact nomatch List.mem_singleton.mp hmem

theorem length_layers_of_firstChildren {k : Nat}
    (h : firstChildren (sourceItems o) k n = some m) :
    m.spec.layers.length = n.spec.layers.length + k := by
  induction k generalizing n with
  | zero =>
    obtain rfl := Option.some.inj h
    rfl
  | succ k ih =>
    obtain ⟨n', hn, hm⟩ := Option.bind_eq_some_iff.mp h
    obtain ⟨l, hl⟩ := push_of_firstChild hn
    rw [ih hm, hl, Locator.layers_push, List.length_append, List.length_singleton]
    omega

end Agree

/-- **The disk descent of a source is the disk descent of what the peel hands back**, where only
packaging openers claim the sources the peel goes through. -/
theorem open_agrees_with_source {o : Openers} {source : DynSource} {spec : Locator}
    {depth k : Nat} {creds : CredentialSource} {r : ResolvedSource}
    (h : o.resolveToSource source spec depth = .ok (some r))
    (hk : r.spec.layers.length = spec.layers.length + k)
    (hplain : ∀ j m, j < k → firstChildren (sourceItems o) j ⟨source, spec⟩ = some m →
      PackagingOnly o m.source) :
    firstChildren (sourceItems o) k ⟨source, spec⟩ = some ⟨r.source, r.spec⟩ ∧
      (∀ x, o.openWithCredentials r.source r.spec (depth + k) creds = .ok (some x) →
        o.openWithCredentials source spec depth creds = .ok (some x)) ∧
      ∀ e, o.openWithCredentials r.source r.spec (depth + k) creds = .error e →
        o.openWithCredentials source spec depth creds = .error e := by
  have hd : depth ≤ maxDepth := by
    by_contra hd
    rw [resolveToSource_of_gt (by omega)] at h
    exact nomatch h
  obtain ⟨k', m, hk', hm, hlast⟩ := exists_last hd
  rw [resolveToSource_eq_last hk' hm hlast] at h
  obtain ⟨rfl, -⟩ := search_one_eq_some.mp h
  have hlen : m.spec.layers.length = spec.layers.length + k' := length_layers_of_firstChildren hm
  obtain rfl : k = k' := Nat.add_left_cancel (hk.symm.trans hlen)
  have hstep : o.openWithCredentials m.source m.spec (depth + k) creds ≠ .ok none →
      o.openWithCredentials source spec depth creds =
        o.openWithCredentials m.source m.spec (depth + k) creds := by
    rw [openWithCredentials_eq_search, openWithCredentials_eq_search]
    intro hne
    have hlevels : levels depth = levels (depth + k) + k := by
      unfold levels
      omega
    rw [hlevels]
    exact search_of_firstChildren (firstChildren_of_packagingOnly hplain hm) hne
  refine ⟨hm, fun x hx => ?_, fun e he => ?_⟩
  · rw [hstep (hx ▸ fun hc => nomatch hc), hx]
  · rw [hstep (he ▸ fun hc => nomatch hc), he]

/-- An archive format over a filesystem. -/
def zippedFs : Openers where
  archives := [fakeArchive (str "PK") (.stream (memSource (str "FSFS")))]
  filesystems := [fakeFsProbe (str "FSFS")]

theorem open_agrees_with_source_zipped :
    let zip : Node := ⟨memSource (str "PK"), .root (.range 0 2)⟩
    let inner := zip.push (memSource (str "FSFS")) (.archive none)
    firstChildren (sourceItems zippedFs) 1 zip = some inner ∧
      (∀ x, zippedFs.openWithCredentials inner.source inner.spec 1 noCredentials = .ok (some x) →
        zippedFs.openWithCredentials zip.source zip.spec 0 noCredentials = .ok (some x)) ∧
      ∀ e, zippedFs.openWithCredentials inner.source inner.spec 1 noCredentials = .error e →
        zippedFs.openWithCredentials zip.source zip.spec 0 noCredentials = .error e := by
  have hpeel : zippedFs.resolveToSource (memSource (str "PK")) (.root (.range 0 2)) 0 =
      .ok (some ⟨memSource (str "FSFS"), .push (.root (.range 0 2)) (.archive none)⟩) := rfl
  apply open_agrees_with_source hpeel rfl
  intro j m hj hm w hw
  obtain rfl : j = 0 := by omega
  obtain rfl := Option.some.inj hm
  have hwindow : sniffWindow (memSource (str "PK")) = .ok ⟨0, str "PK", 2, str "PK"⟩ := rfl
  obtain rfl := Except.ok.inj (hwindow.symm.trans hw)
  refine ⟨fun p hp => ?_, fun v hv => absurd hv List.not_mem_nil,
    fun e he => absurd he List.not_mem_nil⟩
  obtain rfl := List.mem_singleton.mp hp
  decide

end ForensicVfs
