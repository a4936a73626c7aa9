import ForensicVfs.Lib.Labelled
import ForensicVfs.Verify.Descent.Record

/-!
# What a locator identifies

A descent path is the sequence of the openers chosen, by their place in the table, with the volume
or member index where there is one (`Choice`). Its layers name a container by its format, a volume
and an encryption layer by their scheme, but an archive only by the member. So, in a table without
two openers of one format or scheme, the locator tells the path exactly when no source on the way is
claimed by two archive openers that both yield a stream, or both a member
(`locators_identify_iff`).
-/

namespace ForensicVfs

open Result OrderedSearch Labelled

/-! ## Descent paths -/

/-- A choice of the descent: the place of the opener in its list, and the index below it. -/
inductive Choice where
  | volume (opener : Nat) (index : Usize)
  | encryption (opener : Nat)
  | container (opener : Nat)
  | stream (opener : Nat)
  | member (opener : Nat) (index : Usize)
  deriving DecidableEq

section Chosen

variable (o : Openers) (creds : CredentialSource)

/-- The choice leads from `s` to `t`, under the layer. -/
inductive Chosen (s : DynSource) : Choice → Layer → DynSource → Prop
  | volume {j : Nat} {v : VolumeSystemOpen} {w : SniffWindow} {vs : VolumeSystem} {i : Usize}
      {t : DynSource} (hv : o.volumeSystems[j]? = some v) (hw : sniffWindow s = .ok w)
      (hc : (v.probe w).isCandidate = true) (hvs : v.open s = .ok vs)
      (hi : i.toNat < vs.volumes.length) (ht : vs.openVolume i = .ok t) :
      Chosen s (.volume j i) (.volume v.scheme i none) t
  | encryption {j : Nat} {e : EncryptionOpen} {w : SniffWindow} {layer : EncryptionLayer}
      {t : DynSource} (he : o.encryption[j]? = some e) (hw : sniffWindow s = .ok w)
      (hc : (e.probe w).isCandidate = true) (hl : e.open s = .ok layer)
      (ht : layer.open creds = .ok t) : Chosen s (.encryption j) (.encryption e.scheme) t
  | container {j : Nat} {c : ContainerOpen} {w : SniffWindow} {t : DynSource}
      (hm : o.containers[j]? = some c) (hw : sniffWindow s = .ok w)
      (hc : (c.probe w).isCandidate = true) (ht : c.open s = .ok t) :
      Chosen s (.container j) (.container c.format) t
  | stream {j : Nat} {a : ArchiveOpen} {w : SniffWindow} {t : DynSource}
      (ha : o.archives[j]? = some a) (hw : sniffWindow s = .ok w)
      (hc : (a.probe w).isCandidate = true) (ht : a.open s = .ok (.stream t)) :
      Chosen s (.stream j) (.archive none) t
  | member {j : Nat} {a : ArchiveOpen} {w : SniffWindow} {members : List Member} {hlen} {i : Usize}
      {m : Member} (ha : o.archives[j]? = some a) (hw : sniffWindow s = .ok w)
      (hc : (a.probe w).isCandidate = true) (hms : a.open s = .ok (.members members hlen))
      (hm : members[i.toNat]? = some m) : Chosen s (.member j i) (.archive (some i)) m.source

/-- The path leads from one node to the other. -/
def Descends (n : Node) (p : List Choice) (m : Node) : Prop :=
  ∃ ls, Chain (Chosen o creds) n.source p ls m.source ∧ m.spec = n.spec.pushAll ls

variable {o creds}

/-- A peel is a choice. -/
theorem peel_iff_chosen {s t : DynSource} {l : Layer} :
    Peel o creds s l t ↔ ∃ c, Chosen o creds s c l t := by
  constructor
  · intro h
    cases h with
    | volume hv hw hc hvs hi ht =>
      obtain ⟨j, hj⟩ := List.mem_iff_getElem?.mp hv
      exact ⟨_, .volume hj hw hc hvs hi ht⟩
    | encryption he hw hc hl ht =>
      obtain ⟨j, hj⟩ := List.mem_iff_getElem?.mp he
      exact ⟨_, .encryption hj hw hc hl ht⟩
    | container hm hw hc ht =>
      obtain ⟨j, hj⟩ := List.mem_iff_getElem?.mp hm
      exact ⟨_, .container hj hw hc ht⟩
    | stream ha hw hc ht =>
      obtain ⟨j, hj⟩ := List.mem_iff_getElem?.mp ha
      exact ⟨_, .stream hj hw hc ht⟩
    | member ha hw hc hms hm =>
      obtain ⟨j, hj⟩ := List.mem_iff_getElem?.mp ha
      exact ⟨_, .member hj hw hc hms hm⟩
  · intro ⟨c, h⟩
    cases h with
    | volume hv hw hc hvs hi ht => exact .volume (List.mem_of_getElem? hv) hw hc hvs hi ht
    | encryption he hw hc hl ht => exact .encryption (List.mem_of_getElem? he) hw hc hl ht
    | container hm hw hc ht => exact .container (List.mem_of_getElem? hm) hw hc ht
    | stream ha hw hc ht => exact .stream (List.mem_of_getElem? ha) hw hc ht
    | member ha hw hc hms hm => exact .member (List.mem_of_getElem? ha) hw hc hms hm

/-- A choice leads to one source, under one layer. -/
theorem deterministic_chosen : Deterministic (Chosen o creds) := by
  intro s c l l' t t' h h'
  cases h with
  | volume hv hw hc hvs hi ht =>
    cases h' with
    | volume hv' hw' hc' hvs' hi' ht' =>
      obtain rfl := Option.some.inj (hv.symm.trans hv')
      obtain rfl := Except.ok.inj (hvs.symm.trans hvs')
      exact ⟨rfl, Except.ok.inj (ht.symm.trans ht')⟩
  | encryption he hw hc hl ht =>
    cases h' with
    | encryption he' hw' hc' hl' ht' =>
      obtain rfl := Option.some.inj (he.symm.trans he')
      obtain rfl := Except.ok.inj (hl.symm.trans hl')
      exact ⟨rfl, Except.ok.inj (ht.symm.trans ht')⟩
  | container hm hw hc ht =>
    cases h' with
    | container hm' hw' hc' ht' =>
      obtain rfl := Option.some.inj (hm.symm.trans hm')
      exact ⟨rfl, Except.ok.inj (ht.symm.trans ht')⟩
  | stream ha hw hc ht =>
    cases h' with
    | stream ha' hw' hc' ht' =>
      obtain rfl := Option.some.inj (ha.symm.trans ha')
      exact ⟨rfl, ArchiveContents.stream.inj (Except.ok.inj (ht.symm.trans ht'))⟩
  | member ha hw hc hms hm =>
    cases h' with
    | member ha' hw' hc' hms' hm' =>
      obtain rfl := Option.some.inj (ha.symm.trans ha')
      obtain rfl := ArchiveContents.members.inj (Except.ok.inj (hms.symm.trans hms'))
      obtain rfl := Option.some.inj (hm.symm.trans hm')
      exact ⟨rfl, rfl⟩

end Chosen

/-! ## The descent takes these paths -/

section Offered

variable {o : Openers} {creds : CredentialSource} {w : SniffWindow} {n : Node} {l : Layer}
  {t : DynSource}

/-- A peel is offered by the disk descent. -/
theorem child_of_peel (h : Peel o creds n.source l t) :
    .child (n.push t l) ∈ descentItems o creds n := by
  cases h with
  | @volume v w vs i t hv hw hc hvs hi ht =>
    unfold descentItems
    rw [hw]
    simp only [List.mem_append]
    refine .inl (.inl (.inl (.inr (List.mem_flatMap.mpr ⟨v, List.mem_filter.mpr ⟨hv, hc⟩, ?_⟩))))
    unfold volumesOf
    rw [hvs]
    refine List.mem_map.mpr ⟨i.toNat, List.mem_range.mpr hi, ?_⟩
    rw [UInt64.ofNat_toNat, ht]
    rfl
  | @encryption e w layer t he hw hc hl ht =>
    unfold descentItems
    rw [hw]
    simp only [List.mem_append]
    cases hverdict : e.probe w with
    | no =>
      rw [hverdict] at hc
      cases hc
    | maybe =>
      refine .inr (List.mem_flatMap.mpr ⟨e, List.mem_filter.mpr ⟨he, by rw [hverdict]; rfl⟩, ?_⟩)
      unfold attemptOf
      simp only [hl, ht]
      exact List.mem_singleton.mpr rfl
    | yes how =>
      refine .inl (.inl (.inr (List.mem_map.mpr ⟨e, List.mem_filter.mpr ⟨he, ?_⟩, ?_⟩)))
      · rw [hverdict]
        rfl
      · unfold decryptItem
        rw [hl, ok_bind, ht]
        rfl
  | @container c w t hm hw hc ht =>
    unfold descentItems packagingItems
    rw [hw]
    simp only [List.mem_append]
    refine .inl (.inr (.inl (List.mem_map.mpr ⟨c, List.mem_filter.mpr ⟨hm, hc⟩, ?_⟩)))
    rw [ht]
    rfl
  | @stream a w t ha hw hc ht =>
    unfold descentItems packagingItems
    rw [hw]
    simp only [List.mem_append]
    refine .inl (.inr (.inr (List.mem_flatMap.mpr ⟨a, List.mem_filter.mpr ⟨ha, hc⟩, ?_⟩)))
    unfold peelsOf
    rw [ht]
    exact List.mem_singleton.mpr rfl
  | @member a w members hlen i m ha hw hc hms hm =>
    unfold descentItems packagingItems
    rw [hw]
    simp only [List.mem_append]
    refine .inl (.inr (.inr (List.mem_flatMap.mpr ⟨a, List.mem_filter.mpr ⟨ha, hc⟩, ?_⟩)))
    unfold peelsOf
    rw [hms]
    refine List.mem_map.mpr ⟨(m, i.toNat), List.mem_zipIdx_iff_getElem?.mpr hm, ?_⟩
    rw [UInt64.ofNat_toNat]

/-- **The descent paths are those of the candidate tree.** -/
theorem path_iff_descends {k : Nat} {m : Node} :
    Path (descentItems o creds) n k m ↔ ∃ p, p.length = k ∧ Descends o creds n p m := by
  constructor
  · intro h
    induction h with
    | refl n => exact ⟨[], rfl, [], .nil n.source, rfl⟩
    | step h _ ih =>
      obtain ⟨l, hl, hspec⟩ := peel_of_descentItems h
      obtain ⟨c, hc⟩ := peel_iff_chosen.mp hl
      obtain ⟨p, hlen, ls, hchain, hspec'⟩ := ih
      refine ⟨c :: p, by rw [List.length_cons, hlen], l :: ls, .cons hc hchain, ?_⟩
      rw [hspec', hspec, Locator.pushAll_cons]
  · intro ⟨p, hlen, ls, hchain, hspec⟩
    obtain ⟨t, spec⟩ := m
    obtain ⟨s, base⟩ := n
    simp only at hchain hspec
    subst hlen hspec
    induction hchain generalizing base with
    | nil s => exact .refl _
    | cons hc _ ih =>
      exact .step (child_of_peel (n := ⟨_, base⟩) (peel_iff_chosen.mpr ⟨_, hc⟩)) (ih _)

end Offered

/-! ## Which locators identify -/

/-- No two openers share a format or scheme: no two containers, no two volume systems and no two
encryption schemes. -/
structure TagsDistinct (o : Openers) : Prop where
  containers : (o.containers.map ContainerOpen.format).Nodup
  volumeSystems : (o.volumeSystems.map VolumeSystemOpen.scheme).Nodup
  encryption : (o.encryption.map EncryptionOpen.scheme).Nodup

/-- The archive opener at a place of the table claims the source and opens to a stream. -/
def YieldsStream (o : Openers) (s : DynSource) (j : Nat) : Prop :=
  ∃ (w : SniffWindow) (a : ArchiveOpen) (t : DynSource), sniffWindow s = .ok w ∧
    o.archives[j]? = some a ∧ (a.probe w).isCandidate = true ∧ a.open s = .ok (.stream t)

/-- The archive opener at a place of the table claims the source and opens to some members. -/
def YieldsMember (o : Openers) (s : DynSource) (j : Nat) : Prop :=
  ∃ (w : SniffWindow) (a : ArchiveOpen) (m : Member) (ms : List Member) (h : _),
    sniffWindow s = .ok w ∧ o.archives[j]? = some a ∧ (a.probe w).isCandidate = true ∧
      a.open s = .ok (.members (m :: ms) h)

/-- Two archive openers claim the source and both yield a stream, or both a member. -/
def ArchiveClash (o : Openers) (s : DynSource) : Prop :=
  ∃ i j, i ≠ j ∧ (YieldsStream o s i ∧ YieldsStream o s j ∨ YieldsMember o s i ∧ YieldsMember o s j)

/-- Of the paths of at most `n` steps from a node, no two carry one locator. -/
def LocatorsIdentify (o : Openers) (creds : CredentialSource) (n : Nat) (base : Node) : Prop :=
  ∀ p q m m', p.length ≤ n → q.length ≤ n → Descends o creds base p m →
    Descends o creds base q m' → m.spec = m'.spec → p = q ∧ m.source = m'.source

section Identify

variable {o : Openers} {creds : CredentialSource} {s : DynSource}

/-- The place of an element in a list without repetitions. -/
theorem getElem?_inj_of_map {α β : Type} {f : α → β} {l : List α} (hl : (l.map f).Nodup)
    {i j : Nat} {a b : α} (ha : l[i]? = some a) (hb : l[j]? = some b) (h : f a = f b) : i = j := by
  have hi : (l.map f)[i]? = some (f a) := by rw [List.getElem?_map, ha]; rfl
  have hj : (l.map f)[j]? = some (f a) := by rw [List.getElem?_map, hb, h]; rfl
  have hlt : i < (l.map f).length := (List.getElem?_eq_some_iff.mp hi).1
  exact (List.getElem?_inj hlt hl).mp (hi.trans hj.symm)

/-- A table with a member begins with one. -/
theorem yieldsMember_of_getElem? {w : SniffWindow} {j i : Nat} {a : ArchiveOpen} {m : Member}
    {members : List Member} {hlen} (hw : sniffWindow s = .ok w) (ha : o.archives[j]? = some a)
    (hc : (a.probe w).isCandidate = true) (hms : a.open s = .ok (.members members hlen))
    (hm : members[i]? = some m) : YieldsMember o s j := by
  cases members with
  | nil => cases hm
  | cons first rest => exact ⟨w, a, first, rest, hlen, hw, ha, hc, hms⟩

/-- The layers of a source tell the choices exactly when no archives clash. -/
theorem separates_iff (ho : TagsDistinct o) :
    Separates (Chosen o creds) s ↔ ¬ArchiveClash o s := by
  constructor
  · rintro h ⟨i, j, hij, ⟨hi, hj⟩ | ⟨hi, hj⟩⟩
    · obtain ⟨w, a, t, hw, ha, hac, hat⟩ := hi
      obtain ⟨w', b, u, hw', hb, hbc, hbu⟩ := hj
      have heq := h (.stream ha hw hac hat) (.stream hb hw' hbc hbu)
      exact hij (Choice.stream.inj heq)
    · obtain ⟨w, a, m, ms, hlen, hw, ha, hac, ham⟩ := hi
      obtain ⟨w', b, m', ms', hlen', hw', hb, hbc, hbm⟩ := hj
      have hfirst : Chosen o creds s (.member i 0) (.archive (some 0)) m.source :=
        .member ha hw hac ham rfl
      have heq := h hfirst (.member hb hw' hbc hbm rfl)
      exact hij (Choice.member.inj heq).1
  · intro h c d l t u hc hd
    generalize hl : l = l' at hd
    cases hc with
    | volume hv =>
      cases hd with
      | volume hv' =>
        obtain ⟨hscheme, rfl, -⟩ := Layer.volume.inj hl
        rw [getElem?_inj_of_map ho.volumeSystems hv hv' hscheme]
      | _ => cases hl
    | encryption he =>
      cases hd with
      | encryption he' =>
        rw [getElem?_inj_of_map ho.encryption he he' (Layer.encryption.inj hl)]
      | _ => cases hl
    | container hm =>
      cases hd with
      | container hm' =>
        rw [getElem?_inj_of_map ho.containers hm hm' (Layer.container.inj hl)]
      | _ => cases hl
    | @stream i a w t ha hw hac hat =>
      cases hd with
      | @stream j b w' u hb hw' hbc hbu =>
        by_contra hne
        refine h ⟨i, j, fun hij => hne (congrArg _ hij), .inl ⟨?_, ?_⟩⟩
        · exact ⟨w, a, t, hw, ha, hac, hat⟩
        · exact ⟨w', b, u, hw', hb, hbc, hbu⟩
      | _ => cases hl
    | @member i a w members hlen k m ha hw hac ham hm =>
      cases hd with
      | @member j b w' members' hlen' k' m' hb hw' hbc hbm hm' =>
        obtain rfl := Option.some.inj (Layer.archive.inj hl)
        by_contra hne
        refine h ⟨i, j, fun hij => hne (by rw [hij]), .inr ⟨?_, ?_⟩⟩
        · exact yieldsMember_of_getElem? hw ha hac ham hm
        · exact yieldsMember_of_getElem? hw' hb hbc hbm hm'
      | _ => cases hl

theorem locatorsIdentify_iff_tells {n : Nat} {base : Node} :
    LocatorsIdentify o creds n base ↔ Tells (Chosen o creds) n base.source := by
  constructor
  · intro h p q ls t u hp hq hpchain hqchain
    exact (h p q ⟨t, base.spec.pushAll ls⟩ ⟨u, base.spec.pushAll ls⟩ hp hq ⟨ls, hpchain, rfl⟩
      ⟨ls, hqchain, rfl⟩ rfl).1
  · intro h p q m m' hp hq ⟨ls, hpchain, hspec⟩ ⟨ks, hqchain, hspec'⟩ heq
    obtain rfl := base.spec.pushAll_injective (hspec.symm.trans (heq.trans hspec'))
    obtain rfl := h hp hq hpchain hqchain
    exact ⟨rfl, (hpchain.deterministic deterministic_chosen hqchain).2⟩

end Identify

/-- **The locator identifies the node exactly when** no source that the descent reaches before the
last step is claimed by two archive openers that both yield a stream, or both a member. -/
theorem locators_identify_iff {o : Openers} (ho : TagsDistinct o) (creds : CredentialSource)
    (n : Nat) (source : DynSource) (spec : Locator) :
    LocatorsIdentify o creds n ⟨source, spec⟩ ↔
      ∀ k m, k < n → Path (descentItems o creds) ⟨source, spec⟩ k m →
        ¬ArchiveClash o m.source := by
  rw [locatorsIdentify_iff_tells, tells_iff deterministic_chosen]
  constructor
  · intro h k m hk hpath
    obtain ⟨p, rfl, ls, hchain, -⟩ := path_iff_descends.mp hpath
    exact (separates_iff ho).mp (h p ls m.source hk hchain)
  · intro h p ls t hp hchain
    have hpath : Path (descentItems o creds) ⟨source, spec⟩ p.length ⟨t, spec.pushAll ls⟩ :=
      path_iff_descends.mpr ⟨p, rfl, ls, hchain, rfl⟩
    have hclash : ¬ArchiveClash o t := h p.length ⟨t, spec.pushAll ls⟩ hp hpath
    exact (separates_iff ho).mpr hclash

/-- Two archive formats that both claim a source: the first makes unknown data of it, the second a
filesystem. The openers of the other groups do not come into play. -/
def twoWrappers : Openers where
  archives := [fakeArchive (str "PK") (.stream (memSource (str "data"))),
    fakeArchive (str "PK") (.stream (memSource (str "FSFSFS")))]
  filesystems := [fakeFsProbe (str "FSFS")]
  containers := [fakeContainer (str "EVF") id]
  volumeSystems := [fakeVsProbe (str "GPT!") [] (by decide)]
  encryption := [fakeAttempt fun _ =>
    .ok ⟨.veraCrypt, fun _ => .error (.needCredentials "veracrypt" "test")⟩]

theorem tagsDistinct_twoWrappers : TagsDistinct twoWrappers :=
  ⟨List.pairwise_singleton _ _, List.pairwise_singleton _ _, List.pairwise_singleton _ _⟩

/-- The node both claim, and the locator of what they make of it. -/
def wrapped : Node := ⟨memSource (str "PK"), .root (.range 0 2)⟩

def unwrapped : Locator := .push (.root (.range 0 2)) (.archive none)

theorem descends_twoWrappers {j : Nat} {a : ArchiveOpen} {t : DynSource}
    (ha : twoWrappers.archives[j]? = some a)
    (hc : (a.probe ⟨0, str "PK", 2, str "PK"⟩).isCandidate = true)
    (ht : a.open wrapped.source = .ok (.stream t)) :
    Descends twoWrappers noCredentials wrapped [.stream j] ⟨t, unwrapped⟩ := by
  have hw : sniffWindow wrapped.source = .ok ⟨0, str "PK", 2, str "PK"⟩ := rfl
  exact ⟨[.archive none], .cons (.stream ha hw hc ht) (.nil t), rfl⟩

/-- **One locator, two sources**: the filesystem is mounted from a source whose locator is also that
of the unknown data tried before it. -/
theorem locator_of_two_sources :
    TagsDistinct twoWrappers ∧ ¬LocatorsIdentify twoWrappers noCredentials 1 wrapped ∧
      Descends twoWrappers noCredentials wrapped [.stream 0] ⟨memSource (str "data"), unwrapped⟩ ∧
      twoWrappers.openWithCredentials wrapped.source wrapped.spec 0 noCredentials =
        .ok (some ⟨emptyFs, unwrapped.push (.fs ⟨str "ntfs"⟩ (.path [])),
          memSource (str "FSFSFS"), unwrapped⟩) := by
  have hdata : Descends twoWrappers noCredentials wrapped [.stream 0]
      ⟨memSource (str "data"), unwrapped⟩ := descends_twoWrappers rfl rfl rfl
  have hfs : Descends twoWrappers noCredentials wrapped [.stream 1]
      ⟨memSource (str "FSFSFS"), unwrapped⟩ := descends_twoWrappers rfl rfl rfl
  refine ⟨tagsDistinct_twoWrappers, fun h => ?_, hdata, by rfl⟩
  obtain ⟨-, hsource⟩ := h [.stream 0] [.stream 1] _ _ (Nat.le_refl 1) (Nat.le_refl 1) hdata hfs rfl
  exact absurd (congrArg ImageSource.len hsource) (by decide)

theorem locators_identify_iff_twoWrappers :
    LocatorsIdentify twoWrappers noCredentials 1 wrapped ↔ ∀ k m, k < 1 →
      Path (descentItems twoWrappers noCredentials) wrapped k m →
        ¬ArchiveClash twoWrappers m.source :=
  locators_identify_iff tagsDistinct_twoWrappers noCredentials 1 _ _

end ForensicVfs
