import ForensicVfs.Verify.Descent.Source

/-!
# What the outcome of a descent depends on

Neither terminal ever looks at the locator it is given: two runs on one source under two locators
make the same steps (`terminals_relocate`). The depth a run starts at only cuts the candidate tree
(`depth_cap_only_cuts`). And of the opener table and the credentials only what the candidates make
of the sources within the cap matters (`descent_depends_on_candidates`), so an opener that claims
none of them may be registered anywhere.
-/

namespace ForensicVfs

open Result OrderedSearch

/-! ## The locator -/

section Relocate

variable {a b : Locator} {o : Openers} {creds : CredentialSource} {w : SniffWindow} {n n' : Node}
  {T T' : Type} {Q : T → T' → Prop}

/-- Two nodes of one source, the same layers above two locators. -/
def Node.Relocated (a b : Locator) (n n' : Node) : Prop :=
  n'.source = n.source ∧ ∃ ls, n.spec = a.pushAll ls ∧ n'.spec = b.pushAll ls

/-- Two stacks with one filesystem and one source, the same layers above two locators. -/
def Resolved.Relocated (a b : Locator) (r r' : Resolved) : Prop :=
  r'.fs = r.fs ∧ r'.source = r.source ∧
    ∃ ls top, r.sourceSpec = a.pushAll ls ∧ r'.sourceSpec = b.pushAll ls ∧
      r.spec = a.pushAll (ls ++ [top]) ∧ r'.spec = b.pushAll (ls ++ [top])

/-- Two byte edges with one source, the same layers above two locators. -/
def ResolvedSource.Relocated (a b : Locator) (r r' : ResolvedSource) : Prop :=
  r'.source = r.source ∧ ∃ ls, r.spec = a.pushAll ls ∧ r'.spec = b.pushAll ls

theorem Node.Relocated.push (h : n.Relocated a b n') (t : DynSource) (l : Layer) :
    (n.push t l).Relocated a b (n'.push t l) := by
  obtain ⟨-, ls, hn, hn'⟩ := h
  refine ⟨rfl, ls ++ [l], ?_, ?_⟩
  · rw [Locator.pushAll_append, ← hn]
    rfl
  · rw [Locator.pushAll_append, ← hn']
    rfl

theorem loud_related {α : Type} {x : VfsResult α} {f : α → Item VfsError T Node}
    {g : α → Item VfsError T' Node}
    (h : ∀ v, x = .ok v → Item.Rel (Node.Relocated a b) Q (f v) (g v)) :
    Item.Rel (Node.Relocated a b) Q (loud x f) (loud x g) := by
  cases x with
  | error e => exact .fail e
  | ok v => exact h v rfl

theorem mountItems_related (h : n.Relocated a b n') :
    List.Forall₂ (Item.Rel (Node.Relocated a b) (Resolved.Relocated a b)) (mountItems o w n)
      (mountItems o w n') := by
  unfold mountItems
  refine forall₂_map_of_forall fun p _ => ?_
  obtain ⟨hsource, ls, hn, hn'⟩ := h
  rw [hsource]
  refine loud_related fun fs _ => .found ⟨rfl, rfl, ls, .fs p.kind (.path []), hn, hn', ?_, ?_⟩
  · rw [Locator.pushAll_append, ← hn]
    rfl
  · rw [Locator.pushAll_append, ← hn']
    rfl

theorem volumeItems_related (h : n.Relocated a b n') :
    List.Forall₂ (Item.Rel (Node.Relocated a b) Q) (volumeItems o w n) (volumeItems o w n') := by
  unfold volumeItems
  refine forall₂_flatMap_of_forall fun v _ => ?_
  unfold volumesOf
  rw [h.1]
  cases v.open n.source with
  | error e => exact .cons (.fail e) .nil
  | ok vs => exact forall₂_map_of_forall fun i _ => loud_related fun sub _ => .child (h.push sub _)

theorem signatureItems_related (h : n.Relocated a b n') :
    List.Forall₂ (Item.Rel (Node.Relocated a b) Q) (signatureItems o creds w n)
      (signatureItems o creds w n') := by
  unfold signatureItems
  refine forall₂_map_of_forall fun e _ => ?_
  unfold decryptItem
  rw [h.1]
  exact loud_related fun t _ => .child (h.push t _)

theorem packagingItems_related (h : n.Relocated a b n') :
    List.Forall₂ (Item.Rel (Node.Relocated a b) Q) (packagingItems o w n)
      (packagingItems o w n') := by
  unfold packagingItems containerItems archiveItems
  refine List.rel_append (forall₂_map_of_forall fun c _ => ?_)
    (forall₂_flatMap_of_forall fun ar _ => ?_)
  · rw [h.1]
    exact loud_related fun t _ => .child (h.push t _)
  · unfold peelsOf
    rw [h.1]
    cases ar.open n.source with
    | error e => exact .cons (.fail e) .nil
    | ok contents =>
      cases contents with
      | stream inner => exact .cons (.child (h.push inner _)) .nil
      | members members _ => exact forall₂_map_of_forall fun p _ => .child (h.push p.1.source _)

theorem attemptItems_related (h : n.Relocated a b n') :
    List.Forall₂ (Item.Rel (Node.Relocated a b) Q) (attemptItems o creds w n)
      (attemptItems o creds w n') := by
  unfold attemptItems
  refine forall₂_flatMap_of_forall fun e _ => ?_
  unfold attemptOf
  rw [h.1]
  cases e.open n.source with
  | error err => exact .cons (.fail err) .nil
  | ok layer =>
    dsimp only
    cases layer.open creds with
    | error err => exact .nil
    | ok t => exact .cons (.child (h.push t _)) .nil

theorem descentItems_related (h : n.Relocated a b n') :
    List.Forall₂ (Item.Rel (Node.Relocated a b) (Resolved.Relocated a b)) (descentItems o creds n)
      (descentItems o creds n') := by
  unfold descentItems
  rw [h.1]
  cases sniffWindow n.source with
  | error e => exact .cons (.fail e) .nil
  | ok w =>
    exact List.rel_append (List.rel_append (List.rel_append (List.rel_append (mountItems_related h)
      (volumeItems_related h)) (signatureItems_related h)) (packagingItems_related h))
      (attemptItems_related h)

theorem sourceItems_related (h : n.Relocated a b n') :
    List.Forall₂ (Item.Rel (Node.Relocated a b) (ResolvedSource.Relocated a b)) (sourceItems o n)
      (sourceItems o n') := by
  unfold sourceItems
  rw [h.1]
  cases sniffWindow n.source with
  | error e => exact .cons (.fail e) .nil
  | ok w => exact List.rel_append (packagingItems_related h) (.cons (.found ⟨rfl, h.2⟩) .nil)

end Relocate

/-- **Neither terminal looks at its locator**: under another one it answers the same, the same
layers above it. -/
theorem terminals_relocate (o : Openers) (source : DynSource) (a b : Locator) (depth : Nat)
    (creds : CredentialSource) :
    Answers (Resolved.Relocated a b) (o.openWithCredentials source a depth creds)
        (o.openWithCredentials source b depth creds) ∧
      Answers (ResolvedSource.Relocated a b) (o.resolveToSource source a depth)
        (o.resolveToSource source b depth) := by
  rw [openWithCredentials_eq_search, openWithCredentials_eq_search, resolveToSource_eq_search,
    resolveToSource_eq_search]
  have hbase : Node.Relocated a b ⟨source, a⟩ ⟨source, b⟩ := ⟨rfl, [], rfl, rfl⟩
  exact ⟨search_related (fun n n' => descentItems_related) _ hbase,
    search_related (fun n n' => sourceItems_related) _ hbase⟩

/-! ## The depth -/

theorem levels_le {d d' : Nat} (h : d ≤ d') : levels d' ≤ levels d := by
  unfold levels
  omega

/-- **The depth cap only cuts**: deeper in, a source's decisive events are some of those it has
further out, in their order; so a clean unknown stays one; and where no chain of peels gets to the
cut, nothing changes at all. -/
theorem depth_cap_only_cuts {o : Openers} {source : DynSource} {spec : Locator} {d d' : Nat}
    {creds : CredentialSource} (h : d ≤ d') :
    (candidateEvents o source spec d' creds).Sublist (candidateEvents o source spec d creds) ∧
      (o.openWithCredentials source spec d creds = .ok none →
        o.openWithCredentials source spec d' creds = .ok none) ∧
      ((∀ ls s, Peels o creds source ls s → d' + ls.length ≤ maxDepth) →
        o.openWithCredentials source spec d' creds =
          o.openWithCredentials source spec d creds) := by
  have hsub : (events (descentItems o creds) (levels d') ⟨source, spec⟩).Sublist
      (events (descentItems o creds) (levels d) ⟨source, spec⟩) := events_sublist (levels_le h) _
  rw [openWithCredentials_eq_search, openWithCredentials_eq_search, search_eq_outcome,
    search_eq_outcome]
  refine ⟨hsub, fun hnone => ?_, fun hshallow => ?_⟩
  · rw [outcome_eq_none] at hnone ⊢
    rw [hnone] at hsub
    exact List.sublist_nil.mp hsub
  · rw [events_eq_of_no_path (levels_le h)]
    intro m p
    obtain ⟨ls, hlen, hs, -⟩ := peels_of_path p
    have hcut := hshallow ls m.source hs
    unfold levels at hlen
    omega

/-- An archive over a filesystem, from the outermost depth and from the innermost. -/
theorem depth_cap_only_cuts_zipped :
    let zip := memSource (str "PK")
    let spec := Locator.root (.range 0 2)
    (candidateEvents zippedFs zip spec 8 noCredentials).Sublist
        (candidateEvents zippedFs zip spec 0 noCredentials) ∧
      (zippedFs.openWithCredentials zip spec 0 noCredentials = .ok none →
        zippedFs.openWithCredentials zip spec 8 noCredentials = .ok none) ∧
      ((∀ ls s, Peels zippedFs noCredentials zip ls s → 8 + ls.length ≤ maxDepth) →
        zippedFs.openWithCredentials zip spec 8 noCredentials =
          zippedFs.openWithCredentials zip spec 0 noCredentials) :=
  depth_cap_only_cuts (by decide)

/-! ## The candidates -/

/-- The candidates of two tables on a window are the same, in the same order. -/
structure SameCandidates (o o' : Openers) (w : SniffWindow) : Prop where
  filesystems : (o.filesystems.filter fun p => (p.probe w).isCandidate) =
    o'.filesystems.filter fun p => (p.probe w).isCandidate
  volumeSystems : (o.volumeSystems.filter fun v => (v.probe w).isCandidate) =
    o'.volumeSystems.filter fun v => (v.probe w).isCandidate
  encryption : (o.encryption.filter fun e => (e.probe w).isCandidate) =
    o'.encryption.filter fun e => (e.probe w).isCandidate
  containers : (o.containers.filter fun c => (c.probe w).isCandidate) =
    o'.containers.filter fun c => (c.probe w).isCandidate
  archives : (o.archives.filter fun a => (a.probe w).isCandidate) =
    o'.archives.filter fun a => (a.probe w).isCandidate

/-- The layers a table's encryption candidates build over a source open alike under both
credentials. -/
def LayersAgree (o : Openers) (creds creds' : CredentialSource) (s : DynSource) (w : SniffWindow) :
    Prop :=
  ∀ e ∈ o.encryption, (e.probe w).isCandidate = true → ∀ layer, e.open s = .ok layer →
    layer.open creds = layer.open creds'

section Candidates

variable {o o' : Openers} {creds creds' : CredentialSource} {w : SniffWindow} {n m : Node}
  {T : Type}

theorem filter_isYes_eq (l : List EncryptionOpen) (w : SniffWindow) :
    (l.filter fun e => (e.probe w).isYes) =
      (l.filter fun e => (e.probe w).isCandidate).filter fun e => (e.probe w).isYes := by
  rw [List.filter_filter]
  apply List.filter_congr
  intro e _
  cases e.probe w <;> rfl

theorem filter_maybe_eq (l : List EncryptionOpen) (w : SniffWindow) :
    (l.filter fun e => e.probe w == .maybe) =
      (l.filter fun e => (e.probe w).isCandidate).filter fun e => e.probe w == .maybe := by
  rw [List.filter_filter]
  apply List.filter_congr
  intro e _
  cases e.probe w <;> rfl

theorem packagingItems_eq_of_same (h : SameCandidates o o' w) :
    (packagingItems o w n : List (Item VfsError T Node)) = packagingItems o' w n := by
  unfold packagingItems containerItems archiveItems
  rw [h.containers, h.archives]

theorem signatureItems_eq_of_same (h : SameCandidates o o' w)
    (hlayers : LayersAgree o creds creds' n.source w) :
    (signatureItems o creds w n : List (Item VfsError T Node)) = signatureItems o' creds' w n := by
  unfold signatureItems
  rw [filter_isYes_eq o'.encryption, ← h.encryption, ← filter_isYes_eq]
  refine List.map_congr_left fun e he => ?_
  obtain ⟨he, hyes⟩ := List.mem_filter.mp he
  have hc : (e.probe w).isCandidate = true := by
    cases hp : e.probe w <;> simp [hp] at hyes ⊢
  unfold decryptItem
  cases hl : e.open n.source with
  | error err => rfl
  | ok layer => rw [ok_bind, ok_bind, hlayers e he hc layer hl]

theorem attemptItems_eq_of_same (h : SameCandidates o o' w)
    (hlayers : LayersAgree o creds creds' n.source w) :
    (attemptItems o creds w n : List (Item VfsError T Node)) = attemptItems o' creds' w n := by
  unfold attemptItems
  rw [filter_maybe_eq o'.encryption, ← h.encryption, ← filter_maybe_eq]
  refine List.flatMap_congr fun e he => ?_
  obtain ⟨he, hmaybe⟩ := List.mem_filter.mp he
  have hc : (e.probe w).isCandidate = true := by
    rw [eq_of_beq hmaybe]
    rfl
  unfold attemptOf
  cases hl : e.open n.source with
  | error err => rfl
  | ok layer =>
    dsimp only
    rw [hlayers e he hc layer hl]

theorem descentItems_eq_of_same
    (h : ∀ w, sniffWindow n.source = .ok w →
      SameCandidates o o' w ∧ LayersAgree o creds creds' n.source w) :
    descentItems o creds n = descentItems o' creds' n := by
  unfold descentItems
  cases hw : sniffWindow n.source with
  | error e => rfl
  | ok w =>
    obtain ⟨hsame, hlayers⟩ := h w hw
    dsimp only
    rw [signatureItems_eq_of_same hsame hlayers, attemptItems_eq_of_same hsame hlayers,
      packagingItems_eq_of_same hsame]
    unfold mountItems volumeItems
    rw [hsame.filesystems, hsame.volumeSystems]

theorem sourceItems_eq_of_same
    (h : ∀ w, sniffWindow n.source = .ok w → SameCandidates o o' w) :
    sourceItems o n = sourceItems o' n := by
  unfold sourceItems
  cases hw : sniffWindow n.source with
  | error e => rfl
  | ok w =>
    dsimp only
    rw [packagingItems_eq_of_same (h w hw)]

/-- The packaging peel follows chains of peels, too. -/
theorem peels_of_sourcePath (creds : CredentialSource) {k : Nat}
    (p : Path (sourceItems o) n k m) :
    ∃ ls, ls.length = k ∧ Peels o creds n.source ls m.source ∧ m.spec = n.spec.pushAll ls := by
  induction p with
  | refl n => exact ⟨[], rfl, .nil n.source, rfl⟩
  | @step n m l k h _ ih =>
    obtain ⟨ls, hlen, hs, hspec⟩ := ih
    unfold sourceItems at h
    cases hw : sniffWindow n.source with
    | error e =>
      rw [hw] at h
      exact nomatch List.mem_singleton.mp h
    | ok w =>
      rw [hw] at h
      rcases List.mem_append.mp h with h | h
      · obtain ⟨layer, hpeel, hlayer⟩ : PeelBelow o creds n _ := peel_of_packagingItems hw h
        refine ⟨layer :: ls, by rw [List.length_cons, hlen], .cons hpeel hs, ?_⟩
        rw [hspec, hlayer, Locator.pushAll_cons]
      · exact nomatch List.mem_singleton.mp h

end Candidates

/-- **Only the candidates within the cap matter**: two tables with the same candidates on every
source that is reached, and two credential sources that its layers answer alike, resolve it alike,
whatever else is registered. -/
theorem descent_depends_on_candidates {o o' : Openers} {creds creds' : CredentialSource}
    {source : DynSource} {depth : Nat}
    (h : ∀ ls s w, depth + ls.length ≤ maxDepth → Peels o creds source ls s →
      sniffWindow s = .ok w → SameCandidates o o' w ∧ LayersAgree o creds creds' s w)
    (spec : Locator) :
    o.openWithCredentials source spec depth creds =
        o'.openWithCredentials source spec depth creds' ∧
      o.resolveToSource source spec depth = o'.resolveToSource source spec depth := by
  rw [openWithCredentials_eq_search, openWithCredentials_eq_search, resolveToSource_eq_search,
    resolveToSource_eq_search]
  constructor
  · apply search_congr
    intro k m hk p
    obtain ⟨ls, hlen, hs, -⟩ := peels_of_path p
    have hcap := add_length_le_maxDepth hk hlen
    exact descentItems_eq_of_same fun w hw => h ls m.source w hcap hs hw
  · apply search_congr
    intro k m hk p
    obtain ⟨ls, hlen, hs, -⟩ := peels_of_sourcePath creds p
    have hcap := add_length_le_maxDepth hk hlen
    exact sourceItems_eq_of_same fun w hw => (h ls m.source w hcap hs hw).1

/-- The archive format and the filesystem among formats that claim nothing. -/
def crowdedFs : Openers where
  containers := [⟨.ewf, fun _ => .no, .ok⟩]
  archives := ⟨fun _ => .no, fun s => .ok (.stream s)⟩ :: zippedFs.archives
  filesystems := ⟨⟨str "ext4"⟩, fun _ => .no, fun _ => .ok emptyFs⟩ :: zippedFs.filesystems

theorem descent_depends_on_candidates_crowded :
    zippedFs.openWithCredentials (memSource (str "PK")) (.root (.range 0 2)) 0 noCredentials =
        crowdedFs.openWithCredentials (memSource (str "PK")) (.root (.range 0 2)) 0
          noCredentials ∧
      zippedFs.resolveToSource (memSource (str "PK")) (.root (.range 0 2)) 0 =
        crowdedFs.resolveToSource (memSource (str "PK")) (.root (.range 0 2)) 0 := by
  apply descent_depends_on_candidates
  intro ls s w _ _ _
  exact ⟨⟨rfl, rfl, rfl, rfl, rfl⟩, fun e he => absurd he List.not_mem_nil⟩

end ForensicVfs
