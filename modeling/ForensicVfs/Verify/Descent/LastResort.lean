import ForensicVfs.Verify.Descent.Record

/-!
# The credential-attempt schemes

An encryption opener that answers `yes` on no window only ever takes part in the last-resort pass.
`Openers.withoutAttempts` takes those openers out of the table. Against the smaller table the full
one offers the same items at every node but for their attempts, so what they can change is where one
of their attempts decides (`attempts_decide`); where they cannot decrypt they change nothing
(`attempts_invisible`). The last resort is one per node: an attempt below an early volume or member
comes before the later siblings of that volume or member, and may take a filesystem of theirs away.
-/

namespace ForensicVfs

open Result OrderedSearch

open Classical in
/-- The opener identifies some window. -/
noncomputable def EncryptionOpen.sometimesYes (e : EncryptionOpen) : Bool :=
  decide (∃ w, (e.probe w).isYes = true)

theorem EncryptionOpen.sometimesYes_of_isYes {e : EncryptionOpen} {w : SniffWindow}
    (h : (e.probe w).isYes = true) : e.sometimesYes = true := by
  simp only [sometimesYes, decide_eq_true_eq]
  exact ⟨w, h⟩

/-- The table without the encryption openers that only ever answer `maybe` or `no`. -/
noncomputable def Openers.withoutAttempts (o : Openers) : Openers :=
  { o with encryption := o.encryption.filter EncryptionOpen.sometimesYes }

theorem Openers.withoutAttempts_eq {o : Openers}
    (h : ∀ e ∈ o.encryption, ∀ w, (e.probe w).isYes = false) :
    o.withoutAttempts = { o with encryption := [] } := by
  unfold withoutAttempts
  congr 1
  rw [List.filter_eq_nil_iff]
  intro e he hyes
  simp only [EncryptionOpen.sometimesYes, decide_eq_true_eq] at hyes
  obtain ⟨w, hw⟩ := hyes
  rw [h e he w] at hw
  exact Bool.noConfusion hw

/-! ## What the smaller table offers -/

section Items

variable (o : Openers) (creds : CredentialSource) (w : SniffWindow) (n : Node)

/-- The items of the passes before the last resort. -/
def firstItems : List (Item VfsError Resolved Node) :=
  mountItems o w n ++ volumeItems o w n ++ signatureItems o creds w n ++ packagingItems o w n

theorem signatureItems_withoutAttempts :
    (signatureItems o.withoutAttempts creds w n : List (Item VfsError Resolved Node)) =
      signatureItems o creds w n := by
  unfold signatureItems Openers.withoutAttempts
  rw [List.filter_filter]
  congr 1
  apply List.filter_congr
  intro e _
  rw [Bool.and_eq_left_iff_imp]
  intro hyes
  exact EncryptionOpen.sometimesYes_of_isYes hyes

theorem firstItems_withoutAttempts :
    firstItems o.withoutAttempts creds w n = firstItems o creds w n := by
  unfold firstItems
  rw [signatureItems_withoutAttempts]
  rfl

theorem descentItems_eq {w : SniffWindow} (hw : sniffWindow n.source = .ok w) :
    descentItems o creds n = firstItems o creds w n ++ attemptItems o creds w n := by
  unfold descentItems firstItems
  rw [hw]

end Items

/-! ## Attempts that fail -/

/-- Every `maybe` scheme constructs its layer over the source and fails to decrypt it. -/
def AttemptsFail (o : Openers) (creds : CredentialSource) (s : DynSource) : Prop :=
  ∀ w, sniffWindow s = .ok w → ∀ e ∈ o.encryption, e.probe w = .maybe →
    ∃ layer err, e.open s = .ok layer ∧ layer.open creds = .error err

theorem attemptItems_eq_nil {o : Openers} {creds : CredentialSource} {w : SniffWindow} {n : Node}
    (hw : sniffWindow n.source = .ok w) (h : AttemptsFail o creds n.source) :
    attemptItems o creds w n = ([] : List (Item VfsError Resolved Node)) := by
  unfold attemptItems
  rw [List.flatMap_eq_nil_iff]
  intro e he
  obtain ⟨he, hmaybe⟩ := List.mem_filter.mp he
  obtain ⟨layer, err, hl, hd⟩ := h w hw e he (eq_of_beq hmaybe)
  unfold attemptOf
  rw [hl]
  simp only [hd]

theorem AttemptsFail.withoutAttempts {o : Openers} {creds : CredentialSource} {s : DynSource}
    (h : AttemptsFail o creds s) : AttemptsFail o.withoutAttempts creds s :=
  fun w hw e he => h w hw e (List.mem_filter.mp he).1

/-- **A scheme that cannot decrypt is invisible**: where every attempt at a source within the depth
constructs its layer and fails to open it, the outcome is the one without those schemes. -/
theorem attempts_invisible {o : Openers} {source : DynSource} {spec : Locator} {depth : Nat}
    {creds : CredentialSource}
    (h : ∀ ls s, depth + ls.length ≤ maxDepth → Peels o creds source ls s →
      AttemptsFail o creds s) :
    o.openWithCredentials source spec depth creds =
      o.withoutAttempts.openWithCredentials source spec depth creds := by
  rw [openWithCredentials_eq_search, openWithCredentials_eq_search]
  apply search_congr
  intro k n hk p
  obtain ⟨ls, hlen, hs, -⟩ := peels_of_path p
  have hfail : AttemptsFail o creds n.source := by
    refine h ls n.source ?_ hs
    unfold levels at hk
    omega
  cases hw : sniffWindow n.source with
  | error e =>
    unfold descentItems
    rw [hw]
  | ok w =>
    rw [descentItems_eq o creds n hw, descentItems_eq o.withoutAttempts creds n hw,
      firstItems_withoutAttempts, attemptItems_eq_nil hw hfail,
      attemptItems_eq_nil hw hfail.withoutAttempts]

/-- A scheme that decrypts nothing, on a source nobody knows. -/
theorem attempts_invisible_unknown :
    let o : Openers :=
      { encryption := [fakeAttempt fun _ =>
          .ok ⟨.veraCrypt, fun _ => .error (.needCredentials "veracrypt" "test")⟩] }
    o.openWithCredentials (memSource (str "data")) (.root (.range 0 4)) 0 noCredentials =
      o.withoutAttempts.openWithCredentials (memSource (str "data")) (.root (.range 0 4)) 0
        noCredentials := by
  apply attempts_invisible
  intro ls s _ _ w _ e he _
  obtain rfl := List.mem_singleton.mp he
  exact ⟨_, _, rfl, rfl⟩

/-! ## Attempts that decide -/

section Tagged

variable (o : Openers) (creds : CredentialSource)

/-- The items of a node, those of the openers that are taken out marked by `false`. -/
noncomputable def taggedItems (n : Node) : List (Bool × Item VfsError Resolved Node) :=
  match sniffWindow n.source with
  | .error e => [(true, .fail e)]
  | .ok w => (firstItems o creds w n).map (true, ·) ++
    (o.encryption.filter fun e => e.probe w == .maybe).flatMap fun e =>
      (attemptOf creds n e).map (e.sometimesYes, ·)

theorem all_taggedItems : all (taggedItems o creds) = descentItems o creds := by
  funext n
  unfold all taggedItems
  cases hw : sniffWindow n.source with
  | error e => simp [descentItems, hw]
  | ok w =>
    rw [descentItems_eq o creds n hw, List.map_append, List.map_map, List.map_flatMap]
    congr 1
    · exact List.map_id _
    · unfold attemptItems
      apply List.flatMap_congr
      intro e _
      rw [List.map_map]
      exact List.map_id _

theorem kept_taggedItems : kept (taggedItems o creds) = descentItems o.withoutAttempts creds := by
  funext n
  unfold kept taggedItems
  cases hw : sniffWindow n.source with
  | error e => simp [descentItems, hw]
  | ok w =>
    rw [descentItems_eq o.withoutAttempts creds n hw, firstItems_withoutAttempts,
      List.filter_append, List.map_append]
    congr 1
    · rw [List.filter_map, List.map_map]
      simp [Function.comp_def]
    · have htag : ∀ e : EncryptionOpen,
          (((attemptOf creds n e).map (e.sometimesYes, ·)).filter Prod.fst).map Prod.snd =
            if e.sometimesYes then (attemptOf creds n e : List (Item VfsError Resolved Node))
            else [] := by
        intro e
        rw [List.filter_map, List.map_map]
        cases e.sometimesYes <;> simp [Function.comp_def]
      unfold attemptItems Openers.withoutAttempts
      rw [List.filter_flatMap, List.map_flatMap]
      simp only [htag]
      rw [← flatMap_filter, List.filter_filter, List.filter_filter]
      simp only [Bool.and_comm]

variable {o creds}

theorem descentItems_split {n : Node} {before after : List (Bool × Item VfsError Resolved Node)}
    {p : Bool × Item VfsError Resolved Node} (hn : taggedItems o creds n = before ++ p :: after) :
    descentItems o creds n = before.map Prod.snd ++ p.2 :: after.map Prod.snd := by
  rw [← all_taggedItems, all, hn, List.map_append, List.map_cons]

/-- An item marked `false` is an attempt of an opener that is taken out, and the items of the
earlier passes come before it. -/
theorem taggedItems_split {n : Node} {before after : List (Bool × Item VfsError Resolved Node)}
    {item : Item VfsError Resolved Node}
    (hn : taggedItems o creds n = before ++ (false, item) :: after) :
    ∃ w e, sniffWindow n.source = .ok w ∧ e ∈ o.encryption ∧ e.sometimesYes = false ∧
      e.probe w = .maybe ∧ item ∈ attemptOf creds n e ∧
      ∀ it ∈ firstItems o creds w n, (true, it) ∈ before := by
  unfold taggedItems at hn
  cases hw : sniffWindow n.source with
  | error e =>
    rw [hw] at hn
    have hn' : [(true, Item.fail e)] ++ [] = before ++ (false, item) :: after := hn
    obtain ⟨mid, -, hrest⟩ := split_of_not_mem hn' (by simp)
    simp at hrest
  | ok w =>
    rw [hw] at hn
    obtain ⟨mid, hbefore, hrest⟩ := split_of_not_mem hn (by simp)
    have hmem : (false, item) ∈ mid ++ (false, item) :: after :=
      List.mem_append_right mid List.mem_cons_self
    rw [← hrest] at hmem
    obtain ⟨e, he, hitem⟩ := List.mem_flatMap.mp hmem
    obtain ⟨he, hmaybe⟩ := List.mem_filter.mp he
    obtain ⟨it, hit, heq⟩ := List.mem_map.mp hitem
    obtain ⟨hyes, rfl⟩ := Prod.mk.inj heq
    refine ⟨w, e, rfl, he, hyes, eq_of_beq hmaybe, hit, fun it' hit' => ?_⟩
    rw [hbefore]
    exact List.mem_append_left mid (List.mem_map.mpr ⟨it', hit', rfl⟩)

end Tagged

/-! ## What an attempt can take away -/

section Decide

variable (o : Openers) (creds : CredentialSource) (n : Node) (depth : Nat)

/-- The descent into a child of the node. -/
def descendFrom (m : Node) : VfsResult (Option Resolved) :=
  o.openWithCredentials m.source m.spec (depth + 1) creds

/-- The passes of a node before the last resort all answer `none`. -/
def Declined (w : SniffWindow) : Prop :=
  mountFilesystem o w n.source n.spec = .ok none ∧
    descendVolumes o w n.source n.spec depth (fun s sp d => o.openWithCredentials s sp d creds) =
      .ok none ∧
    (∃ attempt, descendSignatureEncryption o w n.source n.spec depth creds
      (fun s sp d => o.openWithCredentials s sp d creds) = .ok (none, attempt)) ∧
    descendPackaging o w n.source n.spec depth (fun s sp d => o.openWithCredentials s sp d creds) =
      .ok none

/-- The attempt of `e` at the node answers `x`: its construction fails with `x`, or it decrypts and
the descent into the plaintext answers `x`, which is not `none`. -/
def AttemptAnswers (e : EncryptionOpen) (x : VfsResult (Option Resolved)) : Prop :=
  (∃ err, e.open n.source = .error err ∧ x = .error err) ∨
    ∃ layer t, e.open n.source = .ok layer ∧ layer.open creds = .ok t ∧
      o.openWithCredentials t (n.spec.push (.encryption e.scheme)) (depth + 1) creds = x ∧
      x ≠ .ok none

variable {o creds n depth}

theorem descendFrom_eq :
    descendFrom o creds depth = search (descentItems o creds) (levels (depth + 1)) := by
  funext m
  exact openWithCredentials_eq_search o creds m.source m.spec (depth + 1)

theorem declined_of_firstItems {w : SniffWindow}
    (h : ∀ it ∈ firstItems o creds w n, visit (descendFrom o creds depth) it = .ok none) :
    Declined o creds n depth w := by
  have hrec : ∀ m : Node, o.openWithCredentials m.source m.spec (depth + 1) creds =
      descendFrom o creds depth m := fun m => rfl
  simp only [firstItems, List.mem_append] at h
  refine ⟨?_, ?_, ?_, ?_⟩
  · have hmount := mountFilesystem_eq o w n.source n.spec (descendFrom o creds depth)
    exact hmount.trans (findSomeM?_eq_none fun it hit => h it (.inl (.inl (.inl hit))))
  · refine (descendVolumes_eq o w n.source n.spec depth hrec).trans ?_
    exact findSomeM?_eq_none fun it hit => h it (.inl (.inl (.inr hit)))
  · have hnone : (signatureItems o creds w n).findSomeM? (visit (descendFrom o creds depth)) =
        .ok none :=
      findSomeM?_eq_none fun it hit => h it (.inl (.inr hit))
    have hsig : Prod.fst <$> descendSignatureEncryption o w n.source n.spec depth creds
        (fun s sp d => o.openWithCredentials s sp d creds) =
          (signatureItems o creds w n).findSomeM? (visit (descendFrom o creds depth)) := by
      apply descendSignatureEncryption_eq o creds w n.source n.spec depth
      exact hrec
    obtain ⟨⟨found, attempt⟩, hloop, hfound⟩ := map_eq_ok.mp (hsig.trans hnone)
    cases hfound
    exact ⟨attempt, hloop⟩
  · refine (descendPackaging_eq o w n.source n.spec depth hrec).trans ?_
    exact findSomeM?_eq_none fun it hit => h it (.inr hit)

theorem attemptAnswers_of_visit {e : EncryptionOpen} {item : Item VfsError Resolved Node}
    {x : VfsResult (Option Resolved)} (hitem : item ∈ attemptOf creds n e)
    (hx : visit (descendFrom o creds depth) item = x) (hne : x ≠ .ok none) :
    AttemptAnswers o creds n depth e x := by
  unfold attemptOf at hitem
  cases hl : e.open n.source with
  | error err =>
    simp only [hl, List.mem_singleton] at hitem
    subst hitem
    exact .inl ⟨err, hl, hx.symm⟩
  | ok layer =>
    cases ht : layer.open creds with
    | error err => simp [hl, ht] at hitem
    | ok t =>
      simp only [hl, ht, List.mem_singleton] at hitem
      subst hitem
      exact .inr ⟨layer, t, hl, ht, hx, hne⟩

theorem AttemptAnswers.ne_none {e : EncryptionOpen} {x : VfsResult (Option Resolved)}
    (h : AttemptAnswers o creds n depth e x) : x ≠ .ok none := by
  rcases h with ⟨err, -, rfl⟩ | ⟨layer, t, -, -, -, hne⟩
  · exact fun hx => nomatch hx
  · exact hne

/-- What the opener's attempt answers is what its item answers when the descent visits it. -/
theorem AttemptAnswers.visit_eq {e : EncryptionOpen} {item : Item VfsError Resolved Node}
    {x : VfsResult (Option Resolved)} (h : AttemptAnswers o creds n depth e x)
    (hitem : item ∈ attemptOf creds n e) : visit (descendFrom o creds depth) item = x := by
  unfold attemptOf at hitem
  rcases h with ⟨err, hl, rfl⟩ | ⟨layer, t, hl, ht, hx, -⟩
  · rw [hl] at hitem
    obtain rfl := List.mem_singleton.mp hitem
    rfl
  · simp only [hl, ht, List.mem_singleton] at hitem
    subst hitem
    exact hx

/-- The opener `e`, which is taken out, decides the descent from `start` at the node `n` below the
layers `ls`, with the outcome `x`. -/
structure DecidesAt (o : Openers) (creds : CredentialSource) (start : Node) (depth : Nat)
    (ls : List Layer) (n : Node) (e : EncryptionOpen) (x : VfsResult (Option Resolved)) : Prop where
  within : depth + ls.length ≤ maxDepth
  /-- No layer on the way to the node was peeled by an opener that is taken out. -/
  peels : Peels o.withoutAttempts creds start.source ls n.source
  spec : n.spec = start.spec.pushAll ls
  /-- The descent gets to the node: on the way everything offered earlier has answered `none`. -/
  visited : ∃ π, Visits (descentItems o creds) (levels depth) start π
    (levels (depth + ls.length)) n
  removed : e ∈ o.encryption ∧ e.sometimesYes = false
  /-- The opener answers `maybe`, and the node's earlier passes all decline. -/
  declined : ∃ w, sniffWindow n.source = .ok w ∧ e.probe w = .maybe ∧
    Declined o creds n (depth + ls.length) w
  /-- At the node itself, too, everything before the attempt has answered `none`. -/
  first : ∃ before item after, descentItems o creds n = before ++ item :: after ∧
    item ∈ attemptOf creds n e ∧
    ∀ it ∈ before, visit (descendFrom o creds (depth + ls.length)) it = .ok none
  answers : AttemptAnswers o creds n (depth + ls.length) e x

/-- The attempt of an opener that is taken out decides the descent with the outcome `x`. -/
def AttemptDecides (o : Openers) (creds : CredentialSource) (start : Node) (depth : Nat)
    (x : VfsResult (Option Resolved)) : Prop :=
  ∃ ls n e, DecidesAt o creds start depth ls n e x

theorem AttemptDecides.ne_none {start : Node} {x : VfsResult (Option Resolved)}
    (h : AttemptDecides o creds start depth x) : x ≠ .ok none := by
  obtain ⟨ls, n, e, h⟩ := h
  exact h.answers.ne_none

/-- **The outcome of the descent is what the deciding attempt answers.** -/
theorem AttemptDecides.openWithCredentials_eq {start : Node} {x : VfsResult (Option Resolved)}
    (h : AttemptDecides o creds start depth x) :
    o.openWithCredentials start.source start.spec depth creds = x := by
  obtain ⟨ls, n, e, h⟩ := h
  obtain ⟨π, hvisit⟩ := h.visited
  obtain ⟨before, item, after, hn, hitem, hb⟩ := h.first
  have hx := h.answers.visit_eq hitem
  rw [descendFrom_eq] at hx hb
  have hnode : search (descentItems o creds) (levels (depth + ls.length)) n = x := by
    rw [levels_succ h.within, search, hn, findSomeM?_append, findSomeM?_eq_none hb, firstSome_none,
      findSomeM?_cons_eq, hx, firstSome_of_ne_none h.answers.ne_none]
  rw [openWithCredentials_eq_search]
  exact hvisit.search_eq hnode h.answers.ne_none

theorem depth_le_of_levels {d : Nat} (hd : levels depth = d + 1) : depth ≤ maxDepth := by
  unfold levels at hd
  omega

theorem levels_of_levels_succ {d : Nat} (hd : levels depth = d + 1) : levels (depth + 1) = d := by
  have hle := depth_le_of_levels hd
  rw [levels_succ hle] at hd
  omega

theorem attemptDecides_of_stolen {d : Nat} {x : VfsResult (Option Resolved)}
    (h : Stolen (taggedItems o creds) d n x) (hd : levels depth = d) :
    AttemptDecides o creds n depth x := by
  induction h generalizing depth with
  | @here d n before after item x hn hb hx hne =>
    obtain rfl := levels_of_levels_succ hd
    rw [all_taggedItems, ← descendFrom_eq] at hb hx
    obtain ⟨w, e, hw, he, hyes, hmaybe, hitem, hfirst⟩ := taggedItems_split hn
    have hdecl : Declined o creds n depth w :=
      declined_of_firstItems fun it hit => hb _ (hfirst it hit)
    refine ⟨[], n, e, ⟨depth_le_of_levels hd, .nil n.source, rfl, ⟨[], .refl (levels depth) n⟩,
      ⟨he, hyes⟩, ⟨w, hw, hmaybe, hdecl⟩, ?_, attemptAnswers_of_visit hitem hx hne⟩⟩
    refine ⟨_, item, _, descentItems_split hn, hitem, fun it hit => ?_⟩
    obtain ⟨p, hp, rfl⟩ := List.mem_map.mp hit
    exact hb p hp
  | @beneath d n m before after x hn hb h ih =>
    rw [all_taggedItems] at hb
    have hd' := levels_of_levels_succ hd
    have hchild : .child m ∈ descentItems o.withoutAttempts creds n := by
      rw [← kept_taggedItems]
      refine List.mem_map.mpr ⟨(true, .child m), List.mem_filter.mpr ⟨?_, rfl⟩, rfl⟩
      rw [hn]
      exact List.mem_append_right before List.mem_cons_self
    obtain ⟨l, hl, hspec⟩ := peel_of_descentItems hchild
    obtain ⟨ls, n', e, hdec⟩ := ih hd'
    obtain ⟨π, hvisit⟩ := hdec.visited
    have hlen : depth + (l :: ls).length = depth + 1 + ls.length := by
      rw [List.length_cons]
      omega
    refine ⟨l :: ls, n', e, ⟨hlen ▸ hdec.within, .cons hl hdec.peels, ?_, ?_, hdec.removed,
      hlen ▸ hdec.declined, hlen ▸ hdec.first, hlen ▸ hdec.answers⟩⟩
    · rw [hdec.spec, hspec, Locator.pushAll_cons]
    · refine ⟨(before.map Prod.snd).length :: π, ?_⟩
      rw [hlen, hd]
      rw [hd'] at hvisit
      refine .child (descentItems_split hn) (fun it hit => ?_) hvisit
      obtain ⟨p, hp, rfl⟩ := List.mem_map.mp hit
      exact hb p hp

end Decide

/-- The full table answers as the table without the credential-attempt schemes, or one of their
attempts decides. -/
theorem attempts_decide (o : Openers) (source : DynSource) (spec : Locator) (depth : Nat)
    (creds : CredentialSource) :
    o.openWithCredentials source spec depth creds =
        o.withoutAttempts.openWithCredentials source spec depth creds ∨
      AttemptDecides o creds ⟨source, spec⟩ depth
        (o.openWithCredentials source spec depth creds) := by
  have h : search (all (taggedItems o creds)) (levels depth) ⟨source, spec⟩ =
      search (kept (taggedItems o creds)) (levels depth) ⟨source, spec⟩ ∨
      ∃ x : VfsResult (Option Resolved),
        Stolen (taggedItems o creds) (levels depth) ⟨source, spec⟩ x :=
    search_prune (levels depth) (Node.mk source spec)
  rcases h with h | ⟨x, h⟩
  · rw [all_taggedItems, kept_taggedItems] at h
    rw [openWithCredentials_eq_search, openWithCredentials_eq_search]
    exact .inl h
  · have hx := h.search_eq
    rw [all_taggedItems] at hx
    rw [openWithCredentials_eq_search o, hx]
    exact .inr (attemptDecides_of_stolen h rfl)

/-- **Registering a credential-attempt scheme keeps the evidence, or decides first**: a filesystem
found without the schemes is found with them, unless the descent, before it gets there, comes to a
node that all other passes declined and at which one of their attempts fails to construct or
decrypts to something the descent has an answer for. Such an attempt always decides, and the answer
is never `none`. -/
theorem attempts_keep_evidence {o : Openers} {source : DynSource} {spec : Locator} {depth : Nat}
    {creds : CredentialSource} {r : Resolved}
    (h : o.withoutAttempts.openWithCredentials source spec depth creds = .ok (some r)) :
    let out := o.openWithCredentials source spec depth creds
    (out = .ok (some r) ∨ (out ≠ .ok none ∧ AttemptDecides o creds ⟨source, spec⟩ depth out)) ∧
      ∀ x, AttemptDecides o creds ⟨source, spec⟩ depth x → out = x := by
  intro out
  refine ⟨?_, fun x hx => hx.openWithCredentials_eq⟩
  rcases attempts_decide o source spec depth creds with heq | hdec
  · exact .inl (heq.trans h)
  · exact .inr ⟨hdec.ne_none, hdec⟩

/-- Two volumes, the second a filesystem, and a scheme that constructs over no source. -/
def brokenScheme : Openers where
  volumeSystems := [fakeVsProbe (str "GPT!") [memSource (str "data"), memSource (str "FSFS")]
    (by decide)]
  filesystems := [fakeFsProbe (str "FSFS")]
  encryption := [fakeAttempt fun _ => .error (.bootstrap "veracrypt" "test")]

theorem brokenScheme_withoutAttempts :
    brokenScheme.withoutAttempts = { brokenScheme with encryption := [] } := by
  apply Openers.withoutAttempts_eq
  intro e he w
  obtain rfl := List.mem_singleton.mp he
  rfl

theorem attempts_keep_evidence_volume :
    let base := Locator.root (.range 0 4)
    let top := base.push (.volume .gpt 1 none)
    let r : Resolved :=
      ⟨emptyFs, top.push (.fs ⟨str "ntfs"⟩ (.path [])), memSource (str "FSFS"), top⟩
    let out := brokenScheme.openWithCredentials (memSource (str "GPT!")) base 0 noCredentials
    (out = .ok (some r) ∨ (out ≠ .ok none ∧
      AttemptDecides brokenScheme noCredentials ⟨memSource (str "GPT!"), base⟩ 0 out)) ∧
      ∀ x, AttemptDecides brokenScheme noCredentials ⟨memSource (str "GPT!"), base⟩ 0 x →
        out = x := by
  apply attempts_keep_evidence
  rw [brokenScheme_withoutAttempts]
  rfl

/-- The attempt at the first volume takes the filesystem of the second one away. -/
theorem attempt_hides_later_volume :
    (∃ r, brokenScheme.withoutAttempts.openWithCredentials (memSource (str "GPT!"))
      (.root (.range 0 4)) 0 noCredentials = .ok (some r)) ∧
    ∀ r, brokenScheme.openWithCredentials (memSource (str "GPT!")) (.root (.range 0 4)) 0
      noCredentials ≠ .ok (some r) := by
  rw [brokenScheme_withoutAttempts]
  refine ⟨⟨_, rfl⟩, fun r hr => ?_⟩
  have herr : brokenScheme.openWithCredentials (memSource (str "GPT!")) (.root (.range 0 4)) 0
      noCredentials = .error (.bootstrap "veracrypt" "test") := rfl
  rw [herr] at hr
  exact nomatch hr

end ForensicVfs
