import ForensicVfs.Resolver.Doubles
import ForensicVfs.Verify.Descent.Tree

/-!
# What becomes of a definite verdict

At every node the mount loop opens the first filesystem opener that does not say no, whether it is
sure or not and whoever else is. So a sole definite verdict is kept unless a less certain opener is
registered before it, and a tie between definite verdicts goes to the first instead of being
reported (`verdicts_kept_iff`).
-/

namespace ForensicVfs

open Result OrderedSearch

/-! ## Verdicts -/

/-- The openers that are sure of the window, in registration order. -/
def yesOpeners (o : Openers) (w : SniffWindow) : List FileSystemOpen :=
  o.filesystems.filter fun p => (p.probe w).isYes

/-- The first opener that would try. -/
def firstCandidate (o : Openers) (w : SniffWindow) : Option FileSystemOpen :=
  o.filesystems.find? fun p => (p.probe w).isCandidate

theorem Confidence.isCandidate_of_isYes {c : Confidence} (h : c.isYes = true) :
    c.isCandidate = true := by
  cases c with
  | no => cases h
  | maybe => rfl
  | yes how => rfl

/-- Where an opener is sure, some opener would try. -/
theorem exists_firstCandidate {o : Openers} {w : SniffWindow} (h : yesOpeners o w ≠ []) :
    ∃ q, firstCandidate o w = some q := by
  obtain ⟨p, hp⟩ := List.exists_mem_of_ne_nil _ h
  obtain ⟨hmem, hyes⟩ := List.mem_filter.mp hp
  cases hq : firstCandidate o w with
  | some q => exact ⟨q, rfl⟩
  | none =>
    have hno := List.find?_eq_none.mp hq p hmem
    exact absurd (Confidence.isCandidate_of_isYes hyes) hno

/-- What the descent answers when the opener mounts the node. -/
def mountBy (p : FileSystemOpen) (n : Node) : VfsResult (Option Resolved) :=
  (p.open n.source).map fun fs =>
    some { fs, spec := n.spec.push (.fs p.kind (.path [])), source := n.source,
           sourceSpec := n.spec }

/-- The verdicts at a node decide the descent: a sole definite opener mounts the node, and two or
more are reported. -/
structure VerdictsKept (o : Openers) (creds : CredentialSource) (base : Node) (depth : Nat)
    (n : Node) (w : SniffWindow) : Prop where
  sole : ∀ p, yesOpeners o w = [p] →
    o.openWithCredentials base.source base.spec depth creds = mountBy p n
  tie : 2 ≤ (yesOpeners o w).length → ∃ candidates,
    o.openWithCredentials base.source base.spec depth creds = .error (.ambiguous candidates)

/-- Two openers that make the same of a source: one filesystem object under one kind, or one
error. -/
def OpensAlike (q p : FileSystemOpen) (s : DynSource) : Prop :=
  q.open s = p.open s ∧ ∀ fs, p.open s = .ok fs → q.kind = p.kind

/-- The first candidate does what the verdicts ask for: it opens the source as the sole definite
opener would, or reports the tie itself. -/
structure FirstDecides (o : Openers) (w : SniffWindow) (s : DynSource) : Prop where
  sole : ∀ p q, yesOpeners o w = [p] → firstCandidate o w = some q → OpensAlike q p s
  tie : 2 ≤ (yesOpeners o w).length → ∀ q, firstCandidate o w = some q →
    ∃ candidates, q.open s = .error (.ambiguous candidates)

/-- So it does where the sole definite opener is the first candidate. -/
theorem firstDecides_of_sole {o : Openers} {w : SniffWindow} {p : FileSystemOpen}
    (hp : yesOpeners o w = [p]) (hq : firstCandidate o w = some p) (s : DynSource) :
    FirstDecides o w s := by
  refine ⟨fun p' q hp' hq' => ?_, fun htie => ?_⟩
  · cases hq.symm.trans hq'
    cases hp.symm.trans hp'
    exact ⟨rfl, fun _ _ => rfl⟩
  · rw [hp, List.length_singleton] at htie
    omega

/-! ## The mount loop -/

section Descent

variable {o : Openers} {creds : CredentialSource} {base m : Node} {depth k : Nat} {π : List Nat}
  {w : SniffWindow}

theorem mountBy_ne_none (p : FileSystemOpen) (n : Node) : mountBy p n ≠ .ok none := by
  unfold mountBy
  cases p.open n.source with
  | error e => exact nofun
  | ok fs => exact nofun

/-- At a node, the first candidate is the first item. -/
theorem search_eq_mountBy (hw : sniffWindow m.source = .ok w) {q : FileSystemOpen}
    (hq : firstCandidate o w = some q) : search (descentItems o creds) (k + 1) m = mountBy q m := by
  have hfirst : (o.filesystems.filter fun p => (p.probe w).isCandidate).head? = some q := by
    rw [List.head?_filter]
    exact hq
  obtain ⟨rest, hrest⟩ := List.head?_eq_some_iff.mp hfirst
  have hitem : visit (search (descentItems o creds) k) (loud (q.open m.source) fun fs =>
      .found { fs, spec := m.spec.push (.fs q.kind (.path [])), source := m.source,
               sourceSpec := m.spec }) = mountBy q m := by
    unfold mountBy
    cases q.open m.source <;> rfl
  simp only [search, descentItems, hw, mountItems, hrest, List.map_cons, List.cons_append]
  rw [findSomeM?_cons_eq, hitem, firstSome_of_ne_none (mountBy_ne_none q m)]

/-- **The first candidate decides the descent** at every node it reaches. -/
theorem open_eq_mountBy (hvisit : Visits (descentItems o creds) (levels depth) base π (k + 1) m)
    (hw : sniffWindow m.source = .ok w) {q : FileSystemOpen} (hq : firstCandidate o w = some q) :
    o.openWithCredentials base.source base.spec depth creds = mountBy q m := by
  rw [openWithCredentials_eq_search]
  exact hvisit.search_eq (search_eq_mountBy hw hq) (mountBy_ne_none q m)

theorem mountBy_eq_error_iff {q : FileSystemOpen} {e : VfsError} :
    mountBy q m = .error e ↔ q.open m.source = .error e := by
  unfold mountBy
  cases q.open m.source with
  | error e' =>
    exact ⟨fun h => congrArg _ (Except.error.inj h), fun h => congrArg _ (Except.error.inj h)⟩
  | ok fs => exact ⟨nofun, nofun⟩

/-- Two openers give a node one answer exactly when they make the same of its source. -/
theorem mountBy_eq_iff {q p : FileSystemOpen} :
    mountBy q m = mountBy p m ↔ OpensAlike q p m.source := by
  unfold OpensAlike
  cases hp : p.open m.source with
  | error e =>
    rw [mountBy_eq_error_iff.mpr hp, mountBy_eq_error_iff]
    exact ⟨fun h => ⟨h, nofun⟩, fun h => h.1⟩
  | ok fs =>
    unfold mountBy
    rw [hp]
    cases q.open m.source with
    | error e => exact ⟨nofun, fun h => absurd h.1 nofun⟩
    | ok fs' =>
      constructor
      · intro h
        have hmount := Option.some.inj (Except.ok.inj h)
        have hlayers : m.spec.pushAll [.fs q.kind (.path [])] =
            m.spec.pushAll [.fs p.kind (.path [])] := congrArg Resolved.spec hmount
        have hlayer := (List.cons.inj (m.spec.pushAll_injective hlayers)).1
        exact ⟨congrArg _ (congrArg Resolved.fs hmount), fun _ _ => (Layer.fs.inj hlayer).1⟩
      · rintro ⟨hfs, hkind⟩
        rw [Except.ok.inj hfs, hkind fs rfl]

/-- **Which definite verdicts are kept**: at every node the descent reaches, just those that the
first candidate is not in the way of. -/
theorem verdicts_kept_iff (hvisit : Visits (descentItems o creds) (levels depth) base π (k + 1) m)
    (hw : sniffWindow m.source = .ok w) :
    VerdictsKept o creds base depth m w ↔ FirstDecides o w m.source := by
  constructor
  · intro h
    refine ⟨fun p q hp hq => ?_, fun htie q hq => ?_⟩
    · exact mountBy_eq_iff.mp ((open_eq_mountBy hvisit hw hq).symm.trans (h.sole p hp))
    · obtain ⟨candidates, hopen⟩ := h.tie htie
      exact ⟨candidates, mountBy_eq_error_iff.mp ((open_eq_mountBy hvisit hw hq).symm.trans hopen)⟩
  · intro h
    refine ⟨fun p hp => ?_, fun htie => ?_⟩
    · obtain ⟨q, hq⟩ := exists_firstCandidate (hp ▸ List.cons_ne_nil p [])
      rw [open_eq_mountBy hvisit hw hq]
      exact mountBy_eq_iff.mpr (h.sole p q hp hq)
    · have hne : yesOpeners o w ≠ [] := List.ne_nil_of_length_pos (by omega)
      obtain ⟨q, hq⟩ := exists_firstCandidate hne
      obtain ⟨candidates, hopen⟩ := h.tie htie q hq
      rw [open_eq_mountBy hvisit hw hq]
      exact ⟨candidates, mountBy_eq_error_iff.mpr hopen⟩

end Descent

/-- An opener that is not sure of anything. -/
def unsureFs : FileSystemOpen where
  kind := ⟨str "fat"⟩
  probe _ := .maybe
  «open» _ := .ok emptyFs

/-- A source that one opener is sure of, and two more tables for it: the guess before the sure one,
and two sure ones. -/
def fsNode : Node := ⟨memSource (str "FSFSFS"), .root (.range 0 6)⟩

def fsWindow : SniffWindow := ⟨0, str "FSFSFS", 6, str "FSFSFS"⟩

def sureFirst : Openers := { filesystems := [fakeFsProbe (str "FSFS"), unsureFs] }

def guessFirst : Openers := { filesystems := [unsureFs, fakeFsProbe (str "FSFS")] }

def bothSure : Openers := { filesystems := [fakeFsProbe (str "FSFS"), fakeFsProbe (str "FS")] }

theorem verdicts_kept_iff_sureFirst :
    VerdictsKept sureFirst noCredentials fsNode 0 fsNode fsWindow :=
  (verdicts_kept_iff (k := maxDepth) (.refl _ _) rfl).mpr (firstDecides_of_sole rfl rfl _)

/-- **Verdicts lost**: a guess is mounted over the sole definite verdict, and the first of two
definite ones is mounted without a word. -/
theorem verdicts_lost : sniffWindow fsNode.source = .ok fsWindow ∧
    ¬VerdictsKept guessFirst noCredentials fsNode 0 fsNode fsWindow ∧
    ¬VerdictsKept bothSure noCredentials fsNode 0 fsNode fsWindow := by
  refine ⟨rfl, fun h => ?_, fun h => ?_⟩
  · have hguess : guessFirst.openWithCredentials fsNode.source fsNode.spec 0 noCredentials =
        mountBy unsureFs fsNode := rfl
    have halike := mountBy_eq_iff.mp (hguess.symm.trans (h.sole (fakeFsProbe (str "FSFS")) rfl))
    exact absurd (halike.2 emptyFs rfl) (by decide)
  · have hfirst : bothSure.openWithCredentials fsNode.source fsNode.spec 0 noCredentials =
        mountBy (fakeFsProbe (str "FSFS")) fsNode := rfl
    obtain ⟨candidates, hopen⟩ := h.tie (by decide)
    cases mountBy_eq_error_iff.mp (hfirst.symm.trans hopen)

end ForensicVfs
