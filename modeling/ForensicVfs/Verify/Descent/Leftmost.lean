import ForensicVfs.Verify.Descent.Source

/-!
# The peel is leftmost

`resolve_to_source` loops over containers, archives and members as if a later one could answer.
Since every source answers at least itself, none ever does: the chain of layers is made by the first
offer of each source on the way (`LeftPeel`), and no other offer supplies the result.
-/

namespace ForensicVfs

open Result OrderedSearch

/-! ## The first offer of a source -/

section LeftPeels

variable (o : Openers)

/-- No container is a candidate, and the archive is the first candidate that does not open to an
empty table of members. -/
def FirstYield (w : SniffWindow) (s : DynSource) (a : ArchiveOpen) : Prop :=
  (∀ c ∈ o.containers, ¬(c.probe w).isCandidate = true) ∧ (a.probe w).isCandidate = true ∧
    ∃ before after, o.archives = before ++ a :: after ∧ ∀ b ∈ before,
      (b.probe w).isCandidate = true → ∃ h, b.open s = .ok (.members [] h)

/-- `t` is what `s` is peeled to first, under the layer: what the first candidate container decodes
it to, or else the stream or the first member of the first archive that yields any. -/
inductive LeftPeel (s : DynSource) : Layer → DynSource → Prop
  | container {c : ContainerOpen} {w : SniffWindow} {t : DynSource} (hw : sniffWindow s = .ok w)
      (hc : o.containers.find? (fun c => (c.probe w).isCandidate) = some c)
      (ht : c.open s = .ok t) : LeftPeel s (.container c.format) t
  | stream {a : ArchiveOpen} {w : SniffWindow} {t : DynSource} (hw : sniffWindow s = .ok w)
      (ha : FirstYield o w s a) (ht : a.open s = .ok (.stream t)) : LeftPeel s (.archive none) t
  | member {a : ArchiveOpen} {w : SniffWindow} {m : Member} {rest : List Member} {hlen}
      (hw : sniffWindow s = .ok w) (ha : FirstYield o w s a)
      (ht : a.open s = .ok (.members (m :: rest) hlen)) :
      LeftPeel s (.archive (some 0)) m.source

/-- A chain of first peels, the outermost first. -/
inductive LeftPeels : DynSource → List Layer → DynSource → Prop
  | nil (s : DynSource) : LeftPeels s [] s
  | cons {s t u : DynSource} {l : Layer} {ls : List Layer} (h : LeftPeel o s l t)
      (hs : LeftPeels t ls u) : LeftPeels s (l :: ls) u

end LeftPeels

/-- A container layer, or an archive layer of a stream or of the first member. -/
def Layer.IsLeftmost : Layer → Prop
  | .container _ => True
  | .archive none => True
  | .archive (some i) => i = 0
  | _ => False

variable {o : Openers}

theorem LeftPeel.isLeftmost {s t : DynSource} {l : Layer} (h : LeftPeel o s l t) :
    l.IsLeftmost := by
  cases h with
  | container => trivial
  | stream => trivial
  | member => rfl

theorem LeftPeels.isLeftmost {s t : DynSource} {ls : List Layer} (h : LeftPeels o s ls t) :
    ∀ l ∈ ls, l.IsLeftmost := by
  induction h with
  | nil s => exact fun l hl => absurd hl List.not_mem_nil
  | cons h _ ih =>
    intro l hl
    rcases List.mem_cons.mp hl with rfl | hl
    · exact h.isLeftmost
    · exact ih l hl

/-! ## The search follows the first offers -/

/-- Where a list of lists begins: at the first one that is not empty. -/
theorem flatMap_eq_cons {α β : Type} {l : List α} {f : α → List β} {b : β} {rest : List β}
    (h : l.flatMap f = b :: rest) : ∃ before a after rest', l = before ++ a :: after ∧
      (∀ x ∈ before, f x = []) ∧ f a = b :: rest' := by
  induction l with
  | nil => cases h
  | cons a l ih =>
    rw [List.flatMap_cons] at h
    cases hfa : f a with
    | nil =>
      rw [hfa, List.nil_append] at h
      obtain ⟨before, a', after, rest', rfl, hb, ha'⟩ := ih h
      refine ⟨a :: before, a', after, rest', rfl, fun x hx => ?_, ha'⟩
      rcases List.mem_cons.mp hx with rfl | hx
      · exact hfa
      · exact hb x hx
    | cons b' rest' =>
      rw [hfa] at h
      cases h
      exact ⟨[], a, l, rest', rfl, fun x hx => absurd hx List.not_mem_nil, hfa⟩

section FirstChild

variable {w : SniffWindow} {n m : Node} {T : Type} {rest : List (Item VfsError T Node)}

theorem leftPeel_of_containerItems (hw : sniffWindow n.source = .ok w)
    (h : containerItems o w n = .child m :: rest) :
    ∃ l, LeftPeel o n.source l m.source ∧ m.spec = n.spec.push l := by
  obtain ⟨c, hc, hm⟩ : ∃ c, (o.containers.filter fun c => (c.probe w).isCandidate).head? = some c ∧
      loud (c.open n.source) (fun decoded => (.child (n.push decoded (.container c.format)) :
        Item VfsError T Node)) = .child m := by
    unfold containerItems at h
    obtain ⟨c, cs, hcs, hm, -⟩ := List.map_eq_cons_iff.mp h
    exact ⟨c, by rw [hcs]; rfl, hm⟩
  rw [List.head?_filter] at hc
  obtain ⟨t, ht, hm⟩ := loud_eq_child.mp hm
  cases hm
  exact ⟨_, .container hw hc ht, rfl⟩

theorem leftPeel_of_archiveItems (hw : sniffWindow n.source = .ok w)
    (hcs : ∀ c ∈ o.containers, ¬(c.probe w).isCandidate = true)
    (h : archiveItems o w n = .child m :: rest) :
    ∃ l, LeftPeel o n.source l m.source ∧ m.spec = n.spec.push l := by
  unfold archiveItems at h
  rw [flatMap_filter] at h
  obtain ⟨before, a, after, rest', hsplit, hbefore, ha⟩ := flatMap_eq_cons h
  by_cases hcand : (a.probe w).isCandidate = true
  · have hfirst : FirstYield o w n.source a := by
      refine ⟨hcs, hcand, before, after, hsplit, fun b hb hbcand => ?_⟩
      have hnil := hbefore b hb
      rw [if_pos hbcand] at hnil
      exact peelsOf_eq_nil.mp hnil
    rw [if_pos hcand] at ha
    unfold peelsOf at ha
    cases hopen : a.open n.source with
    | error e =>
      rw [hopen] at ha
      cases ha
    | ok contents =>
      rw [hopen] at ha
      cases contents with
      | stream inner =>
        cases ha
        exact ⟨_, .stream hw hfirst hopen, rfl⟩
      | members members hlen =>
        cases members with
        | nil => cases ha
        | cons first members =>
          cases ha
          exact ⟨_, .member hw hfirst hopen, rfl⟩
  · rw [if_neg hcand] at ha
    cases ha

/-- **The first child of a source is its first peel.** -/
theorem leftPeel_of_firstChild (h : firstChild (sourceItems o) n = some m) :
    ∃ l, LeftPeel o n.source l m.source ∧ m.spec = n.spec.push l := by
  obtain ⟨rest, hn⟩ := firstChild_eq_some.mp h
  cases hw : sniffWindow n.source with
  | error e =>
    unfold sourceItems at hn
    rw [hw] at hn
    cases hn
  | ok w =>
    rw [sourceItems_eq hw] at hn
    unfold packagingItems at hn
    cases hcontainers : (containerItems o w n : List (Item VfsError ResolvedSource Node)) with
    | nil =>
      have hcs : ∀ c ∈ o.containers, ¬(c.probe w).isCandidate = true := by
        unfold containerItems at hcontainers
        exact List.filter_eq_nil_iff.mp (List.map_eq_nil_iff.mp hcontainers)
      rw [hcontainers, List.nil_append] at hn
      cases harchives : (archiveItems o w n : List (Item VfsError ResolvedSource Node)) with
      | nil =>
        rw [harchives] at hn
        cases hn
      | cons item items =>
        rw [harchives] at hn
        obtain ⟨rfl, -⟩ := List.cons.inj hn
        exact leftPeel_of_archiveItems hw hcs harchives
    | cons item items =>
      rw [hcontainers] at hn
      obtain ⟨rfl, -⟩ := List.cons.inj hn
      exact leftPeel_of_containerItems hw hcontainers

theorem leftPeels_of_firstChildren {k : Nat} (h : firstChildren (sourceItems o) k n = some m) :
    ∃ ls, ls.length = k ∧ LeftPeels o n.source ls m.source ∧ m.spec = n.spec.pushAll ls := by
  induction k generalizing n with
  | zero =>
    obtain rfl := Option.some.inj h
    exact ⟨[], rfl, .nil n.source, rfl⟩
  | succ k ih =>
    obtain ⟨n', hn', hm⟩ := Option.bind_eq_some_iff.mp h
    obtain ⟨l, hl, hspec⟩ := leftPeel_of_firstChild hn'
    obtain ⟨ls, hlen, hls, hspec'⟩ := ih hm
    refine ⟨l :: ls, by rw [List.length_cons, hlen], .cons hl hls, ?_⟩
    rw [hspec', hspec, Locator.pushAll_cons]

end FirstChild

/-- A source answers itself and nothing else. -/
theorem eq_of_found_mem_sourceItems {m : Node} {r : ResolvedSource}
    (h : .found r ∈ sourceItems o m) : r = ⟨m.source, m.spec⟩ := by
  cases hw : sniffWindow m.source with
  | error e =>
    unfold sourceItems at h
    rw [hw] at h
    exact nomatch List.mem_singleton.mp h
  | ok w =>
    rw [sourceItems_eq hw] at h
    rcases List.mem_append.mp h with h | h
    · exact absurd h found_not_mem_packagingItems
    · exact Item.found.inj (List.mem_singleton.mp h)

/-- What supplies the result is the end of a chain of first peels. -/
theorem leftPeels_of_supplies {d : Nat} {n : Node} {π : List Nat} {r : ResolvedSource}
    (h : Supplies (sourceItems o) d n π r) :
    π = List.replicate π.length 0 ∧ π.length < d ∧
      ∃ ls, ls.length = π.length ∧ LeftPeels o n.source ls r.source ∧
        r.spec = n.spec.pushAll ls := by
  obtain ⟨d', m, before, after, hvisit, hm, -⟩ := h
  obtain ⟨hzero, hchildren⟩ := hvisit.leftmost fun n => search_one_ne_none
  obtain rfl := eq_of_found_mem_sourceItems (hm ▸ List.mem_append_right before List.mem_cons_self)
  refine ⟨hzero, ?_, leftPeels_of_firstChildren hchildren⟩
  have hlevels := hvisit.levels
  omega

/-- **`resolve_to_source` follows one leftmost branch.** What it hands back lies a chain of first
peels below the source, under the layers of the chain; and whatever offers supply it, counted from
zero at every source on the way, they are the first ones. -/
theorem resolveToSource_leftmost {o : Openers} {source : DynSource} {spec : Locator}
    {depth : Nat} {r : ResolvedSource} (h : o.resolveToSource source spec depth = .ok (some r)) :
    ∃ ls, r.spec = spec.pushAll ls ∧ depth + ls.length ≤ maxDepth ∧ (∀ l ∈ ls, l.IsLeftmost) ∧
      LeftPeels o source ls r.source ∧
      ∀ π, Supplies (sourceItems o) (levels depth) ⟨source, spec⟩ π r →
        π = List.replicate ls.length 0 := by
  rw [resolveToSource_eq_search] at h
  obtain ⟨π, hsupplies⟩ := search_eq_some_iff.mp h
  obtain ⟨-, hlt, ls, hlen, hls, hspec⟩ := leftPeels_of_supplies hsupplies
  refine ⟨ls, hspec, ?_, hls.isLeftmost, hls, fun σ hσ => ?_⟩
  · unfold levels at hlt
    omega
  · obtain ⟨hzero, -, ls', hlen', -, hspec'⟩ := leftPeels_of_supplies hσ
    obtain rfl := spec.pushAll_injective (hspec'.symm.trans hspec)
    rw [hzero, ← hlen']

/-- A container around an archive of two members. -/
def boxedZip : Openers where
  containers := [fakeContainer (str "EVF") fun _ => memSource (str "PK")]
  archives := [fakeArchive (str "PK")
    (.members [⟨str "a", memSource (str "A")⟩, ⟨str "b", memSource (str "B")⟩] (by decide))]

theorem resolveToSource_leftmost_boxed :
    let base := Locator.root (.range 0 3)
    let r : ResolvedSource :=
      ⟨memSource (str "A"), (base.push (.container .raw)).push (.archive (some 0))⟩
    ∃ ls, r.spec = base.pushAll ls ∧ 0 + ls.length ≤ maxDepth ∧ (∀ l ∈ ls, l.IsLeftmost) ∧
      LeftPeels boxedZip (memSource (str "EVF")) ls r.source ∧
      ∀ π, Supplies (sourceItems boxedZip) (levels 0) ⟨memSource (str "EVF"), base⟩ π r →
        π = List.replicate ls.length 0 :=
  resolveToSource_leftmost (by rfl)

end ForensicVfs
