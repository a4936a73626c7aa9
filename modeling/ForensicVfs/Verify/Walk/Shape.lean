import Mathlib.Logic.Equiv.Basic
import ForensicVfs.Verify.Walk.Order

/-!
# What the walk depends on

Two filesystems have the same shape (`SameShape`) where related nodes list related nodes under the
same names, have metadata of the same kind and fail alike, and the relation keeps equal ids equal
and different ids different. `walk` then answers alike on both (`walk_same_shape`): the same paths
in the same order, or the same failure. So it sees no more of an id than whether it has visited it,
nothing of the kind that a directory entry carries, of the metadata the kind alone, and nothing of
the nodes out of reach.
-/

namespace ForensicVfs

open Result

section Shape

/-- The entries have the same name and related nodes. -/
def SameEntry (R : FileId → FileId → Prop) (e e' : DirEntry) : Prop :=
  e.name = e'.name ∧ R e.id e'.id

/-- The relation matches the nodes of two filesystems, as far as `walk` looks at them. -/
structure SameShape (fs fs' : FileSystem) (R : FileId → FileId → Prop)
    (M : FsMeta → FsMeta → Prop) : Prop where
  root : R fs.root fs'.root
  ids : ∀ {a a' b b'}, R a a' → R b b' → (a = b ↔ a' = b')
  readDir : ∀ {d d'}, R d d' →
    Agree (List.Forall₂ (Agree (SameEntry R))) (fs.readDir d) (fs'.readDir d')
  «meta» : ∀ {id id'}, R id id' → Agree M (fs.meta id) (fs'.meta id')
  kind : ∀ {m m'}, M m m' → m.kind = m'.kind

variable (R : FileId → FileId → Prop) (M : FsMeta → FsMeta → Prop)

/-- The entries of two walks have the same path, related nodes and related metadata. -/
structure SameWalkEntry (w w' : WalkEntry) : Prop where
  path : w.path = w'.path
  id : R w.id w'.id
  «meta» : M w.meta w'.meta

/-- The directories have the same path and depth, and related nodes. -/
structure SamePending (dir dir' : Pending) : Prop where
  pre : dir.pre = dir'.pre
  dirId : R dir.dirId dir'.dirId
  depth : dir.depth = dir'.depth

/-- The variables of the two loops correspond. -/
structure SameState (σ σ' : WalkState) : Prop where
  out : List.Forall₂ (SameWalkEntry R M) σ.out σ'.out
  visited : List.Forall₂ R σ.visited σ'.visited
  stack : List.Forall₂ (SamePending R) σ.stack σ'.stack

variable {R M}

theorem SameState.pop {out : List WalkEntry} {visited : List FileId} {dir : Pending}
    {stack : List Pending} {σ' : WalkState} (h : SameState R M ⟨out, visited, dir :: stack⟩ σ') :
    ∃ out' visited' dir' stack', σ' = ⟨out', visited', dir' :: stack'⟩ ∧ SamePending R dir dir' ∧
      SameState R M ⟨out, visited, stack⟩ ⟨out', visited', stack'⟩ := by
  obtain ⟨out', visited', stack'⟩ := σ'
  obtain ⟨hout, hvisited, hstack⟩ := h
  cases hstack with
  | cons hdir hstack => exact ⟨_, _, _, _, rfl, hdir, hout, hvisited, hstack⟩

variable {fs fs' : FileSystem} (h : SameShape fs fs' R M)
include h

theorem SameShape.mem_iff {d d' : FileId} (hd : R d d') {ids ids' : List FileId}
    (hids : List.Forall₂ R ids ids') : d ∈ ids ↔ d' ∈ ids' := by
  induction hids with
  | nil => simp
  | cons ha _ ih => rw [List.mem_cons, List.mem_cons, h.ids hd ha, ih]

theorem SameShape.walkEntry {dir dir' : Pending} (hdir : SamePending R dir dir') {σ σ' : WalkState}
    (hσ : SameState R M σ σ') {entry entry' : VfsResult DirEntry}
    (hentry : Agree (SameEntry R) entry entry') :
    Agree (SameState R M) (walkEntry fs dir σ entry) (walkEntry fs' dir' σ' entry') := by
  refine hentry.bind fun e e' ⟨hname, hid⟩ => ?_
  rw [hname]
  by_cases hdot : isDot e'.name = true
  · rw [if_pos hdot, if_pos hdot]
    exact .ok hσ
  · rw [if_neg hdot, if_neg hdot]
    refine (h.meta hid).bind fun m m' hm => ?_
    have hw : SameWalkEntry R M ⟨dir.pre ++ [e'.name], e.id, m⟩
        ⟨dir'.pre ++ [e'.name], e'.id, m'⟩ := ⟨by rw [hdir.pre], hid, hm⟩
    have hout := List.rel_append hσ.out (.cons hw .nil)
    rw [h.kind hm]
    by_cases hkind : (m'.kind == .dir) = true
    · rw [if_pos hkind, if_pos hkind]
      refine .ok ⟨hout, hσ.visited, .cons ⟨?_, hid, ?_⟩ hσ.stack⟩
      · rw [hdir.pre]
      · rw [hdir.depth]
    · rw [if_neg hkind, if_neg hkind]
      exact .ok ⟨hout, hσ.visited, hσ.stack⟩

theorem SameShape.walkStep {dir dir' : Pending} (hdir : SamePending R dir dir') {σ σ' : WalkState}
    (hσ : SameState R M σ σ') :
    Agree (SameState R M) (walkStep fs dir σ) (walkStep fs' dir' σ') := by
  have hskip : (dir.depth > walkMaxDepth ∨ dir.dirId ∈ σ.visited) ↔
      (dir'.depth > walkMaxDepth ∨ dir'.dirId ∈ σ'.visited) := by
    rw [hdir.depth, h.mem_iff hdir.dirId hσ.visited]
  unfold ForensicVfs.walkStep
  by_cases hdir' : dir'.depth > walkMaxDepth ∨ dir'.dirId ∈ σ'.visited
  · rw [if_pos hdir', if_pos (hskip.mpr hdir')]
    exact .ok hσ
  · rw [if_neg hdir', if_neg (mt hskip.mp hdir')]
    refine (h.readDir hdir.dirId).bind fun entries entries' hentries => ?_
    refine agree_foldlM (T := Agree (SameEntry R)) ?_ hentries ?_
    · exact fun a a' c c' ha hc => h.walkEntry hdir ha hc
    · exact ⟨hσ.out, .cons hdir.dirId hσ.visited, hσ.stack⟩

/-- **The rest of the loops** answers alike. -/
theorem SameShape.walkLoop {σ σ' : WalkState} (hσ : SameState R M σ σ') :
    Agree (List.Forall₂ (SameWalkEntry R M)) (walkLoop fs σ) (walkLoop fs' σ') := by
  induction σ using walkLoop.induct fs generalizing σ' with
  | case1 out visited =>
    obtain ⟨out', visited', stack'⟩ := σ'
    cases hσ.stack
    rw [walkLoop_nil, walkLoop_nil]
    exact .ok hσ.out
  | case2 out visited dir stack e hstep =>
    obtain ⟨out', visited', dir', stack', rfl, hdir, hσ⟩ := hσ.pop
    have hstep' := h.walkStep hdir hσ
    rw [walkLoop_cons, walkLoop_cons]
    rw [hstep] at hstep' ⊢
    generalize ForensicVfs.walkStep fs' dir' _ = y at hstep' ⊢
    cases hstep'
    exact .error e
  | case3 out visited dir stack σ hstep ih =>
    obtain ⟨out', visited', dir', stack', rfl, hdir, hσ⟩ := hσ.pop
    have hstep' := h.walkStep hdir hσ
    rw [walkLoop_cons, walkLoop_cons]
    rw [hstep] at hstep' ⊢
    generalize ForensicVfs.walkStep fs' dir' _ = y at hstep' ⊢
    cases hstep' with
    | ok hσ => exact ih hσ

omit h in
/-- **`walk` answers alike on filesystems of the same shape.** -/
theorem walk_same_shape (h : SameShape fs fs' R M) :
    Agree (List.Forall₂ (SameWalkEntry R M)) (walk fs) (walk fs') := by
  apply h.walkLoop
  exact ⟨.nil, .nil, .cons ⟨rfl, h.root, rfl⟩ .nil⟩

end Shape

/-! ## Other numbers for the nodes -/

/-- The filesystem with other numbers for its nodes. -/
def renumber (f : FileId ≃ FileId) (fs : FileSystem) : FileSystem where
  kind := fs.kind
  root := f fs.root
  readDir d := (fs.readDir (f.symm d)).map fun entries =>
    entries.map fun entry => entry.map fun e => { e with id := f e.id }
  «meta» id := fs.meta (f.symm id)

theorem sameShape_renumber (f : FileId ≃ FileId) (fs : FileSystem) :
    SameShape fs (renumber f fs) (fun a b => f a = b) Eq := by
  refine ⟨rfl, ?_, ?_, ?_, fun h => congrArg FsMeta.kind h⟩
  · rintro a _ b _ rfl rfl
    exact f.injective.eq_iff.symm
  · rintro d _ rfl
    simp only [renumber, Equiv.symm_apply_apply]
    cases fs.readDir d with
    | error e => exact .error e
    | ok entries =>
      refine .ok ?_
      rw [List.forall₂_map_right_iff]
      refine List.forall₂_same.mpr fun entry _ => ?_
      cases entry with
      | error e => exact .error e
      | ok e => exact .ok ⟨rfl, rfl⟩
  · rintro id _ rfl
    simp only [renumber, Equiv.symm_apply_apply]
    cases fs.meta id with
    | error e => exact .error e
    | ok m => exact .ok rfl

/-- The knot with an NTFS reference for its directory. -/
def renumberedKnot : FileSystem :=
  renumber (Equiv.swap (.opaqueId 1) (.ntfsRef 5 2)) knotFs

theorem walk_same_shape_knot :
    Agree (List.Forall₂ (SameWalkEntry
        (fun a b => Equiv.swap (.opaqueId 1) (.ntfsRef 5 2) a = b) Eq))
      (walk knotFs) (walk renumberedKnot) :=
  walk_same_shape (sameShape_renumber _ knotFs)

end ForensicVfs
