import ForensicVfs.Verify.Walk.Genuine

/-!
# The order of the walk

A directory goes on the stack in the turn that reports it, and is listed in a later one; so what is
reported hangs on the root or on a directory reported before it (`walk_parents_first`), and the
paths can be built up from left to right.

Two directories the search enters have the same path only where a listing on the way repeats a name:
the paths of the walk tell its entries apart exactly when no directory it lists repeats a name
(`walk_paths_distinct_iff`).
-/

namespace ForensicVfs

open Result DepthFirst

/-! ## Parents first -/

section Parents

variable (fs : FileSystem)

/-- The path and the node are those of a directory among the entries, or of the root. -/
def IsReported (out : List WalkEntry) (path : List Bytes) (d : FileId) : Prop :=
  (path = [] ∧ d = fs.root) ∨ ∃ p ∈ out, p.meta.kind = .dir ∧ p.path = path ∧ p.id = d

/-- The entry is one of a directory among the entries, or of the root, under the path of it. -/
def HangsOn (out : List WalkEntry) (w : WalkEntry) : Prop :=
  ∃ path d e, IsReported fs out path d ∧ Lists fs d e w.meta ∧ w.path = path ++ [e.name] ∧
    w.id = e.id

/-- Every entry hangs on those before it. -/
def ParentsFirst (out : List WalkEntry) : Prop :=
  ∀ before w after, out = before ++ w :: after → HangsOn fs before w

variable {fs}

theorem IsReported.append {out : List WalkEntry} {path : List Bytes} {d : FileId}
    (h : IsReported fs out path d) (ws : List WalkEntry) : IsReported fs (out ++ ws) path d := by
  rcases h with h | ⟨p, hp, h⟩
  · exact .inl h
  · exact .inr ⟨p, List.mem_append_left ws hp, h⟩

theorem HangsOn.append {out : List WalkEntry} {w : WalkEntry} (h : HangsOn fs out w)
    (ws : List WalkEntry) : HangsOn fs (out ++ ws) w := by
  obtain ⟨path, d, e, hd, h⟩ := h
  exact ⟨path, d, e, hd.append ws, h⟩

theorem ParentsFirst.append {out ws : List WalkEntry} (h : ParentsFirst fs out)
    (hws : ∀ w ∈ ws, HangsOn fs out w) : ParentsFirst fs (out ++ ws) := by
  intro before w after hsplit
  rcases List.append_eq_append_iff.mp hsplit with ⟨ws', rfl, hrest⟩ | ⟨out', rfl, hrest⟩
  · exact (hws w (hrest ▸ List.mem_append_right ws' List.mem_cons_self)).append ws'
  · cases out' with
    | nil =>
      rw [List.append_nil] at hws
      rw [List.nil_append] at hrest
      exact hws w (hrest ▸ List.mem_cons_self)
    | cons w' out' =>
      obtain ⟨rfl, rfl⟩ := List.cons.inj hrest
      exact h before _ out' rfl

/-- The directories on the stack have been reported, and what has been reported is in order. -/
structure Ordered (fs : FileSystem) (σ : WalkState) : Prop where
  out : ParentsFirst fs σ.out
  stack : ∀ dir ∈ σ.stack, IsReported fs σ.out dir.pre dir.dirId

/-- One turn keeps the order. -/
theorem Ordered.turn {σ σ' : WalkState} (h : Ordered fs σ) (hturn : turn fs σ = .ok σ') :
    Ordered fs σ' := by
  cases hstack : σ.stack with
  | nil =>
    rw [turn_of_nil hstack] at hturn
    cases hturn
    exact h
  | cons dir stack =>
    have hdirs := h.stack
    rw [hstack, List.forall_mem_cons] at hdirs
    obtain ⟨hdir, hrest⟩ := hdirs
    rcases turn_cases hstack hturn with ⟨-, rfl⟩ | ⟨-, -, -, rfl⟩
    · exact ⟨h.out, hrest⟩
    · refine ⟨h.out.append fun w hw => ?_, fun sub hsub => ?_⟩
      · obtain ⟨e, m, he, rfl⟩ := mem_entriesOf.mp hw
        exact ⟨dir.pre, dir.dirId, e, hdir, he, rfl, rfl⟩
      · rcases List.mem_append.mp hsub with hsub | hsub
        · -- a subdirectory has just been reported
          obtain ⟨e, m, he, hkind, rfl⟩ := mem_subdirs.mp (List.mem_reverse.mp hsub)
          refine .inr ⟨⟨dir.pre ++ [e.name], e.id, m⟩, ?_, hkind, rfl, rfl⟩
          exact List.mem_append_right _ (mem_entriesOf.mpr ⟨e, m, he, rfl⟩)
        · exact (hrest sub hsub).append _

theorem ordered {k : Nat} {σ : WalkState} (h : turns (fun _ => fs) k = .ok σ) :
    Ordered fs σ := by
  induction k generalizing σ with
  | zero =>
    cases h
    refine ⟨fun before w after hsplit => ?_, fun dir hdir => ?_⟩
    · exact absurd hsplit (by simp)
    · obtain rfl := List.mem_singleton.mp hdir
      exact .inl ⟨rfl, rfl⟩
  | succ k ih =>
    obtain ⟨σ₀, h₀, h⟩ := bind_eq_ok.mp h
    exact (ih h₀).turn h

/-- **Parents come first**: an entry of the walk is one of the root, or of a directory reported
before it, under the path of that. -/
theorem walk_parents_first {out : List WalkEntry} (h : walk fs = .ok out) :
    ParentsFirst fs out := by
  obtain ⟨n, hended⟩ := exists_ended fun _ => fs
  rw [walk_of_ended hended] at h
  obtain ⟨σ, hσ, rfl⟩ := map_eq_ok.mp h
  exact (ordered hσ).out

theorem walk_knotFs : walk knotFs = .ok knotWalk := by
  have hturns : turns (fun _ => knotFs) 4 =
      .ok ⟨knotWalk, [.opaqueId 1, .opaqueId 0], []⟩ := by rfl
  rw [walk_eq_turns knotFs 4, hturns]
  exact walkLoop_nil knotWalk _

theorem walk_parents_first_knot : ParentsFirst knotFs knotWalk :=
  walk_parents_first walk_knotFs

end Parents

/-! ## Distinct paths -/

section Paths

/-- The directory lists no name twice, other than `.` and `..`. -/
def NamesDistinct (fs : FileSystem) (d : FileId) : Prop :=
  ((realEntries fs d).map fun p => p.1.name).Nodup

variable {fs : FileSystem}

theorem nodup_paths_entriesOf {dir : Pending} :
    ((entriesOf fs dir).map WalkEntry.path).Nodup ↔ NamesDistinct fs dir.dirId := by
  have hpaths : (entriesOf fs dir).map WalkEntry.path =
      ((realEntries fs dir.dirId).map fun p => p.1.name).map fun name => dir.pre ++ [name] := by
    unfold entriesOf
    rw [List.map_map, List.map_map]
    rfl
  rw [hpaths, NamesDistinct]
  apply List.nodup_map_iff
  intro name name' h
  exact List.head_eq_of_cons_eq (List.append_cancel_left h)

theorem NamesDistinct.nodup_popOrder {dir : Pending} (h : NamesDistinct fs dir.dirId) :
    ((popOrder fs dir).map Pending.pre).Nodup := by
  have hsub : ∀ ws : List WalkEntry,
      ((ws.filterMap dir.enter).map Pending.pre).Sublist (ws.map WalkEntry.path) := by
    intro ws
    induction ws with
    | nil => exact List.Sublist.slnil
    | cons w ws ih =>
      by_cases hdir : w.meta.kind = .dir
      · have hw : dir.enter w = some ⟨w.path, w.id, dir.depth + 1⟩ := if_pos hdir
        rw [List.filterMap_cons_some hw]
        exact ih.cons_cons w.path
      · have hw : dir.enter w = none := if_neg hdir
        rw [List.filterMap_cons_none hw]
        exact ih.cons w.path
  rw [popOrder, List.map_reverse, List.nodup_reverse]
  exact (nodup_paths_entriesOf.mpr h).sublist (hsub _)

/-- Where no listing repeats a name, the path of a directory tells the route to it. -/
theorem route_unique (h : ∀ dir, Met fs dir → NamesDistinct fs dir.dirId) {π σ : List Nat}
    {dir dir' : Pending}
    (hπ : FirstMet Pending.dirId (popOrder fs) (walkMaxDepth + 1) (walkRoot fs) π)
    (hσ : FirstMet Pending.dirId (popOrder fs) (walkMaxDepth + 1) (walkRoot fs) σ)
    (hdir : follow (popOrder fs) (walkRoot fs) π = some dir)
    (hdir' : follow (popOrder fs) (walkRoot fs) σ = some dir') (hpre : dir.pre = dir'.pre) :
    π = σ := by
  have hlen : π.length = σ.length := by
    rw [← (chain_of_follow hdir).2.2, ← (chain_of_follow hdir').2.2, hpre]
  induction π using List.reverseRecOn generalizing σ dir dir' with
  | nil => exact (List.length_eq_zero_iff.mp hlen.symm).symm
  | append_singleton π i ih =>
    rcases List.eq_nil_or_concat' σ with rfl | ⟨σ, j, rfl⟩
    · exact absurd hlen (by simp)
    · have hπ' := hπ.of_prefix (List.prefix_append π [i])
      have hσ' := hσ.of_prefix (List.prefix_append σ [j])
      obtain ⟨parent, hparent⟩ := hπ'.exists_follow
      obtain ⟨parent', hparent'⟩ := hσ'.exists_follow
      rw [follow_append_singleton hparent] at hdir
      rw [follow_append_singleton hparent'] at hdir'
      obtain ⟨e, m, -, -, rfl⟩ := mem_subdirs.mp (List.mem_reverse.mp (List.mem_of_getElem? hdir))
      obtain ⟨e', m', -, -, rfl⟩ :=
        mem_subdirs.mp (List.mem_reverse.mp (List.mem_of_getElem? hdir'))
      -- the paths of the parents agree, so the parents do, and their listings tell the names apart
      obtain ⟨hpre', -⟩ := List.append_inj' hpre rfl
      obtain rfl := ih hπ' hσ' hparent hparent' hpre' (by simpa using hlen)
      obtain rfl := Option.some.inj (hparent.symm.trans hparent')
      have hnodup := (h parent ⟨π, hπ', hparent⟩).nodup_popOrder
      have hi := congrArg (Option.map Pending.pre) hdir
      have hj := congrArg (Option.map Pending.pre) hdir'
      rw [← List.getElem?_map] at hi hj
      have hlt := (List.getElem?_eq_some_iff.mp hi).1
      rw [(List.getElem?_inj hlt hnodup).mp (hi.trans ((congrArg some hpre).trans hj.symm))]

theorem nodup_entered : (entered fs).Nodup := by
  have hkeys : ((entered fs).map Pending.dirId).Nodup := nodup_explore (by simp)
  exact hkeys.of_map

/-- **The paths of the walk are distinct exactly when** no directory it lists repeats a name. -/
theorem walk_paths_distinct_iff {out : List WalkEntry} (h : walk fs = .ok out) :
    (out.map WalkEntry.path).Nodup ↔ ∀ dir, Met fs dir → NamesDistinct fs dir.dirId := by
  rw [walk_eq h, List.map_flatMap, List.nodup_flatMap]
  simp only [mem_entered, nodup_paths_entriesOf]
  refine ⟨fun h => h.1, fun h => ⟨h, ?_⟩⟩
  refine List.Pairwise.imp_of_mem ?_ nodup_entered
  intro dir dir' hdir hdir' hne
  obtain ⟨π, hπ, hfollow⟩ := mem_entered.mp hdir
  obtain ⟨σ, hσ, hfollow'⟩ := mem_entered.mp hdir'
  intro path hp hp'
  obtain ⟨w, hw, rfl⟩ := List.mem_map.mp hp
  obtain ⟨w', hw', hpath⟩ := List.mem_map.mp hp'
  obtain ⟨e, m, -, rfl⟩ := mem_entriesOf.mp hw
  obtain ⟨e', m', -, rfl⟩ := mem_entriesOf.mp hw'
  obtain ⟨hpre, -⟩ := List.append_inj' hpath rfl
  obtain rfl := route_unique h hπ hσ hfollow hfollow' hpre.symm
  exact hne (Option.some.inj (hfollow.symm.trans hfollow'))

theorem walk_paths_distinct_iff_knot :
    (knotWalk.map WalkEntry.path).Nodup ↔
      ∀ dir, Met knotFs dir → NamesDistinct knotFs dir.dirId :=
  walk_paths_distinct_iff walk_knotFs

end Paths

end ForensicVfs
