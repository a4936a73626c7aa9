import ForensicVfs.Verify.Walk.Listing

/-!
# The walk below a directory

On a tree the walk from a directory is a part of the walk from the root, in one piece and in the
same order, with the path of the directory before every path (`walk_below`).
-/

namespace ForensicVfs

open Result DepthFirst

/-- The filesystem as seen from a directory. -/
def FileSystem.rootedAt (fs : FileSystem) (d : FileId) : FileSystem := { fs with root := d }

/-- The entry of a walk from a directory, as the walk from above reports it. -/
def WalkEntry.under (names : List Bytes) (w : WalkEntry) : WalkEntry :=
  { w with path := names ++ w.path }

/-- The directory of a walk from a directory, as the walk from above meets it. -/
def Pending.under (names : List Bytes) (dir : Pending) : Pending :=
  ⟨names ++ dir.pre, dir.dirId, names.length + dir.depth⟩

section Below

variable {fs : FileSystem} {names : List Bytes} {d : FileId}

theorem entriesOf_under (dir : Pending) :
    entriesOf fs (dir.under names) = (entriesOf fs dir).map (WalkEntry.under names) := by
  simp [entriesOf, Pending.found, Pending.under, WalkEntry.under]

theorem subdirs_under (dir : Pending) :
    subdirs fs (dir.under names) = (subdirs fs dir).map (Pending.under names) := by
  unfold subdirs
  rw [entriesOf_under, List.filterMap_map, List.map_filterMap]
  apply List.filterMap_congr
  intro w _
  by_cases hdir : w.meta.kind = .dir
  · simp [Pending.enter, Pending.under, WalkEntry.under, hdir, Nat.add_assoc]
  · simp [Pending.enter, Pending.under, WalkEntry.under, hdir]

theorem popOrder_under (dir : Pending) :
    popOrder fs (dir.under names) = (popOrder fs dir).map (Pending.under names) := by
  rw [popOrder, popOrder, subdirs_under, List.map_reverse]

theorem follow_of_chain (h : DirChain fs names d) :
    ∃ π, follow (popOrder fs) (walkRoot fs) π = some ⟨names, d, names.length⟩ := by
  induction h with
  | root => exact ⟨[], rfl⟩
  | @step names d e m _ he hdir ih =>
    obtain ⟨π, hπ⟩ := ih
    have hmem : (⟨names ++ [e.name], e.id, names.length + 1⟩ : Pending) ∈
        popOrder fs ⟨names, d, names.length⟩ :=
      List.mem_reverse.mpr (mem_subdirs.mpr ⟨e, m, he, hdir, rfl⟩)
    obtain ⟨i, hi⟩ := List.getElem?_of_mem hmem
    refine ⟨π ++ [i], ?_⟩
    rw [follow_append_singleton hπ, hi, List.length_append, List.length_singleton]

theorem DirChain.trans (h : DirChain fs names d) {names' : List Bytes} {d' : FileId}
    (h' : DirChain (fs.rootedAt d) names' d') : DirChain fs (names ++ names') d' := by
  induction h' with
  | root =>
    rw [List.append_nil]
    exact h
  | step _ he hdir ih =>
    rw [← List.append_assoc]
    exact .step ih he hdir

/-- The directories entered from a directory are entered from the root in one piece. -/
theorem entered_below (htree : IsTree fs) (h : DirChain fs names d) :
    (entered (fs.rootedAt d)).map (Pending.under names) <:+: entered fs := by
  obtain ⟨π, hπ⟩ := follow_of_chain h
  have hlen : π.length = names.length := (chain_of_follow hπ).2.2.symm
  have hcap := htree.depth names d h
  obtain ⟨n, hn⟩ : ∃ n, names.length + n = walkMaxDepth + 1 :=
    ⟨walkMaxDepth + 1 - names.length, by omega⟩
  let start : Pending := walkRoot (fs.rootedAt d)
  have hpart : (subtree (popOrder fs) n start).map (Pending.under names) <:+: entered fs := by
    have hsub := subtree_infix hπ n
    have hstart : start.under names = ⟨names, d, names.length⟩ := by
      simp [start, walkRoot, Pending.under, FileSystem.rootedAt]
    rwa [hlen, hn, ← entered_eq_subtree htree, ← hstart, subtree_map popOrder_under] at hsub
  -- below the cap of the whole tree there is nothing, so the walk from below has no more levels
  have hlast : ∀ σ, n ≤ σ.length → follow (popOrder fs) start σ = none := by
    intro σ hσ
    by_contra hsome
    obtain ⟨dir, hdir⟩ := Option.ne_none_iff_exists'.mp hsome
    obtain ⟨hchain, -, hpre⟩ :
      DirChain (fs.rootedAt d) dir.pre dir.dirId ∧ dir.depth = σ.length ∧
        dir.pre.length = σ.length := chain_of_follow hdir
    have hdeep := htree.depth _ _ (h.trans hchain)
    rw [List.length_append] at hdeep
    omega
  have hlevels : subtree (popOrder fs) (walkMaxDepth + 1) start = subtree (popOrder fs) n start :=
    subtree_eq_of_le hlast (by omega)
  have hentered : entered (fs.rootedAt d) = subtree (popOrder fs) n start := by
    have hexplore : entered (fs.rootedAt d) =
        explore Pending.dirId (popOrder fs) (walkMaxDepth + 1) start [] := rfl
    rw [hexplore, explore_eq_subtree, List.nil_append, hlevels]
    rw [List.nil_append, hlevels]
    have hkeys : ((entered fs).map Pending.dirId).Nodup := nodup_explore (by simp)
    have hids := hkeys.sublist (hpart.sublist.map Pending.dirId)
    rwa [List.map_map] at hids
  rwa [hentered]

/-- **The walk below a directory** of a tree is a part of the walk of the tree, under the names of
the directory. -/
theorem walk_below (htree : IsTree fs) (h : DirChain fs names d) :
    ∃ before block after, walk (fs.rootedAt d) = .ok block ∧
      walk fs = .ok (before ++ block.map (WalkEntry.under names) ++ after) := by
  obtain ⟨out, hout⟩ := walk_ok htree.full
  have hfull : ∀ names' d', DirChain (fs.rootedAt d) names' d' → ReadInFull (fs.rootedAt d) d' :=
    fun names' d' h' => htree.full _ _ (h.trans h')
  obtain ⟨block, hblock⟩ := walk_ok hfull
  obtain ⟨bs, as, hsplit⟩ := entered_below htree h
  refine ⟨bs.flatMap (entriesOf fs), block, as.flatMap (entriesOf fs), hblock, ?_⟩
  have hunder : ∀ dirs : List Pending,
      (dirs.map (Pending.under names)).flatMap (entriesOf fs) =
        (dirs.flatMap (entriesOf fs)).map (WalkEntry.under names) := by
    intro dirs
    rw [List.flatMap_map, List.map_flatMap]
    exact List.flatMap_congr fun dir _ => entriesOf_under dir
  have hentries : block = (entered (fs.rootedAt d)).flatMap (entriesOf fs) := walk_eq hblock
  rw [hout, walk_eq hout, ← hsplit, List.flatMap_append, List.flatMap_append, hunder, hentries]

theorem chain_linkedFs_dir : DirChain linkedFs [str "dir"] (.opaqueId 1) := by
  have hmem : (⟨str "dir", .opaqueId 1, .dir⟩, fakeMeta .dir) ∈
      realEntries linkedFs linkedFs.root := by
    rw [show linkedFs.root = .opaqueId 0 from rfl, realEntries_linkedFs_root]
    exact List.mem_cons_self
  exact .step .root (mem_realEntries.mp hmem) rfl

theorem walk_below_linked :
    ∃ before block after, walk (linkedFs.rootedAt (.opaqueId 1)) = .ok block ∧
      walk linkedFs = .ok (before ++ block.map (WalkEntry.under [str "dir"]) ++ after) :=
  walk_below isTree_linkedFs chain_linkedFs_dir

end Below

end ForensicVfs
