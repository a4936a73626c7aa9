import Mathlib.Data.List.ReduceOption
import ForensicVfs.Verify.Walk.Genuine

/-!
# The walk, failures included

`listDir` lists one directory: its entries other than `.` and `..` with their metadata, or the first
failure on the way. `walk` lists the directories of the depth-first search one after the other, and
fails as the first of them that fails (`walk_eq_listDirs`); so its error is a failed call on a
directory within reach, and everything listed before it was read in full (`walk_error_iff`).
-/

namespace ForensicVfs

open Result DepthFirst

section Spec

variable (fs : FileSystem)

/-- What `walk` reports for an entry of a directory. -/
def listEntry (dir : Pending) (entry : VfsResult DirEntry) : VfsResult (Option WalkEntry) := do
  let e ← entry
  if isDot e.name then return none
  else return some ⟨dir.pre ++ [e.name], e.id, ← fs.meta e.id⟩

/-- What `walk` reports for a directory, or its first failure there. -/
def listDir (dir : Pending) : VfsResult (List WalkEntry) := do
  let entries ← fs.readDir dir.dirId
  return (← entries.mapM (listEntry fs dir)).reduceOption

variable {fs} {dir : Pending} {σ : WalkState}

/-! ## One turn -/

theorem walkEntry_eq_listEntry (entry : VfsResult DirEntry) :
    walkEntry fs dir σ entry = (fun w => σ.listed dir w.toList) <$> listEntry fs dir entry := by
  unfold walkEntry listEntry
  cases entry with
  | error e => rfl
  | ok e =>
    rw [ok_bind, ok_bind]
    by_cases hdot : isDot e.name = true
    · rw [if_pos hdot, if_pos hdot]
      show _ = Except.ok (σ.listed dir [])
      simp [WalkState.listed, pure, Except.pure]
    · rw [if_neg hdot, if_neg hdot]
      cases fs.meta e.id with
      | error err => rfl
      | ok m =>
        rw [ok_bind, ok_bind]
        show _ = Except.ok (σ.listed dir [⟨dir.pre ++ [e.name], e.id, m⟩])
        by_cases hdir : m.kind = .dir
        · simp [WalkState.listed, Pending.enter, hdir, pure, Except.pure]
        · simp [WalkState.listed, Pending.enter, hdir, pure, Except.pure]

theorem foldlM_walkEntry_eq_mapM (entries : List (VfsResult DirEntry)) :
    entries.foldlM (walkEntry fs dir) σ =
      (fun ws => σ.listed dir ws.reduceOption) <$> entries.mapM (listEntry fs dir) := by
  induction entries generalizing σ with
  | nil =>
    rw [List.foldlM_nil, List.mapM_nil]
    show Except.ok σ = Except.ok (σ.listed dir [])
    simp [WalkState.listed]
  | cons entry entries ih =>
    rw [List.foldlM_cons, List.mapM_cons, walkEntry_eq_listEntry]
    cases listEntry fs dir entry with
    | error e => rfl
    | ok w =>
      show entries.foldlM (walkEntry fs dir) (σ.listed dir w.toList) = _
      rw [ih]
      cases entries.mapM (listEntry fs dir) with
      | error e => rfl
      | ok ws =>
        show Except.ok ((σ.listed dir w.toList).listed dir ws.reduceOption) =
          Except.ok (σ.listed dir (w :: ws).reduceOption)
        rw [WalkState.listed_append]
        cases w <;> rfl

/-- A turn lists the directory, unless it passes it over. -/
theorem walkStep_eq_listDir (h : ¬(dir.depth > walkMaxDepth ∨ dir.dirId ∈ σ.visited)) :
    walkStep fs dir σ = (fun ws =>
      WalkState.listed { σ with visited := dir.dirId :: σ.visited } dir ws) <$> listDir fs dir := by
  unfold walkStep listDir
  rw [if_neg h]
  cases fs.readDir dir.dirId with
  | error e => rfl
  | ok entries =>
    rw [ok_bind, ok_bind, foldlM_walkEntry_eq_mapM]
    cases entries.mapM (listEntry fs dir) <;> rfl

theorem listEntry_eq_ok {entry : VfsResult DirEntry} {w : Option WalkEntry}
    (h : listEntry fs dir entry = .ok w) : w = (realEntry fs entry).map dir.found := by
  unfold listEntry at h
  cases entry with
  | error e => cases h
  | ok e =>
    rw [ok_bind] at h
    by_cases hdot : isDot e.name = true
    · rw [if_pos hdot] at h
      cases h
      simp [realEntry, hdot]
    · rw [if_neg hdot] at h
      obtain ⟨m, hm, h⟩ := bind_eq_ok.mp h
      cases h
      simp [realEntry, hdot, hm, Pending.found]

theorem reduceOption_listEntry {entries : List (VfsResult DirEntry)}
    {rs : List (Option WalkEntry)}
    (h : List.Forall₂ (fun entry w => listEntry fs dir entry = .ok w) entries rs) :
    rs.reduceOption = (entries.filterMap (realEntry fs)).map dir.found := by
  induction h with
  | nil => rfl
  | @cons entry w entries rs hw _ ih =>
    rw [listEntry_eq_ok hw]
    cases hreal : realEntry fs entry with
    | none =>
      rw [Option.map_none, List.reduceOption_cons_of_none, List.filterMap_cons_none hreal]
      exact ih
    | some p =>
      rw [Option.map_some, List.reduceOption_cons_of_some, List.filterMap_cons_some hreal,
        List.map_cons, ih]

/-- What is listed is what the directory gives. -/
theorem listDir_eq_ok {ws : List WalkEntry} (h : listDir fs dir = .ok ws) :
    ws = entriesOf fs dir := by
  unfold listDir at h
  obtain ⟨entries, hentries, h⟩ := bind_eq_ok.mp h
  obtain ⟨rs, hrs, h⟩ := map_eq_ok.mp h
  rw [← h, reduceOption_listEntry (mapM_eq_ok.mp hrs), entriesOf, realEntries, hentries]

/-! ## The loop -/

variable (fs) in
/-- The search from a stack of directories, after those entered already. -/
def exploreAll (dirs stack : List Pending) : List Pending :=
  stack.foldl (fun dirs dir => explore Pending.dirId (popOrder fs) dir.levels dir dirs) dirs

variable (fs) in
theorem prefix_exploreAll (dirs stack : List Pending) : dirs <+: exploreAll fs dirs stack :=
  prefix_foldl (fun _ _ => prefix_explore) stack dirs

theorem exploreAll_of_skip {dirs stack : List Pending}
    (h : dir.depth > walkMaxDepth ∨ dir.dirId ∈ dirs.map Pending.dirId) :
    exploreAll fs dirs (dir :: stack) = exploreAll fs dirs stack := by
  unfold exploreAll
  rw [List.foldl_cons, explore_of_skip h]

theorem exploreAll_of_list {dirs stack : List Pending}
    (h : ¬(dir.depth > walkMaxDepth ∨ dir.dirId ∈ dirs.map Pending.dirId)) :
    exploreAll fs dirs (dir :: stack) =
      exploreAll fs (dirs ++ [dir]) ((subdirs fs dir).reverse ++ stack) := by
  rw [not_or, Nat.not_lt] at h
  unfold exploreAll
  rw [List.foldl_cons, explore_of_list h.1 h.2, popOrder, List.foldl_append]

/-- A directory that is listed is what the search enters next. -/
theorem exists_rest {dirs rest stack : List Pending}
    (h : ¬(dir.depth > walkMaxDepth ∨ dir.dirId ∈ dirs.map Pending.dirId))
    (hrest : exploreAll fs dirs (dir :: stack) = dirs ++ rest) :
    ∃ rest', rest = dir :: rest' ∧
      exploreAll fs (dirs ++ [dir]) ((subdirs fs dir).reverse ++ stack) =
        dirs ++ [dir] ++ rest' := by
  rw [exploreAll_of_list h] at hrest
  obtain ⟨rest', hrest'⟩ :=
    prefix_exploreAll fs (dirs ++ [dir]) ((subdirs fs dir).reverse ++ stack)
  refine ⟨rest', ?_, hrest'.symm⟩
  rw [← hrest', List.append_assoc] at hrest
  exact (List.append_cancel_left hrest).symm

/-- **The rest of the loop** lists what the search has still to enter. -/
theorem walkLoop_eq_listDirs {dirs rest : List Pending}
    (hvisited : ∀ d, d ∈ σ.visited ↔ d ∈ dirs.map Pending.dirId)
    (hrest : exploreAll fs dirs σ.stack = dirs ++ rest) :
    walkLoop fs σ = (fun wss => σ.out ++ wss.flatten) <$> rest.mapM (listDir fs) := by
  induction σ using walkLoop.induct fs generalizing dirs rest with
  | case1 out visited =>
    obtain rfl : rest = [] := by simpa [exploreAll] using hrest
    rw [walkLoop_nil, List.mapM_nil]
    show Except.ok out = Except.ok (out ++ [])
    rw [List.append_nil]
  | case2 out visited dir stack e hstep =>
    rw [walkLoop_cons, hstep]
    by_cases hskip : dir.depth > walkMaxDepth ∨ dir.dirId ∈ visited
    · rw [walkStep, if_pos hskip] at hstep
      cases hstep
    · rw [walkStep_eq_listDir hskip] at hstep
      have hlist : listDir fs dir = .error e := map_eq_error.mp hstep
      rw [hvisited] at hskip
      obtain ⟨rest, rfl, -⟩ := exists_rest hskip hrest
      rw [List.mapM_cons, hlist]
      rfl
  | case3 out visited dir stack σ hstep ih =>
    rw [walkLoop_cons, hstep, ok_bind]
    by_cases hskip : dir.depth > walkMaxDepth ∨ dir.dirId ∈ visited
    · rw [walkStep, if_pos hskip] at hstep
      cases hstep
      rw [hvisited] at hskip
      rw [exploreAll_of_skip hskip] at hrest
      exact ih hvisited hrest
    · rw [walkStep_eq_listDir hskip] at hstep
      obtain ⟨ws, hws, rfl⟩ := map_eq_ok.mp hstep
      rw [hvisited] at hskip
      obtain ⟨rest, rfl, hrest'⟩ := exists_rest hskip hrest
      obtain rfl := listDir_eq_ok hws
      have hvisited' : ∀ d, d ∈ dir.dirId :: visited ↔ d ∈ (dirs ++ [dir]).map Pending.dirId := by
        intro d
        rw [List.mem_cons, List.map_append, List.mem_append, List.map_singleton,
          List.mem_singleton, or_comm]
        exact or_congr_left (hvisited d)
      rw [ih hvisited' hrest', List.mapM_cons, hws]
      show (fun wss => out ++ entriesOf fs dir ++ wss.flatten) <$> rest.mapM (listDir fs) = _
      cases rest.mapM (listDir fs) with
      | error e => rfl
      | ok wss => exact congrArg Except.ok (List.append_assoc out (entriesOf fs dir) wss.flatten)

/-- **`walk` lists the directories a depth-first search enters**, one after the other, and fails as
the first of them that fails. -/
theorem walk_eq_listDirs (fs : FileSystem) :
    walk fs = List.flatten <$> (entered fs).mapM (listDir fs) := by
  have hentered : exploreAll fs [] [walkRoot fs] = [] ++ entered fs := rfl
  exact walkLoop_eq_listDirs (fun d => Iff.rfl) hentered

/-! ## Failures -/

/-- The first call for a directory that fails, with its failure: `read_dir` itself, or, after
entries that are taken, the stream or the metadata of an entry other than `.` and `..`. -/
inductive ListFails (fs : FileSystem) (d : FileId) (e : VfsError) : Prop
  | readDir (h : fs.readDir d = .error e)
  | stream {before after : List (VfsResult DirEntry)}
      (h : fs.readDir d = .ok (before ++ .error e :: after))
      (hbefore : ∀ entry ∈ before, Taken fs entry)
  | «meta» {before after : List (VfsResult DirEntry)} {entry : DirEntry}
      (h : fs.readDir d = .ok (before ++ .ok entry :: after))
      (hbefore : ∀ entry ∈ before, Taken fs entry) (hdot : isDot entry.name = false)
      (hmeta : fs.meta entry.id = .error e)

theorem listEntry_ok_iff {entry : VfsResult DirEntry} :
    (∃ w, listEntry fs dir entry = .ok w) ↔ Taken fs entry := by
  unfold listEntry Taken
  cases entry with
  | error e => simp
  | ok e =>
    simp only [ok_bind, Except.ok.injEq, exists_eq_left']
    by_cases hdot : isDot e.name = true
    · simp [hdot]
    · cases hm : fs.meta e.id <;> simp [hdot]

theorem listEntry_eq_error {entry : VfsResult DirEntry} {e : VfsError} :
    listEntry fs dir entry = .error e ↔ entry = .error e ∨
      ∃ en, entry = .ok en ∧ isDot en.name = false ∧ fs.meta en.id = .error e := by
  unfold listEntry
  cases entry with
  | error e' => simp
  | ok en =>
    simp only [ok_bind, Except.ok.injEq, exists_eq_left', reduceCtorEq, false_or]
    by_cases hdot : isDot en.name = true
    · simp [hdot, pure, Except.pure]
    · cases hm : fs.meta en.id <;> simp [hdot]

theorem listDir_ok_iff : (∃ ws, listDir fs dir = .ok ws) ↔ ReadInFull fs dir.dirId := by
  unfold listDir ReadInFull
  cases hread : fs.readDir dir.dirId with
  | error e => simp
  | ok entries =>
    have htaken : (∀ entry ∈ entries, Taken fs entry) ↔
        ∃ rs, entries.mapM (listEntry fs dir) = .ok rs := by
      rw [exists_mapM_eq_ok]
      exact forall₂_congr fun entry _ => listEntry_ok_iff.symm
    simp only [ok_bind, Except.ok.injEq, exists_eq_left', htaken]
    constructor
    · intro ⟨ws, hws⟩
      obtain ⟨rs, hrs, -⟩ := map_eq_ok.mp hws
      exact ⟨rs, hrs⟩
    · intro ⟨rs, hrs⟩
      exact ⟨_, map_eq_ok.mpr ⟨rs, hrs, rfl⟩⟩

theorem listDir_eq_error {e : VfsError} :
    listDir fs dir = .error e ↔ ListFails fs dir.dirId e := by
  unfold listDir
  constructor
  · intro h
    cases hread : fs.readDir dir.dirId with
    | error e' =>
      rw [hread] at h
      cases h
      exact .readDir hread
    | ok entries =>
      rw [hread, ok_bind] at h
      obtain ⟨before, entry, after, rfl, hbefore, hentry⟩ := mapM_eq_error.mp (map_eq_error.mp h)
      replace hbefore : ∀ b ∈ before, Taken fs b := fun b hb => listEntry_ok_iff.mp (hbefore b hb)
      rcases listEntry_eq_error.mp hentry with rfl | ⟨en, rfl, hdot, hmeta⟩
      · exact .stream hread hbefore
      · exact .meta hread hbefore hdot hmeta
  · intro h
    cases h with
    | readDir h => rw [h, error_bind]
    | stream h hbefore =>
      rw [h, ok_bind]
      refine map_eq_error.mpr (mapM_eq_error.mpr ⟨_, _, _, rfl, fun b hb => ?_, ?_⟩)
      · exact listEntry_ok_iff.mpr (hbefore b hb)
      · exact listEntry_eq_error.mpr (.inl rfl)
    | «meta» h hbefore hdot hmeta =>
      rw [h, ok_bind]
      refine map_eq_error.mpr (mapM_eq_error.mpr ⟨_, _, _, rfl, fun b hb => ?_, ?_⟩)
      · exact listEntry_ok_iff.mpr (hbefore b hb)
      · exact listEntry_eq_error.mpr (.inr ⟨_, rfl, hdot, hmeta⟩)

/-- **What `walk` fails with**: the first failing call for a directory that the search enters,
after directories that are read in full. -/
theorem walk_error_iff (fs : FileSystem) (e : VfsError) :
    walk fs = .error e ↔ ∃ before dir after, entered fs = before ++ dir :: after ∧
      (∀ d ∈ before, ReadInFull fs d.dirId) ∧ ListFails fs dir.dirId e ∧
      DirChain fs dir.pre dir.dirId ∧ dir.depth ≤ walkMaxDepth := by
  have hlists : walk fs = .error e ↔ (entered fs).mapM (listDir fs) = .error e := by
    have hentered : exploreAll fs [] [walkRoot fs] = [] ++ entered fs := rfl
    have hwalk : walk fs = (fun wss => [] ++ wss.flatten) <$> (entered fs).mapM (listDir fs) :=
      walkLoop_eq_listDirs (fun d => Iff.rfl) hentered
    rw [hwalk, map_eq_error]
  rw [hlists, mapM_eq_error]
  constructor
  · intro ⟨before, dir, after, hsplit, hbefore, hdir⟩
    have hmem : dir ∈ entered fs := hsplit ▸ List.mem_append_right before List.mem_cons_self
    exact ⟨before, dir, after, hsplit, fun d hd => listDir_ok_iff.mp (hbefore d hd),
      listDir_eq_error.mp hdir, (mem_entered.mp hmem).chain⟩
  · rintro ⟨before, dir, after, hsplit, hbefore, hdir, -⟩
    exact ⟨before, dir, after, hsplit, fun d hd => listDir_ok_iff.mpr (hbefore d hd),
      listDir_eq_error.mpr hdir⟩

end Spec

end ForensicVfs
