import ForensicVfs.Lib.DepthFirst
import ForensicVfs.Resolver.Walk

/-!
# The walk is a depth-first search

The stack of `walk` holds what a recursive search has still to do: popping a directory, and then
everything above what was below it, explores the directory (`walkLoop_eq_explore`). What `walk`
reports is therefore the listings of the directories a depth-first search enters, the last listed
subdirectory first, cut where the depth cap cuts it (`walk_eq`).
-/

namespace ForensicVfs

open Result DepthFirst

variable (fs : FileSystem)

/-- The subdirectories in the order they leave the stack. -/
def popOrder (dir : Pending) : List Pending := (subdirs fs dir).reverse

/-- The directory `walk` starts at. -/
def walkRoot : Pending := ⟨[], fs.root, 0⟩

/-- The directories `walk` lists, in the order it lists them. -/
def entered : List Pending :=
  explore Pending.dirId (popOrder fs) (walkMaxDepth + 1) (walkRoot fs) []

variable {fs}

/-- Exploring a directory that is passed over. -/
theorem explore_of_skip {dir : Pending} {dirs : List Pending}
    (h : dir.depth > walkMaxDepth ∨ dir.dirId ∈ dirs.map Pending.dirId) :
    explore Pending.dirId (popOrder fs) dir.levels dir dirs = dirs := by
  rcases h with h | h
  · have hlevels : dir.levels = 0 := by
      unfold Pending.levels
      omega
    rw [hlevels, explore]
  · exact explore_of_mem _ _ h

/-- Exploring a directory that is listed. -/
theorem explore_of_list {dir : Pending} {dirs : List Pending} (hdepth : dir.depth ≤ walkMaxDepth)
    (h : dir.dirId ∉ dirs.map Pending.dirId) :
    explore Pending.dirId (popOrder fs) dir.levels dir dirs =
      (popOrder fs dir).foldl
        (fun dirs sub => explore Pending.dirId (popOrder fs) sub.levels sub dirs)
        (dirs ++ [dir]) := by
  have hlevels : dir.levels = (walkMaxDepth - dir.depth) + 1 := by
    unfold Pending.levels
    omega
  rw [hlevels, explore, if_neg h]
  apply List.foldl_ext _ _ _
  intro dirs sub hsub
  rw [levels_of_mem_subdirs (List.mem_reverse.mp hsub) hdepth] at hlevels
  rw [Nat.succ.inj hlevels]

/-- **The rest of the loop explores the stack.** -/
theorem walkLoop_eq_explore {σ : WalkState} {out : List WalkEntry} {dirs : List Pending}
    (h : walkLoop fs σ = .ok out) (hout : σ.out = dirs.flatMap (entriesOf fs))
    (hvisited : ∀ d, d ∈ σ.visited ↔ d ∈ dirs.map Pending.dirId) :
    out = (σ.stack.foldl (fun dirs dir => explore Pending.dirId (popOrder fs) dir.levels dir dirs)
      dirs).flatMap (entriesOf fs) := by
  induction σ using walkLoop.induct fs generalizing dirs with
  | case1 out' visited =>
    rw [walkLoop_nil] at h
    cases h
    exact hout
  | case2 out' visited dir stack e hstep =>
    rw [walkLoop_cons, hstep] at h
    cases h
  | case3 out' visited dir stack σ hstep ih =>
    rw [walkLoop_cons, hstep] at h
    rw [List.foldl_cons]
    rcases walkStep_cases hstep with ⟨hskip, rfl⟩ | ⟨hdepth, hnew, rfl⟩
    · rw [hvisited] at hskip
      rw [explore_of_skip hskip]
      exact ih h hout hvisited
    · rw [hvisited] at hnew
      rw [explore_of_list hdepth hnew, popOrder, ← List.foldl_append]
      refine ih h ?_ fun d => ?_
      · show out' ++ entriesOf fs dir = _
        have hout' : out' = dirs.flatMap (entriesOf fs) := hout
        rw [List.flatMap_append, List.flatMap_singleton, hout']
      · show d ∈ dir.dirId :: visited ↔ _
        have hvisited' : d ∈ visited ↔ d ∈ dirs.map Pending.dirId := hvisited d
        rw [List.map_append, List.mem_append, List.mem_cons, hvisited', List.map_singleton,
          List.mem_singleton, or_comm]

/-- **What `walk` reports**: the listings of the directories the search enters. -/
theorem walk_eq {out : List WalkEntry} (h : walk fs = .ok out) :
    out = (entered fs).flatMap (entriesOf fs) :=
  walkLoop_eq_explore h rfl fun _ => Iff.rfl

/-! ## Filesystems that can be read -/

/-- Every `read_dir`, every entry of a listing and every `meta` succeeds. -/
structure Readable (fs : FileSystem) : Prop where
  readDir : ∀ d, ∃ entries : List DirEntry, fs.readDir d = .ok (entries.map .ok)
  «meta» : ∀ id, ∃ m, fs.meta id = .ok m

/-- The turn of an entry that is `.` or `..`, or whose metadata can be read. -/
theorem walkEntry_ok (dir : Pending) {e : DirEntry}
    (h : isDot e.name = false → ∃ m, fs.meta e.id = .ok m) (σ : WalkState) :
    ∃ σ', walkEntry fs dir σ (.ok e) = .ok σ' := by
  unfold walkEntry
  rw [ok_bind]
  cases hdot : isDot e.name with
  | true => exact ⟨σ, rfl⟩
  | false =>
    obtain ⟨m, hm⟩ := h hdot
    rw [if_neg Bool.false_ne_true, hm, ok_bind]
    by_cases hdir : (m.kind == .dir) = true
    · exact ⟨_, if_pos hdir⟩
    · exact ⟨_, if_neg hdir⟩

/-- The turns of the entries of a directory, if each is read and has its metadata. -/
theorem foldlM_walkEntry_ok (dir : Pending) {entries : List (VfsResult DirEntry)}
    (h : ∀ entry ∈ entries,
      ∃ e, entry = .ok e ∧ (isDot e.name = false → ∃ m, fs.meta e.id = .ok m)) (σ : WalkState) :
    ∃ σ', entries.foldlM (walkEntry fs dir) σ = .ok σ' := by
  induction entries generalizing σ with
  | nil => exact ⟨σ, rfl⟩
  | cons entry entries ih =>
    obtain ⟨e, rfl, hmeta⟩ := h entry List.mem_cons_self
    obtain ⟨σ₁, h₁⟩ := walkEntry_ok dir hmeta σ
    rw [List.foldlM_cons, h₁, ok_bind]
    exact ih (fun entry hentry => h entry (List.mem_cons_of_mem _ hentry)) σ₁

theorem walkStep_ok {dir : Pending} {entries : List (VfsResult DirEntry)}
    (hread : fs.readDir dir.dirId = .ok entries)
    (h : ∀ entry ∈ entries,
      ∃ e, entry = .ok e ∧ (isDot e.name = false → ∃ m, fs.meta e.id = .ok m)) (σ : WalkState) :
    ∃ σ', walkStep fs dir σ = .ok σ' := by
  unfold walkStep
  split
  · exact ⟨σ, rfl⟩
  · rw [hread, ok_bind]
    exact foldlM_walkEntry_ok dir h _

theorem Readable.walkStep (hfs : Readable fs) (dir : Pending) (σ : WalkState) :
    ∃ σ', walkStep fs dir σ = .ok σ' := by
  obtain ⟨entries, hentries⟩ := hfs.readDir dir.dirId
  refine walkStep_ok hentries (fun entry hentry => ?_) σ
  obtain ⟨e, -, rfl⟩ := List.mem_map.mp hentry
  exact ⟨e, rfl, fun _ => hfs.meta e.id⟩

theorem Readable.walk (hfs : Readable fs) :
    walk fs = .ok ((entered fs).flatMap (entriesOf fs)) := by
  have hloop : ∀ σ, ∃ out, walkLoop fs σ = .ok out := by
    intro σ
    induction σ using walkLoop.induct fs with
    | case1 out visited => exact ⟨out, walkLoop_nil out visited⟩
    | case2 out visited dir stack e hstep =>
      obtain ⟨σ', h⟩ := hfs.walkStep dir ⟨out, visited, stack⟩
      exact nomatch hstep.symm.trans h
    | case3 out visited dir stack σ hstep ih =>
      rw [walkLoop_cons, hstep]
      exact ih
  obtain ⟨out, hout⟩ := hloop { out := [], visited := [], stack := [walkRoot fs] }
  have hwalk : ForensicVfs.walk fs = .ok out := hout
  rw [hwalk, walk_eq hwalk]

end ForensicVfs
