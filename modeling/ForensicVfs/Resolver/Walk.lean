import ForensicVfs.Core.Fs
import ForensicVfs.Lib.Result

/-!
# The filesystem walk

`walk` of the resolver crate: the loop over the stack of directories still to be listed, one pop a
`walkStep`. The loop ends because the routes that are left below the stack get fewer with every pop
(`walkStep_lt`): they stay within the depth cap, and a listing is finite.
-/

namespace ForensicVfs

open Result

/-- Cap on directory recursion depth in `walk`. -/
def walkMaxDepth : Nat := 256

/-- One node found by `walk`. -/
structure WalkEntry where
  path : List Bytes
  id : FileId
  «meta» : FsMeta
  deriving DecidableEq

/-- A directory on the stack. -/
structure Pending where
  pre : List Bytes
  dirId : FileId
  depth : Nat
  deriving DecidableEq

/-- The variables of the loop, the top of the stack first. -/
structure WalkState where
  out : List WalkEntry
  visited : List FileId
  stack : List Pending
  deriving DecidableEq

/-- The name is `.` or `..`. -/
def isDot (name : Bytes) : Bool := name == str "." || name == str ".."

variable (fs : FileSystem)

/-- One turn of the loop over a directory's entries. -/
def walkEntry (dir : Pending) (σ : WalkState) (entry : VfsResult DirEntry) :
    VfsResult WalkState := do
  let entry ← entry
  if isDot entry.name then return σ
  else
    let path := dir.pre ++ [entry.name]
    let «meta» ← fs.meta entry.id
    let isDir := «meta».kind == .dir
    let out := σ.out ++ [{ path, id := entry.id, «meta» }]
    if isDir then return { σ with out, stack := ⟨path, entry.id, dir.depth + 1⟩ :: σ.stack }
    else return { σ with out }

/-- One turn of the loop over the stack, with the directory just popped. -/
def walkStep (dir : Pending) (σ : WalkState) : VfsResult WalkState := do
  if dir.depth > walkMaxDepth ∨ dir.dirId ∈ σ.visited then return σ
  else
    let entries ← fs.readDir dir.dirId
    entries.foldlM (walkEntry fs dir) { σ with visited := dir.dirId :: σ.visited }

/-! ## What one directory gives -/

/-- An entry other than `.` and `..`, with its metadata, if it can be read. -/
def realEntry : VfsResult DirEntry → Option (DirEntry × FsMeta)
  | .error _ => none
  | .ok entry =>
    if isDot entry.name then none
    else
      match fs.meta entry.id with
      | .error _ => none
      | .ok «meta» => some (entry, «meta»)

/-- The entries of a directory other than `.` and `..`, as far as they can be read. -/
def realEntries (d : FileId) : List (DirEntry × FsMeta) :=
  match fs.readDir d with
  | .error _ => []
  | .ok entries => entries.filterMap (realEntry fs)

namespace Pending

/-- What `walk` reports for an entry of the directory. -/
def found (dir : Pending) (p : DirEntry × FsMeta) : WalkEntry :=
  ⟨dir.pre ++ [p.1.name], p.1.id, p.2⟩

/-- What `walk` puts on the stack for an entry of the directory that it reports. -/
def enter (dir : Pending) (w : WalkEntry) : Option Pending :=
  if w.meta.kind = .dir then some ⟨w.path, w.id, dir.depth + 1⟩ else none

end Pending

/-- What `walk` reports for a directory. -/
def entriesOf (dir : Pending) : List WalkEntry := (realEntries fs dir.dirId).map dir.found

/-- What `walk` puts on the stack for a directory. -/
def subdirs (dir : Pending) : List Pending := (entriesOf fs dir).filterMap dir.enter

/-- The state after some entries of a directory. -/
def WalkState.listed (σ : WalkState) (dir : Pending) (ws : List WalkEntry) : WalkState :=
  { σ with out := σ.out ++ ws, stack := (ws.filterMap dir.enter).reverse ++ σ.stack }

theorem WalkState.listed_append (σ : WalkState) (dir : Pending) (ws ws' : List WalkEntry) :
    (σ.listed dir ws).listed dir ws' = σ.listed dir (ws ++ ws') := by
  simp [listed, List.filterMap_append]

variable {fs}

theorem walkEntry_eq {dir : Pending} {σ σ' : WalkState} {entry : VfsResult DirEntry}
    (h : walkEntry fs dir σ entry = .ok σ') :
    σ' = σ.listed dir ((realEntry fs entry).toList.map dir.found) := by
  cases entry with
  | error e => cases h
  | ok e =>
    unfold walkEntry at h
    rw [ok_bind] at h
    unfold realEntry
    by_cases hdot : isDot e.name = true
    · rw [if_pos hdot] at h
      cases h
      simp [hdot, WalkState.listed]
    · rw [if_neg hdot] at h
      obtain ⟨m, hm, h⟩ := bind_eq_ok.mp h
      by_cases hdir : m.kind = .dir
      · rw [if_pos (by simpa using hdir)] at h
        cases h
        simp [hdot, hm, hdir, WalkState.listed, Pending.found, Pending.enter]
      · rw [if_neg (by simpa using hdir)] at h
        cases h
        simp [hdot, hm, hdir, WalkState.listed, Pending.found, Pending.enter]

theorem foldlM_walkEntry_eq {dir : Pending} {σ σ' : WalkState} {entries : List (VfsResult DirEntry)}
    (h : entries.foldlM (walkEntry fs dir) σ = .ok σ') :
    σ' = σ.listed dir ((entries.filterMap (realEntry fs)).map dir.found) := by
  induction entries generalizing σ with
  | nil =>
    cases h
    simp [WalkState.listed]
  | cons entry entries ih =>
    rw [List.foldlM_cons] at h
    obtain ⟨σ₁, h₁, h⟩ := bind_eq_ok.mp h
    rw [ih h, walkEntry_eq h₁, WalkState.listed_append, ← List.map_append]
    cases hreal : realEntry fs entry <;> simp [hreal]

/-- **What one turn of the loop does**: it passes the directory over, or lists it. -/
theorem walkStep_cases {dir : Pending} {σ σ' : WalkState} (h : walkStep fs dir σ = .ok σ') :
    ((dir.depth > walkMaxDepth ∨ dir.dirId ∈ σ.visited) ∧ σ' = σ) ∨
      (dir.depth ≤ walkMaxDepth ∧ dir.dirId ∉ σ.visited ∧
        σ' = WalkState.listed { σ with visited := dir.dirId :: σ.visited } dir
          (entriesOf fs dir)) := by
  unfold walkStep at h
  by_cases hskip : dir.depth > walkMaxDepth ∨ dir.dirId ∈ σ.visited
  · rw [if_pos hskip] at h
    cases h
    exact .inl ⟨hskip, rfl⟩
  · rw [if_neg hskip] at h
    obtain ⟨entries, hentries, h⟩ := bind_eq_ok.mp h
    rw [not_or, Nat.not_lt] at hskip
    refine .inr ⟨hskip.1, hskip.2, ?_⟩
    rw [foldlM_walkEntry_eq h, entriesOf, realEntries, hentries]

/-! ## The loop -/

variable (fs) in
/-- The pops below a directory if none of them meets a visited one. -/
def pops : Nat → Pending → Nat
  | 0, _ => 1
  | n + 1, dir => 1 + ((subdirs fs dir).map (pops n)).sum

/-- The levels the depth cap leaves below a directory. -/
def Pending.levels (dir : Pending) : Nat := walkMaxDepth + 1 - dir.depth

variable (fs) in
/-- The pops left below a stack. -/
def popsLeft (stack : List Pending) : Nat := (stack.map fun dir => pops fs dir.levels dir).sum

theorem depth_of_mem_subdirs {dir sub : Pending} (h : sub ∈ subdirs fs dir) :
    sub.depth = dir.depth + 1 := by
  obtain ⟨w, -, hw⟩ := List.mem_filterMap.mp h
  unfold Pending.enter at hw
  split at hw
  · cases hw
    rfl
  · exact nomatch hw

theorem levels_of_mem_subdirs {dir sub : Pending} (h : sub ∈ subdirs fs dir)
    (hdepth : dir.depth ≤ walkMaxDepth) : dir.levels = sub.levels + 1 := by
  have hsub := depth_of_mem_subdirs h
  unfold Pending.levels
  omega

theorem pops_pos (n : Nat) (dir : Pending) : 0 < pops fs n dir := by
  cases n with
  | zero => exact Nat.one_pos
  | succ n => exact Nat.add_pos_left Nat.one_pos _

theorem popsLeft_listed {dir : Pending} (hdepth : dir.depth ≤ walkMaxDepth)
    (stack : List Pending) :
    popsLeft fs ((subdirs fs dir).reverse ++ stack) + 1 = popsLeft fs (dir :: stack) := by
  have hlevels : dir.levels = (walkMaxDepth - dir.depth) + 1 := by
    unfold Pending.levels
    omega
  have hsub : (subdirs fs dir).map (fun sub => pops fs sub.levels sub) =
      (subdirs fs dir).map (pops fs (walkMaxDepth - dir.depth)) := by
    apply List.map_congr_left
    intro sub hmem
    rw [levels_of_mem_subdirs hmem hdepth] at hlevels
    rw [Nat.succ.inj hlevels]
  unfold popsLeft
  rw [List.map_append, List.sum_append, List.map_reverse, List.sum_reverse, hsub, List.map_cons,
    List.sum_cons, hlevels, pops]
  omega

/-- **Every turn of the loop leaves fewer pops.** -/
theorem walkStep_lt {dir : Pending} {σ σ' : WalkState} (h : walkStep fs dir σ = .ok σ') :
    popsLeft fs σ'.stack < popsLeft fs (dir :: σ.stack) := by
  rcases walkStep_cases h with ⟨-, rfl⟩ | ⟨hdepth, -, rfl⟩
  · exact Nat.lt_add_of_pos_left (pops_pos _ dir)
  · exact Nat.lt_of_succ_le (Nat.le_of_eq (popsLeft_listed hdepth σ.stack))

variable (fs) in
/-- The loop over the stack. -/
def walkLoop : WalkState → VfsResult (List WalkEntry)
  | ⟨out, _, []⟩ => .ok out
  | ⟨out, visited, dir :: stack⟩ =>
    match _hstep : walkStep fs dir ⟨out, visited, stack⟩ with
    | .error e => .error e
    | .ok σ => walkLoop σ
termination_by σ => popsLeft fs σ.stack
decreasing_by exact walkStep_lt _hstep

/-- Recursively enumerate every node of a mounted filesystem from the root. -/
def walk (fs : FileSystem) : VfsResult (List WalkEntry) :=
  walkLoop fs { out := [], visited := [], stack := [⟨[], fs.root, 0⟩] }

@[simp] theorem walkLoop_nil (out : List WalkEntry) (visited : List FileId) :
    walkLoop fs ⟨out, visited, []⟩ = .ok out := by
  rw [walkLoop]

theorem walkLoop_cons (out : List WalkEntry) (visited : List FileId) (dir : Pending)
    (stack : List Pending) :
    walkLoop fs ⟨out, visited, dir :: stack⟩ =
      walkStep fs dir ⟨out, visited, stack⟩ >>= walkLoop fs := by
  rw [walkLoop]
  cases walkStep fs dir ⟨out, visited, stack⟩ <;> rfl

end ForensicVfs
