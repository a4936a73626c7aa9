import ForensicVfs.Lib.Worklist
import ForensicVfs.Verify.Walk.Search

/-!
# The turns of the walk

The loop of `walk` turn by turn, against a reader that need not answer the same way twice: `fs k` is
what it answers during the turn `k`. Whatever it answers, the stack runs empty (`exists_ended`),
since a turn puts finitely many directories of a greater depth in the place of one, and none below
the depth cap; and no directory is read twice or below the cap (`Log`). Against a reader that
answers the same way every time the turns are those of `walk` (`walk_eq_turns`).
-/

namespace ForensicVfs

open Result

/-! ## The turns -/

/-- One turn of the loop; it has ended where the stack is empty. -/
def turn (fs : FileSystem) (σ : WalkState) : VfsResult WalkState :=
  match σ.stack with
  | [] => .ok σ
  | dir :: stack => walkStep fs dir { σ with stack }

/-- The directories a turn calls `read_dir` on. -/
def readIn (σ : WalkState) : List Pending :=
  match σ.stack with
  | [] => []
  | dir :: _ => if dir.depth > walkMaxDepth ∨ dir.dirId ∈ σ.visited then [] else [dir]

section Turns

variable (fs : Nat → FileSystem)

/-- The state after some turns. -/
def turns : Nat → VfsResult WalkState
  | 0 => .ok { out := [], visited := [], stack := [walkRoot (fs 0)] }
  | k + 1 => turns k >>= turn (fs k)

/-- The directories `read_dir` has been called on in some turns, with the call that failed. -/
def reads : Nat → List Pending
  | 0 => []
  | k + 1 =>
    match turns fs k with
    | .error _ => reads k
    | .ok σ => reads k ++ readIn σ

end Turns

/-- The loop is over: it has failed, or the stack is empty. -/
def Ended : VfsResult WalkState → Prop
  | .error _ => True
  | .ok σ => σ.stack = []

section Turn

variable {fs : FileSystem} {σ σ' : WalkState}

theorem turn_of_nil (h : σ.stack = []) : turn fs σ = .ok σ := by
  unfold turn
  rw [h]

theorem turn_of_cons {dir : Pending} {stack : List Pending} (h : σ.stack = dir :: stack) :
    turn fs σ = walkStep fs dir { σ with stack } := by
  unfold turn
  rw [h]

theorem readIn_of_cons {dir : Pending} {stack : List Pending} (h : σ.stack = dir :: stack) :
    readIn σ = if dir.depth > walkMaxDepth ∨ dir.dirId ∈ σ.visited then [] else [dir] := by
  unfold readIn
  rw [h]

/-- A turn without a directory to read asks the reader nothing. -/
theorem turn_of_readIn_nil (h : readIn σ = []) :
    turn fs σ = .ok { σ with stack := σ.stack.tail } := by
  cases hstack : σ.stack with
  | nil => rw [turn_of_nil hstack, List.tail_nil, ← hstack]
  | cons dir stack =>
    rw [readIn_of_cons hstack] at h
    rw [turn_of_cons hstack, walkStep, List.tail_cons]
    by_cases hskip : dir.depth > walkMaxDepth ∨ dir.dirId ∈ σ.visited
    · exact if_pos hskip
    · rw [if_neg hskip] at h
      cases h

/-- A turn with a directory to read calls `read_dir` on it once, and `meta` for its entries. -/
theorem turn_of_readIn_cons {dir : Pending} {dirs : List Pending} (h : readIn σ = dir :: dirs) :
    turn fs σ = fs.readDir dir.dirId >>= fun entries => entries.foldlM (walkEntry fs dir)
      { σ with visited := dir.dirId :: σ.visited, stack := σ.stack.tail } := by
  cases hstack : σ.stack with
  | nil =>
    unfold readIn at h
    rw [hstack] at h
    cases h
  | cons dir' stack =>
    rw [readIn_of_cons hstack] at h
    by_cases hskip : dir'.depth > walkMaxDepth ∨ dir'.dirId ∈ σ.visited
    · rw [if_pos hskip] at h
      cases h
    · rw [if_neg hskip] at h
      cases h
      rw [turn_of_cons hstack, walkStep, List.tail_cons]
      exact if_neg hskip

/-- **What one turn of a successful loop does**: it drops the top directory, or lists it. -/
theorem turn_cases {dir : Pending} {stack : List Pending} (hstack : σ.stack = dir :: stack)
    (h : turn fs σ = .ok σ') :
    (readIn σ = [] ∧ σ' = { σ with stack }) ∨
      (readIn σ = [dir] ∧ dir.depth ≤ walkMaxDepth ∧ dir.dirId ∉ σ.visited ∧
        σ' = WalkState.listed { σ with visited := dir.dirId :: σ.visited, stack } dir
          (entriesOf fs dir)) := by
  have hread := readIn_of_cons hstack
  rw [turn_of_cons hstack] at h
  rcases walkStep_cases h with ⟨hskip, rfl⟩ | ⟨hdepth, hnew, rfl⟩
  · exact .inl ⟨hread.trans (if_pos hskip), rfl⟩
  · refine .inr ⟨hread.trans (if_neg ?_), hdepth, hnew, rfl⟩
    rw [not_or]
    exact ⟨Nat.not_lt.mpr hdepth, hnew⟩

/-- A turn puts subdirectories in the place of the top directory. -/
theorem turn_replaces (hne : σ.stack ≠ []) (h : turn fs σ = .ok σ') :
    Worklist.Replaces Pending.levels σ.stack σ'.stack := by
  obtain ⟨dir, stack, hstack⟩ := List.exists_cons_of_ne_nil hne
  rcases turn_cases hstack h with ⟨-, rfl⟩ | ⟨-, hdepth, -, rfl⟩
  · exact ⟨dir, stack, [], hstack, rfl, fun x hx => absurd hx List.not_mem_nil⟩
  · refine ⟨dir, stack, (subdirs fs dir).reverse, hstack, rfl, fun sub hsub => ?_⟩
    rw [levels_of_mem_subdirs (List.mem_reverse.mp hsub) hdepth]
    exact Nat.lt_succ_self _

end Turn

section Runs

variable {fs : Nat → FileSystem} {k : Nat} {σ : WalkState}

theorem turns_succ (h : turns fs k = .ok σ) : turns fs (k + 1) = turn (fs k) σ := by
  rw [turns, h, ok_bind]

theorem reads_succ (h : turns fs k = .ok σ) : reads fs (k + 1) = reads fs k ++ readIn σ := by
  rw [reads, h]

variable (fs) in
/-- **The loop ends**, whatever the reader answers. -/
theorem exists_ended : ∃ n, Ended (turns fs n) := by
  let work : Nat → List Pending := fun k =>
    match turns fs k with
    | .error _ => []
    | .ok σ => σ.stack
  obtain ⟨n, hn⟩ : ∃ n, work n = [] := by
    apply Worklist.exists_empty
    intro k hne
    cases hk : turns fs k with
    | error e => exact absurd (by simp only [work, hk]) hne
    | ok σ =>
      have hstack : work k = σ.stack := by simp only [work, hk]
      cases hk' : turns fs (k + 1) with
      | error e => exact .inl (by simp only [work, hk'])
      | ok σ' =>
        have hstack' : work (k + 1) = σ'.stack := by simp only [work, hk']
        rw [hstack] at hne
        rw [turns_succ hk] at hk'
        rw [hstack, hstack']
        exact .inr (turn_replaces hne hk')
  refine ⟨n, ?_⟩
  cases hk : turns fs n with
  | error e => trivial
  | ok σ =>
    simp only [work, hk] at hn
    exact hn

/-! ## What is read -/

/-- The directories read so far: none below the cap, none twice, and none unvisited. -/
structure Log (fs : Nat → FileSystem) (k : Nat) : Prop where
  depth : ∀ dir ∈ reads fs k, dir.depth ≤ walkMaxDepth
  nodup : ((reads fs k).map Pending.dirId).Nodup
  visited : ∀ σ, turns fs k = .ok σ → ∀ d, d ∈ σ.visited ↔ d ∈ (reads fs k).map Pending.dirId

theorem readIn_cases (σ : WalkState) : readIn σ = [] ∨ ∃ dir, readIn σ = [dir] ∧
    dir.depth ≤ walkMaxDepth ∧ dir.dirId ∉ σ.visited := by
  cases hstack : σ.stack with
  | nil =>
    unfold readIn
    rw [hstack]
    exact .inl rfl
  | cons dir stack =>
    rw [readIn_of_cons hstack]
    by_cases hskip : dir.depth > walkMaxDepth ∨ dir.dirId ∈ σ.visited
    · exact .inl (if_pos hskip)
    · rw [not_or, Nat.not_lt] at hskip
      exact .inr ⟨dir, if_neg (not_or.mpr ⟨Nat.not_lt.mpr hskip.1, hskip.2⟩), hskip⟩

theorem visited_turn {fs : FileSystem} {σ' : WalkState} (h : turn fs σ = .ok σ') (d : FileId) :
    d ∈ σ'.visited ↔ d ∈ σ.visited ∨ d ∈ (readIn σ).map Pending.dirId := by
  cases hstack : σ.stack with
  | nil =>
    rw [turn_of_nil hstack] at h
    cases h
    simp [readIn, hstack]
  | cons dir stack =>
    rcases turn_cases hstack h with ⟨hread, rfl⟩ | ⟨hread, -, -, rfl⟩
    · simp [hread]
    · simp [hread, WalkState.listed, or_comm]

theorem Log.succ (h : Log fs k) : Log fs (k + 1) := by
  cases hk : turns fs k with
  | error e =>
    have hreads : reads fs (k + 1) = reads fs k := by rw [reads, hk]
    refine ⟨hreads ▸ h.depth, hreads ▸ h.nodup, fun σ hσ => ?_⟩
    rw [turns, hk] at hσ
    cases hσ
  | ok σ =>
    have hvisited := h.visited σ hk
    refine ⟨fun dir hdir => ?_, ?_, fun σ' hσ' d => ?_⟩
    · rw [reads_succ hk] at hdir
      rcases List.mem_append.mp hdir with hdir | hdir
      · exact h.depth dir hdir
      · rcases readIn_cases σ with hread | ⟨dir', hread, hdepth, -⟩
        · rw [hread] at hdir
          exact absurd hdir List.not_mem_nil
        · rw [hread] at hdir
          obtain rfl := List.mem_singleton.mp hdir
          exact hdepth
    · rw [reads_succ hk, List.map_append]
      refine List.Nodup.append h.nodup ?_ ?_
      · rcases readIn_cases σ with hread | ⟨dir, hread, -⟩
        · rw [hread]
          exact List.nodup_nil
        · rw [hread]
          exact List.nodup_singleton _
      · rcases readIn_cases σ with hread | ⟨dir, hread, -, hnew⟩
        · rw [hread]
          exact List.disjoint_nil_right _
        · rw [hread]
          apply List.disjoint_singleton.mpr
          rwa [← hvisited]
    · rw [turns_succ hk] at hσ'
      rw [reads_succ hk, List.map_append, List.mem_append, visited_turn hσ', hvisited]

theorem log (fs : Nat → FileSystem) (k : Nat) : Log fs k := by
  induction k with
  | zero =>
    refine ⟨fun dir hdir => absurd hdir List.not_mem_nil, List.nodup_nil, fun σ hσ d => ?_⟩
    cases hσ
    exact Iff.rfl
  | succ k ih => exact ih.succ

end Runs

/-! ## The walk -/

section Walk

variable {fs : FileSystem}

theorem walkLoop_turn (σ : WalkState) : turn fs σ >>= walkLoop fs = walkLoop fs σ := by
  obtain ⟨out, visited, stack⟩ := σ
  cases stack with
  | nil => rfl
  | cons dir stack => exact (walkLoop_cons out visited dir stack).symm

variable (fs) in
/-- After any number of turns, `walk` is the rest of the loop. -/
theorem walk_eq_turns (n : Nat) : walk fs = turns (fun _ => fs) n >>= walkLoop fs := by
  induction n with
  | zero => rfl
  | succ n ih =>
    rw [ih, turns]
    cases turns (fun _ => fs) n with
    | error e => rfl
    | ok σ => exact (walkLoop_turn σ).symm

/-- At the end of the loop, `walk` answers. -/
theorem walk_of_ended {n : Nat} (h : Ended (turns (fun _ => fs) n)) :
    walk fs = WalkState.out <$> turns (fun _ => fs) n := by
  rw [walk_eq_turns fs n]
  cases hn : turns (fun _ => fs) n with
  | error e => rfl
  | ok σ =>
    obtain ⟨out, visited, stack⟩ := σ
    rw [hn] at h
    obtain rfl : stack = [] := h
    exact walkLoop_nil out visited

end Walk

/-- **What the log of the reads says of a turn**: one that adds nothing to it drops the top of the
stack and asks the reader nothing, and one that adds a directory is `read_dir` on it. -/
theorem turns_of_readIn {fs : Nat → FileSystem} {k : Nat} {σ : WalkState}
    (h : turns fs k = .ok σ) :
    (readIn σ = [] ∧ turns fs (k + 1) = .ok { σ with stack := σ.stack.tail }) ∨
      ∃ dir, readIn σ = [dir] ∧
        turns fs (k + 1) = (fs k).readDir dir.dirId >>= fun entries =>
          entries.foldlM (walkEntry (fs k) dir)
            { σ with visited := dir.dirId :: σ.visited, stack := σ.stack.tail } := by
  rw [turns_succ h]
  rcases readIn_cases σ with hread | ⟨dir, hread, -, -⟩
  · exact .inl ⟨hread, turn_of_readIn_nil hread⟩
  · exact .inr ⟨dir, hread, turn_of_readIn_cons hread⟩

/-- **`walk` ends on every filesystem**, even one that answers differently in every turn: after
finitely many turns the stack is empty or a read has failed. In no turn is a directory below
`walkMaxDepth` read, and none is read twice, where the reads are those the turns make; and what
`walk` answers is what the loop ends with. -/
theorem walk_ends (fs : Nat → FileSystem) :
    (∃ n, Ended (turns fs n)) ∧
      (∀ n, (∀ dir ∈ reads fs n, dir.depth ≤ walkMaxDepth) ∧
        ((reads fs n).map Pending.dirId).Nodup) ∧
      (∀ n σ, turns fs n = .ok σ → reads fs (n + 1) = reads fs n ++ readIn σ ∧
        ((readIn σ = [] ∧ turns fs (n + 1) = .ok { σ with stack := σ.stack.tail }) ∨
          ∃ dir, readIn σ = [dir] ∧
            turns fs (n + 1) = (fs n).readDir dir.dirId >>= fun entries =>
              entries.foldlM (walkEntry (fs n) dir)
                { σ with visited := dir.dirId :: σ.visited, stack := σ.stack.tail })) ∧
      ∃ n, Ended (turns (fun _ => fs 0) n) ∧
        walk (fs 0) = WalkState.out <$> turns (fun _ => fs 0) n := by
  refine ⟨exists_ended fs, fun n => ⟨(log fs n).depth, (log fs n).nodup⟩,
    fun n σ h => ⟨reads_succ h, turns_of_readIn h⟩, ?_⟩
  obtain ⟨n, hn⟩ := exists_ended fun _ => fs 0
  exact ⟨n, hn, walk_of_ended hn⟩

end ForensicVfs
