import ForensicVfs.Verify.Walk.Reach
import ForensicVfs.Verify.Walk.Turns

/-!
# What the walk reports is there

The invariant of the loop (`Sound`): everything on the stack and everything read hangs on a chain of
directory entries from the root, of as many entries as the depth says; what has been reported is the
listings of the directories read, each read in full. With `Log` this gives, for every `Ok` of
`walk`, genuine entries and no listing position reported twice (`walk_genuine`).
-/

namespace ForensicVfs

open Result

/-! ## A directory read in full -/

section Full

variable (fs : FileSystem)

/-- The entry is read, and its metadata if it is not `.` or `..`. -/
def Taken (entry : VfsResult DirEntry) : Prop :=
  ∃ e, entry = .ok e ∧ (isDot e.name = false → ∃ m, fs.meta e.id = .ok m)

/-- `read_dir`, every entry and the metadata of every entry other than `.` and `..` succeed. -/
def ReadInFull (d : FileId) : Prop :=
  ∃ entries, fs.readDir d = .ok entries ∧ ∀ entry ∈ entries, Taken fs entry

/-- What stands at a position of a listing is `.` or `..`. -/
def isDotEntry : VfsResult DirEntry → Bool
  | .error _ => false
  | .ok e => isDot e.name

/-- A directory with each position of its listing that is not `.` or `..`. -/
def origins (dir : Pending) : List (Pending × Nat) :=
  match fs.readDir dir.dirId with
  | .error _ => []
  | .ok entries => (entries.zipIdx.filter fun p => !isDotEntry p.1).map fun p => (dir, p.2)

/-- The entry is the one at the position of the directory's listing, under the directory's path. -/
def EmittedAt (p : Pending × Nat) (w : WalkEntry) : Prop :=
  ∃ entries e, fs.readDir p.1.dirId = .ok entries ∧ entries[p.2]? = some (.ok e) ∧
    w.path = p.1.pre ++ [e.name] ∧ w.id = e.id ∧ fs.meta e.id = .ok w.meta

variable {fs}

theorem taken_of_walkEntry {dir : Pending} {σ σ' : WalkState} {entry : VfsResult DirEntry}
    (h : walkEntry fs dir σ entry = .ok σ') : Taken fs entry := by
  cases entry with
  | error e => cases h
  | ok e =>
    refine ⟨e, rfl, fun hdot => ?_⟩
    unfold walkEntry at h
    rw [ok_bind, if_neg (by rw [hdot]; exact Bool.false_ne_true)] at h
    obtain ⟨m, hm, -⟩ := bind_eq_ok.mp h
    exact ⟨m, hm⟩

theorem taken_of_foldlM {dir : Pending} {σ σ' : WalkState} {entries : List (VfsResult DirEntry)}
    (h : entries.foldlM (walkEntry fs dir) σ = .ok σ') : ∀ entry ∈ entries, Taken fs entry := by
  induction entries generalizing σ with
  | nil => exact fun entry hentry => absurd hentry List.not_mem_nil
  | cons entry entries ih =>
    rw [List.foldlM_cons] at h
    obtain ⟨σ₁, h₁, h⟩ := bind_eq_ok.mp h
    intro entry' hentry
    rcases List.mem_cons.mp hentry with rfl | hentry
    · exact taken_of_walkEntry h₁
    · exact ih h entry' hentry

/-- A turn that succeeds has read its directory in full. -/
theorem readInFull_of_turn {σ σ' : WalkState} {dir : Pending} (hread : readIn σ = [dir])
    (h : turn fs σ = .ok σ') : ReadInFull fs dir.dirId := by
  rw [turn_of_readIn_cons hread] at h
  obtain ⟨entries, hentries, h⟩ := bind_eq_ok.mp h
  exact ⟨entries, hentries, taken_of_foldlM h⟩

/-- Where everything is taken, an entry is reported for every position that is not a dot's. -/
theorem emitted_of_taken {dir : Pending} {entries : List (VfsResult DirEntry)}
    (hread : fs.readDir dir.dirId = .ok entries) {ps : List (VfsResult DirEntry × Nat)}
    (hps : ∀ p ∈ ps, entries[p.2]? = some p.1 ∧ Taken fs p.1) :
    List.Forall₂ (EmittedAt fs) ((ps.filter fun p => !isDotEntry p.1).map fun p => (dir, p.2))
      (((ps.map Prod.fst).filterMap (realEntry fs)).map dir.found) := by
  induction ps with
  | nil => exact .nil
  | cons p ps ih =>
    obtain ⟨entry, i⟩ := p
    obtain ⟨hget, e, rfl, hmeta⟩ := hps (entry, i) List.mem_cons_self
    have hrest := ih fun p hp => hps p (List.mem_cons_of_mem _ hp)
    cases hdot : isDot e.name with
    | true =>
      have hreal : realEntry fs (.ok e) = none := by simp [realEntry, hdot]
      rw [List.filter_cons_of_neg (by simp [isDotEntry, hdot]), List.map_cons,
        List.filterMap_cons_none hreal]
      exact hrest
    | false =>
      obtain ⟨m, hm⟩ := hmeta hdot
      have hreal : realEntry fs (.ok e) = some (e, m) := by simp [realEntry, hdot, hm]
      rw [List.filter_cons_of_pos (by simp [isDotEntry, hdot]), List.map_cons, List.map_cons,
        List.filterMap_cons_some hreal, List.map_cons]
      exact .cons ⟨entries, e, hread, hget, rfl, rfl, hm⟩ hrest

/-- **A directory read in full** is reported position by position. -/
theorem ReadInFull.emitted {dir : Pending} (h : ReadInFull fs dir.dirId) :
    List.Forall₂ (EmittedAt fs) (origins fs dir) (entriesOf fs dir) := by
  obtain ⟨entries, hread, htaken⟩ := h
  unfold origins entriesOf realEntries
  rw [hread]
  have hps : ∀ p ∈ entries.zipIdx, entries[p.2]? = some p.1 ∧ Taken fs p.1 := fun p hp =>
    ⟨List.mem_zipIdx_iff_getElem?.mp hp, htaken p.1 (List.fst_mem_of_mem_zipIdx hp)⟩
  have hemitted := emitted_of_taken hread hps
  rwa [List.zipIdx_map_fst] at hemitted

/-! ## No position twice -/

theorem fst_of_mem_origins {dir : Pending} {p : Pending × Nat} (h : p ∈ origins fs dir) :
    p.1 = dir := by
  unfold origins at h
  split at h
  · exact absurd h List.not_mem_nil
  · obtain ⟨q, -, rfl⟩ := List.mem_map.mp h
    rfl

theorem nodup_origins (dir : Pending) :
    ((origins fs dir).map fun p => (p.1.dirId, p.2)).Nodup := by
  unfold origins
  split
  · exact List.nodup_nil
  · next entries _ =>
    rw [List.map_map]
    have hsnd : (entries.zipIdx.map Prod.snd).Nodup := by
      rw [List.zipIdx_map_snd]
      exact List.nodup_range'
    refine List.Nodup.of_map Prod.snd ?_
    rw [List.map_map]
    exact hsnd.sublist (List.filter_sublist.map _)

theorem nodup_flatMap_origins {dirs : List Pending} (h : (dirs.map Pending.dirId).Nodup) :
    ((dirs.flatMap (origins fs)).map fun p => (p.1.dirId, p.2)).Nodup := by
  rw [List.map_flatMap, List.nodup_flatMap]
  refine ⟨fun dir _ => nodup_origins dir, ?_⟩
  refine (List.pairwise_map.mp h).imp fun {dir dir'} hne => ?_
  intro p hp hp'
  obtain ⟨q, hq, rfl⟩ := List.mem_map.mp hp
  obtain ⟨q', hq', heq⟩ := List.mem_map.mp hp'
  rw [fst_of_mem_origins hq, fst_of_mem_origins hq'] at heq
  exact hne (congrArg Prod.fst heq).symm

end Full

/-! ## The invariant of the loop -/

/-- What is read and what is on the stack hangs on chains from the root, and the listings of the
directories read, each read in full, are what has been reported. -/
structure Sound (fs : FileSystem) (dirs : List Pending) (σ : WalkState) : Prop where
  out : σ.out = dirs.flatMap (entriesOf fs)
  full : ∀ dir ∈ dirs, ReadInFull fs dir.dirId
  chain : ∀ dir ∈ dirs ++ σ.stack, DirChain fs dir.pre dir.dirId ∧ dir.pre.length = dir.depth

section Invariant

variable {fs : FileSystem}

/-- One turn keeps the invariant. -/
theorem Sound.turn {dirs : List Pending} {σ σ' : WalkState} (h : Sound fs dirs σ)
    (hturn : turn fs σ = .ok σ') : Sound fs (dirs ++ readIn σ) σ' := by
  cases hstack : σ.stack with
  | nil =>
    rw [turn_of_nil hstack] at hturn
    cases hturn
    have hread : readIn σ = [] := by
      unfold readIn
      rw [hstack]
    rwa [hread, List.append_nil]
  | cons dir stack =>
    have hchain := h.chain
    rw [hstack] at hchain
    rcases turn_cases hstack hturn with ⟨hread, rfl⟩ | ⟨hread, -, -, rfl⟩
    · rw [hread, List.append_nil]
      refine ⟨h.out, h.full, fun dir' hdir' => hchain dir' ?_⟩
      rcases List.mem_append.mp hdir' with hdir' | hdir'
      · exact List.mem_append_left _ hdir'
      · exact List.mem_append_right _ (List.mem_cons_of_mem _ hdir')
    · have hdir := hchain dir (List.mem_append_right _ List.mem_cons_self)
      rw [hread]
      refine ⟨?_, fun dir' hdir' => ?_, fun dir' hdir' => ?_⟩
      · show σ.out ++ entriesOf fs dir = _
        rw [h.out, List.flatMap_append, List.flatMap_singleton]
      · rcases List.mem_append.mp hdir' with hdir' | hdir'
        · exact h.full dir' hdir'
        · obtain rfl := List.mem_singleton.mp hdir'
          exact readInFull_of_turn hread hturn
      · rcases List.mem_append.mp hdir' with hdir' | hdir'
        · rcases List.mem_append.mp hdir' with hdir' | hdir'
          · exact hchain dir' (List.mem_append_left _ hdir')
          · obtain rfl := List.mem_singleton.mp hdir'
            exact hdir
        · rcases List.mem_append.mp hdir' with hdir' | hdir'
          · -- a subdirectory lengthens the chain by its own entry
            obtain ⟨e, m, he, hkind, rfl⟩ := mem_subdirs.mp (List.mem_reverse.mp hdir')
            refine ⟨.step hdir.1 he hkind, ?_⟩
            rw [List.length_append, List.length_singleton, hdir.2]
          · exact hchain dir' (List.mem_append_right _ (List.mem_cons_of_mem _ hdir'))

/-- The invariant holds after any number of turns. -/
theorem sound {k : Nat} {σ : WalkState} (h : turns (fun _ => fs) k = .ok σ) :
    Sound fs (reads (fun _ => fs) k) σ := by
  induction k generalizing σ with
  | zero =>
    cases h
    refine ⟨rfl, fun dir hdir => absurd hdir List.not_mem_nil, fun dir hdir => ?_⟩
    obtain rfl := List.mem_singleton.mp hdir
    exact ⟨.root, rfl⟩
  | succ k ih =>
    obtain ⟨σ₀, h₀, h⟩ := bind_eq_ok.mp h
    rw [reads_succ h₀]
    exact (ih h₀).turn h

end Invariant

/-! ## Genuine entries -/

/-- The path spells a chain of directory entries from the root, within the cap and without `.` and
`..`, the last of which is the entry itself. -/
def Genuine (fs : FileSystem) (w : WalkEntry) : Prop :=
  ∃ names d e, DirChain fs names d ∧ Lists fs d e w.meta ∧ w.path = names ++ [e.name] ∧
    w.id = e.id ∧ w.path.length ≤ walkMaxDepth + 1 ∧ ∀ name ∈ w.path, isDot name = false

theorem DirChain.not_isDot {fs : FileSystem} {names : List Bytes} {d : FileId}
    (h : DirChain fs names d) : ∀ name ∈ names, isDot name = false := by
  induction h with
  | root => exact fun name hname => absurd hname List.not_mem_nil
  | step _ he _ ih =>
    intro name hname
    rcases List.mem_append.mp hname with hname | hname
    · exact ih name hname
    · obtain ⟨_, _, _, hdot, _⟩ := he
      obtain rfl := List.mem_singleton.mp hname
      exact hdot

/-- **Every entry of the walk is genuine and no directory is listed twice**: the output is, entry
by entry, the listings of directories of distinct ids, without their dot entries, one after the
other. -/
theorem walk_genuine {fs : FileSystem} {out : List WalkEntry} (h : walk fs = .ok out) :
    (∀ w ∈ out, Genuine fs w) ∧ ∃ dirs : List Pending, (dirs.map Pending.dirId).Nodup ∧
      (∀ dir ∈ dirs, ∃ entries, fs.readDir dir.dirId = .ok entries) ∧
      List.Forall₂ (EmittedAt fs) (dirs.flatMap (origins fs)) out ∧
      ((dirs.flatMap (origins fs)).map fun p => (p.1.dirId, p.2)).Nodup := by
  obtain ⟨n, hended⟩ := exists_ended fun _ => fs
  rw [walk_of_ended hended] at h
  obtain ⟨σ, hσ, rfl⟩ := map_eq_ok.mp h
  have hsound := sound hσ
  have hlog := log (fun _ => fs) n
  refine ⟨fun w hw => ?_, reads (fun _ => fs) n, hlog.nodup, fun dir hdir => ?_, ?_,
    nodup_flatMap_origins hlog.nodup⟩
  · rw [hsound.out] at hw
    obtain ⟨dir, hdir, hw⟩ := List.mem_flatMap.mp hw
    obtain ⟨e, m, he, rfl⟩ := mem_entriesOf.mp hw
    obtain ⟨hchain, hlen⟩ := hsound.chain dir (List.mem_append_left _ hdir)
    refine ⟨dir.pre, dir.dirId, e, hchain, he, rfl, rfl, ?_, ?_⟩
    · rw [List.length_append, List.length_singleton, hlen]
      exact Nat.succ_le_succ (hlog.depth dir hdir)
    · -- the chain of the directory, and then the entry itself
      intro name hname
      rcases List.mem_append.mp hname with hname | hname
      · exact hchain.not_isDot name hname
      · obtain ⟨_, _, _, hdot, _⟩ := he
        obtain rfl := List.mem_singleton.mp hname
        exact hdot
  · obtain ⟨entries, hentries, -⟩ := hsound.full dir hdir
    exact ⟨entries, hentries⟩
  · rw [hsound.out]
    refine List.rel_flatMap (R := fun dir dir' => dir = dir' ∧ ReadInFull fs dir.dirId) ?_ ?_
    · exact List.forall₂_same.mpr fun dir hdir => ⟨rfl, hsound.full dir hdir⟩
    · rintro dir _ ⟨rfl, hfull⟩
      exact hfull.emitted

/-- A directory that lists itself, the root and a file twice. -/
def knotFs : FileSystem :=
  treeFs (fun n => if n = 0 then [(str ".", 0), (str "a", 1)]
    else [(str "a", 1), (str "up", 0), (str "f", 2), (str "f", 2)])
    fun n => if n = 2 then .file else .dir

/-- What the walk of `knotFs` reports. -/
def knotWalk : List WalkEntry :=
  [⟨[str "a"], .opaqueId 1, fakeMeta .dir⟩, ⟨[str "a", str "a"], .opaqueId 1, fakeMeta .dir⟩,
    ⟨[str "a", str "up"], .opaqueId 0, fakeMeta .dir⟩,
    ⟨[str "a", str "f"], .opaqueId 2, fakeMeta .file⟩,
    ⟨[str "a", str "f"], .opaqueId 2, fakeMeta .file⟩]

theorem walk_genuine_knot :
    (∀ w ∈ knotWalk, Genuine knotFs w) ∧ ∃ dirs : List Pending, (dirs.map Pending.dirId).Nodup ∧
      (∀ dir ∈ dirs, ∃ entries, knotFs.readDir dir.dirId = .ok entries) ∧
      List.Forall₂ (EmittedAt knotFs) (dirs.flatMap (origins knotFs)) knotWalk ∧
      ((dirs.flatMap (origins knotFs)).map fun p => (p.1.dirId, p.2)).Nodup := by
  have hturns : turns (fun _ => knotFs) 4 =
      .ok ⟨knotWalk, [.opaqueId 1, .opaqueId 0], []⟩ := by rfl
  apply walk_genuine
  rw [walk_eq_turns knotFs 4, hturns]
  exact walkLoop_nil knotWalk _

end ForensicVfs
