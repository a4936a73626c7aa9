import ForensicVfs.Resolver.Doubles
import ForensicVfs.Verify.Walk.Search

/-!
# What the walk reaches

A chain of directory entries is what `walk` follows. A directory is listed exactly when some chain
to it goes through no directory that `walk` met first by a longer chain, right at the cap
(`met_iff_openChain`): what is below such a directory is then past the cap, and the visited set
keeps the shorter chain from being followed. Which directories are met, and by which chain, is
decided by the chains alone (`mem_entered`), so is whether `walk` shows everything within reach
(`showsWithinReach_iff`).
-/

namespace ForensicVfs

open Result DepthFirst

section Chains

variable (fs : FileSystem)

/-- The directory lists the entry, other than `.` and `..`, of a node with this metadata. -/
def Lists (d : FileId) (e : DirEntry) (m : FsMeta) : Prop :=
  ∃ entries, fs.readDir d = .ok entries ∧ .ok e ∈ entries ∧ isDot e.name = false ∧
    fs.meta e.id = .ok m

/-- The names spell a chain of directory entries from the root to the directory. -/
inductive DirChain : List Bytes → FileId → Prop
  | root : DirChain [] fs.root
  | step {names : List Bytes} {d : FileId} {e : DirEntry} {m : FsMeta} (h : DirChain names d)
      (he : Lists fs d e m) (hdir : m.kind = .dir) : DirChain (names ++ [e.name]) e.id

variable {fs}

theorem mem_realEntries {d : FileId} {e : DirEntry} {m : FsMeta} :
    (e, m) ∈ realEntries fs d ↔ Lists fs d e m := by
  unfold realEntries Lists
  cases hread : fs.readDir d with
  | error err => simp
  | ok entries =>
    simp only [List.mem_filterMap, Except.ok.injEq, exists_eq_left']
    constructor
    · intro ⟨entry, hentry, hreal⟩
      unfold realEntry at hreal
      cases entry with
      | error err => exact nomatch hreal
      | ok e' =>
        by_cases hdot : isDot e'.name = true
        · simp [hdot] at hreal
        · cases hm : fs.meta e'.id with
          | error err => simp [hdot, hm] at hreal
          | ok m' =>
            simp only [hdot, hm] at hreal
            cases hreal
            exact ⟨hentry, by simpa using hdot, hm⟩
    · intro ⟨hentry, hdot, hm⟩
      refine ⟨.ok e, hentry, ?_⟩
      simp [realEntry, hdot, hm]

theorem mem_entriesOf {dir : Pending} {w : WalkEntry} :
    w ∈ entriesOf fs dir ↔
      ∃ e m, Lists fs dir.dirId e m ∧ w = ⟨dir.pre ++ [e.name], e.id, m⟩ := by
  unfold entriesOf
  rw [List.mem_map]
  constructor
  · intro ⟨⟨e, m⟩, he, hw⟩
    exact ⟨e, m, mem_realEntries.mp he, hw.symm⟩
  · intro ⟨e, m, he, hw⟩
    exact ⟨(e, m), mem_realEntries.mpr he, hw.symm⟩

theorem mem_subdirs {dir sub : Pending} :
    sub ∈ subdirs fs dir ↔ ∃ e m, Lists fs dir.dirId e m ∧ m.kind = .dir ∧
      sub = ⟨dir.pre ++ [e.name], e.id, dir.depth + 1⟩ := by
  unfold subdirs
  rw [List.mem_filterMap]
  constructor
  · intro ⟨w, hw, hsub⟩
    obtain ⟨e, m, he, rfl⟩ := mem_entriesOf.mp hw
    unfold Pending.enter at hsub
    split at hsub
    · next hdir =>
      cases hsub
      exact ⟨e, m, he, hdir, rfl⟩
    · exact nomatch hsub
  · intro ⟨e, m, he, hdir, hsub⟩
    refine ⟨⟨dir.pre ++ [e.name], e.id, m⟩, mem_entriesOf.mpr ⟨e, m, he, rfl⟩, ?_⟩
    rw [hsub]
    exact if_pos hdir

/-! ## Routes are chains -/

theorem chain_of_follow {π : List Nat} {dir : Pending}
    (h : follow (popOrder fs) (walkRoot fs) π = some dir) :
    DirChain fs dir.pre dir.dirId ∧ dir.depth = π.length ∧ dir.pre.length = π.length := by
  induction π using List.reverseRecOn generalizing dir with
  | nil =>
    obtain rfl := Option.some.inj h
    exact ⟨.root, rfl, rfl⟩
  | append_singleton π i ih =>
    rw [follow_append] at h
    obtain ⟨parent, hparent, hdir⟩ := Option.bind_eq_some_iff.mp h
    obtain ⟨hchain, hdepth, hlen⟩ := ih hparent
    have hget : (popOrder fs parent)[i]? = some dir := by
      rw [← follow_append_singleton hparent, follow_append, hparent]
      exact hdir
    obtain ⟨e, m, he, hkind, rfl⟩ :=
      mem_subdirs.mp (List.mem_reverse.mp (List.mem_of_getElem? hget))
    refine ⟨.step hchain he hkind, ?_, ?_⟩
    · simp [hdepth]
    · simp [hlen]

end Chains

/-! ## What is met -/

section Met

variable (fs : FileSystem)

/-- The directory is met first, within the cap, by the chain it carries. -/
def Met (dir : Pending) : Prop :=
  ∃ π, FirstMet Pending.dirId (popOrder fs) (walkMaxDepth + 1) (walkRoot fs) π ∧
    follow (popOrder fs) (walkRoot fs) π = some dir

variable {fs}

/-- **The directories `walk` lists are those met first.** -/
theorem mem_entered {dir : Pending} : dir ∈ entered fs ↔ Met fs dir := mem_explore_iff

theorem met_root : Met fs (walkRoot fs) := by
  refine ⟨[], firstMet_iff.mpr ⟨⟨Nat.succ_pos _, rfl⟩, fun τ i hτ => ?_, fun σ y z hlt => ?_⟩, rfl⟩
  · exact absurd (congrArg List.length hτ) (by simp)
  · exact absurd hlt (List.not_lt_nil σ)

theorem Met.chain {dir : Pending} (h : Met fs dir) :
    DirChain fs dir.pre dir.dirId ∧ dir.depth ≤ walkMaxDepth := by
  obtain ⟨π, hπ, hdir⟩ := h
  obtain ⟨hchain, hdepth, -⟩ := chain_of_follow hdir
  have hlt := hπ.route.1
  exact ⟨hchain, by omega⟩

/-- Below the cap, the subdirectories of a directory that is met are met. -/
theorem Met.sub {dir : Pending} (h : Met fs dir) (hdepth : dir.depth < walkMaxDepth)
    {e : DirEntry} {m : FsMeta} (he : Lists fs dir.dirId e m) (hdir : m.kind = .dir) :
    ∃ dir', Met fs dir' ∧ dir'.dirId = e.id := by
  obtain ⟨π, hπ, hfollow⟩ := h
  obtain ⟨-, hlen, -⟩ := chain_of_follow hfollow
  have hmem : (⟨dir.pre ++ [e.name], e.id, dir.depth + 1⟩ : Pending) ∈ popOrder fs dir :=
    List.mem_reverse.mpr (mem_subdirs.mpr ⟨e, m, he, hdir, rfl⟩)
  obtain ⟨i, hi⟩ := List.getElem?_of_mem hmem
  rw [← follow_append_singleton hfollow] at hi
  obtain ⟨σ, dir', hσ, hdir', hkey⟩ := hπ.child (by omega) hi
  exact ⟨dir', ⟨σ, hσ, hdir'⟩, hkey⟩

/-- A directory is met once. -/
theorem Met.unique {dir dir' : Pending} (h : Met fs dir) (h' : Met fs dir')
    (hid : dir.dirId = dir'.dirId) : dir = dir' := by
  have hnodup : ((entered fs).map Pending.dirId).Nodup := nodup_explore List.nodup_nil
  exact List.inj_on_of_nodup_map hnodup (mem_entered.mpr h) (mem_entered.mpr h') hid

variable (fs) in
/-- The names spell a chain of directory entries that goes on from no directory met first at the
cap. -/
inductive OpenChain : List Bytes → FileId → Prop
  | root : OpenChain [] fs.root
  | step {names : List Bytes} {d : FileId} {e : DirEntry} {m : FsMeta} (h : OpenChain names d)
      (hopen : ∀ dir, Met fs dir → dir.dirId = d → dir.depth < walkMaxDepth)
      (he : Lists fs d e m) (hdir : m.kind = .dir) : OpenChain (names ++ [e.name]) e.id

theorem OpenChain.met {names : List Bytes} {d : FileId} (h : OpenChain fs names d) :
    ∃ dir, Met fs dir ∧ dir.dirId = d := by
  induction h with
  | root => exact ⟨_, met_root, rfl⟩
  | step h hopen he hdir ih =>
    obtain ⟨dir, hmet, rfl⟩ := ih
    exact hmet.sub (hopen dir hmet rfl) he hdir

/-- The chain that meets a directory is open. -/
theorem Met.openChain {dir : Pending} (h : Met fs dir) : OpenChain fs dir.pre dir.dirId := by
  obtain ⟨π, hπ, hdir⟩ := h
  induction π using List.reverseRecOn generalizing dir with
  | nil =>
    obtain rfl := Option.some.inj hdir
    exact .root
  | append_singleton π i ih =>
    have hparent := hπ.of_prefix (List.prefix_append π [i])
    obtain ⟨parent, hfollow⟩ := hparent.exists_follow
    rw [follow_append_singleton hfollow] at hdir
    obtain ⟨e, m, he, hkind, rfl⟩ :=
      mem_subdirs.mp (List.mem_reverse.mp (List.mem_of_getElem? hdir))
    refine .step (ih hparent hfollow) (fun dir hmet hid => ?_) he hkind
    -- the parent is met by `π`, and `π` has one more step to go within the cap
    obtain rfl := hmet.unique ⟨π, hparent, hfollow⟩ hid
    obtain ⟨-, hdepth, -⟩ := chain_of_follow hfollow
    have hlen := hπ.route.1
    rw [List.length_append, List.length_singleton] at hlen
    omega

/-- **What `walk` lists**: the directories to which some chain goes through none that is met first
at the cap. -/
theorem met_iff_openChain {d : FileId} :
    (∃ dir, Met fs dir ∧ dir.dirId = d) ↔ ∃ names, OpenChain fs names d := by
  constructor
  · intro ⟨dir, hmet, hid⟩
    exact ⟨dir.pre, hid ▸ hmet.openChain⟩
  · intro ⟨names, h⟩
    exact h.met

end Met

/-! ## Everything within reach -/

/-- `walk` answers, and reports every entry of every directory that a chain of at most
`walkMaxDepth` entries leads to, under the names of some chain to the directory. -/
def ShowsWithinReach (fs : FileSystem) : Prop :=
  ∃ out, walk fs = .ok out ∧ ∀ names d, DirChain fs names d → names.length ≤ walkMaxDepth →
    ∀ e m, Lists fs d e m → ∃ pre, DirChain fs pre d ∧ ⟨pre ++ [e.name], e.id, m⟩ ∈ out

/-- What a filesystem that can be read reports, entry by entry. -/
theorem mem_walk_iff {fs : FileSystem} {names : List Bytes} {name : Bytes} {id : FileId}
    {m : FsMeta} :
    ⟨names ++ [name], id, m⟩ ∈ (entered fs).flatMap (entriesOf fs) ↔
      ∃ dir e, Met fs dir ∧ dir.pre = names ∧ Lists fs dir.dirId e m ∧ e.name = name ∧
        e.id = id := by
  rw [List.mem_flatMap]
  constructor
  · intro ⟨dir, hdir, hw⟩
    obtain ⟨e, m', he, hw⟩ := mem_entriesOf.mp hw
    obtain ⟨hpath, hid, rfl⟩ := WalkEntry.mk.inj hw
    obtain ⟨hnames, hname⟩ := List.append_inj' hpath rfl
    exact ⟨dir, e, mem_entered.mp hdir, hnames.symm, he, (List.head_eq_of_cons_eq hname).symm,
      hid.symm⟩
  · intro ⟨dir, e, hdir, hnames, he, hname, hid⟩
    subst hnames hname hid
    exact ⟨dir, mem_entered.mpr hdir, mem_entriesOf.mpr ⟨e, m, he, rfl⟩⟩

/-- A listing repeats a name, and the names of a chain to the directory also lead to another one,
which they meet and which lists the same entry. -/
def ShownInTwin (fs : FileSystem) (d : FileId) (e : DirEntry) (m : FsMeta) : Prop :=
  ∃ dir e', Met fs dir ∧ dir.dirId ≠ d ∧ DirChain fs dir.pre d ∧ Lists fs dir.dirId e' m ∧
    e'.name = e.name ∧ e'.id = e.id

/-- **`walk` shows everything within reach exactly when** every directory within reach that has an
entry to show is at the end of an open chain, one that goes on from no directory first met at the
cap; an entry of any other has to be shown in a twin of the directory, under the same names. -/
theorem showsWithinReach_iff {fs : FileSystem} (hfs : Readable fs) :
    ShowsWithinReach fs ↔ ∀ names d, DirChain fs names d → names.length ≤ walkMaxDepth →
      ∀ e m, Lists fs d e m → (∃ pre, OpenChain fs pre d) ∨ ShownInTwin fs d e m := by
  unfold ShowsWithinReach
  rw [hfs.walk]
  constructor
  · intro ⟨out, hout, h⟩ names d hchain hlen e m he
    cases hout
    obtain ⟨pre, hpre, hmem⟩ := h names d hchain hlen e m he
    obtain ⟨dir, e', hdir, rfl, he', hname, hid⟩ := mem_walk_iff.mp hmem
    by_cases hd : dir.dirId = d
    · exact .inl (met_iff_openChain.mp ⟨dir, hdir, hd⟩)
    · exact .inr ⟨dir, e', hdir, hd, hpre, he', hname, hid⟩
  · intro h
    refine ⟨_, rfl, fun names d hchain hlen e m he => ?_⟩
    rcases h names d hchain hlen e m he with hopen | ⟨dir, e', hdir, -, hpre, he', hname, hid⟩
    · obtain ⟨dir, hdir, rfl⟩ := met_iff_openChain.mpr hopen
      exact ⟨dir.pre, hdir.chain.1, mem_walk_iff.mpr ⟨dir, e, hdir, rfl, he, rfl, rfl⟩⟩
    · exact ⟨dir.pre, hpre, mem_walk_iff.mpr ⟨dir, e', hdir, rfl, he', hname, hid⟩⟩

/-! ## A shared directory behind a long chain -/

/-- The chain `0`, ..., `256` of directories, the last one also listed by the first; `256` lists the
directory `257`, which lists the file `258`. -/
def lateChildren (n : Nat) : List (Bytes × UInt64) :=
  if n = 0 then [(str "s", 256), (str "d", 1)]
  else if n < 256 then [(str "d", .ofNat (n + 1))]
  else if n = 256 then [(str "y", 257)]
  else if n = 257 then [(str "e", 258)]
  else []

def lateKind (n : UInt64) : NodeKind := if n < 258 then .dir else .file

def lateFs : FileSystem := treeFs (fun n => lateChildren n.toNat) lateKind

theorem readable_treeFs (children : UInt64 → List (Bytes × UInt64)) (kindOf : UInt64 → NodeKind) :
    Readable (treeFs children kindOf) := by
  refine ⟨fun d => ?_, fun id => ?_⟩
  · cases d with
    | opaqueId n =>
      refine ⟨(children n).map fun p => ⟨p.1, .opaqueId p.2, kindOf p.2⟩, ?_⟩
      show Except.ok _ = Except.ok _
      rw [List.map_map]
      rfl
    | _ => exact ⟨[], rfl⟩
  · cases id <;> exact ⟨_, rfl⟩

theorem realEntries_treeFs (children : UInt64 → List (Bytes × UInt64))
    (kindOf : UInt64 → NodeKind) (n : UInt64) :
    realEntries (treeFs children kindOf) (.opaqueId n) =
      ((children n).filter fun p => !isDot p.1).map fun p =>
        (⟨p.1, .opaqueId p.2, kindOf p.2⟩, fakeMeta (kindOf p.2)) := by
  show List.filterMap _ (List.map _ _) = _
  rw [List.filterMap_map, ← List.filterMap_eq_map, List.filterMap_filter]
  apply List.filterMap_congr
  intro p _
  cases hdot : isDot p.1 with
  | true => simp [realEntry, hdot]
  | false =>
    simp only [Function.comp_apply, realEntry, hdot]
    rfl

/-- The directory `k` of `lateFs`. -/
def lateId (k : Nat) : FileId := .opaqueId (.ofNat k)

theorem not_isDot_of_mem_lateChildren {k : Nat} {p : Bytes × UInt64} (hp : p ∈ lateChildren k) :
    (!isDot p.1) = true := by
  have hname : p.1 ∈ [str "s", str "d", str "y", str "e"] := by
    unfold lateChildren at hp
    split_ifs at hp <;> grind
  have hall : [str "s", str "d", str "y", str "e"].all (fun name => !isDot name) = true := by
    decide
  exact List.all_eq_true.mp hall p.1 hname

theorem realEntries_lateFs {k : Nat} (hk : k < 2 ^ 64) :
    realEntries lateFs (lateId k) = (lateChildren k).map fun p =>
      (⟨p.1, .opaqueId p.2, lateKind p.2⟩, fakeMeta (lateKind p.2)) := by
  have hdot : ∀ p ∈ lateChildren k, (!isDot p.1) = true :=
    fun p hp => not_isDot_of_mem_lateChildren hp
  unfold lateId lateFs
  rw [realEntries_treeFs, UInt64.toNat_ofNat_of_lt' hk, List.filter_eq_self.mpr hdot]

theorem lists_lateFs {k : Nat} (hk : k < 2 ^ 64) {e : DirEntry} {m : FsMeta} :
    Lists lateFs (lateId k) e m ↔ ∃ p ∈ lateChildren k,
      e = ⟨p.1, .opaqueId p.2, lateKind p.2⟩ ∧ m = fakeMeta (lateKind p.2) := by
  rw [← mem_realEntries, realEntries_lateFs hk, List.mem_map]
  simp only [Prod.mk.injEq, eq_comm]

theorem snd_le_of_mem_lateChildren {k : Nat} (hk : k ≤ 256) {p : Bytes × UInt64}
    (hp : p ∈ lateChildren k) : p.2.toNat ≤ 257 := by
  unfold lateChildren at hp
  split at hp
  · rcases List.mem_cons.mp hp with rfl | hp
    · decide
    · obtain rfl := List.mem_singleton.mp hp
      decide
  · split at hp
    · obtain rfl := List.mem_singleton.mp hp
      rw [toNat_ofNat_of_lt (by omega)]
      omega
    · rw [if_pos (by omega)] at hp
      obtain rfl := List.mem_singleton.mp hp
      decide

theorem popOrder_late {k : Nat} (hk : 0 < k) (hlt : k < 256) (pre : List Bytes) (depth : Nat) :
    popOrder lateFs ⟨pre, lateId k, depth⟩ = [⟨pre ++ [str "d"], lateId (k + 1), depth + 1⟩] := by
  have hchild : lateChildren k = [(str "d", .ofNat (k + 1))] := by
    unfold lateChildren
    rw [if_neg (by omega), if_pos hlt]
  have hdir : lateKind (.ofNat (k + 1)) = .dir := by
    apply if_pos
    rw [UInt64.lt_iff_toNat_lt, toNat_ofNat_of_lt (by omega)]
    show k + 1 < 258
    omega
  unfold popOrder subdirs entriesOf
  rw [realEntries_lateFs (by omega), hchild]
  simp only [List.map_cons, List.map_nil, hdir]
  rfl

theorem popOrder_late_last (pre : List Bytes) (depth : Nat) :
    popOrder lateFs ⟨pre, lateId 256, depth⟩ = [⟨pre ++ [str "y"], lateId 257, depth + 1⟩] := by
  unfold popOrder subdirs entriesOf
  rw [realEntries_lateFs (by decide)]
  rfl

theorem popOrder_late_root :
    popOrder lateFs (walkRoot lateFs) = [⟨[str "d"], lateId 1, 1⟩, ⟨[str "s"], lateId 256, 1⟩] := by
  have hroot : walkRoot lateFs = ⟨[], lateId 0, 0⟩ := rfl
  unfold popOrder subdirs entriesOf
  rw [hroot, realEntries_lateFs (by decide)]
  rfl

theorem lateId_inj {i j : Nat} (hi : i < 2 ^ 64) (hj : j < 2 ^ 64) (h : lateId i = lateId j) :
    i = j := by
  have hnat := congrArg UInt64.toNat (FileId.opaqueId.inj h)
  rwa [UInt64.toNat_ofNat_of_lt' hi, UInt64.toNat_ofNat_of_lt' hj] at hnat

/-- From `k` on the search goes down to the end of the chain, where the cap is. -/
theorem explore_late {n k : Nat} (pre : List Bytes) (depth : Nat) (dirs : List Pending)
    (hn : k + n = 257) (hk : 0 < k) (hle : k ≤ 256)
    (hdirs : ∀ dir ∈ dirs, ∃ i < k, dir.dirId = lateId i) :
    let result := explore Pending.dirId (popOrder lateFs) n ⟨pre, lateId k, depth⟩ dirs
    (∀ dir ∈ result, ∃ i ≤ 256, dir.dirId = lateId i) ∧ lateId 256 ∈ result.map Pending.dirId := by
  induction n generalizing k pre depth dirs with
  | zero => omega
  | succ n ih =>
    have hnew : lateId k ∉ dirs.map Pending.dirId := by
      intro hmem
      obtain ⟨dir, hdir, hid⟩ := List.mem_map.mp hmem
      obtain ⟨i, hi, hid'⟩ := hdirs dir hdir
      have heq := lateId_inj (by omega) (by omega) (hid.symm.trans hid')
      omega
    rw [explore, if_neg hnew]
    by_cases hlast : k = 256
    · obtain rfl : n = 0 := by omega
      subst hlast
      rw [popOrder_late_last, List.foldl_cons, List.foldl_nil, explore]
      refine ⟨fun dir hdir => ?_, ?_⟩
      · rcases List.mem_append.mp hdir with hdir | hdir
        · obtain ⟨i, hi, hid⟩ := hdirs dir hdir
          exact ⟨i, by omega, hid⟩
        · obtain rfl := List.mem_singleton.mp hdir
          exact ⟨256, Nat.le_refl 256, rfl⟩
      · rw [List.map_append]
        exact List.mem_append_right _ List.mem_cons_self
    · rw [popOrder_late hk (by omega), List.foldl_cons, List.foldl_nil]
      apply ih _ _ _ (by omega) (by omega) (by omega)
      intro dir hdir
      rcases List.mem_append.mp hdir with hdir | hdir
      · obtain ⟨i, hi, hid⟩ := hdirs dir hdir
        exact ⟨i, by omega, hid⟩
      · obtain rfl := List.mem_singleton.mp hdir
        exact ⟨k, by omega, rfl⟩

theorem entered_lateFs {dir : Pending} (h : dir ∈ entered lateFs) :
    ∃ i ≤ 256, dir.dirId = lateId i := by
  have hroot : ∀ dir ∈ [walkRoot lateFs], ∃ i < 1, dir.dirId = lateId i := by
    intro dir hdir
    obtain rfl := List.mem_singleton.mp hdir
    exact ⟨0, by decide, rfl⟩
  obtain ⟨hall, hend⟩ := explore_late (n := 256) (k := 1) [str "d"] 1 [walkRoot lateFs] (by decide)
    (by decide) (by decide) hroot
  -- the chain leaves nothing for the second way to its end
  have hentered : entered lateFs = explore Pending.dirId (popOrder lateFs) 256
      ⟨[str "d"], lateId 1, 1⟩ [walkRoot lateFs] := by
    unfold entered
    rw [explore, if_neg (by rw [List.map_nil]; exact List.not_mem_nil), popOrder_late_root,
      List.nil_append, List.foldl_cons, List.foldl_cons, List.foldl_nil]
    exact explore_of_mem _ _ hend
  rw [hentered] at h
  exact hall dir h

theorem lateFs_chain : DirChain lateFs [str "s", str "y"] (lateId 257) ∧
    Lists lateFs (lateId 257) ⟨str "e", lateId 258, .file⟩ (fakeMeta .file) := by
  have hs : DirChain lateFs [str "s"] (lateId 256) :=
    .step .root ((lists_lateFs (k := 0) (by decide)).mpr ⟨_, List.mem_cons_self, rfl, rfl⟩) rfl
  exact ⟨.step hs ((lists_lateFs (by decide)).mpr ⟨_, List.mem_cons_self, rfl, rfl⟩) rfl,
    (lists_lateFs (by decide)).mpr ⟨_, List.mem_cons_self, rfl, rfl⟩⟩

/-- The file below the hidden directory is in no listing. -/
theorem lateFs_missing {w : WalkEntry}
    (hw : w ∈ (entered lateFs).flatMap (entriesOf lateFs)) : w.id ≠ lateId 258 := by
  intro hid
  obtain ⟨dir, hdir, hw⟩ := List.mem_flatMap.mp hw
  obtain ⟨i, hi, hdirId⟩ := entered_lateFs hdir
  obtain ⟨e, m, he, rfl⟩ := mem_entriesOf.mp hw
  rw [hdirId] at he
  obtain ⟨p, hp, rfl, rfl⟩ := (lists_lateFs (by omega)).mp he
  have hle := snd_le_of_mem_lateChildren hi hp
  rw [FileId.opaqueId.inj hid] at hle
  exact absurd hle (by decide)

/-- The chain over `s` goes on from the directory `256`, which is met first at the cap. -/
theorem showsWithinReach_iff_lateFs : ¬ShowsWithinReach lateFs ∧
    ¬∀ names d, DirChain lateFs names d → names.length ≤ walkMaxDepth → ∀ e m,
      Lists lateFs d e m → (∃ pre, OpenChain lateFs pre d) ∨ ShownInTwin lateFs d e m := by
  have hfs : Readable lateFs := readable_treeFs _ _
  have hnot : ¬ShowsWithinReach lateFs := by
    rintro ⟨out, hout, h⟩
    obtain rfl := Except.ok.inj (hfs.walk.symm.trans hout)
    obtain ⟨hchain, he⟩ := lateFs_chain
    obtain ⟨pre, -, hmem⟩ := h _ _ hchain (by decide) _ _ he
    exact lateFs_missing hmem rfl
  exact ⟨hnot, fun h => hnot ((showsWithinReach_iff hfs).mpr h)⟩

/-- **What the two guards hide together**: a directory two entries away from the root is not
listed. -/
theorem lateFs_hides :
    Readable lateFs ∧ DirChain lateFs [str "s", str "y"] (lateId 257) ∧
      Lists lateFs (lateId 257) ⟨str "e", lateId 258, .file⟩ (fakeMeta .file) ∧
      ∃ out, walk lateFs = .ok out ∧ ∀ w ∈ out, w.id ≠ lateId 258 := by
  have hfs : Readable lateFs := readable_treeFs _ _
  exact ⟨hfs, lateFs_chain.1, lateFs_chain.2, _, hfs.walk, fun w hw => lateFs_missing hw⟩

end ForensicVfs
