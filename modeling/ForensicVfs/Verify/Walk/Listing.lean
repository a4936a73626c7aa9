import ForensicVfs.Lib.Subtree
import ForensicVfs.Verify.Walk.Genuine

/-!
# The walk of a tree

Where every directory is named by one entry and the root by none, no directory that `walk` meets was
visited before, and where the directories nest no deeper than the cap none is past it. So nothing is
passed over: `walk` lists the whole tree, in the order of the stack (`entered_eq_subtree`), and that
is the recursive listing up to order (`walk_listing`).
-/

namespace ForensicVfs

open Result DepthFirst

section Listing

variable (fs : FileSystem)

/-- The recursive listing of a directory in pre-order, `n` levels deep: every entry other than `.`
and `..` under the path `pre`, each directory with what is below it. -/
def listing : Nat → List Bytes → FileId → List WalkEntry
  | 0, _, _ => []
  | n + 1, pre, d => (realEntries fs d).flatMap fun p =>
      ⟨pre ++ [p.1.name], p.1.id, p.2⟩ ::
        if p.2.kind = .dir then listing n (pre ++ [p.1.name]) p.1.id else []

/-- The nodes a directory's entries other than `.` and `..` name that are directories themselves. -/
def namedDirs (d : FileId) : List FileId :=
  (realEntries fs d).filterMap fun p => if p.2.kind = .dir then some p.1.id else none

/-- The directories within reach can be read, each but the root is named by one entry of one of
them, and they nest no deeper than the cap of `walk`. -/
structure IsTree : Prop where
  full : ∀ names d, DirChain fs names d → ReadInFull fs d
  once : ∀ names d, DirChain fs names d → (namedDirs fs d).Nodup
  apart : ∀ names d names' d', DirChain fs names d → DirChain fs names' d' → d ≠ d' →
    (namedDirs fs d).Disjoint (namedDirs fs d')
  root : ∀ names d, DirChain fs names d → fs.root ∉ namedDirs fs d
  depth : ∀ names d, DirChain fs names d → names.length ≤ walkMaxDepth

variable {fs}

/-! ## The listing and the directories -/

theorem map_dirId_subdirs (dir : Pending) :
    (subdirs fs dir).map Pending.dirId = namedDirs fs dir.dirId := by
  unfold subdirs entriesOf namedDirs
  rw [List.filterMap_map, List.map_filterMap]
  apply List.filterMap_congr
  intro p _
  by_cases hdir : p.2.kind = .dir <;> simp [Pending.enter, Pending.found, hdir]

theorem flatMap_cons_perm {α β : Type} (l : List α) (f : α → β) (g : α → List β) :
    (l.flatMap fun x => f x :: g x).Perm (l.map f ++ l.flatMap g) := by
  rw [List.map_eq_flatMap]
  exact (List.flatMap_append_perm l (fun x => [f x]) g).symm

/-- **The recursive listing, directory by directory.** -/
theorem listing_perm (n : Nat) (dir : Pending) :
    (listing fs n dir.pre dir.dirId).Perm
      ((subtree (subdirs fs) n dir).flatMap (entriesOf fs)) := by
  induction n generalizing dir with
  | zero => exact .nil
  | succ n ih =>
    rw [subtree, List.flatMap_cons, List.flatMap_assoc, subdirs, List.filterMap_eq_flatMap_toList,
      List.flatMap_assoc, entriesOf, List.flatMap_map]
    refine (flatMap_cons_perm _ _ _).trans (List.Perm.append_left _ ?_)
    apply List.Perm.flatMap_left
    intro p _
    by_cases hdir : p.2.kind = .dir
    · have henter : dir.enter (dir.found p) =
          some ⟨dir.pre ++ [p.1.name], p.1.id, dir.depth + 1⟩ := if_pos hdir
      rw [if_pos hdir, henter, Option.toList_some, List.flatMap_singleton]
      exact ih ⟨dir.pre ++ [p.1.name], p.1.id, dir.depth + 1⟩
    · have henter : dir.enter (dir.found p) = none := if_neg hdir
      rw [if_neg hdir, henter]
      exact .nil

/-! ## Nothing is passed over -/

/-- What is met below the root hangs on a chain of directory entries. -/
theorem chain_of_mem_subtree {n : Nat} {dir : Pending}
    (h : dir ∈ subtree (popOrder fs) n (walkRoot fs)) : DirChain fs dir.pre dir.dirId := by
  obtain ⟨π, -, hπ⟩ := mem_subtree.mp h
  exact (chain_of_follow hπ).1

theorem mem_map_popOrder {dir : Pending} {d : FileId} :
    d ∈ (popOrder fs dir).map Pending.dirId ↔ d ∈ namedDirs fs dir.dirId := by
  rw [popOrder, List.map_reverse, List.mem_reverse, map_dirId_subdirs]

theorem IsTree.treelike (h : IsTree fs) (n : Nat) :
    Treelike Pending.dirId (popOrder fs) n (walkRoot fs) where
  once dir hdir := by
    rw [popOrder, List.map_reverse, List.nodup_reverse, map_dirId_subdirs]
    exact h.once _ _ (chain_of_mem_subtree hdir)
  apart dir hdir dir' hdir' hne d hd hd' :=
    h.apart _ _ _ _ (chain_of_mem_subtree hdir) (chain_of_mem_subtree hdir') hne
      (mem_map_popOrder.mp hd) (mem_map_popOrder.mp hd')
  start dir hdir hroot := h.root _ _ (chain_of_mem_subtree hdir) (mem_map_popOrder.mp hroot)

/-- **`walk` lists every directory of the tree within the cap.** -/
theorem entered_eq_subtree (h : IsTree fs) :
    entered fs = subtree (popOrder fs) (walkMaxDepth + 1) (walkRoot fs) := by
  unfold entered
  rw [explore_eq_subtree, List.nil_append]
  rw [List.nil_append]
  exact (h.treelike _).nodup_subtree

/-- The tree has no levels below the cap. -/
theorem IsTree.listing_eq (h : IsTree fs) {n m : Nat} {pre : List Bytes} {d : FileId}
    (hd : DirChain fs pre d) (hn : walkMaxDepth < pre.length + n) (hnm : n ≤ m) :
    listing fs m pre d = listing fs n pre d := by
  induction n generalizing m pre d with
  | zero => exact absurd (h.depth pre d hd) (Nat.not_le_of_lt hn)
  | succ n ih =>
    cases m with
    | zero => exact absurd hnm (Nat.not_succ_le_zero n)
    | succ m =>
      rw [listing, listing]
      apply List.flatMap_congr
      rintro ⟨e, m'⟩ he
      congr 1
      by_cases hdir : m'.kind = .dir
      · rw [if_pos hdir, if_pos hdir]
        refine ih (.step hd (mem_realEntries.mp he) hdir) ?_ (Nat.le_of_succ_le_succ hnm)
        rw [List.length_append, List.length_singleton]
        omega
      · rw [if_neg hdir, if_neg hdir]

/-! ## The walk succeeds -/

/-- A filesystem that can be read has every directory read in full. -/
theorem Readable.full (hfs : Readable fs) (d : FileId) : ReadInFull fs d := by
  obtain ⟨entries, hentries⟩ := hfs.readDir d
  refine ⟨_, hentries, fun entry hentry => ?_⟩
  obtain ⟨e, -, rfl⟩ := List.mem_map.mp hentry
  exact ⟨e, rfl, fun _ => hfs.meta e.id⟩

/-- Where every directory within reach is read in full, no turn fails. -/
theorem turns_ok (h : ∀ names d, DirChain fs names d → ReadInFull fs d) (k : Nat) :
    ∃ σ, turns (fun _ => fs) k = .ok σ := by
  induction k with
  | zero => exact ⟨_, rfl⟩
  | succ k ih =>
    obtain ⟨σ, hσ⟩ := ih
    rw [turns_succ hσ]
    cases hstack : σ.stack with
    | nil => exact ⟨σ, turn_of_nil hstack⟩
    | cons dir stack =>
      have hdir : dir ∈ σ.stack := hstack ▸ List.mem_cons_self
      obtain ⟨hchain, -⟩ := (sound hσ).chain dir (List.mem_append_right _ hdir)
      obtain ⟨entries, hread, htaken⟩ := h _ _ hchain
      rw [turn_of_cons hstack]
      exact walkStep_ok hread htaken _

theorem walk_ok (h : ∀ names d, DirChain fs names d → ReadInFull fs d) :
    ∃ out, walk fs = .ok out := by
  obtain ⟨n, hn⟩ := exists_ended fun _ => fs
  obtain ⟨σ, hσ⟩ := turns_ok h n
  refine ⟨σ.out, ?_⟩
  rw [walk_of_ended hn, hσ]
  rfl

/-- **On a tree `walk` is the recursive listing.** It succeeds, and what it reports is, up to order,
the recursive pre-order listing of all entries other than `.` and `..`, each with its path, id and
metadata and as often as it is listed; the listing is complete from `walkMaxDepth + 1` levels on. -/
theorem walk_listing (h : IsTree fs) :
    ∃ out all, walk fs = .ok out ∧ out.Perm all ∧
      ∀ n, walkMaxDepth < n → listing fs n [] fs.root = all := by
  obtain ⟨out, hout⟩ := walk_ok h.full
  refine ⟨out, listing fs (walkMaxDepth + 1) [] fs.root, hout, ?_, fun n hn => ?_⟩
  · have hsubdirs : ∀ dir, (popOrder fs dir).Perm (subdirs fs dir) :=
      fun dir => List.reverse_perm _
    rw [walk_eq hout, entered_eq_subtree h]
    refine ((subtree_perm hsubdirs _ _).flatMap_right _).trans ?_
    exact (listing_perm (walkMaxDepth + 1) (walkRoot fs)).symm
  · refine h.listing_eq .root ?_ hn
    rw [List.length_nil, Nat.zero_add]
    exact Nat.lt_succ_self _

end Listing

/-! ## A tree with a file under two names -/

/-- The tree of the walk's test, its nested file also listed by the root. -/
def linkedFs : FileSystem :=
  treeFs (fun n => if n = 0 then [(str ".", 0), (str "..", 0), (str "dir", 1), (str "a.txt", 2)]
    else [(str "b.txt", 2)]) fun n => if n = 2 then .file else .dir

theorem realEntries_linkedFs_root : realEntries linkedFs (.opaqueId 0) =
    [(⟨str "dir", .opaqueId 1, .dir⟩, fakeMeta .dir),
      (⟨str "a.txt", .opaqueId 2, .file⟩, fakeMeta .file)] := by rfl

theorem realEntries_linkedFs_dir : realEntries linkedFs (.opaqueId 1) =
    [(⟨str "b.txt", .opaqueId 2, .file⟩, fakeMeta .file)] := by rfl

theorem reach_linkedFs {names : List Bytes} {d : FileId} (h : DirChain linkedFs names d) :
    (names = [] ∧ d = .opaqueId 0) ∨ (names = [str "dir"] ∧ d = .opaqueId 1) := by
  induction h with
  | root => exact .inl ⟨rfl, rfl⟩
  | step h he hdir ih =>
    have hmem := mem_realEntries.mpr he
    rcases ih with ⟨rfl, rfl⟩ | ⟨rfl, rfl⟩
    · rw [realEntries_linkedFs_root] at hmem
      rcases List.mem_cons.mp hmem with heq | hmem
      · cases heq
        exact .inr ⟨rfl, rfl⟩
      · cases List.mem_singleton.mp hmem
        cases hdir
    · rw [realEntries_linkedFs_dir] at hmem
      cases List.mem_singleton.mp hmem
      cases hdir

theorem isTree_linkedFs : IsTree linkedFs := by
  have hroot : namedDirs linkedFs (.opaqueId 0) = [.opaqueId 1] := by
    rw [namedDirs, realEntries_linkedFs_root]
    rfl
  have hdir : namedDirs linkedFs (.opaqueId 1) = [] := by
    rw [namedDirs, realEntries_linkedFs_dir]
    rfl
  refine ⟨fun names d h => (readable_treeFs _ _).full d, fun names d h => ?_,
    fun names d names' d' h h' hne => ?_, fun names d h => ?_, fun names d h => ?_⟩
  · rcases reach_linkedFs h with ⟨-, rfl⟩ | ⟨-, rfl⟩
    · rw [hroot]
      exact List.nodup_singleton _
    · rw [hdir]
      exact List.nodup_nil
  · rcases reach_linkedFs h with ⟨-, rfl⟩ | ⟨-, rfl⟩ <;>
      rcases reach_linkedFs h' with ⟨-, rfl⟩ | ⟨-, rfl⟩
    · exact absurd rfl hne
    · rw [hdir]
      exact List.disjoint_nil_right _
    · rw [hdir]
      exact List.disjoint_nil_left _
    · exact absurd rfl hne
  · rcases reach_linkedFs h with ⟨-, rfl⟩ | ⟨-, rfl⟩
    · rw [hroot]
      decide
    · rw [hdir]
      exact List.not_mem_nil
  · rcases reach_linkedFs h with ⟨rfl, -⟩ | ⟨rfl, -⟩ <;> decide

theorem walk_listing_linked :
    ∃ out all, walk linkedFs = .ok out ∧ out.Perm all ∧
      ∀ n, walkMaxDepth < n → listing linkedFs n [] linkedFs.root = all :=
  walk_listing isTree_linkedFs

end ForensicVfs
