import ForensicVfs.Verify.Descent.Invariance
import ForensicVfs.Verify.Descent.Leftmost

/-!
# Resuming where a descent ended

The source and the locator that a terminal hands back are a place to start from again. The source of
a mounted filesystem mounts the same filesystem straight away, at any level and whatever credentials
are offered, since a mount comes before every peel; and a raw source resolves to itself at any level
from its own on (`terminals_resume`).
-/

namespace ForensicVfs

open Result OrderedSearch

section Resume

variable {o : Openers} {creds : CredentialSource} {m : Node} {r : Resolved}

/-- Where there is a mount it comes first, whatever credentials are offered. -/
theorem exists_mount_first (h : .found r ∈ descentItems o creds m) :
    ∃ item : Item VfsError Resolved Node, (∀ m', item ≠ .child m') ∧
      ∀ creds', ∃ rest, descentItems o creds' m = item :: rest := by
  obtain ⟨hsource, -, p, hp, w, hw, hc, -, -⟩ := mounted_of_descentItems h
  rw [hsource] at hw
  have hne : mountItems o w m ≠ [] := by
    unfold mountItems
    rw [ne_eq, List.map_eq_nil_iff]
    exact List.ne_nil_of_mem (List.mem_filter.mpr ⟨hp, hc⟩)
  obtain ⟨item, rest, hitems⟩ := List.exists_cons_of_ne_nil hne
  refine ⟨item, fun m' hm' => ?_, fun creds' => ?_⟩
  · have hmem : item ∈ mountItems o w m := hitems ▸ List.mem_cons_self
    obtain ⟨p', -, hp'⟩ := List.mem_map.mp hmem
    obtain ⟨fs, -, hchild⟩ := loud_eq_child.mp (hp'.trans hm')
    cases hchild
  · refine ⟨rest ++ volumeItems o w m ++ signatureItems o creds' w m ++ packagingItems o w m ++
      attemptItems o creds' w m, ?_⟩
    unfold descentItems
    rw [hw]
    dsimp only
    rw [hitems]
    rfl

/-- A node that mounts answers so before anything is peeled. -/
theorem search_of_mount {d : Nat} (hfound : .found r ∈ descentItems o creds m)
    (h : search (descentItems o creds) (d + 1) m = .ok (some r)) (creds' : CredentialSource)
    (d' : Nat) : search (descentItems o creds') (d' + 1) m = .ok (some r) := by
  obtain ⟨item, hchild, hfirst⟩ := exists_mount_first hfound
  obtain ⟨rest, hrest⟩ := hfirst creds
  obtain ⟨rest', hrest'⟩ := hfirst creds'
  rw [search, hrest, findSomeM?_cons_eq] at h
  rw [search, hrest', findSomeM?_cons_eq]
  cases item with
  | found r' =>
    cases h
    rfl
  | fail e => cases h
  | child m' => exact absurd rfl (hchild m')

/-- **Where a terminal ends is a place to resume**: the source of a mounted filesystem mounts it
again, at any level and with any credentials, and a raw source resolves to itself from its own level
on. -/
theorem terminals_resume (o : Openers) (source : DynSource) (spec : Locator) (depth : Nat)
    (creds : CredentialSource) :
    (∀ r, o.openWithCredentials source spec depth creds = .ok (some r) →
      ∀ d ≤ maxDepth, ∀ creds',
        o.openWithCredentials r.source r.sourceSpec d creds' = .ok (some r)) ∧
      ∀ r, o.resolveToSource source spec depth = .ok (some r) →
        ∃ ls, r.spec = spec.pushAll ls ∧ ∀ d, depth + ls.length ≤ d → d ≤ maxDepth →
          o.resolveToSource r.source r.spec d = .ok (some r) := by
  constructor
  · intro r hr d hd creds'
    rw [openWithCredentials_eq_search] at hr
    obtain ⟨k, m, hk, -, hfound, hrest⟩ := search_restart hr
    obtain ⟨hsource, hspec, -⟩ := mounted_of_descentItems hfound
    rw [openWithCredentials_eq_search, levels_succ hd, hsource, hspec]
    exact search_of_mount hfound (hrest 1 Nat.one_pos (by omega)) creds' (levels (d + 1))
  · intro r hr
    rw [resolveToSource_eq_search] at hr
    obtain ⟨k, m, hk, p, hfound, hrest⟩ := search_restart hr
    obtain ⟨ls, hlen, -, hspec⟩ := peels_of_sourcePath noCredentials p
    obtain rfl := eq_of_found_mem_sourceItems hfound
    refine ⟨ls, hspec, fun d hd hcap => ?_⟩
    rw [resolveToSource_eq_search]
    apply hrest
    · unfold levels
      omega
    · unfold levels at hk ⊢
      omega

end Resume

end ForensicVfs
