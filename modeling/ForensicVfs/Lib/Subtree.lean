import ForensicVfs.Lib.DepthFirst
import Mathlib.Data.List.Flatten
import Mathlib.Data.List.Nodup

/-!
# Depth-first search on a tree

The subtree of an item is the item and then, child by child, their subtrees. Where no key stands in
it twice the search passes nothing over, and enters exactly the subtree (`explore_eq_subtree`). The
keys are distinct as soon as every key but the first is the key of one child of one item
(`Treelike.nodup_subtree`).
-/

namespace DepthFirst

variable {ι κ : Type} (key : ι → κ) (next : ι → List ι)

/-- An item and what is below it, `n` levels in all. -/
def subtree : Nat → ι → List ι
  | 0, _ => []
  | n + 1, x => x :: (next x).flatMap (subtree n)

variable {key next} {n : Nat} {x y : ι}

theorem mem_subtree : y ∈ subtree next n x ↔ ∃ π, π.length < n ∧ follow next x π = some y := by
  induction n generalizing x with
  | zero =>
    refine ⟨fun h => absurd h List.not_mem_nil, fun ⟨π, hlt, _⟩ => ?_⟩
    exact absurd hlt (Nat.not_lt_zero _)
  | succ n ih =>
    rw [subtree, List.mem_cons, List.mem_flatMap]
    constructor
    · rintro (rfl | ⟨z, hz, hy⟩)
      · exact ⟨[], Nat.succ_pos n, rfl⟩
      · obtain ⟨i, hi⟩ := List.getElem?_of_mem hz
        obtain ⟨π, hlt, hπ⟩ := ih.mp hy
        exact ⟨i :: π, Nat.succ_lt_succ hlt, Option.bind_eq_some_iff.mpr ⟨z, hi, hπ⟩⟩
    · intro ⟨π, hlt, hπ⟩
      cases π with
      | nil => exact .inl (Option.some.inj hπ).symm
      | cons i π =>
        obtain ⟨z, hi, hπ⟩ := Option.bind_eq_some_iff.mp hπ
        exact .inr ⟨z, List.mem_of_getElem? hi, ih.mpr ⟨π, Nat.lt_of_succ_lt_succ hlt, hπ⟩⟩

/-- The order of the children decides the order of the subtree only. -/
theorem subtree_perm {next' : ι → List ι} (h : ∀ x, (next x).Perm (next' x)) (n : Nat) (x : ι) :
    (subtree next n x).Perm (subtree next' n x) := by
  induction n generalizing x with
  | zero => exact .nil
  | succ n ih => exact .cons x (((h x).flatMap_right _).trans (.flatMap_left _ fun y _ => ih y))

/-- The subtree of an item is a part of that of every item above it. -/
theorem subtree_infix {π : List Nat} (h : follow next x π = some y) (n : Nat) :
    subtree next n y <:+: subtree next (π.length + n) x := by
  induction π generalizing x with
  | nil =>
    obtain rfl := Option.some.inj h
    rw [List.length_nil, Nat.zero_add]
  | cons i π ih =>
    obtain ⟨z, hi, hπ⟩ := Option.bind_eq_some_iff.mp h
    have hlen : (i :: π).length + n = (π.length + n) + 1 := by
      rw [List.length_cons]
      omega
    rw [hlen, subtree]
    refine ((ih hπ).trans ?_).trans (List.infix_cons List.infix_rfl)
    exact List.infix_flatMap_of_mem (List.mem_of_getElem? hi) (subtree next (π.length + n))

/-- A map that takes children to children takes subtrees to subtrees. -/
theorem subtree_map {ι' : Type} {next' : ι' → List ι'} {f : ι → ι'}
    (h : ∀ x, next' (f x) = (next x).map f) (n : Nat) (x : ι) :
    subtree next' n (f x) = (subtree next n x).map f := by
  induction n generalizing x with
  | zero => rfl
  | succ n ih =>
    rw [subtree, subtree, h, List.flatMap_map, List.map_cons, List.map_flatMap]
    congr 2
    funext y
    exact ih y

/-- Below its last level a subtree has nothing to add. -/
theorem subtree_eq_of_le {m : Nat} (h : ∀ π, n ≤ π.length → follow next x π = none)
    (hnm : n ≤ m) : subtree next m x = subtree next n x := by
  induction n generalizing x m with
  | zero => exact nomatch h [] (Nat.le_refl 0)
  | succ n ih =>
    obtain ⟨m, rfl⟩ : ∃ k, m = k + 1 := ⟨m - 1, by omega⟩
    rw [subtree, subtree]
    congr 1
    apply List.flatMap_congr
    intro y hy
    obtain ⟨i, hi⟩ := List.getElem?_of_mem hy
    refine ih (fun π hπ => ?_) (Nat.le_of_succ_le_succ hnm)
    have hnone := h (i :: π) (Nat.succ_le_succ hπ)
    rwa [follow, hi, Option.bind_some] at hnone

/-! ## Nothing is passed over -/

section Search

variable [DecidableEq κ]

theorem foldl_explore_eq {l : List ι} {entered : List ι}
    (ih : ∀ y ∈ l, ∀ entered, ((entered ++ subtree next n y).map key).Nodup →
      explore key next n y entered = entered ++ subtree next n y)
    (h : ((entered ++ l.flatMap (subtree next n)).map key).Nodup) :
    l.foldl (fun entered y => explore key next n y entered) entered =
      entered ++ l.flatMap (subtree next n) := by
  induction l generalizing entered with
  | nil => exact (List.append_nil entered).symm
  | cons y l ihl =>
    rw [List.flatMap_cons, ← List.append_assoc] at h
    have hy : ((entered ++ subtree next n y).map key).Nodup := by
      rw [List.map_append] at h
      exact (List.nodup_append.mp h).1
    rw [List.foldl_cons, ih y List.mem_cons_self entered hy,
      ihl (fun y hy => ih y (List.mem_cons_of_mem _ hy)) h, List.flatMap_cons, List.append_assoc]

/-- **Where no key comes twice** the search enters the whole subtree. -/
theorem explore_eq_subtree {entered : List ι}
    (h : ((entered ++ subtree next n x).map key).Nodup) :
    explore key next n x entered = entered ++ subtree next n x := by
  induction n generalizing x entered with
  | zero => exact (List.append_nil entered).symm
  | succ n ih =>
    have hnew : key x ∉ entered.map key := by
      intro hmem
      rw [List.map_append, subtree, List.map_cons] at h
      exact (List.nodup_append.mp h).2.2 _ hmem _ List.mem_cons_self rfl
    have hcons : entered ++ subtree next (n + 1) x =
        entered ++ [x] ++ (next x).flatMap (subtree next n) := by
      rw [subtree, List.append_assoc, List.singleton_append]
    rw [hcons] at h
    rw [explore, if_neg hnew, hcons]
    exact foldl_explore_eq (fun y _ entered => ih) h

end Search

/-! ## Trees -/

variable (key next n x) in
/-- Within `n` levels, every key is that of at most one child of one item, and the key of the start
that of none. -/
structure Treelike : Prop where
  once : ∀ y ∈ subtree next n x, ((next y).map key).Nodup
  apart : ∀ y ∈ subtree next n x, ∀ z ∈ subtree next n x, key y ≠ key z →
    ((next y).map key).Disjoint ((next z).map key)
  start : ∀ y ∈ subtree next n x, key x ∉ (next y).map key

/-- The end of a route that is not empty is a child of an item on the way. -/
theorem exists_parent {π : List Nat} {i : Nat} (hlt : (π ++ [i]).length < n)
    (h : follow next x (π ++ [i]) = some y) :
    ∃ z ∈ subtree next n x, follow next x π = some z ∧ (next z)[i]? = some y := by
  rw [List.length_append] at hlt
  rw [follow_append] at h
  obtain ⟨z, hz, hy⟩ := Option.bind_eq_some_iff.mp h
  refine ⟨z, mem_subtree.mpr ⟨π, by omega, hz⟩, hz, ?_⟩
  rw [← follow_append_singleton hz, follow_append, hz]
  exact hy

/-- No route but the empty one leads to the key of the start. -/
theorem Treelike.eq_nil (h : Treelike key next n x) {π : List Nat} (hlt : π.length < n)
    (hy : follow next x π = some y) (hkey : key y = key x) : π = [] := by
  rcases List.eq_nil_or_concat' π with rfl | ⟨π, i, rfl⟩
  · rfl
  · obtain ⟨z, hz, -, hi⟩ := exists_parent hlt hy
    refine absurd ?_ (h.start z hz)
    rw [← hkey]
    exact List.mem_map_of_mem (List.mem_of_getElem? hi)

/-- In a tree one route leads to a key. -/
theorem Treelike.route_unique (h : Treelike key next n x) {π σ : List Nat} {z : ι}
    (hπ : π.length < n) (hσ : σ.length < n) (hy : follow next x π = some y)
    (hz : follow next x σ = some z) (hkey : key y = key z) : π = σ := by
  induction π using List.reverseRecOn generalizing σ y z with
  | nil =>
    obtain rfl := Option.some.inj hy
    exact (h.eq_nil hσ hz hkey.symm).symm
  | append_singleton π i ih =>
    rcases List.eq_nil_or_concat' σ with rfl | ⟨σ, j, rfl⟩
    · obtain rfl := Option.some.inj hz
      exact h.eq_nil hπ hy hkey
    · obtain ⟨u, hu, hfu, hi⟩ := exists_parent hπ hy
      obtain ⟨v, hv, hfv, hj⟩ := exists_parent hσ hz
      have hymem : key y ∈ (next u).map key := List.mem_map_of_mem (List.mem_of_getElem? hi)
      have hzmem : key z ∈ (next v).map key := List.mem_map_of_mem (List.mem_of_getElem? hj)
      have huv : key u = key v := by
        by_contra hne
        exact h.apart u hu v hv hne hymem (hkey ▸ hzmem)
      rw [List.length_append] at hπ hσ
      obtain rfl := ih (by omega) (by omega) hfu hfv huv
      obtain rfl : u = v := Option.some.inj (hfu.symm.trans hfv)
      -- the same parent, where the key tells the position
      have hget : ((next u).map key)[i]? = ((next u).map key)[j]? := by
        rw [List.getElem?_map, List.getElem?_map, hi, hj, Option.map_some, Option.map_some, hkey]
      have hlen : i < ((next u).map key).length := by
        rw [List.length_map]
        exact (List.getElem?_eq_some_iff.mp hi).1
      rw [(List.getElem?_inj hlen (h.once u hu)).mp hget]

/-- Where one route leads to a key, the keys are distinct. -/
theorem nodup_subtree_of_route_unique
    (h : ∀ π σ y z, π.length < n → σ.length < n → follow next x π = some y →
      follow next x σ = some z → key y = key z → π = σ) :
    ((subtree next n x).map key).Nodup := by
  induction n generalizing x with
  | zero => exact List.nodup_nil
  | succ n ih =>
    have hstep : ∀ {i : Nat} {π : List Nat} {y z : ι}, (next x)[i]? = some y →
        follow next y π = some z → follow next x (i :: π) = some z :=
      fun hi hπ => Option.bind_eq_some_iff.mpr ⟨_, hi, hπ⟩
    rw [subtree, List.map_cons, List.nodup_cons]
    constructor
    · intro hmem
      obtain ⟨z, hz, hkey⟩ := List.mem_map.mp hmem
      obtain ⟨y, hy, hz⟩ := List.mem_flatMap.mp hz
      obtain ⟨i, hi⟩ := List.getElem?_of_mem hy
      obtain ⟨π, hlt, hπ⟩ := mem_subtree.mp hz
      have hroute := h (i :: π) [] z x (Nat.succ_lt_succ hlt) (Nat.succ_pos n) (hstep hi hπ) rfl
        hkey
      exact List.cons_ne_nil i π hroute
    · rw [List.map_flatMap, List.nodup_flatMap]
      constructor
      · intro y hy
        obtain ⟨i, hi⟩ := List.getElem?_of_mem hy
        refine ih fun π σ u v hπ hσ hu hv hkey => ?_
        exact List.tail_eq_of_cons_eq (h (i :: π) (i :: σ) u v (Nat.succ_lt_succ hπ)
          (Nat.succ_lt_succ hσ) (hstep hi hu) (hstep hi hv) hkey)
      · rw [List.pairwise_iff_getElem]
        intro i j hi hj hij k hk hk'
        obtain ⟨u, hu, rfl⟩ := List.mem_map.mp hk
        obtain ⟨v, hv, hkey⟩ := List.mem_map.mp hk'
        obtain ⟨π, hπ, hu⟩ := mem_subtree.mp hu
        obtain ⟨σ, hσ, hv⟩ := mem_subtree.mp hv
        have hroute := h (i :: π) (j :: σ) u v (Nat.succ_lt_succ hπ) (Nat.succ_lt_succ hσ)
          (hstep (List.getElem?_eq_getElem hi) hu) (hstep (List.getElem?_eq_getElem hj) hv)
          hkey.symm
        exact Nat.ne_of_lt hij (List.head_eq_of_cons_eq hroute)

/-- **The keys of a tree are distinct.** -/
theorem Treelike.nodup_subtree (h : Treelike key next n x) :
    ((subtree next n x).map key).Nodup :=
  nodup_subtree_of_route_unique fun _ _ _ _ hπ hσ hy hz hkey =>
    h.route_unique hπ hσ hy hz hkey

end DepthFirst
