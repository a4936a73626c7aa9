import Mathlib.Data.List.Lex
import Mathlib.Data.Set.Finite.List
import Mathlib.Order.WellFoundedSet

/-!
# Depth-first search with a depth limit

Items are entered one by one: an item whose key was entered before is passed over, as is one below
the depth limit; what is below an entered item comes before its later siblings. Depth limit and key
check interact: an item entered late in the depth may leave nothing for what is below it, and its
key is then taken for every shorter way to it.

A route is the list of the child positions on the way from the start to an item, and the routes are
visited in the lexicographic order of `List Nat`. Which of them enter an item is a matter of that
order alone (`firstMet_iff`): a route enters where it ends if its parent does, and no earlier route
has entered an item with the same key. The search enters exactly the ends of those
(`mem_explore_iff`).
-/

namespace DepthFirst

variable {ι κ : Type} (key : ι → κ) (next : ι → List ι)

/-- Enter an item and what is below it, `n` levels deep, after the items entered already. -/
def explore [DecidableEq κ] : Nat → ι → List ι → List ι
  | 0, _, entered => entered
  | n + 1, x, entered =>
    if key x ∈ entered.map key then entered
    else (next x).foldl (fun entered y => explore n y entered) (entered ++ [x])

/-- A key that is entered is passed over. -/
theorem explore_of_mem [DecidableEq κ] {n : Nat} {x : ι} {entered : List ι}
    (h : key x ∈ entered.map key) : explore key next n x entered = entered := by
  cases n with
  | zero => rfl
  | succ n => rw [explore, if_pos h]

section Entered

variable {key next} [DecidableEq κ] {n : Nat} {x : ι} {entered : List ι}

theorem prefix_foldl {α : Type} {f : List ι → α → List ι} (hf : ∀ l a, l <+: f l a) (as : List α)
    (l : List ι) : l <+: as.foldl f l := by
  induction as generalizing l with
  | nil => exact List.prefix_rfl
  | cons a as ih => exact (hf l a).trans (ih (f l a))

/-- What is entered stays, in front. -/
theorem prefix_explore : entered <+: explore key next n x entered := by
  induction n generalizing x entered with
  | zero => exact List.prefix_rfl
  | succ n ih =>
    rw [explore]
    split
    · exact List.prefix_rfl
    · exact (List.prefix_append entered [x]).trans (prefix_foldl (fun l y => ih) _ _)

omit [DecidableEq κ] in
theorem foldl_nodup {α : Type} {f : List ι → α → List ι}
    (hf : ∀ l a, (l.map key).Nodup → ((f l a).map key).Nodup) (as : List α) {l : List ι}
    (h : (l.map key).Nodup) : ((as.foldl f l).map key).Nodup := by
  induction as generalizing l with
  | nil => exact h
  | cons a as ih => exact ih (hf l a h)

/-- No key is entered twice. -/
theorem nodup_explore (h : (entered.map key).Nodup) :
    ((explore key next n x entered).map key).Nodup := by
  induction n generalizing x entered with
  | zero => exact h
  | succ n ih =>
    rw [explore]
    split
    · exact h
    · next hnew =>
      refine foldl_nodup (fun l y => ih) _ ?_
      rw [List.map_append, List.map_singleton, ← List.concat_eq_append]
      exact h.concat hnew

end Entered

/-! ## Routes -/

/-- The item at the end of a route. -/
def follow : ι → List Nat → Option ι
  | x, [] => some x
  | x, i :: π => (next x)[i]?.bind fun y => follow y π

@[simp] theorem follow_nil (x : ι) : follow next x [] = some x := rfl

/-- The route stays within `n` levels. -/
def Route (n : Nat) (x : ι) (π : List Nat) : Prop := π.length < n ∧ (follow next x π).isSome

variable {next}

theorem follow_append (x : ι) (π σ : List Nat) :
    follow next x (π ++ σ) = (follow next x π).bind fun y => follow next y σ := by
  induction π generalizing x with
  | nil => rfl
  | cons i π ih =>
    rw [List.cons_append, follow, follow, Option.bind_assoc]
    congr 1
    funext y
    exact ih y

theorem follow_append_singleton {x y : ι} {π : List Nat} (h : follow next x π = some y) (i : Nat) :
    follow next x (π ++ [i]) = (next y)[i]? := by
  rw [follow_append, h, Option.bind_some]
  exact Option.bind_fun_some _

theorem Route.of_prefix {n : Nat} {x : ι} {π σ : List Nat} (h : Route next n x σ) (hp : π <+: σ) :
    Route next n x π := by
  obtain ⟨τ, rfl⟩ := hp
  obtain ⟨hlen, hsome⟩ := h
  rw [List.length_append] at hlen
  refine ⟨by omega, ?_⟩
  rw [follow_append] at hsome
  exact Option.isSome_of_isSome_bind hsome

variable (next) in
theorem finite_routes (n : Nat) (x : ι) : {π | Route next n x π}.Finite := by
  induction n generalizing x with
  | zero =>
    apply Set.Finite.subset Set.finite_empty
    intro π h
    exact absurd h.1 (Nat.not_lt_zero _)
  | succ n ih =>
    -- a route is empty or a first step and a route from there
    have hsteps : (⋃ i ∈ {i | i < (next x).length},
        (i :: ·) '' {π | ∃ y, (next x)[i]? = some y ∧ Route next n y π}).Finite := by
      refine Set.Finite.biUnion (Set.finite_lt_nat _) fun i _ => Set.Finite.image _ ?_
      cases (next x)[i]? with
      | none => exact Set.Finite.subset Set.finite_empty fun π ⟨y, hy, _⟩ => nomatch hy
      | some y =>
        apply (ih y).subset
        intro π ⟨y', hy, h⟩
        obtain rfl := Option.some.inj hy
        exact h
    apply Set.Finite.subset (hsteps.insert [])
    intro π ⟨hlen, hsome⟩
    cases π with
    | nil => exact Set.mem_insert _ _
    | cons i π =>
      obtain ⟨z, hz⟩ := Option.isSome_iff_exists.mp hsome
      obtain ⟨y, hy, hz⟩ := Option.bind_eq_some_iff.mp hz
      have hi : i < (next x).length := (List.getElem?_eq_some_iff.mp hy).1
      refine Set.mem_insert_of_mem _ (Set.mem_biUnion hi ⟨π, ⟨y, hy, ?_, ?_⟩, rfl⟩)
      · exact Nat.lt_of_succ_lt_succ hlen
      · exact Option.isSome_iff_exists.mpr ⟨z, hz⟩

/-! ## The order of the routes -/

/-- What comes before a child: what comes before the parent, the parent, and what is below the
earlier children. -/
theorem lt_append_singleton {π σ : List Nat} {i : Nat} :
    σ < π ++ [i] ↔ σ < π ∨ σ = π ∨ ∃ j < i, π ++ [j] <+: σ := by
  induction π generalizing σ with
  | nil =>
    cases σ with
    | nil => simp
    | cons c σ => simp [List.cons_lt_cons_iff]
  | cons p π ih =>
    cases σ with
    | nil => simp
    | cons c σ =>
      simp only [List.cons_append, List.cons_lt_cons_iff, List.cons.injEq, List.cons_prefix_cons,
        ih]
      constructor
      · rintro (h | ⟨rfl, h | rfl | ⟨j, hj, h⟩⟩)
        · exact .inl (.inl h)
        · exact .inl (.inr ⟨rfl, h⟩)
        · exact .inr (.inl ⟨rfl, rfl⟩)
        · exact .inr (.inr ⟨j, hj, rfl, h⟩)
      · rintro ((h | ⟨rfl, h⟩) | ⟨rfl, rfl⟩ | ⟨j, hj, rfl, h⟩)
        · exact .inl h
        · exact .inr ⟨rfl, .inl h⟩
        · exact .inr ⟨rfl, .inr (.inl rfl)⟩
        · exact .inr ⟨rfl, .inr (.inr ⟨j, hj, h⟩)⟩

theorem lt_append_zero {π σ : List Nat} : σ < π ++ [0] ↔ σ < π ∨ σ = π := by
  rw [lt_append_singleton]
  simp

theorem lt_append_succ {π σ : List Nat} {i : Nat} :
    σ < π ++ [i + 1] ↔ σ < π ++ [i] ∨ π ++ [i] <+: σ := by
  rw [lt_append_singleton, lt_append_singleton]
  constructor
  · rintro (h | h | ⟨j, hj, h⟩)
    · exact .inl (.inl h)
    · exact .inl (.inr (.inl h))
    · rcases Nat.lt_succ_iff_lt_or_eq.mp hj with hj | rfl
      · exact .inl (.inr (.inr ⟨j, hj, h⟩))
      · exact .inr h
  · rintro ((h | h | ⟨j, hj, h⟩) | h)
    · exact .inl h
    · exact .inr (.inl h)
    · exact .inr (.inr ⟨j, Nat.lt_succ_of_lt hj, h⟩)
    · exact .inr (.inr ⟨i, Nat.lt_succ_self i, h⟩)

theorem prefix_iff_eq_or_child {π σ : List Nat} : π <+: σ ↔ σ = π ∨ ∃ j, π ++ [j] <+: σ := by
  constructor
  · rintro ⟨τ, rfl⟩
    cases τ with
    | nil => exact .inl (List.append_nil π)
    | cons j τ => exact .inr ⟨j, τ, by rw [List.append_assoc, List.singleton_append]⟩
  · rintro (rfl | ⟨j, h⟩)
    · exact List.prefix_rfl
    · exact (List.prefix_append π [j]).trans h

/-! ## The routes that enter -/

section FirstMet

variable (n : Nat) (x : ι)

theorem wellFounded_routes :
    WellFounded fun σ π : {π // Route next n x π} => σ.1 < π.1 :=
  (finite_routes next n x).wellFoundedOn

variable {n x} in
theorem lt_child (π : List Nat) (i : Nat) : π < π ++ [i] :=
  lt_append_singleton.mpr (.inr (.inl rfl))

/-- By recursion along the order: the parent enters, and no earlier route that enters ends at an
item with the same key. -/
def Enters : {π // Route next n x π} → Prop :=
  (wellFounded_routes n x).fix fun π enters =>
    (∀ τ (h : τ.1 < π.1), (∃ i, π.1 = τ.1 ++ [i]) → enters τ h) ∧
      ∀ σ (h : σ.1 < π.1), enters σ h → ∀ y z, follow next x σ.1 = some y →
        follow next x π.1 = some z → key y ≠ key z

/-- The route stays within `n` levels, and is the first to end at an item with its key. -/
def FirstMet (next : ι → List ι) (n : Nat) (x : ι) (π : List Nat) : Prop :=
  ∃ h : Route next n x π, Enters key n x ⟨π, h⟩

variable {key n x}

/-- **The routes that enter**, one from the earlier ones. -/
theorem firstMet_iff {π : List Nat} :
    FirstMet key next n x π ↔ Route next n x π ∧
      (∀ τ i, π = τ ++ [i] → FirstMet key next n x τ) ∧
        ∀ σ y z, σ < π → FirstMet key next n x σ → follow next x σ = some y →
          follow next x π = some z → key y ≠ key z := by
  constructor
  · intro ⟨hπ, h⟩
    rw [Enters, WellFounded.fix_eq] at h
    obtain ⟨hparent, hfirst⟩ := h
    refine ⟨hπ, fun τ i hτ => ?_, fun σ y z hlt ⟨hσ, he⟩ hy hz => ?_⟩
    · have hroute : Route next n x τ := hπ.of_prefix (hτ ▸ List.prefix_append τ [i])
      exact ⟨hroute, hparent ⟨τ, hroute⟩ (hτ ▸ lt_child τ i) ⟨i, hτ⟩⟩
    · exact hfirst ⟨σ, hσ⟩ hlt he y z hy hz
  · intro ⟨hπ, hparent, hfirst⟩
    refine ⟨hπ, ?_⟩
    rw [Enters, WellFounded.fix_eq]
    refine ⟨fun τ hlt ⟨i, hτ⟩ => ?_, fun σ hlt he y z hy hz => ?_⟩
    · exact (hparent τ.1 i hτ).2
    · exact hfirst σ.1 y z hlt ⟨σ.2, he⟩ hy hz

theorem FirstMet.route {π : List Nat} (h : FirstMet key next n x π) : Route next n x π := h.1

theorem FirstMet.exists_follow {π : List Nat} (h : FirstMet key next n x π) :
    ∃ y, follow next x π = some y := Option.isSome_iff_exists.mp h.1.2

theorem FirstMet.of_prefix {π σ : List Nat} (h : FirstMet key next n x σ) (hp : π <+: σ) :
    FirstMet key next n x π := by
  obtain ⟨τ, rfl⟩ := hp
  induction τ using List.reverseRecOn with
  | nil => rwa [List.append_nil] at h
  | append_singleton τ i ih =>
    rw [← List.append_assoc] at h
    exact ih ((firstMet_iff.mp h).2.1 _ i rfl)

/-- Above the last level, a child of an entering route ends at a key that is entered. -/
theorem FirstMet.child {π : List Nat} {i : Nat} {z : ι} (h : FirstMet key next n x π)
    (hlen : π.length + 1 < n) (hz : follow next x (π ++ [i]) = some z) :
    ∃ σ w, FirstMet key next n x σ ∧ follow next x σ = some w ∧ key w = key z := by
  by_cases hmet : FirstMet key next n x (π ++ [i])
  · exact ⟨π ++ [i], z, hmet, hz, rfl⟩
  · by_contra hnone
    refine hmet (firstMet_iff.mpr ⟨⟨?_, ?_⟩, fun τ j hτ => ?_, fun σ w z' _ hσ hw hz' hkey => ?_⟩)
    · rw [List.length_append, List.length_singleton]
      exact hlen
    · rw [hz]
      rfl
    · obtain ⟨rfl, -⟩ := List.append_inj' hτ rfl
      exact h
    · obtain rfl := Option.some.inj (hz.symm.trans hz')
      exact hnone ⟨σ, w, hσ, hw, hkey⟩

/-! ## The search enters their ends -/

/-- The entered items are the ends of the entering routes in `P`. -/
def EnteredBy (key : ι → κ) (next : ι → List ι) (n : Nat) (x : ι) (P : List Nat → Prop)
    (entered : List ι) : Prop :=
  ∀ y, y ∈ entered ↔ ∃ σ, FirstMet key next n x σ ∧ P σ ∧ follow next x σ = some y

theorem EnteredBy.congr {P Q : List Nat → Prop} {entered : List ι}
    (h : EnteredBy key next n x P entered)
    (hPQ : ∀ σ, FirstMet key next n x σ → (P σ ↔ Q σ)) : EnteredBy key next n x Q entered := by
  intro y
  rw [h y]
  constructor
  · intro ⟨σ, hσ, hP, hy⟩
    exact ⟨σ, hσ, (hPQ σ hσ).mp hP, hy⟩
  · intro ⟨σ, hσ, hQ, hy⟩
    exact ⟨σ, hσ, (hPQ σ hσ).mpr hQ, hy⟩

theorem EnteredBy.append_singleton {π : List Nat} {y : ι} {entered : List ι}
    (h : EnteredBy key next n x (· < π) entered) (hπ : FirstMet key next n x π)
    (hy : follow next x π = some y) :
    EnteredBy key next n x (· < π ++ [0]) (entered ++ [y]) := by
  intro z
  rw [List.mem_append, List.mem_singleton, h z]
  simp only [lt_append_zero]
  constructor
  · rintro (⟨σ, hσ, hlt, hz⟩ | rfl)
    · exact ⟨σ, hσ, .inl hlt, hz⟩
    · exact ⟨π, hπ, .inr rfl, hy⟩
  · rintro ⟨σ, hσ, hlt | rfl, hz⟩
    · exact .inl ⟨σ, hσ, hlt, hz⟩
    · exact .inr (Option.some.inj (hz.symm.trans hy))

variable [DecidableEq κ]

/-- The children of an entered item, one after the other. -/
theorem enteredBy_foldl {m : Nat} {π : List Nat} {y : ι} (hy : follow next x π = some y)
    (ih : ∀ i z entered, (next y)[i]? = some z → EnteredBy key next n x (· < π ++ [i]) entered →
      EnteredBy key next n x (fun σ => σ < π ++ [i] ∨ π ++ [i] <+: σ)
        (explore key next m z entered))
    {l : List ι} {i : Nat} {entered : List ι} (hl : (next y).drop i = l)
    (h : EnteredBy key next n x (· < π ++ [i]) entered) :
    EnteredBy key next n x (fun σ => σ < π ∨ π <+: σ)
      (l.foldl (fun entered z => explore key next m z entered) entered) := by
  induction l generalizing i entered with
  | nil =>
    have hlen : (next y).length ≤ i := List.drop_eq_nil_iff.mp hl
    apply h.congr
    intro σ hσ
    rw [lt_append_singleton, prefix_iff_eq_or_child]
    refine or_congr_right (or_congr_right ⟨fun ⟨j, _, hj⟩ => ⟨j, hj⟩, fun ⟨j, hj⟩ => ⟨j, ?_, hj⟩⟩)
    -- a route goes through a child there is
    obtain ⟨z, hz⟩ := (hσ.of_prefix hj).exists_follow
    rw [follow_append_singleton hy] at hz
    have hlt := (List.getElem?_eq_some_iff.mp hz).1
    omega
  | cons z l ihl =>
    have hz : (next y)[i]? = some z := by
      rw [← List.head?_drop, hl]
      rfl
    have hl' : (next y).drop (i + 1) = l := by
      rw [← List.tail_drop, hl]
      rfl
    refine ihl hl' ((ih i z entered hz h).congr fun σ _ => ?_)
    exact lt_append_succ.symm

/-- With everything before a route entered, the search at its end enters what is below the route. -/
theorem enteredBy_explore {m : Nat} {π : List Nat} {y : ι} {entered : List ι}
    (hm : π.length + m = n) (hy : follow next x π = some y)
    (hparent : ∀ τ i, π = τ ++ [i] → FirstMet key next n x τ)
    (h : EnteredBy key next n x (· < π) entered) :
    EnteredBy key next n x (fun σ => σ < π ∨ π <+: σ) (explore key next m y entered) := by
  induction m generalizing π y entered with
  | zero =>
    apply h.congr
    intro σ hσ
    have hnot : ¬π <+: σ := by
      intro hp
      have hlt := hσ.route.1
      have hle := hp.length_le
      omega
    simp [hnot]
  | succ m ih =>
    by_cases hkey : key y ∈ entered.map key
    · -- an earlier route has the key, so nothing below `π` enters
      rw [explore_of_mem _ _ hkey]
      apply h.congr
      intro σ hσ
      have hnot : ¬π <+: σ := by
        intro hp
        obtain ⟨z, hz, hzy⟩ := List.mem_map.mp hkey
        obtain ⟨τ, hτ, hlt, hz⟩ := (h z).mp hz
        exact (firstMet_iff.mp (hσ.of_prefix hp)).2.2 τ z y hlt hτ hz hy hzy
      simp [hnot]
    · rw [explore, if_neg hkey]
      have hfirst : FirstMet key next n x π := by
        refine firstMet_iff.mpr ⟨⟨by omega, ?_⟩, hparent, fun σ z y' hlt hσ hz hy' he => ?_⟩
        · rw [hy]
          rfl
        · obtain rfl := Option.some.inj (hy.symm.trans hy')
          exact hkey (he ▸ List.mem_map_of_mem ((h z).mpr ⟨σ, hσ, hlt, hz⟩))
      refine enteredBy_foldl hy ?_ List.drop_zero (h.append_singleton hfirst hy)
      intro i z entered hz hentered
      refine ih ?_ ?_ (fun τ j hτ => ?_) hentered
      · rw [List.length_append, List.length_singleton]
        omega
      · rw [follow_append_singleton hy, hz]
      · obtain ⟨rfl, -⟩ := List.append_inj' hτ rfl
        exact hfirst

/-- **The search enters the ends of the entering routes.** -/
theorem mem_explore_iff {y : ι} :
    y ∈ explore key next n x [] ↔ ∃ π, FirstMet key next n x π ∧ follow next x π = some y := by
  have hnil : EnteredBy key next n x (· < []) [] := by
    intro z
    refine ⟨fun h => absurd h List.not_mem_nil, fun ⟨σ, _, hlt, _⟩ => ?_⟩
    exact absurd hlt (List.not_lt_nil σ)
  have h := enteredBy_explore (Nat.zero_add n) (follow_nil next x) (fun τ i hτ => ?_) hnil y
  · rw [h]
    constructor
    · intro ⟨σ, hσ, _, hy⟩
      exact ⟨σ, hσ, hy⟩
    · intro ⟨σ, hσ, hy⟩
      exact ⟨σ, hσ, .inr List.nil_prefix, hy⟩
  · exact absurd (congrArg List.length hτ) (by simp)

end FirstMet

end DepthFirst
