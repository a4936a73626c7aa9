import Mathlib.Data.List.Basic
import Mathlib.Data.List.Flatten
import Mathlib.Data.List.Forall2
import ForensicVfs.Lib.Result

/-!
# Ordered, depth-limited search

A node offers items in a fixed order: a result, a failure, or a child node. Searching it visits the
items one by one, a child by searching it one level deeper, and stops at the first item that decides
anything; below the depth limit nothing is offered. The nodes so reached form the candidate tree of
the start node, whose decisive leaves in pre-order are its `events`, and the search answers the
first of them (`search_eq_outcome`). The other results say where an answer comes from
(`exists_path_of_search`), what it depends on (`search_congr`, `search_of_firstChildren`), what more
levels (`events_sublist`) and more items (`events_sublist_of_items`) add to it, when two searches
answer alike (`search_related`), and what leaving items out does to one (`search_prune`).
-/

namespace OrderedSearch

open Result

/-- What a node offers. -/
inductive Item (ε ρ ν : Type) where
  | found (r : ρ)
  | fail (e : ε)
  | child (n : ν)

variable {ε ρ ν : Type}

/-- The item behind an event. -/
def Item.ofEvent : Except ε ρ → Item ε ρ ν
  | .ok r => .found r
  | .error e => .fail e

/-- The item with its result mapped. -/
def Item.map {ρ' : Type} (f : ρ → ρ') : Item ε ρ ν → Item ε ρ' ν
  | .found r => .found (f r)
  | .fail e => .fail e
  | .child n => .child n

/-! ## Events -/

/-- The answer the first event gives: its result, its failure, or nothing. -/
def outcome : List (Except ε ρ) → Except ε (Option ρ)
  | [] => .ok none
  | .ok r :: _ => .ok (some r)
  | .error e :: _ => .error e

@[simp] theorem outcome_nil : outcome ([] : List (Except ε ρ)) = .ok none := rfl

@[simp] theorem outcome_ok_cons (r : ρ) (evs : List (Except ε ρ)) :
    outcome (.ok r :: evs) = .ok (some r) := rfl

@[simp] theorem outcome_error_cons (e : ε) (evs : List (Except ε ρ)) :
    outcome (.error e :: evs) = .error e := rfl

theorem outcome_eq_none {evs : List (Except ε ρ)} : outcome evs = .ok none ↔ evs = [] := by
  cases evs with
  | nil => simp
  | cons ev evs => cases ev <;> simp

theorem outcome_eq_some {evs : List (Except ε ρ)} {r : ρ} :
    outcome evs = .ok (some r) ↔ evs.head? = some (.ok r) := by
  cases evs with
  | nil => simp
  | cons ev evs => cases ev <;> simp

theorem outcome_eq_error {evs : List (Except ε ρ)} {e : ε} :
    outcome evs = .error e ↔ evs.head? = some (.error e) := by
  cases evs with
  | nil => simp
  | cons ev evs => cases ev <;> simp

theorem outcome_append (evs evs' : List (Except ε ρ)) :
    outcome (evs ++ evs') = firstSome (outcome evs) (outcome evs') := by
  cases evs with
  | nil => rfl
  | cons ev evs => cases ev <;> rfl

theorem outcome_flatMap {α : Type} (l : List α) (f : α → List (Except ε ρ)) :
    outcome (l.flatMap f) = l.findSomeM? fun a => outcome (f a) := by
  induction l with
  | nil => rfl
  | cons a l ih => rw [List.flatMap_cons, outcome_append, findSomeM?_cons_eq, ih]

theorem flatMap_filter {α β : Type} (p : α → Bool) (f : α → List β) (l : List α) :
    (l.filter p).flatMap f = l.flatMap fun a => if p a then f a else [] := by
  induction l with
  | nil => rfl
  | cons a l ih =>
    rw [List.flatMap_cons, ← ih]
    by_cases ha : p a = true
    · rw [List.filter_cons_of_pos ha, List.flatMap_cons, if_pos ha]
    · rw [List.filter_cons_of_neg ha, if_neg ha, List.nil_append]

/-- An element that is not in the first part of a list splits the second part. -/
theorem split_of_not_mem {α : Type} {l l' before after : List α} {a : α}
    (h : l ++ l' = before ++ a :: after) (ha : a ∉ l) :
    ∃ mid, before = l ++ mid ∧ l' = mid ++ a :: after := by
  rcases List.append_eq_append_iff.mp h with h | ⟨bs, hl, hl'⟩
  · exact h
  · cases bs with
    | nil => exact ⟨[], by rw [hl]; simp, by simpa using hl'.symm⟩
    | cons b bs =>
      obtain ⟨rfl, -⟩ := List.cons.inj hl'
      exact absurd (hl ▸ List.mem_append_right before List.mem_cons_self) ha

/-! ## The search and its tree -/

/-- Visit one item, a child by `rec`. -/
def visit (rec : ν → Except ε (Option ρ)) : Item ε ρ ν → Except ε (Option ρ)
  | .found r => .ok (some r)
  | .fail e => .error e
  | .child n => rec n

section Search

variable (items : ν → List (Item ε ρ ν))

/-- Visit the items of a node in order, down to `d` levels. -/
def search : Nat → ν → Except ε (Option ρ)
  | 0, _ => .ok none
  | d + 1, n => (items n).findSomeM? (visit (search d))

/-- The decisive leaves of the candidate tree of a node in pre-order, the tree cut at `d` levels. -/
def events : Nat → ν → List (Except ε ρ)
  | 0, _ => []
  | d + 1, n => (items n).flatMap fun item =>
    match item with
    | .found r => [.ok r]
    | .fail e => [.error e]
    | .child m => events d m

/-- `Path n k m`: `k` child steps lead from `n` to `m`. -/
inductive Path : ν → Nat → ν → Prop
  | refl (n : ν) : Path n 0 n
  | step {n m l : ν} {k : Nat} (h : .child m ∈ items n) (p : Path m k l) : Path n (k + 1) l

/-- **The search answers the first decisive event.** -/
theorem search_eq_outcome (d : Nat) (n : ν) : search items d n = outcome (events items d n) := by
  induction d generalizing n with
  | zero => rfl
  | succ d ih =>
    rw [search, events, outcome_flatMap]
    refine findSomeM?_congr fun item _ => ?_
    cases item with
    | found r => rfl
    | fail e => rfl
    | child m => exact ih m

variable {items}

/-- An event happens at a node within the depth. -/
theorem exists_path_of_mem_events {d : Nat} {n : ν} {ev : Except ε ρ}
    (h : ev ∈ events items d n) :
    ∃ k m, k < d ∧ Path items n k m ∧ .ofEvent ev ∈ items m := by
  induction d generalizing n with
  | zero => exact absurd h List.not_mem_nil
  | succ d ih =>
    obtain ⟨item, hitem, hev⟩ := List.mem_flatMap.mp h
    cases item with
    | found r =>
      obtain rfl := List.mem_singleton.mp hev
      exact ⟨0, n, Nat.succ_pos d, .refl n, hitem⟩
    | fail e =>
      obtain rfl := List.mem_singleton.mp hev
      exact ⟨0, n, Nat.succ_pos d, .refl n, hitem⟩
    | child m =>
      obtain ⟨k, l, hk, p, hl⟩ := ih hev
      exact ⟨k + 1, l, Nat.succ_lt_succ hk, .step hitem p, hl⟩

/-- **A result comes from a node the child steps lead to.** -/
theorem exists_path_of_search {d : Nat} {n : ν} {r : ρ} (h : search items d n = .ok (some r)) :
    ∃ k m, k < d ∧ Path items n k m ∧ .found r ∈ items m := by
  rw [search_eq_outcome, outcome_eq_some] at h
  exact exists_path_of_mem_events (List.mem_of_head? h)

/-- The answer depends only on the nodes within the depth. -/
theorem search_congr {items' : ν → List (Item ε ρ ν)} {d : Nat} {n : ν}
    (h : ∀ k m, k < d → Path items n k m → items m = items' m) :
    search items d n = search items' d n := by
  induction d generalizing n with
  | zero => rfl
  | succ d ih =>
    rw [search, search, ← h 0 n (Nat.succ_pos d) (.refl n)]
    refine findSomeM?_congr fun item hitem => ?_
    cases item with
    | found r => rfl
    | fail e => rfl
    | child m => exact ih fun k l hk p => h (k + 1) l (Nat.succ_lt_succ hk) (.step hitem p)

/-- On the last level, items without a result among them decide nothing or fail. -/
theorem findSomeM?_last_level {l : List (Item ε ρ ν)} (hfound : ∀ r, .found r ∉ l) :
    (l.findSomeM? (visit (search items 0)) = .ok none ∧ ∀ e, .fail e ∉ l) ∨
      ∃ e, .fail e ∈ l ∧ l.findSomeM? (visit (search items 0)) = .error e := by
  induction l with
  | nil => exact .inl ⟨rfl, fun e => List.not_mem_nil⟩
  | cons item l ih =>
    rw [findSomeM?_cons_eq]
    cases item with
    | found r => exact absurd List.mem_cons_self (hfound r)
    | fail e => exact .inr ⟨e, List.mem_cons_self, rfl⟩
    | child m =>
      show (firstSome (.ok none) _ = _ ∧ _) ∨ ∃ e, _ ∧ firstSome (.ok none) _ = _
      rw [firstSome_none]
      rcases ih fun r hr => hfound r (List.mem_cons_of_mem _ hr) with ⟨h, hfail⟩ | ⟨e, he, h⟩
      · refine .inl ⟨h, fun e he => ?_⟩
        rcases List.mem_cons.mp he with he | he
        · exact nomatch he
        · exact hfail e he
      · exact .inr ⟨e, List.mem_cons_of_mem _ he, h⟩

/-! ### More levels -/

/-- Whatever a node within the depth decides is an event. -/
theorem mem_events_of_path {d k : Nat} {n m : ν} {ev : Except ε ρ} (hk : k < d)
    (p : Path items n k m) (h : .ofEvent ev ∈ items m) : ev ∈ events items d n := by
  obtain ⟨d, rfl⟩ : ∃ d₀, d = d₀ + 1 := ⟨d - 1, by omega⟩
  induction p generalizing d with
  | refl n =>
    refine List.mem_flatMap.mpr ⟨_, h, ?_⟩
    cases ev <;> exact List.mem_singleton.mpr rfl
  | @step n m l k hchild p ih =>
    refine List.mem_flatMap.mpr ⟨_, hchild, ?_⟩
    obtain ⟨d, rfl⟩ : ∃ d₀, d = d₀ + 1 := ⟨d - 1, by omega⟩
    exact ih h d (Nat.lt_of_succ_lt_succ hk)

/-- There are no events exactly when the nodes within the depth offer children only. -/
theorem events_eq_nil_iff {d : Nat} {n : ν} :
    events items d n = [] ↔
      ∀ k m, k < d → Path items n k m → ∀ ev : Except ε ρ, .ofEvent ev ∉ items m := by
  constructor
  · intro h k m hk p ev hev
    have hmem := mem_events_of_path hk p hev
    rw [h] at hmem
    exact List.not_mem_nil hmem
  · intro h
    rw [List.eq_nil_iff_forall_not_mem]
    intro ev hev
    obtain ⟨k, m, hk, p, hm⟩ := exists_path_of_mem_events hev
    exact h k m hk p ev hm

/-- **More levels only add events**, in between those of fewer. -/
theorem events_sublist {d d' : Nat} (h : d ≤ d') (n : ν) :
    (events items d n).Sublist (events items d' n) := by
  induction d generalizing d' n with
  | zero => exact List.nil_sublist _
  | succ d ih =>
    obtain ⟨d', rfl⟩ : ∃ d₀, d' = d₀ + 1 := ⟨d' - 1, by omega⟩
    refine List.Sublist.flatMap_right _ fun item _ => ?_
    cases item with
    | found r => exact List.Sublist.refl _
    | fail e => exact List.Sublist.refl _
    | child m => exact ih (Nat.le_of_succ_le_succ h) m

/-- Where some levels find nothing, fewer find nothing. -/
theorem search_eq_none_of_le {d d' : Nat} {n : ν} (h : d' ≤ d)
    (hnone : search items d n = .ok none) : search items d' n = .ok none := by
  rw [search_eq_outcome, outcome_eq_none] at hnone ⊢
  have hsub : (events items d' n).Sublist (events items d n) := events_sublist h n
  rw [hnone] at hsub
  exact List.sublist_nil.mp hsub

/-- **From the node that supplies a result**, a search with no more levels than are left there
answers the same. -/
theorem search_restart {d : Nat} {n : ν} {r : ρ} (h : search items d n = .ok (some r)) :
    ∃ k m, k < d ∧ Path items n k m ∧ .found r ∈ items m ∧
      ∀ d', 0 < d' → d' + k ≤ d → search items d' m = .ok (some r) := by
  induction d generalizing n with
  | zero => cases h
  | succ d ih =>
    obtain ⟨before, item, after, hn, hbefore, hitem⟩ := findSomeM?_eq_some.mp h
    have hmem : item ∈ items n := hn ▸ List.mem_append_right before List.mem_cons_self
    cases item with
    | found r' =>
      cases hitem
      refine ⟨0, n, Nat.succ_pos d, .refl n, hmem, fun d' hpos hd' => ?_⟩
      obtain ⟨d', rfl⟩ : ∃ k, d' = k + 1 := ⟨d' - 1, by omega⟩
      refine findSomeM?_eq_some.mpr ⟨before, _, after, hn, fun b hb => ?_, rfl⟩
      have hnone := hbefore b hb
      cases b with
      | found r' => cases hnone
      | fail e => cases hnone
      | child m => exact search_eq_none_of_le (Nat.le_of_succ_le_succ hd') hnone
    | fail e => cases hitem
    | child m =>
      obtain ⟨k, l, hk, p, hfound, hrest⟩ := ih hitem
      refine ⟨k + 1, l, Nat.succ_lt_succ hk, .step hmem p, hfound, fun d' hpos hd' => ?_⟩
      exact hrest d' hpos (by omega)

/-- Levels that no path gets to add nothing. -/
theorem events_eq_of_no_path {d d' : Nat} {n : ν} (h : d ≤ d') (hno : ∀ m, ¬Path items n d m) :
    events items d' n = events items d n := by
  induction d generalizing d' n with
  | zero => exact absurd (.refl n) (hno n)
  | succ d ih =>
    obtain ⟨d', rfl⟩ : ∃ d₀, d' = d₀ + 1 := ⟨d' - 1, by omega⟩
    refine List.flatMap_congr fun item hitem => ?_
    cases item with
    | found r => rfl
    | fail e => rfl
    | child m => exact ih (Nat.le_of_succ_le_succ h) fun l p => hno l (.step hitem p)

/-! ### More items -/

/-- **More items only add events**, in between those of fewer. -/
theorem events_sublist_of_items {items' : ν → List (Item ε ρ ν)}
    (h : ∀ n, (items n).Sublist (items' n)) (d : Nat) (n : ν) :
    (events items d n).Sublist (events items' d n) := by
  induction d generalizing n with
  | zero => exact List.nil_sublist _
  | succ d ih =>
    refine ((h n).flatMap _).trans (List.Sublist.flatMap_right _ fun item _ => ?_)
    cases item with
    | found r => exact List.Sublist.refl _
    | fail e => exact List.Sublist.refl _
    | child m => exact ih m

/-- The results among some events. -/
def results (evs : List (Except ε ρ)) : List ρ := evs.filterMap Except.toOption

theorem outcome_ne_none_of_results {evs : List (Except ε ρ)} (h : results evs ≠ []) :
    outcome evs ≠ .ok none := by
  rw [ne_eq, outcome_eq_none]
  rintro rfl
  exact h rfl

theorem results_ne_nil_of_outcome {evs : List (Except ε ρ)} {r : ρ}
    (h : outcome evs = .ok (some r)) : results evs ≠ [] := by
  have hmem := List.mem_of_head? (outcome_eq_some.mp h)
  exact List.ne_nil_of_mem (List.mem_filterMap.mpr ⟨_, hmem, rfl⟩)

theorem results_flatMap {α : Type} (l : List α) (f : α → List (Except ε ρ)) :
    results (l.flatMap f) = l.flatMap fun a => results (f a) :=
  List.filterMap_flatMap

/-- The item decides nothing, or decides by a result. -/
def Item.quiet : Item ε ρ ν → Bool
  | .fail _ => false
  | _ => true

/-- **Failures may come and go, and items be added**: the results stay, in their order. -/
theorem results_sublist_of_items {items' : ν → List (Item ε ρ ν)}
    (h : ∀ n, ((items n).filter Item.quiet).Sublist (items' n)) (d : Nat) (n : ν) :
    (results (events items d n)).Sublist (results (events items' d n)) := by
  induction d generalizing n with
  | zero => exact List.nil_sublist _
  | succ d ih =>
    rw [events, events, results_flatMap, results_flatMap]
    refine List.Sublist.trans ?_ ((h n).flatMap _)
    rw [flatMap_filter]
    refine List.Sublist.flatMap_right _ fun item _ => ?_
    cases item with
    | found r => exact List.Sublist.refl _
    | fail e => exact List.nil_sublist _
    | child m => exact ih m

variable (items) in
/-- The child a node offers before anything else. -/
def firstChild (n : ν) : Option ν :=
  match items n with
  | .child m :: _ => some m
  | _ => none

variable (items) in
/-- The node `k` first children down. -/
def firstChildren : Nat → ν → Option ν
  | 0, n => some n
  | k + 1, n => (firstChild items n).bind (firstChildren k)

theorem firstChildren_succ {k : Nat} {n m : ν} (h : firstChild items n = some m) :
    firstChildren items (k + 1) n = firstChildren items k m := by
  rw [firstChildren, h, Option.bind_some]

theorem firstChild_eq_some {n m : ν} :
    firstChild items n = some m ↔ ∃ rest, items n = .child m :: rest := by
  unfold firstChild
  split
  · next m' rest h => simp [h]
  · next h =>
    refine ⟨fun hm => (nomatch hm), fun ⟨rest, hm⟩ => ?_⟩
    exact absurd hm (h m rest)

/-- A first child that decides anything decides. -/
theorem search_of_firstChild {d : Nat} {n m : ν} (h : firstChild items n = some m)
    (hm : search items d m ≠ .ok none) : search items (d + 1) n = search items d m := by
  obtain ⟨rest, hn⟩ := firstChild_eq_some.mp h
  rw [search, hn, findSomeM?_cons_eq]
  exact firstSome_of_ne_none hm

/-- A node further down the first children that decides anything decides. -/
theorem search_of_firstChildren {d k : Nat} {n m : ν} (h : firstChildren items k n = some m)
    (hm : search items d m ≠ .ok none) : search items (d + k) n = search items d m := by
  induction k generalizing n with
  | zero =>
    obtain rfl := Option.some.inj h
    rfl
  | succ k ih =>
    obtain ⟨n', hn, hm'⟩ := Option.bind_eq_some_iff.mp h
    have hstep := ih hm'
    rw [← hstep] at hm ⊢
    exact search_of_firstChild hn hm

/-- Where no node offers a child first, one level decides as any number of them. -/
theorem search_of_firstChild_eq_none (htotal : ∀ n, search items 1 n ≠ .ok none) {d : Nat} {n : ν}
    (h : firstChild items n = none) : search items (d + 1) n = search items 1 n := by
  have hn := htotal n
  rw [search] at hn ⊢
  rw [search]
  unfold firstChild at h
  cases hitems : items n with
  | nil =>
    rw [hitems] at hn
    exact absurd rfl hn
  | cons item rest =>
    rw [hitems] at h
    cases item with
    | found r => rfl
    | fail e => rfl
    | child m => exact nomatch h

/-- The walk down the first children ends, at a node that offers none or at the last level. -/
theorem exists_last_firstChild (d : Nat) (n : ν) :
    ∃ k m, k ≤ d ∧ firstChildren items k n = some m ∧ (firstChild items m = none ∨ k = d) := by
  induction d generalizing n with
  | zero => exact ⟨0, n, Nat.le_refl 0, rfl, .inr rfl⟩
  | succ d ih =>
    cases h : firstChild items n with
    | none => exact ⟨0, n, Nat.zero_le _, rfl, .inl h⟩
    | some n' =>
      obtain ⟨k, m, hk, hm, hlast⟩ := ih n'
      refine ⟨k + 1, m, Nat.succ_le_succ hk, ?_, ?_⟩
      · rw [firstChildren_succ h, hm]
      · rcases hlast with hlast | hlast
        · exact .inl hlast
        · exact .inr (congrArg Nat.succ hlast)

/-- **Where every node decides alone**, the search answers as the node at which the walk down the
first children ends does alone. -/
theorem search_eq_of_last (htotal : ∀ n, search items 1 n ≠ .ok none) {d k : Nat} {n m : ν}
    (hk : k ≤ d) (hm : firstChildren items k n = some m)
    (hlast : firstChild items m = none ∨ k = d) :
    search items (d + 1) n = search items 1 m := by
  have hend : search items (d - k + 1) m = search items 1 m := by
    rcases hlast with hlast | rfl
    · exact search_of_firstChild_eq_none htotal hlast
    · rw [Nat.sub_self]
  have hne : search items (d - k + 1) m ≠ .ok none := by
    rw [hend]
    exact htotal m
  have hwalk := search_of_firstChildren hm hne
  rw [hend] at hwalk
  rw [← hwalk]
  congr 1
  omega

/-- The walk down the first children never comes to an end without a decision. -/
theorem search_ne_none (htotal : ∀ n, search items 1 n ≠ .ok none) (d : Nat) (n : ν) :
    search items (d + 1) n ≠ .ok none := by
  obtain ⟨k, m, hk, hm, hlast⟩ := exists_last_firstChild d n
  rw [search_eq_of_last htotal hk hm hlast]
  exact htotal m

/-! ## Where the search goes -/

variable (items) in
/-- `Visits d n π d' m`: the search from `n` on `d` levels goes on from `m` on `d'` levels, after
the child positions `π`; everything offered before them has decided nothing. -/
inductive Visits : Nat → ν → List Nat → Nat → ν → Prop
  | refl (d : Nat) (n : ν) : Visits d n [] d n
  | child {d d' : Nat} {n m l : ν} {before after : List (Item ε ρ ν)} {π : List Nat}
      (hn : items n = before ++ .child m :: after)
      (hb : ∀ item ∈ before, visit (search items d) item = .ok none)
      (h : Visits d m π d' l) : Visits (d + 1) n (before.length :: π) d' l

variable (items) in
/-- The search hands back the result of a node it visits after the child positions `π`. -/
def Supplies (d : Nat) (n : ν) (π : List Nat) (r : ρ) : Prop :=
  ∃ d' m before after, Visits items d n π (d' + 1) m ∧ items m = before ++ .found r :: after ∧
    ∀ item ∈ before, visit (search items d') item = .ok none

theorem Visits.levels {d d' : Nat} {n m : ν} {π : List Nat} (h : Visits items d n π d' m) :
    d = d' + π.length := by
  induction h with
  | refl d n => rfl
  | child _ _ _ ih =>
    rw [List.length_cons, ih]
    rfl

theorem search_eq_some_of_child {d : Nat} {n m : ν} {before after : List (Item ε ρ ν)}
    {x : Except ε (Option ρ)} (hn : items n = before ++ .child m :: after)
    (hb : ∀ item ∈ before, visit (search items d) item = .ok none)
    (hm : search items d m = x) (hx : x ≠ .ok none) : search items (d + 1) n = x := by
  rw [search, hn, findSomeM?_append, findSomeM?_eq_none hb, firstSome_none, findSomeM?_cons_eq]
  show firstSome (search items d m) _ = x
  rw [hm, firstSome_of_ne_none hx]

/-- What decides at a node the search visits decides. -/
theorem Visits.search_eq {d d' : Nat} {n m : ν} {π : List Nat} {x : Except ε (Option ρ)}
    (h : Visits items d n π d' m) (hm : search items d' m = x) (hx : x ≠ .ok none) :
    search items d n = x := by
  induction h with
  | refl d n => exact hm
  | child hn hb _ ih => exact search_eq_some_of_child hn hb (ih hm) hx

/-- **Every result is supplied** by a node the search visits, and what such a node supplies is the
result. -/
theorem search_eq_some_iff {d : Nat} {n : ν} {r : ρ} :
    search items d n = .ok (some r) ↔ ∃ π, Supplies items d n π r := by
  constructor
  · intro h
    induction d generalizing n with
    | zero => cases h
    | succ d ih =>
      obtain ⟨before, item, after, hn, hb, hitem⟩ := findSomeM?_eq_some.mp h
      cases item with
      | found r' =>
        cases hitem
        exact ⟨[], d, n, before, after, .refl (d + 1) n, hn, hb⟩
      | fail e => cases hitem
      | child m =>
        obtain ⟨π, d', l, before', after', hvisit, hl, hb'⟩ := ih hitem
        exact ⟨before.length :: π, d', l, before', after', .child hn hb hvisit, hl, hb'⟩
  · intro ⟨π, d', m, before, after, hvisit, hm, hb⟩
    refine hvisit.search_eq (findSomeM?_eq_some.mpr ?_) (fun h => nomatch h)
    exact ⟨before, .found r, after, hm, hb, rfl⟩

/-- **Where every node decides alone**, the search goes down the first children only, until there
are no levels left. -/
theorem Visits.leftmost (htotal : ∀ n, search items 1 n ≠ .ok none) {d d' : Nat} {n m : ν}
    {π : List Nat} (h : Visits items d n π (d' + 1) m) :
    π = List.replicate π.length 0 ∧ firstChildren items π.length n = some m := by
  generalize hd' : d' + 1 = left at h
  induction h with
  | refl d n => exact ⟨rfl, rfl⟩
  | @child d left n m l before after π hn hb hvisit ih =>
    obtain ⟨hπ, hl⟩ := ih hd'
    have hlevels := hvisit.levels
    obtain ⟨d, rfl⟩ : ∃ d₀, d = d₀ + 1 := ⟨d' + π.length, by omega⟩
    -- an earlier item would have decided
    cases before with
    | nil =>
      rw [List.length_nil, List.length_cons, List.replicate_succ, ← hπ]
      refine ⟨rfl, ?_⟩
      rw [firstChildren_succ (firstChild_eq_some.mpr ⟨after, hn⟩), hl]
    | cons item before =>
      have hnone := hb item List.mem_cons_self
      cases item with
      | found r => cases hnone
      | fail e => cases hnone
      | child m' => exact absurd hnone (search_ne_none htotal d m')

end Search

/-! ## Searches of related trees -/

section Related

variable {ρ' ν' : Type}

/-- The items lead to related nodes or results, or fail alike. -/
inductive Item.Rel (N : ν → ν' → Prop) (Q : ρ → ρ' → Prop) : Item ε ρ ν → Item ε ρ' ν' → Prop
  | found {r : ρ} {r' : ρ'} (h : Q r r') : Rel N Q (.found r) (.found r')
  | fail (e : ε) : Rel N Q (.fail e) (.fail e)
  | child {n : ν} {n' : ν'} (h : N n n') : Rel N Q (.child n) (.child n')

/-- The answers are related results, or the same failure, or both nothing. -/
inductive Answers (Q : ρ → ρ' → Prop) : Except ε (Option ρ) → Except ε (Option ρ') → Prop
  | some {r : ρ} {r' : ρ'} (h : Q r r') : Answers Q (.ok (.some r)) (.ok (.some r'))
  | none : Answers Q (.ok .none) (.ok .none)
  | error (e : ε) : Answers Q (.error e) (.error e)

theorem forall₂_map_of_forall {ι α β : Type} {S : α → β → Prop} {f : ι → α} {g : ι → β} {l : List ι}
    (h : ∀ i ∈ l, S (f i) (g i)) : List.Forall₂ S (l.map f) (l.map g) := by
  rw [List.forall₂_map_left_iff, List.forall₂_map_right_iff, List.forall₂_same]
  exact h

theorem forall₂_flatMap_of_forall {ι α β : Type} {S : α → β → Prop} {f : ι → List α}
    {g : ι → List β} {l : List ι} (h : ∀ i ∈ l, List.Forall₂ S (f i) (g i)) :
    List.Forall₂ S (l.flatMap f) (l.flatMap g) := by
  induction l with
  | nil => exact .nil
  | cons i l ih =>
    rw [List.flatMap_cons, List.flatMap_cons]
    exact List.rel_append (h i List.mem_cons_self) (ih fun j hj => h j (List.mem_cons_of_mem i hj))

theorem findSomeM?_related {ι ι' : Type} {S : ι → ι' → Prop} {Q : ρ → ρ' → Prop}
    {f : ι → Except ε (Option ρ)} {f' : ι' → Except ε (Option ρ')}
    (h : ∀ i i', S i i' → Answers Q (f i) (f' i')) {l : List ι} {l' : List ι'}
    (hl : List.Forall₂ S l l') : Answers Q (l.findSomeM? f) (l'.findSomeM? f') := by
  induction hl with
  | nil => exact .none
  | @cons i i' l l' hi _ ih =>
    rw [findSomeM?_cons_eq, findSomeM?_cons_eq]
    have hfi := h i i' hi
    generalize f i = x at hfi ⊢
    generalize f' i' = x' at hfi ⊢
    cases hfi with
    | some hr => exact .some hr
    | none => exact ih
    | error e => exact .error e

/-- **Related nodes that offer related items are searched alike.** -/
theorem search_related {items : ν → List (Item ε ρ ν)} {items' : ν' → List (Item ε ρ' ν')}
    {N : ν → ν' → Prop} {Q : ρ → ρ' → Prop}
    (hitems : ∀ n n', N n n' → List.Forall₂ (Item.Rel N Q) (items n) (items' n')) (d : Nat)
    {n : ν} {n' : ν'} (h : N n n') : Answers Q (search items d n) (search items' d n') := by
  induction d generalizing n n' with
  | zero => exact .none
  | succ d ih =>
    refine findSomeM?_related (fun item item' hitem => ?_) (hitems n n' h)
    cases hitem with
    | found hr => exact .some hr
    | fail e => exact .error e
    | child hm => exact ih hm

end Related

/-! ## Leaving items out -/

section Prune

variable (tagged : ν → List (Bool × Item ε ρ ν))

/-- All items of a node. -/
def all (n : ν) : List (Item ε ρ ν) := (tagged n).map Prod.snd

/-- The items of a node that are kept. -/
def kept (n : ν) : List (Item ε ρ ν) := ((tagged n).filter Prod.fst).map Prod.snd

/-- The search over all items is decided by one that is not kept: it is reached over kept children,
everything offered before it on the way decided nothing, and it answers `x`. -/
inductive Stolen : Nat → ν → Except ε (Option ρ) → Prop
  | here {d : Nat} {n : ν} {before after : List (Bool × Item ε ρ ν)} {item : Item ε ρ ν}
      {x : Except ε (Option ρ)} (hn : tagged n = before ++ (false, item) :: after)
      (hb : ∀ p ∈ before, visit (search (all tagged) d) p.2 = .ok none)
      (hx : visit (search (all tagged) d) item = x) (hne : x ≠ .ok none) : Stolen (d + 1) n x
  | beneath {d : Nat} {n m : ν} {before after : List (Bool × Item ε ρ ν)}
      {x : Except ε (Option ρ)} (hn : tagged n = before ++ (true, .child m) :: after)
      (hb : ∀ p ∈ before, visit (search (all tagged) d) p.2 = .ok none)
      (h : Stolen d m x) : Stolen (d + 1) n x

variable {tagged}

theorem Stolen.ne_none {d : Nat} {n : ν} {x : Except ε (Option ρ)} (h : Stolen tagged d n x) :
    x ≠ .ok none := by
  induction h with
  | here _ _ _ hne => exact hne
  | beneath _ _ _ ih => exact ih

theorem search_of_split {d : Nat} {n : ν} {before after : List (Bool × Item ε ρ ν)}
    {p : Bool × Item ε ρ ν} {x : Except ε (Option ρ)} (hn : tagged n = before ++ p :: after)
    (hb : ∀ p ∈ before, visit (search (all tagged) d) p.2 = .ok none)
    (hx : visit (search (all tagged) d) p.2 = x) (hne : x ≠ .ok none) :
    search (all tagged) (d + 1) n = x := by
  have hnone : (before.map Prod.snd).findSomeM? (visit (search (all tagged) d)) = .ok none := by
    refine findSomeM?_eq_none fun item hitem => ?_
    obtain ⟨q, hq, rfl⟩ := List.mem_map.mp hitem
    exact hb q hq
  rw [search, all, hn, List.map_append, findSomeM?_append, hnone, firstSome_none, List.map_cons,
    findSomeM?_cons_eq, hx]
  exact firstSome_of_ne_none hne

theorem Stolen.search_eq {d : Nat} {n : ν} {x : Except ε (Option ρ)} (h : Stolen tagged d n x) :
    search (all tagged) d n = x := by
  induction h with
  | here hn hb hx hne => exact search_of_split hn hb hx hne
  | beneath hn hb h ih => exact search_of_split hn hb ih h.ne_none

/-- The item by item step of `search_prune`: what is left of a node's items decides the same with
and without the ones left out, or one of those or something beneath a kept child is decisive. -/
theorem findSomeM?_prune {d : Nat}
    (ih : ∀ n, search (all tagged) d n = search (kept tagged) d n ∨ ∃ x, Stolen tagged d n x)
    {n : ν} (before rest : List (Bool × Item ε ρ ν)) (hn : tagged n = before ++ rest)
    (hb : ∀ p ∈ before, visit (search (all tagged) d) p.2 = .ok none) :
    ((rest.map Prod.snd).findSomeM? (visit (search (all tagged) d)) =
      ((rest.filter Prod.fst).map Prod.snd).findSomeM? (visit (search (kept tagged) d))) ∨
      ∃ x, Stolen tagged (d + 1) n x := by
  induction rest generalizing before with
  | nil => exact .inl rfl
  | cons p rest ihrest =>
    obtain ⟨flag, item⟩ := p
    -- what happens at the rest once this item has decided nothing
    have hskip : visit (search (all tagged) d) item = .ok none →
        ((rest.map Prod.snd).findSomeM? (visit (search (all tagged) d)) =
          ((rest.filter Prod.fst).map Prod.snd).findSomeM? (visit (search (kept tagged) d))) ∨
          ∃ x, Stolen tagged (d + 1) n x := by
      intro hv
      apply ihrest (before ++ [(flag, item)]) (by rw [hn, List.append_assoc]; rfl)
      intro p hp
      rcases List.mem_append.mp hp with hp | hp
      · exact hb p hp
      · obtain rfl := List.mem_singleton.mp hp
        exact hv
    cases flag with
    | false =>
      by_cases hv : visit (search (all tagged) d) item = .ok none
      · rw [List.map_cons, findSomeM?_cons_eq, hv, firstSome_none]
        exact hskip hv
      · exact .inr ⟨_, .here hn hb rfl hv⟩
    | true =>
      rw [List.filter_cons_of_pos rfl, List.map_cons, List.map_cons, findSomeM?_cons_eq,
        findSomeM?_cons_eq]
      cases item with
      | found r => exact .inl rfl
      | fail e => exact .inl rfl
      | child m =>
        rcases ih m with h | ⟨x, h⟩
        · show (firstSome (search (all tagged) d m) _ = firstSome (search (kept tagged) d m) _) ∨ _
          rw [← h]
          by_cases hv : search (all tagged) d m = .ok none
          · rw [hv, firstSome_none, firstSome_none]
            exact hskip hv
          · rw [firstSome_of_ne_none hv, firstSome_of_ne_none hv]
            exact .inl rfl
        · exact .inr ⟨x, .beneath hn hb h⟩

/-- **Leaving items out** changes the answer only where one of them decides. -/
theorem search_prune (d : Nat) (n : ν) :
    search (all tagged) d n = search (kept tagged) d n ∨ ∃ x, Stolen tagged d n x := by
  induction d generalizing n with
  | zero => exact .inl rfl
  | succ d ih => exact findSomeM?_prune ih [] (tagged n) rfl (fun _ h => absurd h List.not_mem_nil)

end Prune

end OrderedSearch
