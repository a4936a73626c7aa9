import Mathlib.Logic.Hydra

/-!
# Worklists that run empty

A stack of tasks, each with a rank. A turn takes the top task away and puts finitely many tasks of
lower rank in its place, possibly none; how many, and which, may differ from turn to turn. Whatever
is put there, the stack runs empty: the multiset of the ranks goes down with every turn.
-/

namespace Worklist

variable {τ : Type} (rank : τ → ℕ)

/-- A turn with the top task. -/
def Replaces (stack stack' : List τ) : Prop :=
  ∃ top rest new, stack = top :: rest ∧ stack' = new ++ rest ∧ ∀ x ∈ new, rank x < rank top

variable {rank}

/-- The ranks go down with a turn. -/
theorem Replaces.cutExpand {stack stack' : List τ} (h : Replaces rank stack stack') :
    Relation.CutExpand (· < ·) (Multiset.ofList (stack'.map rank))
      (Multiset.ofList (stack.map rank)) := by
  obtain ⟨top, rest, new, rfl, rfl, hlt⟩ := h
  refine ⟨Multiset.ofList (new.map rank), rank top, fun n hn => ?_, ?_⟩
  · obtain ⟨x, hx, rfl⟩ := List.mem_map.mp (Multiset.mem_coe.mp hn)
    exact hlt x hx
  · rw [List.map_append, List.map_cons, ← Multiset.coe_add, ← Multiset.cons_coe,
      ← Multiset.singleton_add, add_comm, add_assoc]
    exact congrArg _ (add_comm _ _)

/-- **A stack that is turned over and over runs empty.** -/
theorem exists_empty {work : ℕ → List τ}
    (h : ∀ k, work k ≠ [] → work (k + 1) = [] ∨ Replaces rank (work k) (work (k + 1))) :
    ∃ k, work k = [] := by
  by_contra hnever
  rw [not_exists] at hnever
  have hwf : IsWellFounded (Multiset ℕ) (Relation.CutExpand (· < ·)) :=
    ⟨Nat.lt_wfRel.wf.cutExpand⟩
  obtain ⟨k, hk⟩ := WellFounded.not_rel_apply_succ (h := hwf) fun k =>
    Multiset.ofList ((work k).map rank)
  rcases h k (hnever k) with hempty | hturn
  · exact hnever (k + 1) hempty
  · exact hk hturn.cutExpand

end Worklist
