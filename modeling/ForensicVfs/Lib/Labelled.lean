import Mathlib.Data.List.Basic

/-!
# Chains of labelled choices

A state offers choices; a choice leads to one next state and leaves one label. A chain of choices
leaves the list of its labels. When does the list tell which choices were made? Exactly when, in
every state on the way, no two choices leave the same label (`tells_iff`).
-/

namespace Labelled

variable {σ ν ℓ : Type} (step : σ → ν → ℓ → σ → Prop)

/-- A chain of choices with its labels. -/
inductive Chain : σ → List ν → List ℓ → σ → Prop
  | nil (s : σ) : Chain s [] [] s
  | cons {s t u : σ} {c : ν} {l : ℓ} {p : List ν} {ls : List ℓ} (h : step s c l t)
      (hs : Chain t p ls u) : Chain s (c :: p) (l :: ls) u

/-- A choice leads to one state and leaves one label. -/
def Deterministic : Prop :=
  ∀ ⦃s : σ⦄ ⦃c : ν⦄ ⦃l l' : ℓ⦄ ⦃t t' : σ⦄, step s c l t → step s c l' t' → l = l' ∧ t = t'

/-- No two choices leave the same label. -/
def Separates (s : σ) : Prop :=
  ∀ ⦃c d : ν⦄ ⦃l : ℓ⦄ ⦃t u : σ⦄, step s c l t → step s d l u → c = d

/-- The labels tell the choices, in chains of at most `n`. -/
def Tells (n : ℕ) (s : σ) : Prop :=
  ∀ ⦃p q : List ν⦄ ⦃ls : List ℓ⦄ ⦃t u : σ⦄, p.length ≤ n → q.length ≤ n → Chain step s p ls t →
    Chain step s q ls u → p = q

variable {step}

theorem Chain.concat {s t u : σ} {c : ν} {l : ℓ} {p : List ν} {ls : List ℓ}
    (h : Chain step s p ls t) (hc : step t c l u) : Chain step s (p ++ [c]) (ls ++ [l]) u := by
  induction h with
  | nil s => exact .cons hc (.nil u)
  | cons h _ ih => exact .cons h (ih hc)

theorem Chain.deterministic (hdet : Deterministic step) {s t u : σ} {p : List ν} {ls ks : List ℓ}
    (h : Chain step s p ls t) (h' : Chain step s p ks u) : ls = ks ∧ t = u := by
  induction h generalizing ks with
  | nil s =>
    cases h'
    exact ⟨rfl, rfl⟩
  | cons hc _ ih =>
    cases h' with
    | cons hc' h' =>
      obtain ⟨rfl, rfl⟩ := hdet hc hc'
      obtain ⟨rfl, rfl⟩ := ih h'
      exact ⟨rfl, rfl⟩

/-- **The labels tell the choices exactly when** every state that is reached on the way separates
its own. -/
theorem tells_iff (hdet : Deterministic step) {n : ℕ} {s : σ} :
    Tells step n s ↔ ∀ p ls t, p.length < n → Chain step s p ls t → Separates step t := by
  constructor
  · intro h p ls t hp hchain c d l u v hc hd
    have hlen : ∀ c : ν, (p ++ [c]).length ≤ n := by
      intro c
      rw [List.length_append, List.length_singleton]
      exact hp
    have heq := h (hlen c) (hlen d) (hchain.concat hc) (hchain.concat hd)
    exact List.head_eq_of_cons_eq (List.append_cancel_left heq)
  · intro h p q ls t u hp hq hpchain hqchain
    induction hpchain generalizing n q with
    | nil s =>
      cases hqchain
      rfl
    | @cons s t' t c l p ls hc hchain ih =>
      cases hqchain with
      | @cons _ u' _ d _ q _ hd hchain' =>
        have hn : 0 < n := Nat.lt_of_lt_of_le (Nat.succ_pos _) hp
        obtain rfl := h [] [] s hn (.nil s) hc hd
        obtain ⟨-, rfl⟩ := hdet hc hd
        congr 1
        refine ih (n := n - 1) ?_ (Nat.le_sub_one_of_lt hp) (Nat.le_sub_one_of_lt hq) hchain'
        intro r ks v hr hrchain
        refine h (c :: r) (l :: ks) v ?_ (.cons hc hrchain)
        rw [List.length_cons]
        omega

end Labelled
