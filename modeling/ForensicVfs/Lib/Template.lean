import Mathlib.Data.List.Basic

/-!
# Texts with holes

A text cut into literal parts and fields, where a field carries what is known about it. The fields
can be read off, and other texts put in their place.
-/

namespace Template

/-- One part of a text: literal, or a field with its description. -/
inductive Seg (α β : Type) where
  | lit (t : List α)
  | field (b : β) (t : List α)
  deriving DecidableEq

variable {α β : Type}

/-- The text the parts come from. -/
def text : List (Seg α β) → List α
  | [] => []
  | .lit t :: segs => t ++ text segs
  | .field _ t :: segs => t ++ text segs

/-- The fields, in order. -/
def fields : List (Seg α β) → List (β × List α)
  | [] => []
  | .lit _ :: segs => fields segs
  | .field b t :: segs => (b, t) :: fields segs

/-- The text with the given texts in the fields, one after the other. -/
def refill : List (Seg α β) → List (List α) → List α
  | [], _ => []
  | .lit t :: segs, us => t ++ refill segs us
  | .field _ _ :: segs, u :: us => u ++ refill segs us
  | .field _ t :: segs, [] => t ++ refill segs []

@[simp] theorem text_nil : text ([] : List (Seg α β)) = [] := rfl

@[simp] theorem text_lit (t : List α) (segs : List (Seg α β)) :
    text (.lit t :: segs) = t ++ text segs := rfl

@[simp] theorem text_field (b : β) (t : List α) (segs : List (Seg α β)) :
    text (.field b t :: segs) = t ++ text segs := rfl

@[simp] theorem fields_nil : fields ([] : List (Seg α β)) = [] := rfl

@[simp] theorem fields_lit (t : List α) (segs : List (Seg α β)) :
    fields (.lit t :: segs) = fields segs := rfl

@[simp] theorem fields_field (b : β) (t : List α) (segs : List (Seg α β)) :
    fields (.field b t :: segs) = (b, t) :: fields segs := rfl

@[simp] theorem refill_nil (us : List (List α)) : refill ([] : List (Seg α β)) us = [] := rfl

@[simp] theorem refill_lit (t : List α) (segs : List (Seg α β)) (us : List (List α)) :
    refill (.lit t :: segs) us = t ++ refill segs us := rfl

@[simp] theorem refill_field (b : β) (t u : List α) (segs : List (Seg α β)) (us : List (List α)) :
    refill (.field b t :: segs) (u :: us) = u ++ refill segs us := rfl

theorem text_append (segs segs' : List (Seg α β)) :
    text (segs ++ segs') = text segs ++ text segs' := by
  induction segs with
  | nil => rfl
  | cons seg segs ih => cases seg <;> simp [ih]

theorem fields_append (segs segs' : List (Seg α β)) :
    fields (segs ++ segs') = fields segs ++ fields segs' := by
  induction segs with
  | nil => rfl
  | cons seg segs ih => cases seg <;> simp [ih]

/-- A literal part behind the last field. -/
theorem refill_append_lit {segs : List (Seg α β)} {us : List (List α)} (t : List α)
    (h : (fields segs).length = us.length) :
    refill (segs ++ [.lit t]) us = refill segs us ++ t := by
  induction segs generalizing us with
  | nil => simp
  | cons seg segs ih =>
    cases seg with
    | lit t' => simp [ih h]
    | field b t' =>
      cases us with
      | nil => simp at h
      | cons u us => simp [ih (by simpa using h)]

/-- Nothing new comes in but from the given texts. -/
theorem mem_refill {segs : List (Seg α β)} {us : List (List α)} {c : α} (h : c ∈ refill segs us) :
    c ∈ text segs ∨ ∃ u ∈ us, c ∈ u := by
  induction segs generalizing us with
  | nil => simp at h
  | cons seg segs ih =>
    cases seg with
    | lit t =>
      rcases List.mem_append.mp h with h | h
      · exact .inl (List.mem_append_left _ h)
      · rcases ih h with h | h
        · exact .inl (List.mem_append_right _ h)
        · exact .inr h
    | field b t =>
      cases us with
      | nil =>
        rcases List.mem_append.mp h with h | h
        · exact .inl (List.mem_append_left _ h)
        · rcases ih h with h | h
          · exact .inl (List.mem_append_right _ h)
          · exact .inr h
      | cons u us =>
        rcases List.mem_append.mp h with h | h
        · exact .inr ⟨u, List.mem_cons_self, h⟩
        · rcases ih h with h | ⟨u', hu, h⟩
          · exact .inl (List.mem_append_right _ h)
          · exact .inr ⟨u', List.mem_cons_of_mem u hu, h⟩

end Template
