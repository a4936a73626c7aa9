import Mathlib.Data.List.Basic

/-!
# Delimiter-separated text

Text over an arbitrary alphabet, cut at a delimiter: at every occurrence (`List.splitOn`, whose
inverse is `List.intercalate`) or at the first one only (`splitOnce`). The facts here are the ones
a format with several nested delimiters needs: a piece never holds its own delimiter, a piece that
holds none is found again, and joining is injective on delimiter-free pieces.
-/

namespace Delim

variable {α : Type*} [DecidableEq α]

/-! ## The first occurrence -/

/-- The text before and the text after the first `d`, if there is one. -/
def splitOnce (d : α) : List α → Option (List α × List α)
  | [] => none
  | c :: t => if c = d then some ([], t) else (splitOnce d t).map fun p => (c :: p.1, p.2)

/-- A delimiter-free text is found again in front of the delimiter. -/
@[simp] theorem splitOnce_append {d : α} {a : List α} (h : d ∉ a) (b : List α) :
    splitOnce d (a ++ d :: b) = some (a, b) := by
  induction a with
  | nil => simp [splitOnce]
  | cons c a ih =>
    have hc : c ≠ d := fun e => h (e ▸ List.mem_cons_self)
    have ha : d ∉ a := fun e => h (List.mem_cons_of_mem c e)
    simp [splitOnce, hc, ih ha]

theorem splitOnce_eq_some {d : α} {s a b : List α} :
    splitOnce d s = some (a, b) ↔ s = a ++ d :: b ∧ d ∉ a := by
  constructor
  · intro h
    induction s generalizing a with
    | nil => simp [splitOnce] at h
    | cons c s ih =>
      rw [splitOnce] at h
      split at h
      · next hc =>
        cases h
        exact ⟨by rw [hc]; rfl, List.not_mem_nil⟩
      · next hc =>
        obtain ⟨⟨a', b'⟩, hs, he⟩ := Option.map_eq_some_iff.mp h
        cases he
        obtain ⟨rfl, ha⟩ := ih hs
        exact ⟨rfl, fun hm => (List.mem_cons.mp hm).elim (fun e => hc e.symm) ha⟩
  · rintro ⟨rfl, ha⟩
    exact splitOnce_append ha b

@[simp] theorem splitOnce_eq_none {d : α} {s : List α} : splitOnce d s = none ↔ d ∉ s := by
  induction s with
  | nil => simp [splitOnce]
  | cons c s ih =>
    rw [splitOnce]
    split
    · next hc => simp [hc]
    · next hc => simp [ih, Ne.symm hc]

omit [DecidableEq α] in
/-- Of two delimiters, each missing in front of the other, there is one place for both. -/
theorem append_cons_inj_of_not_mem {d e : α} {a b r u : List α} (ha : e ∉ a) (hb : d ∉ b)
    (h : a ++ d :: r = b ++ e :: u) : a = b ∧ d = e ∧ r = u := by
  rcases List.append_eq_append_iff.mp h with ⟨mid, rfl, hmid⟩ | ⟨mid, rfl, hmid⟩
  · cases mid with
    | nil =>
      obtain ⟨hd, hr⟩ := List.cons.inj hmid
      exact ⟨(List.append_nil a).symm, hd, hr⟩
    | cons c mid =>
      obtain ⟨rfl, -⟩ := List.cons.inj hmid
      exact absurd (List.mem_append_right a List.mem_cons_self) hb
  · cases mid with
    | nil =>
      obtain ⟨hd, hr⟩ := List.cons.inj hmid
      exact ⟨List.append_nil b, hd.symm, hr.symm⟩
    | cons c mid =>
      obtain ⟨rfl, -⟩ := List.cons.inj hmid
      exact absurd (List.mem_append_right b List.mem_cons_self) ha

/-! ## Every occurrence -/

/-- For a literal the hypothesis is by evaluation. -/
theorem not_mem_of_contains {d : α} {l : List α} (h : l.contains d = false) : d ∉ l := by
  intro hd
  rw [List.contains_iff_mem.mpr hd] at h
  cases h

/-- A piece never holds its own delimiter. -/
theorem not_mem_of_mem_splitOn {d : α} {s l : List α} (hl : l ∈ s.splitOn d) : d ∉ l := by
  induction s generalizing l with
  | nil => simp only [List.splitOn_nil, List.mem_singleton] at hl; simp [hl]
  | cons c s ih =>
    rw [List.splitOn_cons_eq_if_modifyHead] at hl
    split at hl
    · rcases List.mem_cons.mp hl with rfl | hl
      · exact List.not_mem_nil
      · exact ih hl
    · next hc =>
      cases hs : s.splitOn d with
      | nil => exact absurd hs (List.splitOn_ne_nil d s)
      | cons p ps =>
        rw [hs] at hl ih
        rcases List.mem_cons.mp hl with rfl | hl
        · have hp := ih List.mem_cons_self
          have hcd : c ≠ d := by simpa using hc
          simp [hp, hcd.symm]
        · exact ih (List.mem_cons_of_mem p hl)

/-- A piece is a part of the text. -/
theorem infix_of_mem_splitOn {d : α} {s l : List α} (hl : l ∈ s.splitOn d) : l <:+: s := by
  generalize hps : s.splitOn d = ps at hl
  have hs : [d].intercalate (s.splitOn d) = s := List.intercalate_splitOn d
  rw [hps] at hs
  rw [← hs]
  clear hps hs
  induction ps with
  | nil => exact absurd hl List.not_mem_nil
  | cons p ps ih =>
    cases ps with
    | nil =>
      obtain rfl := List.mem_singleton.mp hl
      simp
    | cons q ps =>
      rw [List.intercalate_cons_cons]
      rcases List.mem_cons.mp hl with rfl | hl
      · exact ⟨[], _, by rw [List.nil_append, List.append_assoc]⟩
      · exact (ih hl).trans (List.suffix_append _ _).isInfix

/-- Splitting at the first delimiter peels the first piece off. -/
theorem splitOn_of_splitOnce {d : α} {s a b : List α} (h : splitOnce d s = some (a, b)) :
    s.splitOn d = a :: b.splitOn d := by
  obtain ⟨rfl, ha⟩ := splitOnce_eq_some.mp h
  exact List.splitOn_append_cons_self_of_not_mem ha b

/-- A delimiter-free text in front belongs to the first piece. -/
theorem splitOn_append {d : α} {a : List α} (ha : d ∉ a) (b : List α) :
    (a ++ b).splitOn d = (b.splitOn d).modifyHead (a ++ ·) := by
  induction a with
  | nil => exact (congrFun List.modifyHead_id _).symm
  | cons c a ih =>
    have hc : ¬(c == d) = true := by
      rw [beq_iff_eq]
      exact fun e => ha (e ▸ List.mem_cons_self)
    rw [List.cons_append, List.splitOn_cons_eq_if_modifyHead, if_neg hc,
      ih fun e => ha (List.mem_cons_of_mem c e), List.modifyHead_modifyHead]
    rfl

/-- Joined texts split as each of them does, whether or not they hold the delimiter. -/
theorem splitOn_intercalate (d : α) {ps : List (List α)} (hne : ps ≠ []) :
    ([d].intercalate ps).splitOn d = ps.flatMap (List.splitOn d) := by
  induction ps with
  | nil => exact absurd rfl hne
  | cons p ps ih =>
    cases ps with
    | nil => rw [List.intercalate_singleton, List.flatMap_singleton]
    | cons q ps =>
      rw [List.intercalate_cons_cons, List.append_assoc, List.singleton_append,
        List.splitOn_append_cons_self, ih (List.cons_ne_nil q ps)]
      exact List.flatMap_cons.symm

/-- Joining is injective on non-empty lists of delimiter-free pieces. -/
theorem intercalate_inj {d : α} {ps qs : List (List α)} (hp : ps ≠ []) (hq : qs ≠ [])
    (hps : ∀ l ∈ ps, d ∉ l) (hqs : ∀ l ∈ qs, d ∉ l) :
    [d].intercalate ps = [d].intercalate qs ↔ ps = qs := by
  refine ⟨fun h => ?_, fun h => by rw [h]⟩
  rw [← List.splitOn_intercalate d hps hp, ← List.splitOn_intercalate d hqs hq, h]

theorem intercalate_append {d : α} {ps qs : List (List α)} (hp : ps ≠ []) (hq : qs ≠ [])
    (hps : ∀ l ∈ ps, d ∉ l) (hqs : ∀ l ∈ qs, d ∉ l) :
    [d].intercalate (ps ++ qs) = [d].intercalate ps ++ d :: [d].intercalate qs := by
  have hpieces : ([d].intercalate ps ++ d :: [d].intercalate qs).splitOn d = ps ++ qs := by
    rw [List.splitOn_append_cons_self, List.splitOn_intercalate d hps hp,
      List.splitOn_intercalate d hqs hq]
  rw [← hpieces, List.intercalate_splitOn]

/-- Of joined pieces, one text goes on behind the other exactly when its pieces go on. -/
theorem intercalate_prefix_iff {d : α} {ps qs : List (List α)} (hp : ps ≠ []) (hq : qs ≠ [])
    (hps : ∀ l ∈ ps, d ∉ l) (hqs : ∀ l ∈ qs, d ∉ l) :
    ([d].intercalate qs = [d].intercalate ps ∨
      [d].intercalate ps ++ [d] <+: [d].intercalate qs) ↔ ps <+: qs := by
  constructor
  · rintro (h | ⟨t, ht⟩)
    · obtain rfl := (intercalate_inj hq hp hqs hps).mp h
      exact List.prefix_rfl
    · rw [List.append_assoc, List.singleton_append] at ht
      have hpieces := congrArg (List.splitOn d) ht
      rw [List.splitOn_append_cons_self, List.splitOn_intercalate d hps hp,
        List.splitOn_intercalate d hqs hq] at hpieces
      exact ⟨_, hpieces⟩
  · rintro ⟨rest, rfl⟩
    by_cases hrest : rest = []
    · rw [hrest, List.append_nil]
      exact .inl rfl
    · have hqs' : ∀ l ∈ rest, d ∉ l := fun l hl => hqs l (List.mem_append_right ps hl)
      refine .inr ⟨[d].intercalate rest, ?_⟩
      rw [intercalate_append hp hrest hps hqs', List.append_assoc, List.singleton_append]

/-! ## A delimiter in front of every piece -/

omit [DecidableEq α] in
theorem flatMap_cons_delim {d : α} {ps : List (List α)} (hne : ps ≠ []) :
    ps.flatMap (d :: ·) = d :: [d].intercalate ps := by
  induction ps with
  | nil => exact absurd rfl hne
  | cons p ps ih =>
    cases ps with
    | nil => simp [List.intercalate]
    | cons q ps =>
      rw [List.flatMap_cons, ih (List.cons_ne_nil q ps), List.intercalate_cons_cons]
      simp

/-- The pieces of a text with a delimiter in front of each give it back behind a delimiter. -/
theorem flatMap_splitOn (d : α) (s : List α) : (s.splitOn d).flatMap (d :: ·) = d :: s := by
  rw [flatMap_cons_delim (List.splitOn_ne_nil d s), List.intercalate_splitOn]

theorem splitOn_append_flatMap {d : α} {a : List α} (ha : d ∉ a) {ps : List (List α)}
    (hps : ∀ l ∈ ps, d ∉ l) : (a ++ ps.flatMap (d :: ·)).splitOn d = a :: ps := by
  induction ps generalizing a with
  | nil => simpa using List.splitOn_eq_singleton ha
  | cons p ps ih =>
    obtain ⟨hp, hps⟩ := List.forall_mem_cons.mp hps
    rw [List.flatMap_cons, List.cons_append, List.splitOn_append_cons_self_of_not_mem ha, ih hp hps]

theorem append_flatMap_inj {d : α} {a b : List α} {ps qs : List (List α)} (ha : d ∉ a)
    (hb : d ∉ b) (hps : ∀ l ∈ ps, d ∉ l) (hqs : ∀ l ∈ qs, d ∉ l) :
    a ++ ps.flatMap (d :: ·) = b ++ qs.flatMap (d :: ·) ↔ a = b ∧ ps = qs := by
  constructor
  · intro h
    have hs := congrArg (List.splitOn d) h
    rw [splitOn_append_flatMap ha hps, splitOn_append_flatMap hb hqs] at hs
    exact List.cons.inj hs
  · rintro ⟨rfl, rfl⟩
    rfl

end Delim
