import ForensicVfs.Verify.Uri.Canonical

/-!
# The legacy spelling

Persisted locators may still carry the scheme `fvfs:` and the layer tag `os`. The parser cuts the
text at every `|` and each piece at its first `:`, and from there on the two spellings of a piece
are parsed alike (`SameLayer.layerParse_eq`); what stands in a body is never looked at as a tag. So
a rewritten locator parses as the original does, errors included, and is written back in the current
spelling (`legacy_same_locator`).
-/

namespace ForensicVfs

open Delim Result

/-! ## Two spellings -/

/-- The tag of a layer text. -/
def layerTag (t : Str) : Option Str := (splitOnce colon t).map Prod.fst

/-- The layer text with the tag `os` in the place of `file`. -/
def legacyLayer (t : Str) : Str :=
  match splitOnce colon t with
  | some (tag, body) => if tag = str "file" then str "os" ++ colon :: body else t
  | none => t

/-- Layer texts joined, those marked in the legacy spelling. -/
def legacyText (layers : List (Str × Bool)) : Str :=
  [layerSep].intercalate (layers.map fun p => if p.2 then legacyLayer p.1 else p.1)

/-- The second text is the first, or its legacy spelling. -/
inductive SameLayer : Str → Str → Prop
  | same (t : Str) : SameLayer t t
  | legacy (body : Str) : SameLayer (str "file" ++ colon :: body) (str "os" ++ colon :: body)

theorem sameLayer_legacyLayer (t : Str) : SameLayer t (legacyLayer t) := by
  unfold legacyLayer
  cases hs : splitOnce colon t with
  | none => exact .same t
  | some p =>
    obtain ⟨tag, body⟩ := p
    obtain ⟨rfl, -⟩ := splitOnce_eq_some.mp hs
    by_cases htag : tag = str "file"
    · subst htag
      exact .legacy body
    · simp only [if_neg htag]
      exact .same _

/-! ## Layer by layer -/

/-- Both spellings of a layer are parsed alike. -/
theorem SameLayer.layerParse_eq {t u : Str} (h : SameLayer t u) (known : List FsKind) :
    layerParse known t = layerParse known u := by
  cases h with
  | same => rfl
  | legacy body =>
    have hfile : splitOnce colon (str "file" ++ colon :: body) = some (str "file", body) :=
      splitOnce_append (by decide) body
    have hos : splitOnce colon (str "os" ++ colon :: body) = some (str "os", body) :=
      splitOnce_append (by decide) body
    unfold layerParse
    rw [hfile, hos]
    rfl

/-- The tag stands in the first piece of a text. -/
theorem splitOn_tagged {tag body p : Str} {ps : List Str} (htag : layerSep ∉ tag)
    (hs : body.splitOn layerSep = p :: ps) :
    (tag ++ colon :: body).splitOn layerSep = (tag ++ colon :: p) :: ps := by
  have hcolon : layerSep ∉ tag ++ [colon] := List.not_mem_append htag (by decide)
  have hcons : tag ++ colon :: body = tag ++ [colon] ++ body := by simp
  rw [hcons, splitOn_append hcolon, hs]
  simp

theorem SameLayer.splitOn {t u : Str} (h : SameLayer t u) :
    List.Forall₂ SameLayer (t.splitOn layerSep) (u.splitOn layerSep) := by
  cases h with
  | same => exact List.forall₂_same.mpr fun t _ => .same t
  | legacy body =>
    cases hs : body.splitOn layerSep with
    | nil => exact absurd hs (List.splitOn_ne_nil layerSep body)
    | cons p ps =>
      rw [splitOn_tagged (by decide) hs, splitOn_tagged (by decide) hs]
      exact .cons (.legacy p) (List.forall₂_same.mpr fun t _ => .same t)

theorem sameLayer_splitOn_legacyText (layers : List (Str × Bool)) :
    List.Forall₂ SameLayer (([layerSep].intercalate (layers.map Prod.fst)).splitOn layerSep)
      ((legacyText layers).splitOn layerSep) := by
  cases layers with
  | nil => exact .cons (.same []) .nil
  | cons p layers =>
    unfold legacyText
    rw [splitOn_intercalate layerSep (by simp), splitOn_intercalate layerSep (by simp)]
    refine List.rel_flatMap (R := SameLayer) ?_ fun _ _ h => h.splitOn
    rw [List.forall₂_map_left_iff, List.forall₂_map_right_iff, List.forall₂_same]
    intro q _
    by_cases hq : q.2 = true
    · rw [if_pos hq]
      exact sameLayer_legacyLayer q.1
    · rw [if_neg hq]
      exact .same q.1

/-! ## Whole URIs -/

/-- Texts that are parsed alike, layer by layer. -/
def SameParse (known : List FsKind) : List Str → List Str → Prop :=
  List.Forall₂ fun t u => layerParse known t = layerParse known u

theorem SameParse.foldlM_eq {known : List FsKind} {ts us : List Str} (h : SameParse known ts us)
    (spec : Locator) :
    ts.foldlM (fun spec l => do return .push spec (← layerParse known l)) spec =
      (us.foldlM (fun spec l => do return .push spec (← layerParse known l)) spec :
        VfsResult Locator) := by
  induction h generalizing spec with
  | nil => rfl
  | cons hlayer _ ih =>
    rw [List.foldlM_cons, List.foldlM_cons, hlayer]
    exact bind_congr ih

/-- Behind the scheme the pieces decide. -/
theorem fromUri_congr {known : List FsKind} {s s' : Str} {ts us : List Str}
    (hs : uriLayers s = some ts) (hs' : uriLayers s' = some us) (h : SameParse known ts us) :
    Locator.fromUri known s = Locator.fromUri known s' := by
  obtain ⟨rest, hrest, hts⟩ := Option.map_eq_some_iff.mp hs
  obtain ⟨rest', hrest', hus⟩ := Option.map_eq_some_iff.mp hs'
  unfold Locator.fromUri
  simp only [hrest, hrest', hts, hus, okOr, ok_bind]
  cases h with
  | nil => exact absurd hts (List.splitOn_ne_nil layerSep rest)
  | cons hfirst hlayers =>
    simp only [next_cons, ok_bind, hfirst]
    exact bind_congr fun l => SameParse.foldlM_eq hlayers (.root l)

/-- The scheme a locator is written with. -/
def schemeOf (legacy : Bool) : Str := if legacy then legacyScheme else scheme

theorem uriLayers_schemeOf (legacy : Bool) (rest : Str) :
    uriLayers (schemeOf legacy ++ rest) = some (rest.splitOn layerSep) := by
  cases legacy with
  | false => exact uriLayers_scheme rest
  | true =>
    have hnew : (legacyScheme ++ rest).dropPrefix? scheme = none := by rfl
    have hold : (legacyScheme ++ rest).dropPrefix? legacyScheme = some rest :=
      List.dropPrefix?_eq_some_iff.mpr ⟨legacyScheme, rfl, by simp⟩
    show (((legacyScheme ++ rest).dropPrefix? scheme).or
      ((legacyScheme ++ rest).dropPrefix? legacyScheme)).map _ = _
    rw [hnew, hold]
    rfl

/-! ## The current spelling is written -/

/-- No layer is written with the tag `os`. -/
theorem layerTag_layerEncode_ne (l : Layer) : layerTag (layerEncode l) ≠ some (str "os") := by
  have hhead : (layerEncode l).head? ≠ (str "os").head? := by
    cases l with
    | snapshot store => cases store <;> exact fun h => nomatch h
    | archive member => cases member <;> exact fun h => nomatch h
    | _ => exact fun h => nomatch h
  intro htag
  obtain ⟨⟨tag, body⟩, hs, rfl⟩ := Option.map_eq_some_iff.mp htag
  obtain ⟨htext, -⟩ := splitOnce_eq_some.mp hs
  rw [htext] at hhead
  exact hhead rfl

/-- **Legacy locators keep their meaning.** Layer texts joined by `|`, any of them with the tag `os`
in the place of `file`, behind `fvfs:` or `loc:`, parse exactly as the original texts do behind
`loc:`; and an accepted one is written back behind `loc:` without a layer of the tag `os`. -/
theorem legacy_same_locator (known : List FsKind) (legacy : Bool) (layers : List (Str × Bool)) :
    let old := schemeOf legacy ++ legacyText layers
    let new := scheme ++ [layerSep].intercalate (layers.map Prod.fst)
    Locator.fromUri known old = Locator.fromUri known new ∧
      ∀ loc, Locator.fromUri known old = .ok loc →
        ∃ rest, loc.toUri = scheme ++ rest ∧
          ∀ t ∈ rest.splitOn layerSep, layerTag t ≠ some (str "os") := by
  intro old new
  have holdLayers := uriLayers_schemeOf legacy (legacyText layers)
  have hnewLayers := uriLayers_scheme ([layerSep].intercalate (layers.map Prod.fst))
  refine ⟨(fromUri_congr hnewLayers holdLayers ?_).symm, fun loc hloc => ⟨_, rfl, ?_⟩⟩
  · exact (sameLayer_splitOn_legacyText layers).imp fun _ _ h => h.layerParse_eq known
  · rw [List.splitOn_intercalate layerSep (layerSep_not_mem_accepted (fromUri_eq_ok.mp hloc))
      (by simp [loc.layers_ne_nil])]
    intro t ht
    obtain ⟨l, -, rfl⟩ := List.mem_map.mp ht
    exact layerTag_layerEncode_ne l

end ForensicVfs
