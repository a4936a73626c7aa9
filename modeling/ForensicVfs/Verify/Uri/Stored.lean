import ForensicVfs.Verify.Uri.Canonical

/-!
# Stored locators

A locator is stored as its canonical URI. The locators that `from_uri` yields, from whatever text,
are those whose filesystem kinds are known ones written without `,` and `|` (`WellNamed`), and each
of them is read back from its own URI (`fromUri_stable`). On these the URI keeps the whole chain: it
is injective, and one locator is above another exactly when its URI is the other's up to a layer
boundary (`above_iff_toUri`).
-/

namespace ForensicVfs

open Delim

/-- Every filesystem kind of the locator is known and written without the two separators. -/
def WellNamed (known : List FsKind) (loc : Locator) : Prop :=
  ∀ l ∈ loc.layers, ∀ k ∈ l.fsKind?, k ∈ known ∧ comma ∉ k.asStr ∧ layerSep ∉ k.asStr

instance (known : List FsKind) (loc : Locator) : Decidable (WellNamed known loc) :=
  inferInstanceAs (Decidable (∀ l ∈ loc.layers, ∀ k ∈ l.fsKind?, _))

section Stored

variable {known : List FsKind} {a b loc : Locator} {s t : Str} {l l' : Layer}

/-- An accepted layer names a known kind without a comma. -/
theorem fsKind_of_layerText (h : LayerText known t l) :
    ∀ k ∈ l.fsKind?, k ∈ known ∧ comma ∉ k.asStr ∧ (layerSep ∉ t → layerSep ∉ k.asStr) := by
  obtain ⟨tag, body, hs, hb⟩ := h
  obtain ⟨rfl, -⟩ := splitOnce_eq_some.mp hs
  cases hb with
  | fs hk hc ha =>
    intro k hk'
    cases hk'
    exact ⟨hk, hc, fun ht hm => ht (by simp [hm])⟩
  | _ => simp [Layer.fsKind?]

/-- What is accepted is well named. -/
theorem wellNamed_of_uriText (h : UriText known s loc) : WellNamed known loc := by
  obtain ⟨ts, hts, hall⟩ := h
  obtain ⟨rest, -, rfl⟩ := Option.map_eq_some_iff.mp hts
  intro l hl k hk
  obtain ⟨i, hi, rfl⟩ := List.mem_iff_getElem.mp hl
  have ht : i < (rest.splitOn layerSep).length := hall.length_eq ▸ hi
  have htext := List.forall₂_iff_get.mp hall |>.2 i ht hi
  obtain ⟨hknown, hcomma, hsep⟩ := fsKind_of_layerText htext k hk
  exact ⟨hknown, hcomma, hsep (not_mem_of_mem_splitOn (List.getElem_mem ht))⟩

theorem WellNamed.layerText (h : WellNamed known loc) :
    List.Forall₂ (LayerText known) (loc.layers.map layerEncode) loc.layers := by
  rw [List.forall₂_map_left_iff, List.forall₂_same]
  intro l hl
  exact layerText_layerEncode l fun k hk => ⟨(h l hl k hk).1, (h l hl k hk).2.1⟩

theorem WellNamed.layerSep_not_mem (h : WellNamed known loc) :
    ∀ t ∈ loc.layers.map layerEncode, layerSep ∉ t := by
  intro t ht
  obtain ⟨l, hl, rfl⟩ := List.mem_map.mp ht
  exact layerSep_not_mem_layerEncode l fun k hk => (h l hl k hk).2.2

theorem map_layerEncode_ne_nil (loc : Locator) : loc.layers.map layerEncode ≠ [] := by
  simp [loc.layers_ne_nil]

/-- A well-named locator is denoted by its own URI. -/
theorem WellNamed.uriText (h : WellNamed known loc) : UriText known loc.toUri loc := by
  refine ⟨loc.layers.map layerEncode, ?_, h.layerText⟩
  rw [Locator.toUri, uriLayers_scheme,
    List.splitOn_intercalate layerSep h.layerSep_not_mem (map_layerEncode_ne_nil loc)]

/-- A text denotes one layer. -/
theorem rightUnique_layerText (known : List FsKind) : Relator.RightUnique (LayerText known) :=
  fun _ _ _ h h' => Except.ok.inj ((layerParse_eq_ok.mpr h).symm.trans (layerParse_eq_ok.mpr h'))

/-- The written layers of one chain begin those of another exactly when its layers do. -/
theorem map_layerEncode_prefix_iff (ha : WellNamed known a) (hb : WellNamed known b) :
    a.layers.map layerEncode <+: b.layers.map layerEncode ↔ a.layers <+: b.layers := by
  refine ⟨fun h => ?_, fun h => h.map layerEncode⟩
  -- both denote what the shorter text spells
  have htake : (b.layers.map layerEncode).take a.layers.length = a.layers.map layerEncode := by
    rw [List.prefix_iff_eq_take.mp h, List.length_map]
  have htext := List.forall₂_take a.layers.length hb.layerText
  rw [htake] at htext
  rw [(rightUnique_layerText known).forall₂ ha.layerText htext]
  exact List.take_prefix _ _

/-- One URI goes on behind another, at a layer boundary, exactly when the layers do. -/
theorem WellNamed.toUri_prefix_iff (ha : WellNamed known a) (hb : WellNamed known b) :
    (b.toUri = a.toUri ∨ a.toUri ++ [layerSep] <+: b.toUri) ↔ a.layers <+: b.layers := by
  unfold Locator.toUri
  rw [← map_layerEncode_prefix_iff ha hb, List.append_assoc, List.append_cancel_left_eq,
    List.prefix_append_right_inj]
  exact intercalate_prefix_iff (map_layerEncode_ne_nil a) (map_layerEncode_ne_nil b)
    ha.layerSep_not_mem hb.layerSep_not_mem

end Stored

/-- **The locators `from_uri` yields are the well-named ones**, whatever text they come from, and
each is read back from its own canonical URI. -/
theorem fromUri_stable (known : List FsKind) (loc : Locator) :
    ((∃ s, Locator.fromUri known s = .ok loc) ↔ WellNamed known loc) ∧
      (WellNamed known loc → Locator.fromUri known loc.toUri = .ok loc) := by
  have hback : WellNamed known loc → Locator.fromUri known loc.toUri = .ok loc :=
    fun h => fromUri_eq_ok.mpr h.uriText
  refine ⟨⟨fun ⟨s, hs⟩ => wellNamed_of_uriText (fromUri_eq_ok.mp hs), fun h => ?_⟩, hback⟩
  exact ⟨loc.toUri, hback h⟩

/-- **A locator is above another exactly when its URI is**, up to a layer boundary: it is the
other's URI, or that goes on behind it with a `|`. -/
theorem above_iff_toUri {known : List FsKind} {a b : Locator} (ha : WellNamed known a)
    (hb : WellNamed known b) : (∃ ls, b = a.pushAll ls) ↔
      b.toUri = a.toUri ∨ a.toUri ++ [layerSep] <+: b.toUri := by
  rw [Locator.exists_pushAll_iff, ha.toUri_prefix_iff hb]

/-- A volume index that is the beginning of another is not above it, here of an image inside a
filesystem. -/
theorem above_iff_toUri_volumes :
    let image := (Locator.file (str "/e")).push (.fs ⟨str "ntfs"⟩ (.path [str "disk.img"]))
    (∃ ls, image.push (.volume .gpt 12 none) = (image.push (.volume .gpt 1 none)).pushAll ls) ↔
      (image.push (.volume .gpt 12 none)).toUri = (image.push (.volume .gpt 1 none)).toUri ∨
        (image.push (.volume .gpt 1 none)).toUri ++ [layerSep] <+:
          (image.push (.volume .gpt 12 none)).toUri :=
  @above_iff_toUri [⟨str "ntfs"⟩] _ _ (by decide) (by decide)

end ForensicVfs
