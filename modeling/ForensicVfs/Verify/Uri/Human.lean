import ForensicVfs.Core.Display
import ForensicVfs.Verify.Uri.RoundTrip

/-!
# The human form is no URI

A displayed locator is never taken for a URI (`display_not_uri`). It begins with neither scheme,
except where it begins with a filesystem kind of that name; then a `/` follows, and no layer begins
with one.
-/

namespace ForensicVfs

open Delim

/-- `#` -/
abbrev hash : UInt8 := 35

section Human

variable {known : List FsKind} {loc : Locator} {l : Layer} {p r t u : Str}

/-- A displayed locator begins with a layer. -/
theorem display_eq (loc : Locator) :
    ∃ l ∈ loc.layers, ∃ t, loc.display = displayLayer l ++ t := by
  unfold Locator.display
  cases hl : loc.layers with
  | nil => exact absurd hl loc.layers_ne_nil
  | cons l ls =>
    refine ⟨l, List.mem_cons_self, ?_⟩
    cases ls with
    | nil => exact ⟨[], by rw [List.map_singleton, List.intercalate_singleton, List.append_nil]⟩
    | cons l' ls =>
      rw [List.map_cons, List.map_cons, List.intercalate_cons_cons, List.append_assoc]
      exact ⟨_, rfl⟩

/-- No other layer than a filesystem begins like a scheme. -/
theorem displayLayer_head (hl : l.fsKind? = none) :
    ∃ a b u, displayLayer l = a :: b :: u ∧ [a, b] ≠ str "lo" ∧ [a, b] ≠ str "fv" := by
  cases l with
  | file path => exact ⟨_, _, _, rfl, by decide, by decide⟩
  | directory path => exact ⟨_, _, _, rfl, by decide, by decide⟩
  | range start len => exact ⟨_, _, _, rfl, by decide, by decide⟩
  | container format => cases format <;> exact ⟨_, _, _, rfl, by decide, by decide⟩
  | volume scheme index guid => cases scheme <;> exact ⟨_, _, _, rfl, by decide, by decide⟩
  | encryption scheme => cases scheme <;> exact ⟨_, _, _, rfl, by decide, by decide⟩
  | snapshot store => cases store <;> exact ⟨_, _, _, rfl, by decide, by decide⟩
  | fs kind addr => cases hl
  | stream id => cases id <;> exact ⟨_, _, _, rfl, by decide, by decide⟩
  | archive member => cases member <;> exact ⟨_, _, _, rfl, by decide, by decide⟩

/-- A filesystem is displayed as its kind, and a `:/` or a `#` behind it. -/
theorem displayLayer_fs (kind : FsKind) (addr : NodeAddr) :
    (∃ u, displayLayer (.fs kind addr) = kind.asStr ++ colon :: slash :: u) ∨
      ∃ u, displayLayer (.fs kind addr) = kind.asStr ++ hash :: u := by
  cases addr with
  | path cs => exact .inl ⟨_, List.append_assoc _ _ _⟩
  | file id => exact .inr ⟨_, List.append_assoc _ _ _⟩
  | both path id => exact .inl ⟨_, List.append_assoc _ _ _⟩

/-- What is left of a displayed locator behind a scheme begins with a `/`. -/
theorem slash_of_scheme (hl : ∀ k ∈ l.fsKind?, colon ∉ k.asStr) {a b : UInt8} {q : Str}
    (hp : p = a :: b :: q) (hstart : [a, b] = str "lo" ∨ [a, b] = str "fv") (hcolon : colon ∉ p)
    (hhash : hash ∉ p) (h : displayLayer l ++ t = p ++ colon :: r) : ∃ u, r = slash :: u := by
  cases hkind : l.fsKind? with
  | none =>
    obtain ⟨c, d, u, hdisplay, hlo, hfv⟩ := displayLayer_head hkind
    rw [hdisplay, hp] at h
    obtain ⟨hc, h⟩ := List.cons.inj h
    obtain ⟨hd, -⟩ := List.cons.inj h
    rw [hc, hd] at hlo hfv
    exact absurd hstart (not_or.mpr ⟨hlo, hfv⟩)
  | some kind =>
    have hk := hl kind hkind
    cases l with
    | fs kind' addr =>
      obtain rfl : kind' = kind := Option.some.inj hkind
      rcases displayLayer_fs kind' addr with ⟨u, hdisplay⟩ | ⟨u, hdisplay⟩
      · rw [hdisplay, List.append_assoc] at h
        obtain ⟨-, -, hr⟩ := append_cons_inj_of_not_mem hcolon hk h.symm
        exact ⟨_, hr⟩
      · rw [hdisplay, List.append_assoc] at h
        obtain ⟨-, hne, -⟩ := append_cons_inj_of_not_mem hhash hk h.symm
        exact absurd hne (by decide)
    | _ => cases hkind

/-- No layer begins with a `/`. -/
theorem not_layerText_slash : ¬LayerText known (slash :: u) l := by
  rintro ⟨tag, body, hs, hb⟩
  obtain ⟨htag, -⟩ := splitOnce_eq_some.mp hs
  cases hb <;> exact absurd (List.cons.inj htag).1 (by decide)

/-- Behind either scheme, the first layer of a displayed locator begins with a `/`. -/
theorem uriLayers_display (hloc : ∀ l ∈ loc.layers, ∀ k ∈ l.fsKind?, colon ∉ k.asStr)
    {ts : List Str} (h : uriLayers loc.display = some ts) : ∃ u us, ts = (slash :: u) :: us := by
  obtain ⟨l, hl, t, hdisplay⟩ := display_eq loc
  rw [hdisplay] at h
  obtain ⟨rest, hrest, rfl⟩ := Option.map_eq_some_iff.mp h
  have hslash : ∃ u, rest = slash :: u := by
    rcases Option.or_eq_some_iff.mp hrest with hscheme | ⟨-, hscheme⟩
    · obtain ⟨p, hp, hbeq⟩ := List.dropPrefix?_eq_some_iff.mp hscheme
      rw [eq_of_beq hbeq] at hp
      exact slash_of_scheme (hloc l hl) (p := str "loc") rfl (.inl rfl) (by decide) (by decide) hp
    · obtain ⟨p, hp, hbeq⟩ := List.dropPrefix?_eq_some_iff.mp hscheme
      rw [eq_of_beq hbeq] at hp
      exact slash_of_scheme (hloc l hl) (p := str "fvfs") rfl (.inr rfl) (by decide) (by decide) hp
  obtain ⟨u, rfl⟩ := hslash
  show ∃ v us, (slash :: u).splitOn layerSep = (slash :: v) :: us
  rw [List.splitOn_cons_eq_if_modifyHead, if_neg (by decide)]
  cases hu : u.splitOn layerSep with
  | nil => exact absurd hu (List.splitOn_ne_nil layerSep u)
  | cons v us => exact ⟨v, us, rfl⟩

end Human

/-- **A displayed locator is never taken for a URI**: `from_uri` rejects it, whatever the locator,
as long as no filesystem kind is written with a `:`. -/
theorem display_not_uri {loc : Locator}
    (hloc : ∀ l ∈ loc.layers, ∀ k ∈ l.fsKind?, colon ∉ k.asStr) (known : List FsKind) :
    ∃ e, Locator.fromUri known loc.display = .error e := by
  cases h : Locator.fromUri known loc.display with
  | error e => exact ⟨e, rfl⟩
  | ok loc' =>
    obtain ⟨ts, hts, hall⟩ := fromUri_eq_ok.mp h
    obtain ⟨u, us, rfl⟩ := uriLayers_display hloc hts
    cases hlayers : loc'.layers with
    | nil => exact absurd hlayers loc'.layers_ne_nil
    | cons l ls =>
      rw [hlayers] at hall
      exact absurd (List.forall₂_cons.mp hall).1 not_layerText_slash

/-- A filesystem kind that is written as the scheme. -/
theorem display_not_uri_scheme :
    ∃ e, Locator.fromUri [⟨str "loc"⟩]
      (Locator.root (.fs ⟨str "loc"⟩ (.path [str "file:x"]))).display = .error e :=
  display_not_uri (by decide) _

end ForensicVfs
