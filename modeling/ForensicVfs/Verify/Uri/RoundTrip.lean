import ForensicVfs.Verify.Uri.Grammar

/-!
# The round trip of the canonical URI

Every encoder emits text of the accepted grammar that denotes the value it was given, and no
encoder leaks the delimiter of a level above it. A chain of layers is then found again piece by
piece (`fromUri_toUri`).
-/

namespace ForensicVfs

open Delim Numeral Result

/-! ## Percent-encoded values -/

theorem pctText_pctEncode (bs : Bytes) : PctText (pctEncode bs) bs := by
  induction bs with
  | nil => exact .nil
  | cons b bs ih =>
    unfold pctEncode at ih ⊢
    rw [List.flatMap_cons]
    by_cases hb : unreserved b = true
    · have hne : b ≠ percent := by
        rintro rfl
        exact absurd hb (by decide)
      rw [if_pos hb]
      exact .raw hne ih
    · rw [if_neg hb]
      exact .escape (unsigned_bytePair (.inl rfl) b) ih

theorem unreserved_of_isHexDigit {letter c : UInt8} (hl : letter = 65 ∨ letter = 97)
    (h : IsHexDigit letter c) : unreserved c = true := by
  obtain ⟨v, hv, rfl⟩ := h
  rcases hl with rfl | rfl
  · interval_cases v <;> decide
  · interval_cases v <;> decide

theorem mem_pctEncode {bs : Bytes} {c : UInt8} (hc : c ∈ pctEncode bs) :
    unreserved c = true ∨ c = percent := by
  obtain ⟨b, -, hc⟩ := List.mem_flatMap.mp hc
  by_cases hb : unreserved b = true
  · rw [if_pos hb] at hc
    exact .inl (List.mem_singleton.mp hc ▸ hb)
  · rw [if_neg hb] at hc
    rcases List.mem_cons.mp hc with rfl | hc
    · exact .inr rfl
    · exact .inl (unreserved_of_isHexDigit (.inl rfl) (bytePair_isHexDigit 65 b c hc))

/-- Structure never appears in a percent-encoded value. -/
theorem not_mem_pctEncode {d : UInt8} (hd : unreserved d = false) (hp : (d == percent) = false)
    (bs : Bytes) : d ∉ pctEncode bs := by
  intro hm
  rcases mem_pctEncode hm with h | h
  · rw [hd] at h
    cases h
  · rw [h] at hp
    cases hp

/-! ## Numbers and GUIDs -/

theorem unreserved_of_mem_decimal {n : Nat} {c : UInt8} (hc : c ∈ decimal n) :
    unreserved c = true := by
  obtain ⟨h1, h2⟩ := decimal_bound hc
  simp [unreserved, UInt8.le_iff_toNat_le, h1, h2]

theorem not_mem_decimal {d : UInt8} (hd : unreserved d = false) (n : Nat) : d ∉ decimal n := by
  intro h
  rw [unreserved_of_mem_decimal h] at hd
  cases hd

theorem dot_not_mem_decimal (n : Nat) : dot ∉ decimal n := by
  intro h
  have hlow := (decimal_bound h).1
  exact absurd hlow (by decide)

theorem hexText_flatMap (bs : Bytes) : HexText (bs.flatMap (bytePair 97)) bs := by
  induction bs with
  | nil => exact .nil
  | cons b bs ih => exact .cons (unsigned_bytePair (.inr rfl) b) ih

theorem guidText_guidHex (g : Guid) : GuidText (guidHex g) g := hexText_flatMap g.bytes.toList

theorem unreserved_of_mem_guidHex {g : Guid} {c : UInt8} (hc : c ∈ guidHex g) :
    unreserved c = true := by
  obtain ⟨b, -, hc⟩ := List.mem_flatMap.mp hc
  exact unreserved_of_isHexDigit (.inr rfl) (bytePair_isHexDigit 97 b c hc)

theorem not_mem_guidHex {d : UInt8} (hd : unreserved d = false) (g : Guid) : d ∉ guidHex g := by
  intro h
  rw [unreserved_of_mem_guidHex h] at hd
  cases hd

/-! ## File ids and streams -/

/-- A tag and one decimal field. -/
theorem splitOn_one (t tag : Str) (ht : t = tag ++ [dot]) (hd : tag.contains dot = false)
    (n : Nat) :
    (t ++ decimal n).splitOn dot = [tag, decimal n] := by
  rw [ht, List.append_assoc, List.singleton_append,
    List.splitOn_append_cons_self_of_not_mem (not_mem_of_contains hd),
    List.splitOn_eq_singleton (dot_not_mem_decimal n)]

/-- A tag and two decimal fields. -/
theorem splitOn_two (t tag : Str) (ht : t = tag ++ [dot]) (hd : tag.contains dot = false)
    (m n : Nat) :
    (t ++ decimal m ++ dot :: decimal n).splitOn dot = [tag, decimal m, decimal n] := by
  rw [ht, List.append_assoc, List.append_assoc, List.singleton_append,
    List.splitOn_append_cons_self_of_not_mem (not_mem_of_contains hd),
    List.splitOn_append_cons_self_of_not_mem (dot_not_mem_decimal m),
    List.splitOn_eq_singleton (dot_not_mem_decimal n)]

theorem unsigned_u16 (v : UInt16) : unsigned 10 (decimal v.toNat) = some v.toUInt64.toNat := by
  rw [unsigned_decimal, UInt16.toNat_toUInt64]

theorem unsigned_u32 (v : UInt32) : unsigned 10 (decimal v.toNat) = some v.toUInt64.toNat := by
  rw [unsigned_decimal, UInt32.toNat_toUInt64]

theorem fileIdText_fileIdToken (id : FileId) : FileIdText ((fileIdToken id).splitOn dot) id := by
  cases id with
  | ntfsRef entry seq =>
    rw [fileIdToken, splitOn_two (str "ntfsref.") (str "ntfsref") rfl rfl]
    have h : FileIdText [_, _, _] (.ntfsRef entry seq.toUInt64.toUInt16) :=
      .ntfsRef (unsigned_decimal _) (unsigned_u16 seq)
    rwa [UInt16.toUInt16_toUInt64] at h
  | extInode ino gen =>
    rw [fileIdToken, splitOn_two (str "extinode.") (str "extinode") rfl rfl]
    have h : FileIdText [_, _, _] (.extInode ino gen.toUInt64.toUInt32) :=
      .extInode (unsigned_decimal _) (unsigned_u32 gen)
    rwa [UInt32.toUInt32_toUInt64] at h
  | apfsOid oid xid =>
    rw [fileIdToken, splitOn_two (str "apfsoid.") (str "apfsoid") rfl rfl]
    exact .apfsOid (unsigned_decimal _) (unsigned_decimal _)
  | fatDirEntry cluster index =>
    rw [fileIdToken, splitOn_two (str "fatdirentry.") (str "fatdirentry") rfl rfl]
    have h : FileIdText [_, _, _]
        (.fatDirEntry cluster.toUInt64.toUInt32 index.toUInt64.toUInt16) :=
      .fatDirEntry (unsigned_u32 cluster) (unsigned_u16 index)
    rwa [UInt32.toUInt32_toUInt64, UInt16.toUInt16_toUInt64] at h
  | isoExtent block =>
    rw [fileIdToken, splitOn_one (str "isoextent.") (str "isoextent") rfl rfl]
    have h : FileIdText [_, _] (.isoExtent block.toUInt64.toUInt32) :=
      .isoExtent (unsigned_u32 block)
    rwa [UInt32.toUInt32_toUInt64] at h
  | opaqueId n =>
    rw [fileIdToken, splitOn_one (str "opaque.") (str "opaque") rfl rfl]
    exact .opaqueId (unsigned_decimal _)

theorem streamText_streamToken (id : StreamId) : StreamText ((streamToken id).splitOn dot) id := by
  cases id with
  | default => exact .default
  | resourceFork => exact .resourceFork
  | slack => exact .slack
  | named n =>
    have hn : unsigned 10 (decimal n.toNat) = some n.toUInt32.toNat := by
      rw [unsigned_decimal, UInt16.toNat_toUInt32]
    rw [streamToken, splitOn_one (str "named.") (str "named") rfl rfl]
    have h : StreamText [_, _] (.named n.toUInt32.toUInt16) := .named hn
    rwa [UInt16.toUInt16_toUInt32] at h
  | xattr n =>
    have hn : unsigned 10 (decimal n.toNat) = some n.toUInt32.toNat := by
      rw [unsigned_decimal, UInt16.toNat_toUInt32]
    rw [streamToken, splitOn_one (str "xattr.") (str "xattr") rfl rfl]
    have h : StreamText [_, _] (.xattr n.toUInt32.toUInt16) := .xattr hn
    rwa [UInt16.toUInt16_toUInt32] at h

/-- A text of unreserved bytes and a decimal field behind it. -/
theorem unreserved_append_decimal {t : Str} (ht : t.all unreserved = true) (n : Nat) :
    ∀ c ∈ t ++ decimal n, unreserved c = true := by
  intro c hc
  rcases List.mem_append.mp hc with hc | hc
  · exact List.all_eq_true.mp ht c hc
  · exact unreserved_of_mem_decimal hc

theorem unreserved_append_two {t : Str} (ht : t.all unreserved = true) (m n : Nat) :
    ∀ c ∈ t ++ decimal m ++ dot :: decimal n, unreserved c = true := by
  intro c hc
  rcases List.mem_append.mp hc with hc | hc
  · exact unreserved_append_decimal ht m c hc
  rcases List.mem_cons.mp hc with rfl | hc
  · rfl
  · exact unreserved_of_mem_decimal hc

theorem unreserved_of_mem_fileIdToken (id : FileId) :
    ∀ c ∈ fileIdToken id, unreserved c = true := by
  cases id with
  | ntfsRef => exact unreserved_append_two rfl _ _
  | extInode => exact unreserved_append_two rfl _ _
  | apfsOid => exact unreserved_append_two rfl _ _
  | fatDirEntry => exact unreserved_append_two rfl _ _
  | isoExtent => exact unreserved_append_decimal rfl _
  | opaqueId => exact unreserved_append_decimal rfl _

theorem not_mem_fileIdToken {d : UInt8} (hd : unreserved d = false) (id : FileId) :
    d ∉ fileIdToken id := by
  intro h
  rw [unreserved_of_mem_fileIdToken id d h] at hd
  cases hd

theorem unreserved_of_mem_streamToken (id : StreamId) :
    ∀ c ∈ streamToken id, unreserved c = true := by
  cases id with
  | default => exact List.all_eq_true.mp rfl
  | resourceFork => exact List.all_eq_true.mp rfl
  | slack => exact List.all_eq_true.mp rfl
  | named n => exact unreserved_append_decimal rfl _
  | xattr n => exact unreserved_append_decimal rfl _

theorem not_mem_streamToken {d : UInt8} (hd : unreserved d = false) (id : StreamId) :
    d ∉ streamToken id := by
  intro h
  rw [unreserved_of_mem_streamToken id d h] at hd
  cases hd

/-! ## Node addresses -/

theorem comps_eq_flatMap (cs : List Bytes) :
    comps cs = (cs.map pctEncode).flatMap (slash :: ·) := by
  rw [List.flatMap_map]
  rfl

theorem slash_not_mem_components (cs : List Bytes) : ∀ t ∈ cs.map pctEncode, slash ∉ t := by
  intro t ht
  obtain ⟨c, -, rfl⟩ := List.mem_map.mp ht
  exact not_mem_pctEncode rfl rfl c

/-- A delimiter-free text and path components behind it. -/
theorem splitOn_append_comps {a : Str} (ha : slash ∉ a) (cs : List Bytes) :
    (a ++ comps cs).splitOn slash = a :: cs.map pctEncode := by
  rw [comps_eq_flatMap, splitOn_append_flatMap ha (slash_not_mem_components cs)]

theorem pctText_components (cs : List Bytes) : List.Forall₂ PctText (cs.map pctEncode) cs := by
  induction cs with
  | nil => exact .nil
  | cons c cs ih => exact .cons (pctText_pctEncode c) ih

theorem nodeAddrText_nodeAddrEncode (addr : NodeAddr) :
    NodeAddrText (nodeAddrEncode addr) addr := by
  cases addr with
  | path cs =>
    cases cs with
    | nil => exact .root
    | cons c cs =>
      have hs : (pctEncode c ++ comps cs).splitOn slash = (c :: cs).map pctEncode :=
        splitOn_append_comps (not_mem_pctEncode rfl rfl c) cs
      have hp : List.Forall₂ PctText ((pctEncode c ++ comps cs).splitOn slash) (c :: cs) := by
        rw [hs]
        exact pctText_components (c :: cs)
      have hne : comps (c :: cs) ≠ [] := List.cons_ne_nil slash (pctEncode c ++ comps cs)
      exact .path hne hp
  | file id =>
    have h : NodeAddrText (str "f" ++ (slash :: fileIdToken id)) (.file id) :=
      .file (fileIdText_fileIdToken id)
    exact h
  | both path id =>
    have hs : (fileIdToken id ++ comps path).splitOn slash = fileIdToken id :: path.map pctEncode :=
      splitOn_append_comps (not_mem_fileIdToken rfl id) path
    have h : NodeAddrText (str "b" ++ (slash :: (fileIdToken id ++ comps path))) (.both path id) :=
      .both hs (fileIdText_fileIdToken id) (pctText_components path)
    exact h

/-! ## Layers -/

/-- The filesystem kind a layer names. -/
def Layer.fsKind? : Layer → Option FsKind
  | .fs kind _ => some kind
  | _ => none

theorem layerText_of_body {known : List FsKind} {t body : Str} {l : Layer} (tag : Str)
    (ht : t = tag ++ [colon]) (hc : tag.contains colon = false)
    (hb : LayerBody known tag body l) : LayerText known (t ++ body) l := by
  refine ⟨tag, body, splitOnce_eq_some.mpr ⟨?_, not_mem_of_contains hc⟩, hb⟩
  rw [ht, List.append_assoc, List.singleton_append]

theorem comma_not_mem_volumeToken (scheme : VolumeScheme) : comma ∉ volumeToken scheme := by
  cases scheme <;> decide

theorem layerText_volume (known : List FsKind) (scheme : VolumeScheme) (index : Usize)
    (guid : Option Guid) :
    LayerText known (layerEncode (.volume scheme index guid)) (.volume scheme index guid) := by
  have hc : comma ∉ decimal index.toNat := not_mem_decimal rfl _
  cases guid with
  | none =>
    have hs : (volumeToken scheme ++ comma :: decimal index.toNat).splitOn comma =
        [volumeToken scheme, decimal index.toNat] := by
      rw [List.splitOn_append_cons_self_of_not_mem (comma_not_mem_volumeToken scheme),
        List.splitOn_eq_singleton hc]
    rw [layerEncode, List.append_nil, List.append_assoc]
    exact layerText_of_body (str "volume") rfl rfl
      (.volume hs (unsigned_decimal _))
  | some g =>
    have hs : (volumeToken scheme ++ comma :: (decimal index.toNat ++ comma :: guidHex g)).splitOn
        comma = [volumeToken scheme, decimal index.toNat, guidHex g] := by
      rw [List.splitOn_append_cons_self_of_not_mem (comma_not_mem_volumeToken scheme),
        List.splitOn_append_cons_self_of_not_mem hc,
        List.splitOn_eq_singleton (not_mem_guidHex rfl g)]
    rw [layerEncode, List.append_assoc, List.append_assoc, List.cons_append]
    exact layerText_of_body (str "volume") rfl rfl
      (.volumeGuid hs (unsigned_decimal _) (guidText_guidHex g))

/-- **Round trip of a layer.** -/
theorem layerText_layerEncode {known : List FsKind} (l : Layer)
    (hl : ∀ k ∈ l.fsKind?, k ∈ known ∧ comma ∉ k.asStr) : LayerText known (layerEncode l) l := by
  cases l with
  | file path =>
    exact layerText_of_body (str "file") rfl rfl (.file (pctText_pctEncode path))
  | directory path =>
    exact layerText_of_body (str "dir") rfl rfl
      (.directory (pctText_pctEncode path))
  | range start len =>
    rw [layerEncode, List.append_assoc]
    exact layerText_of_body (str "range") rfl rfl
      (.range (unsigned_decimal _) (unsigned_decimal _))
  | container format => exact layerText_of_body (str "container") rfl rfl .container
  | volume scheme index guid => exact layerText_volume known scheme index guid
  | encryption scheme =>
    exact layerText_of_body (str "encryption") rfl rfl .encryption
  | snapshot store =>
    cases store with
    | vssStore i =>
      have h : LayerText known (str "snapshot:" ++ (str "vss" ++ comma :: decimal i.toNat)) _ :=
        layerText_of_body (str "snapshot") rfl rfl
          (.vssStore (unsigned_decimal _))
      exact h
    | apfsXid x =>
      have h : LayerText known (str "snapshot:" ++ (str "apfs" ++ comma :: decimal x.toNat)) _ :=
        layerText_of_body (str "snapshot") rfl rfl
          (.apfsXid (unsigned_decimal _))
      exact h
  | fs kind addr =>
    obtain ⟨hk, hc⟩ := hl kind rfl
    rw [layerEncode, List.append_assoc]
    exact layerText_of_body (str "fs") rfl rfl
      (.fs hk hc (nodeAddrText_nodeAddrEncode addr))
  | stream id =>
    exact layerText_of_body (str "stream") rfl rfl
      (.stream (streamText_streamToken id))
  | archive member =>
    cases member with
    | none =>
      have h : LayerText known (str "archive:" ++ []) _ :=
        layerText_of_body (str "archive") rfl rfl .archive
      exact h
    | some i =>
      exact layerText_of_body (str "archive") rfl rfl
        (.member (unsigned_decimal _))

/-! ## No layer leaks its separator -/

/-- A literal before a text. -/
theorem layerSep_not_mem_append {t u : Str} (ht : t.contains layerSep = false)
    (hu : layerSep ∉ u) : layerSep ∉ t ++ u :=
  List.not_mem_append (not_mem_of_contains ht) hu

theorem layerSep_not_mem_comps (cs : List Bytes) : layerSep ∉ comps cs := by
  intro h
  obtain ⟨c, -, hc⟩ := List.mem_flatMap.mp h
  have hsep : layerSep ∉ [slash] ++ pctEncode c :=
    layerSep_not_mem_append rfl (not_mem_pctEncode rfl rfl c)
  exact hsep hc

theorem layerSep_not_mem_nodeAddrEncode (addr : NodeAddr) : layerSep ∉ nodeAddrEncode addr := by
  cases addr with
  | path cs => exact layerSep_not_mem_append rfl (layerSep_not_mem_comps cs)
  | file id => exact layerSep_not_mem_append rfl (not_mem_fileIdToken rfl id)
  | both path id =>
    have hid : layerSep ∉ str "b/" ++ fileIdToken id :=
      layerSep_not_mem_append rfl (not_mem_fileIdToken rfl id)
    exact List.not_mem_append hid (layerSep_not_mem_comps path)

theorem layerSep_not_mem_volumeToken (scheme : VolumeScheme) :
    layerSep ∉ volumeToken scheme := by
  cases scheme <;> exact not_mem_of_contains rfl

theorem layerSep_not_mem_layerEncode (l : Layer)
    (hl : ∀ k ∈ l.fsKind?, layerSep ∉ k.asStr) : layerSep ∉ layerEncode l := by
  -- a comma and a number
  have hnumber : ∀ n, layerSep ∉ [comma] ++ decimal n :=
    fun n => layerSep_not_mem_append rfl (not_mem_decimal rfl n)
  cases l with
  | file path => exact layerSep_not_mem_append rfl (not_mem_pctEncode rfl rfl path)
  | directory path => exact layerSep_not_mem_append rfl (not_mem_pctEncode rfl rfl path)
  | range start len =>
    have hstart : layerSep ∉ str "range:" ++ decimal start.toNat :=
      layerSep_not_mem_append rfl (not_mem_decimal rfl _)
    exact List.not_mem_append hstart (hnumber len.toNat)
  | container format => cases format <;> exact not_mem_of_contains rfl
  | volume scheme index guid =>
    have hscheme : layerSep ∉ str "volume:" ++ volumeToken scheme :=
      layerSep_not_mem_append rfl (layerSep_not_mem_volumeToken scheme)
    have hindex : layerSep ∉ str "volume:" ++ volumeToken scheme ++ comma :: decimal index.toNat :=
      List.not_mem_append hscheme (hnumber index.toNat)
    refine List.not_mem_append hindex ?_
    cases guid with
    | none => exact List.not_mem_nil
    | some g =>
      have hguid : layerSep ∉ [comma] ++ guidHex g :=
        layerSep_not_mem_append rfl (not_mem_guidHex rfl g)
      exact hguid
  | encryption scheme => cases scheme <;> exact not_mem_of_contains rfl
  | snapshot store =>
    cases store with
    | vssStore i => exact layerSep_not_mem_append rfl (not_mem_decimal rfl _)
    | apfsXid x => exact layerSep_not_mem_append rfl (not_mem_decimal rfl _)
  | fs kind addr =>
    have hkind : layerSep ∉ str "fs:" ++ kind.asStr := layerSep_not_mem_append rfl (hl kind rfl)
    have haddr : layerSep ∉ [comma] ++ nodeAddrEncode addr :=
      layerSep_not_mem_append rfl (layerSep_not_mem_nodeAddrEncode addr)
    exact List.not_mem_append hkind haddr
  | stream id => exact layerSep_not_mem_append rfl (not_mem_streamToken rfl id)
  | archive member =>
    cases member with
    | none => exact not_mem_of_contains rfl
    | some i => exact layerSep_not_mem_append rfl (not_mem_decimal rfl _)

/-! ## Whole URIs -/

theorem uriLayers_scheme (rest : Str) :
    uriLayers (scheme ++ rest) = some (rest.splitOn layerSep) := by
  have hd : (scheme ++ rest).dropPrefix? scheme = some rest :=
    List.dropPrefix?_eq_some_iff.mpr ⟨scheme, rfl, by simp⟩
  rw [uriLayers, hd]
  rfl

theorem layerSep_not_mem_layers {known : List FsKind} {loc : Locator}
    (hknown : ∀ k ∈ known, layerSep ∉ k.asStr)
    (hloc : ∀ l ∈ loc.layers, ∀ k ∈ l.fsKind?, k ∈ known) :
    ∀ t ∈ loc.layers.map layerEncode, layerSep ∉ t := by
  intro t ht
  obtain ⟨l, hl, rfl⟩ := List.mem_map.mp ht
  exact layerSep_not_mem_layerEncode l fun k hk => hknown k (hloc l hl k hk)

/-- **The canonical URI is lossless**: parsing what `to_uri` emits gives the locator back, over
every chain of layers whose filesystem kinds are known ones. -/
theorem fromUri_toUri {known : List FsKind}
    (hknown : ∀ k ∈ known, comma ∉ k.asStr ∧ layerSep ∉ k.asStr) {loc : Locator}
    (hloc : ∀ l ∈ loc.layers, ∀ k ∈ l.fsKind?, k ∈ known) :
    Locator.fromUri known loc.toUri = .ok loc := by
  have hsep := layerSep_not_mem_layers (fun k hk => (hknown k hk).2) hloc
  have hne : loc.layers.map layerEncode ≠ [] := by simp [loc.layers_ne_nil]
  refine fromUri_eq_ok.mpr ⟨loc.layers.map layerEncode, ?_, ?_⟩
  · rw [Locator.toUri, uriLayers_scheme, List.splitOn_intercalate layerSep hsep hne]
  · rw [List.forall₂_map_left_iff, List.forall₂_same]
    intro l hl
    exact layerText_layerEncode l fun k hk =>
      ⟨hloc l hl k hk, (hknown k (hloc l hl k hk)).1⟩

theorem fromUri_toUri_image :
    let ntfs : FsKind := ⟨str "ntfs"⟩
    let loc : Locator := (((Locator.root (.file (str "/ev%|,/é.E01"))).push (.container .ewf)).push
      (.volume .gpt 2 none)).push (.fs ntfs (.both [[], [0x2F]] (.ntfsRef 5 65535)))
    Locator.fromUri [ntfs, ⟨str "ext4"⟩] loc.toUri = .ok loc :=
  fromUri_toUri (by decide) (by decide)

end ForensicVfs
