import ForensicVfs.Lib.Template
import ForensicVfs.Verify.Uri.Grammar

/-!
# The number fields of a URI

Which parts of a URI are numbers is a matter of its text: `layerSegs` cuts a layer into literal
parts and number fields with the width of the type each is stored at. Against it stand the numbers
a locator stores (`Locator.numbers`). `from_uri` reads every field of a file id at 64 bits and a
stream index at 32, and narrows afterwards: what is stored is the denoted value modulo the width
(`denotes_of_uriText`), which is the denoted value exactly when the field fits (`numbersKept_iff`).
-/

namespace ForensicVfs

open Delim Numeral Result Template

/-! ## Cutting a URI -/

/-- A part of a URI; a field carries the width of the type it is stored at. -/
abbrev UriSeg := Seg UInt8 Nat

/-- The fields of the `.`-separated pieces behind a tag, any surplus as text. -/
def pieceSegs : List Nat → List Str → List UriSeg
  | w :: ws, p :: ps => .lit [dot] :: .field w p :: pieceSegs ws ps
  | _, ps => [.lit (ps.flatMap (dot :: ·))]

def dottedSegs (widths : Str → List Nat) (t : Str) : List UriSeg :=
  match t.splitOn dot with
  | [] => []
  | tag :: ps => .lit tag :: pieceSegs (widths tag) ps

/-- The widths of the fields of a `FileId`. -/
def fileIdWidths (tag : Str) : List Nat :=
  if tag = str "ntfsref" then [64, 16]
  else if tag = str "extinode" then [64, 32]
  else if tag = str "apfsoid" then [64, 64]
  else if tag = str "fatdirentry" then [32, 16]
  else if tag = str "isoextent" then [32]
  else if tag = str "opaque" then [64]
  else []

/-- The widths of the fields of a `StreamId`. -/
def streamWidths (tag : Str) : List Nat :=
  if tag = str "named" ∨ tag = str "xattr" then [16] else []

/-- The optional `/` that `stripSlash` takes off. -/
def leadSlash : Str → Str
  | 47 :: _ => [slash]
  | _ => []

theorem leadSlash_append (t : Str) : leadSlash t ++ stripSlash t = t := by
  by_cases h : ∃ u, t = 47 :: u
  · obtain ⟨u, rfl⟩ := h
    rfl
  · have hl : leadSlash t = [] := leadSlash.eq_2 t fun u hu => h ⟨u, hu⟩
    have hs : stripSlash t = t := stripSlash.eq_2 t fun u hu => h ⟨u, hu⟩
    rw [hl, hs, List.nil_append]

def addrSegs : Str → List UriSeg
  | [] => []
  | c :: rest =>
    if c = 102 then .lit (c :: leadSlash rest) :: dottedSegs fileIdWidths (stripSlash rest)
    else if c = 98 then
      match (stripSlash rest).splitOn slash with
      | [] => []
      | first :: ts =>
        .lit (c :: leadSlash rest) ::
          (dottedSegs fileIdWidths first ++ [.lit (ts.flatMap (slash :: ·))])
    else [.lit (c :: rest)]

def bodySegs (tag body : Str) : List UriSeg :=
  if tag = str "range" then
    match splitOnce comma body with
    | some (a, b) => [.field 64 a, .lit [comma], .field 64 b]
    | none => [.lit body]
  else if tag = str "volume" then
    match body.splitOn comma with
    | scheme :: n :: rest =>
      [.lit (scheme ++ [comma]), .field 64 n, .lit (rest.flatMap (comma :: ·))]
    | _ => [.lit body]
  else if tag = str "snapshot" then
    match splitOnce comma body with
    | some (kind, n) => [.lit (kind ++ [comma]), .field 64 n]
    | none => [.lit body]
  else if tag = str "fs" then
    match splitOnce comma body with
    | some (kind, addr) => .lit (kind ++ [comma]) :: addrSegs addr
    | none => [.lit body]
  else if tag = str "stream" then dottedSegs streamWidths body
  else if tag = str "archive" ∧ body ≠ [] then [.field 64 body]
  else [.lit body]

def layerSegs (t : Str) : List UriSeg :=
  match splitOnce colon t with
  | some (tag, body) => .lit (tag ++ [colon]) :: bodySegs tag body
  | none => [.lit t]

section Equations

variable {a b body kind n rest scheme : Str}

theorem addrSegs_both {first : Str} {ts : List Str}
    (hs : (stripSlash rest).splitOn slash = first :: ts) :
    addrSegs (str "b" ++ rest) = .lit (str "b" ++ leadSlash rest) ::
      (dottedSegs fileIdWidths first ++ [.lit (ts.flatMap (slash :: ·))]) := by
  show addrSegs (98 :: rest) = _
  rw [addrSegs, if_neg (by decide), if_pos rfl, hs]
  rfl

theorem bodySegs_range (ha : comma ∉ a) :
    bodySegs (str "range") (a ++ comma :: b) = [.field 64 a, .lit [comma], .field 64 b] := by
  rw [bodySegs, if_pos rfl, splitOnce_append ha]

theorem bodySegs_volume {ps : List Str} (hs : body.splitOn comma = scheme :: n :: ps) :
    bodySegs (str "volume") body =
      [.lit (scheme ++ [comma]), .field 64 n, .lit (ps.flatMap (comma :: ·))] := by
  rw [bodySegs, if_neg (by decide), if_pos rfl, hs]

theorem bodySegs_snapshot (hk : comma ∉ kind) :
    bodySegs (str "snapshot") (kind ++ comma :: n) = [.lit (kind ++ [comma]), .field 64 n] := by
  rw [bodySegs, if_neg (by decide), if_neg (by decide), if_pos rfl, splitOnce_append hk]

theorem bodySegs_fs (hk : comma ∉ kind) :
    bodySegs (str "fs") (kind ++ comma :: a) = .lit (kind ++ [comma]) :: addrSegs a := by
  rw [bodySegs, if_neg (by decide), if_neg (by decide), if_neg (by decide), if_pos rfl,
    splitOnce_append hk]

theorem bodySegs_member (hb : body ≠ []) : bodySegs (str "archive") body = [.field 64 body] := by
  rw [bodySegs, if_neg (by decide), if_neg (by decide), if_neg (by decide), if_neg (by decide),
    if_neg (by decide), if_pos ⟨rfl, hb⟩]

end Equations

theorem text_pieceSegs (ws : List Nat) (ps : List Str) :
    text (pieceSegs ws ps) = ps.flatMap (dot :: ·) := by
  induction ws generalizing ps with
  | nil => simp [pieceSegs]
  | cons w ws ih =>
    cases ps with
    | nil => simp [pieceSegs]
    | cons p ps => simp [pieceSegs, ih]

theorem text_dottedSegs (widths : Str → List Nat) (t : Str) : text (dottedSegs widths t) = t := by
  unfold dottedSegs
  cases hp : t.splitOn dot with
  | nil => exact absurd hp (List.splitOn_ne_nil dot t)
  | cons tag ps =>
    have h := flatMap_splitOn dot t
    rw [hp, List.flatMap_cons, List.cons_append] at h
    rw [text_lit, text_pieceSegs]
    exact (List.cons.inj h).2

theorem text_addrSegs (t : Str) : text (addrSegs t) = t := by
  cases t with
  | nil => rfl
  | cons c rest =>
    rw [addrSegs]
    split
    · rw [text_lit, text_dottedSegs, List.cons_append, leadSlash_append]
    split
    · cases hs : (stripSlash rest).splitOn slash with
      | nil => exact absurd hs (List.splitOn_ne_nil slash _)
      | cons first ts =>
        have h := flatMap_splitOn slash (stripSlash rest)
        rw [hs, List.flatMap_cons, List.cons_append] at h
        rw [text_lit, text_append, text_dottedSegs, text_lit, text_nil, List.append_nil,
          (List.cons.inj h).2, List.cons_append, leadSlash_append]
    · exact List.append_nil (c :: rest)

/-- **Cutting a layer loses nothing.** -/
theorem text_bodySegs (tag body : Str) : text (bodySegs tag body) = body := by
  have hlit : text [(.lit body : UriSeg)] = body := List.append_nil body
  unfold bodySegs
  split
  · split
    · next hs => simp [(splitOnce_eq_some.mp hs).1]
    · exact hlit
  split
  · split
    · next scheme n rest hs =>
      have h := flatMap_splitOn comma body
      rw [hs, List.flatMap_cons, List.cons_append, List.flatMap_cons] at h
      simpa using (List.cons.inj h).2
    · exact hlit
  split
  · split
    · next hs => simp [(splitOnce_eq_some.mp hs).1]
    · exact hlit
  split
  · split
    · next hs => simp [(splitOnce_eq_some.mp hs).1, text_addrSegs]
    · exact hlit
  split
  · exact text_dottedSegs streamWidths body
  split
  · exact List.append_nil body
  · exact hlit

/-- The number fields of a URI with their widths. -/
def uriFields (s : Str) : List (Nat × Str) :=
  ((uriLayers s).getD []).flatMap fun t => fields (layerSegs t)

/-! ## The numbers a locator stores -/

def FileId.numbers : FileId → List Nat
  | .ntfsRef entry seq => [entry.toNat, seq.toNat]
  | .extInode ino gen => [ino.toNat, gen.toNat]
  | .apfsOid oid xid => [oid.toNat, xid.toNat]
  | .fatDirEntry cluster index => [cluster.toNat, index.toNat]
  | .isoExtent block => [block.toNat]
  | .opaqueId n => [n.toNat]

def StreamId.numbers : StreamId → List Nat
  | .named n | .xattr n => [n.toNat]
  | .default | .resourceFork | .slack => []

def NodeAddr.numbers : NodeAddr → List Nat
  | .path _ => []
  | .file id | .both _ id => id.numbers

def Layer.numbers : Layer → List Nat
  | .range start len => [start.toNat, len.toNat]
  | .volume _ index _ => [index.toNat]
  | .snapshot (.vssStore i) => [i.toNat]
  | .snapshot (.apfsXid x) => [x.toNat]
  | .fs _ addr => addr.numbers
  | .stream id => id.numbers
  | .archive (some i) => [i.toNat]
  | .file _ | .directory _ | .container _ | .encryption _ | .archive none => []

def Locator.numbers (loc : Locator) : List Nat := loc.layers.flatMap Layer.numbers

/-! ## What is stored for a field -/

/-- The number stored for a field: its value modulo the width. -/
def Denotes (f : Nat × Str) (n : Nat) : Prop := ∃ v, unsigned 10 f.2 = some v ∧ n = v % 2 ^ f.1

theorem denotes_u64 {a : Str} {v : UInt64} (ha : unsigned 10 a = some v.toNat) :
    Denotes (64, a) v.toNat :=
  ⟨v.toNat, ha, (Nat.mod_eq_of_lt v.toNat_lt).symm⟩

theorem denotes_u64_u32 {a : Str} {v : UInt64} (ha : unsigned 10 a = some v.toNat) :
    Denotes (32, a) v.toUInt32.toNat :=
  ⟨v.toNat, ha, v.toNat_toUInt32⟩

theorem denotes_u64_u16 {a : Str} {v : UInt64} (ha : unsigned 10 a = some v.toNat) :
    Denotes (16, a) v.toUInt16.toNat :=
  ⟨v.toNat, ha, v.toNat_toUInt16⟩

theorem denotes_u32_u16 {a : Str} {v : UInt32} (ha : unsigned 10 a = some v.toNat) :
    Denotes (16, a) v.toUInt16.toNat :=
  ⟨v.toNat, ha, v.toNat_toUInt16⟩

theorem denotes_fileId {t : Str} {id : FileId} (h : FileIdText (t.splitOn dot) id) :
    List.Forall₂ Denotes (fields (dottedSegs fileIdWidths t)) id.numbers := by
  unfold dottedSegs
  generalize t.splitOn dot = ps at h
  cases h with
  | ntfsRef ha hb => exact .cons (denotes_u64 ha) (.cons (denotes_u64_u16 hb) .nil)
  | extInode ha hb => exact .cons (denotes_u64 ha) (.cons (denotes_u64_u32 hb) .nil)
  | apfsOid ha hb => exact .cons (denotes_u64 ha) (.cons (denotes_u64 hb) .nil)
  | fatDirEntry ha hb => exact .cons (denotes_u64_u32 ha) (.cons (denotes_u64_u16 hb) .nil)
  | isoExtent ha => exact .cons (denotes_u64_u32 ha) .nil
  | opaqueId ha => exact .cons (denotes_u64 ha) .nil

theorem denotes_stream {t : Str} {id : StreamId} (h : StreamText (t.splitOn dot) id) :
    List.Forall₂ Denotes (fields (dottedSegs streamWidths t)) id.numbers := by
  unfold dottedSegs
  generalize t.splitOn dot = ps at h
  cases h with
  | default => exact .nil
  | resourceFork => exact .nil
  | slack => exact .nil
  | named ha => exact .cons (denotes_u32_u16 ha) .nil
  | xattr ha => exact .cons (denotes_u32_u16 ha) .nil

theorem denotes_nodeAddr {t : Str} {addr : NodeAddr} (h : NodeAddrText t addr) :
    List.Forall₂ Denotes (fields (addrSegs t)) addr.numbers := by
  cases h with
  | root => exact .nil
  | path => exact .nil
  | file hid => exact denotes_fileId hid
  | both hs hid =>
    rw [addrSegs_both hs, fields_lit, fields_append, fields_lit, fields_nil, List.append_nil]
    exact denotes_fileId hid

theorem ne_nil_of_unsigned {radix n : Nat} {t : Str} (h : unsigned radix t = some n) : t ≠ [] := by
  rintro rfl
  simp [unsigned, dropPlus] at h

theorem denotes_layer {known : List FsKind} {t : Str} {l : Layer} (h : LayerText known t l) :
    List.Forall₂ Denotes (fields (layerSegs t)) l.numbers := by
  obtain ⟨tag, body, hs, hb⟩ := h
  unfold layerSegs
  rw [hs, fields_lit]
  cases hb with
  | file => exact .nil
  | os => exact .nil
  | directory => exact .nil
  | range ha hb =>
    rw [bodySegs_range (not_mem_of_unsigned ha)]
    exact .cons (denotes_u64 ha) (.cons (denotes_u64 hb) .nil)
  | container => exact .nil
  | volume hs hn =>
    rw [bodySegs_volume hs]
    exact .cons (denotes_u64 hn) .nil
  | volumeGuid hs hn =>
    rw [bodySegs_volume hs]
    exact .cons (denotes_u64 hn) .nil
  | encryption => exact .nil
  | vssStore hn =>
    rw [bodySegs_snapshot (by decide)]
    exact .cons (denotes_u64 hn) .nil
  | apfsXid hn =>
    rw [bodySegs_snapshot (by decide)]
    exact .cons (denotes_u64 hn) .nil
  | fs hk hc ha =>
    rw [bodySegs_fs hc]
    exact denotes_nodeAddr ha
  | stream h => exact denotes_stream h
  | archive => exact .nil
  | member hi =>
    rw [bodySegs_member (ne_nil_of_unsigned hi)]
    exact .cons (denotes_u64 hi) .nil

theorem denotes_layers {known : List FsKind} {ts : List Str} {ls : List Layer}
    (h : List.Forall₂ (LayerText known) ts ls) :
    List.Forall₂ Denotes (ts.flatMap fun t => fields (layerSegs t)) (ls.flatMap Layer.numbers) := by
  induction h with
  | nil => exact .nil
  | cons hl _ ih =>
    rw [List.flatMap_cons, List.flatMap_cons]
    exact List.rel_append (denotes_layer hl) ih

/-- **Every number a locator stores is its field's value modulo the width**, in order and with none
left out. -/
theorem denotes_of_uriText {known : List FsKind} {s : Str} {loc : Locator}
    (h : UriText known s loc) : List.Forall₂ Denotes (uriFields s) loc.numbers := by
  obtain ⟨ts, hts, hall⟩ := h
  rw [uriFields, hts, Option.getD_some, Locator.numbers]
  exact denotes_layers hall

/-! ## Numbers that are kept -/

/-- Every field's value fits the type it is stored at. -/
def FieldsFit (s : Str) : Prop := ∀ f ∈ uriFields s, ∀ v, unsigned 10 f.2 = some v → v < 2 ^ f.1

/-- The values the fields denote. -/
def denoted (s : Str) : List (Option Nat) := (uriFields s).map fun f => unsigned 10 f.2

/-- The text is in the accepted grammar. -/
def UriForm (known : List FsKind) (s : Str) : Prop := ∃ loc, UriText known s loc

/-- A field that fits is stored as it is, and one that does not is not. -/
theorem Denotes.eq_iff {f : Nat × Str} {n : Nat} (h : Denotes f n) :
    unsigned 10 f.2 = some n ↔ ∀ v, unsigned 10 f.2 = some v → v < 2 ^ f.1 := by
  obtain ⟨v, hv, rfl⟩ := h
  rw [hv]
  constructor
  · intro he w hw
    cases hw
    rw [Option.some.injEq] at he
    rw [he]
    exact Nat.mod_lt v (Nat.two_pow_pos f.1)
  · intro hfit
    rw [Nat.mod_eq_of_lt (hfit v rfl)]

theorem map_eq_iff_of_denotes {fs : List (Nat × Str)} {ns : List Nat}
    (h : List.Forall₂ Denotes fs ns) :
    (fs.map fun f => unsigned 10 f.2) = ns.map some ↔
      ∀ f ∈ fs, ∀ v, unsigned 10 f.2 = some v → v < 2 ^ f.1 := by
  induction h with
  | nil => simp
  | cons hf _ ih =>
    rw [List.map_cons, List.map_cons, List.cons.injEq, hf.eq_iff, ih, List.forall_mem_cons]

theorem denoted_eq_iff {known : List FsKind} {s : Str} {loc : Locator} (h : UriText known s loc) :
    denoted s = loc.numbers.map some ↔ FieldsFit s :=
  map_eq_iff_of_denotes (denotes_of_uriText h)

/-- `from_uri` alters no number of this text: the locator stores exactly the values the fields
denote, and a field that does not fit is an error. The last clause is about two texts that both fit:
they decode to one locator only with the same values. -/
def NumbersKept (known : List FsKind) (s : Str) : Prop :=
  (∀ loc, Locator.fromUri known s = .ok loc → denoted s = loc.numbers.map some) ∧
    (¬FieldsFit s → ∃ e, Locator.fromUri known s = .error e) ∧
    ∀ s' loc, FieldsFit s' → Locator.fromUri known s = .ok loc →
      Locator.fromUri known s' = .ok loc → denoted s = denoted s'

/-- **Numbers are kept exactly where they fit**: of the texts in the accepted grammar, `from_uri`
keeps the numbers of those whose every field fits its type, and of no other. -/
theorem numbersKept_iff (known : List FsKind) (s : Str) :
    NumbersKept known s ↔ (UriForm known s → FieldsFit s) := by
  constructor
  · rintro ⟨hstored, -, -⟩ ⟨loc, hloc⟩
    exact (denoted_eq_iff hloc).mp (hstored loc (fromUri_eq_ok.mpr hloc))
  · intro hfit
    have hstored : ∀ loc, Locator.fromUri known s = .ok loc → denoted s = loc.numbers.map some := by
      intro loc h
      have hloc := fromUri_eq_ok.mp h
      exact (denoted_eq_iff hloc).mpr (hfit ⟨loc, hloc⟩)
    refine ⟨hstored, ?_, ?_⟩
    · intro hnot
      cases h : Locator.fromUri known s with
      | error e => exact ⟨e, rfl⟩
      | ok loc => exact absurd (hfit ⟨loc, fromUri_eq_ok.mp h⟩) hnot
    · intro s' loc hfit' h h'
      rw [hstored loc h, (denoted_eq_iff (fromUri_eq_ok.mp h')).mpr hfit']

/-- A sequence number one past the width: the address of sequence 65537 is read as the one of
sequence 1. -/
theorem not_numbersKept_ntfsRef :
    ¬NumbersKept [⟨str "ntfs"⟩] (str "loc:fs:ntfs,f/ntfsref.5.65537") := by
  rintro ⟨hstored, -, -⟩
  have h : Locator.fromUri [⟨str "ntfs"⟩] (str "loc:fs:ntfs,f/ntfsref.5.65537") =
      .ok (.root (.fs ⟨str "ntfs"⟩ (.file (.ntfsRef 5 1)))) := by rfl
  exact absurd (hstored _ h) (by decide)

end ForensicVfs
