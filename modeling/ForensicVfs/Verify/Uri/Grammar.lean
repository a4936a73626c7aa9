import ForensicVfs.Verify.Uri.Values

/-!
# The accepted grammar

The relations of `Values` continued up to whole URIs: `FileIdText`, `StreamText`, `NodeAddrText`,
`LayerBody`, `LayerText` and `UriText` say which text denotes which value, and the parsers are
exact for them (`parseFileId_eq_ok`, ..., `fromUri_eq_ok`). Surplus fields are the `rest` of a
production, a missing `/` is a `stripSlash`, and a field read at a wider type is narrowed in the
conclusion.
-/

namespace ForensicVfs

open Delim Numeral Result

/-! ## File ids and streams -/

/-- The pieces of a file id, with any surplus. -/
inductive FileIdText : List Str → FileId → Prop
  | ntfsRef {a b : Str} {rest : List Str} {entry seq : UInt64}
      (ha : unsigned 10 a = some entry.toNat) (hb : unsigned 10 b = some seq.toNat) :
      FileIdText (str "ntfsref" :: a :: b :: rest) (.ntfsRef entry seq.toUInt16)
  | extInode {a b : Str} {rest : List Str} {ino gen : UInt64}
      (ha : unsigned 10 a = some ino.toNat) (hb : unsigned 10 b = some gen.toNat) :
      FileIdText (str "extinode" :: a :: b :: rest) (.extInode ino gen.toUInt32)
  | apfsOid {a b : Str} {rest : List Str} {oid xid : UInt64}
      (ha : unsigned 10 a = some oid.toNat) (hb : unsigned 10 b = some xid.toNat) :
      FileIdText (str "apfsoid" :: a :: b :: rest) (.apfsOid oid xid)
  | fatDirEntry {a b : Str} {rest : List Str} {cluster index : UInt64}
      (ha : unsigned 10 a = some cluster.toNat) (hb : unsigned 10 b = some index.toNat) :
      FileIdText (str "fatdirentry" :: a :: b :: rest)
        (.fatDirEntry cluster.toUInt32 index.toUInt16)
  | isoExtent {a : Str} {rest : List Str} {block : UInt64}
      (ha : unsigned 10 a = some block.toNat) :
      FileIdText (str "isoextent" :: a :: rest) (.isoExtent block.toUInt32)
  | opaqueId {a : Str} {rest : List Str} {n : UInt64} (ha : unsigned 10 a = some n.toNat) :
      FileIdText (str "opaque" :: a :: rest) (.opaqueId n)

@[simp] theorem next_nil : next [] = (none, []) := rfl

@[simp] theorem next_cons (p : Str) (ps : List Str) : next (p :: ps) = (some p, ps) := rfl

theorem num_eq_ok {name : String} {ctx : Str} {it : List Str} {r : UInt64 × List Str} :
    num name ctx it = .ok r ↔ ∃ s, it = s :: r.2 ∧ unsigned 10 s = some r.1.toNat := by
  cases it with
  | nil => simp [num, okOr]
  | cons s it =>
    simp only [num, next_cons, okOr, ok_bind, bind_eq_ok, u64Field_eq_ok, pure_eq_ok,
      List.cons.injEq]
    constructor
    · rintro ⟨v, hv, rfl⟩
      exact ⟨s, ⟨rfl, rfl⟩, hv⟩
    · rintro ⟨s', ⟨rfl, rfl⟩, hv⟩
      exact ⟨r.1, hv, rfl⟩

/-- A one-field id. -/
theorem num_one_eq_ok {α : Type} {m : String} {ctx : Str} {it : List Str}
    {f : UInt64 × List Str → α} {r : α} :
    (do
      let x ← num m ctx it
      return f x : VfsResult α) = .ok r ↔
      ∃ s rest a, it = s :: rest ∧ unsigned 10 s = some a.toNat ∧ f (a, rest) = r := by
  constructor
  · intro h
    obtain ⟨⟨a, rest⟩, ha, hr⟩ := bind_eq_ok.mp h
    obtain ⟨s, rfl, hs⟩ := num_eq_ok.mp ha
    exact ⟨s, rest, a, rfl, hs, pure_eq_ok.mp hr⟩
  · rintro ⟨s, rest, a, rfl, hs, rfl⟩
    have ha : num m ctx (s :: rest) = .ok (a, rest) := num_eq_ok.mpr ⟨s, rfl, hs⟩
    rw [ha]
    rfl

/-- A two-field id. -/
theorem num_two_eq_ok {α : Type} {m n : String} {ctx : Str} {it : List Str}
    {f : UInt64 × List Str → UInt64 × List Str → α} {r : α} :
    (do
      let x ← num m ctx it
      let y ← num n ctx x.2
      return f x y : VfsResult α) = .ok r ↔
      ∃ s t rest a b, it = s :: t :: rest ∧ unsigned 10 s = some a.toNat ∧
        unsigned 10 t = some b.toNat ∧ f (a, t :: rest) (b, rest) = r := by
  constructor
  · intro h
    obtain ⟨⟨a, it'⟩, ha, hrest⟩ := bind_eq_ok.mp h
    obtain ⟨s, rfl, hs⟩ := num_eq_ok.mp ha
    obtain ⟨t, rest, b, rfl, ht, hr⟩ := num_one_eq_ok.mp hrest
    exact ⟨s, t, rest, a, b, rfl, hs, ht, hr⟩
  · rintro ⟨s, t, rest, a, b, rfl, hs, ht, rfl⟩
    have ha : num m ctx (s :: t :: rest) = .ok (a, t :: rest) := num_eq_ok.mpr ⟨s, rfl, hs⟩
    rw [ha]
    exact num_one_eq_ok.mpr ⟨t, rest, b, rfl, ht, rfl⟩

theorem parseFileId_eq_ok {t ctx : Str} {id : FileId} :
    parseFileId t ctx = .ok id ↔ FileIdText (t.splitOn dot) id := by
  unfold parseFileId
  cases hp : t.splitOn dot with
  | nil => exact absurd hp (List.splitOn_ne_nil dot t)
  | cons head it =>
    simp only [next_cons, okOr, ok_bind]
    constructor
    · intro h
      split at h
      · next hh =>
        obtain ⟨a, b, rest, entry, seq, rfl, ha, hb, rfl⟩ := num_two_eq_ok.mp h
        exact hh ▸ .ntfsRef ha hb
      split at h
      · next hh =>
        obtain ⟨a, b, rest, ino, gen, rfl, ha, hb, rfl⟩ := num_two_eq_ok.mp h
        exact hh ▸ .extInode ha hb
      split at h
      · next hh =>
        obtain ⟨a, b, rest, oid, xid, rfl, ha, hb, rfl⟩ := num_two_eq_ok.mp h
        exact hh ▸ .apfsOid ha hb
      split at h
      · next hh =>
        obtain ⟨a, b, rest, cluster, index, rfl, ha, hb, rfl⟩ := num_two_eq_ok.mp h
        exact hh ▸ .fatDirEntry ha hb
      split at h
      · next hh =>
        obtain ⟨a, rest, block, rfl, ha, rfl⟩ := num_one_eq_ok.mp h
        exact hh ▸ .isoExtent ha
      split at h
      · next hh =>
        obtain ⟨a, rest, n, rfl, ha, rfl⟩ := num_one_eq_ok.mp h
        exact hh ▸ .opaqueId ha
      · cases h
    · intro h
      cases h with
      | ntfsRef ha hb =>
        rw [if_pos rfl]
        exact num_two_eq_ok.mpr ⟨_, _, _, _, _, rfl, ha, hb, rfl⟩
      | extInode ha hb =>
        rw [if_neg (by decide), if_pos rfl]
        exact num_two_eq_ok.mpr ⟨_, _, _, _, _, rfl, ha, hb, rfl⟩
      | apfsOid ha hb =>
        rw [if_neg (by decide), if_neg (by decide), if_pos rfl]
        exact num_two_eq_ok.mpr ⟨_, _, _, _, _, rfl, ha, hb, rfl⟩
      | fatDirEntry ha hb =>
        rw [if_neg (by decide), if_neg (by decide), if_neg (by decide), if_pos rfl]
        exact num_two_eq_ok.mpr ⟨_, _, _, _, _, rfl, ha, hb, rfl⟩
      | isoExtent ha =>
        rw [if_neg (by decide), if_neg (by decide), if_neg (by decide), if_neg (by decide),
          if_pos rfl]
        exact num_one_eq_ok.mpr ⟨_, _, _, rfl, ha, rfl⟩
      | opaqueId ha =>
        rw [if_neg (by decide), if_neg (by decide), if_neg (by decide), if_neg (by decide),
          if_neg (by decide), if_pos rfl]
        exact num_one_eq_ok.mpr ⟨_, _, _, rfl, ha, rfl⟩

/-- The pieces of a stream id, with any surplus. -/
inductive StreamText : List Str → StreamId → Prop
  | default {rest : List Str} : StreamText (str "default" :: rest) .default
  | resourceFork {rest : List Str} : StreamText (str "resourcefork" :: rest) .resourceFork
  | slack {rest : List Str} : StreamText (str "slack" :: rest) .slack
  | named {a : Str} {rest : List Str} {n : UInt32} (ha : unsigned 10 a = some n.toNat) :
      StreamText (str "named" :: a :: rest) (.named n.toUInt16)
  | xattr {a : Str} {rest : List Str} {n : UInt32} (ha : unsigned 10 a = some n.toNat) :
      StreamText (str "xattr" :: a :: rest) (.xattr n.toUInt16)

/-- The index field of a stream id, read as the empty text when it is missing. -/
theorem streamIndex_eq_ok {ctx : Str} {it : List Str} {f : UInt16 → StreamId} {id : StreamId} :
    (do return f (← u32Field ((next it).1.getD []) ctx).toUInt16 : VfsResult StreamId) = .ok id ↔
      ∃ a rest n, it = a :: rest ∧ unsigned 10 a = some (UInt32.toNat n) ∧ f n.toUInt16 = id := by
  simp only [bind_eq_ok, u32Field_eq_ok, pure_eq_ok]
  constructor
  · rintro ⟨n, hn, rfl⟩
    cases it with
    | nil => simp [unsigned, dropPlus] at hn
    | cons a rest => exact ⟨a, rest, n, rfl, hn, rfl⟩
  · rintro ⟨a, rest, n, rfl, hn, rfl⟩
    exact ⟨n, hn, rfl⟩

theorem parseStream_eq_ok {t ctx : Str} {id : StreamId} :
    parseStream t ctx = .ok id ↔ StreamText (t.splitOn dot) id := by
  unfold parseStream
  cases hp : t.splitOn dot with
  | nil => exact absurd hp (List.splitOn_ne_nil dot t)
  | cons head it =>
    simp only [next_cons, Option.getD_some]
    unfold matchStream
    constructor
    · intro h
      split at h
      · next hh =>
        cases h
        exact hh ▸ .default
      split at h
      · next hh =>
        cases h
        exact hh ▸ .resourceFork
      split at h
      · next hh =>
        cases h
        exact hh ▸ .slack
      split at h
      · next hh =>
        obtain ⟨a, rest, n, rfl, ha, rfl⟩ := streamIndex_eq_ok.mp h
        exact hh ▸ .named ha
      split at h
      · next hh =>
        obtain ⟨a, rest, n, rfl, ha, rfl⟩ := streamIndex_eq_ok.mp h
        exact hh ▸ .xattr ha
      · cases h
    · intro h
      cases h with
      | default => rfl
      | resourceFork => rfl
      | slack => rfl
      | named ha =>
        rw [if_neg (by decide), if_neg (by decide), if_neg (by decide), if_pos rfl]
        exact streamIndex_eq_ok.mpr ⟨_, _, _, rfl, ha, rfl⟩
      | xattr ha =>
        rw [if_neg (by decide), if_neg (by decide), if_neg (by decide), if_neg (by decide),
          if_pos rfl]
        exact streamIndex_eq_ok.mpr ⟨_, _, _, rfl, ha, rfl⟩

/-! ## Node addresses -/

/-- The text of a node address; the `/` behind the tag may be missing. -/
inductive NodeAddrText : Str → NodeAddr → Prop
  | root : NodeAddrText (str "p") (.path [])
  | path {rest : Str} {cs : List Bytes} (hne : rest ≠ [])
      (hp : List.Forall₂ PctText ((stripSlash rest).splitOn slash) cs) :
      NodeAddrText (str "p" ++ rest) (.path cs)
  | file {rest : Str} {id : FileId} (hid : FileIdText ((stripSlash rest).splitOn dot) id) :
      NodeAddrText (str "f" ++ rest) (.file id)
  | both {rest first : Str} {ts : List Str} {id : FileId} {path : List Bytes}
      (hs : (stripSlash rest).splitOn slash = first :: ts) (hid : FileIdText (first.splitOn dot) id)
      (hp : List.Forall₂ PctText ts path) : NodeAddrText (str "b" ++ rest) (.both path id)

theorem firstCharLen_cons {b : UInt8} (hb : b < 0x80) (t : Str) : firstCharLen (b :: t) = 1 :=
  if_pos hb

theorem decodeComps_eq_ok {rest : Str} {cs : List Bytes} :
    decodeComps rest = .ok cs ↔
      (rest = [] ∧ cs = []) ∨
        (rest ≠ [] ∧ List.Forall₂ PctText ((stripSlash rest).splitOn slash) cs) := by
  unfold decodeComps
  split
  · next hr => simp [hr, eq_comm]
  · next hr => simp [hr, mapM_pctDecode_eq_ok]

/-- `splitn(2, '/')` and then `split('/')` on the second part is one split. -/
theorem splitn2_slash (t : Str) :
    (splitn2 slash t = [t] ∧ t.splitOn slash = [t]) ∨
      ∃ a b, splitn2 slash t = [a, b] ∧ t.splitOn slash = a :: b.splitOn slash := by
  unfold splitn2
  cases h : splitOnce slash t with
  | none => exact .inl ⟨rfl, List.splitOn_eq_singleton (splitOnce_eq_none.mp h)⟩
  | some p => exact .inr ⟨p.1, p.2, rfl, splitOn_of_splitOnce h⟩

theorem nodeAddrText_of_match {tag rest ctx : Str} {addr : NodeAddr}
    (h : matchNodeAddr tag rest ctx = .ok addr) : NodeAddrText (tag ++ rest) addr := by
  unfold matchNodeAddr at h
  split at h
  · next ht =>
    obtain ⟨cs, hcs, hr⟩ := bind_eq_ok.mp h
    cases hr
    rw [ht]
    rcases decodeComps_eq_ok.mp hcs with ⟨hr, rfl⟩ | ⟨hr, hp⟩
    · rw [hr]
      exact .root
    · exact .path hr hp
  split at h
  · next ht =>
    obtain ⟨id, hid, hr⟩ := bind_eq_ok.mp h
    cases hr
    rw [ht]
    exact .file (parseFileId_eq_ok.mp hid)
  split at h
  · next ht =>
    obtain ⟨id, hid, h1⟩ := bind_eq_ok.mp h
    obtain ⟨path, hp, hr⟩ := bind_eq_ok.mp h1
    cases hr
    rw [ht]
    rcases splitn2_slash (stripSlash rest) with ⟨hn, hs⟩ | ⟨a, b, hn, hs⟩
    · rw [hn] at hid hp
      cases hp
      exact .both hs (parseFileId_eq_ok.mp hid) .nil
    · rw [hn] at hid hp
      exact .both hs (parseFileId_eq_ok.mp hid) (mapM_pctDecode_eq_ok.mp hp)
  · cases h

theorem matchNodeAddr_of_both {rest first ctx : Str} {ts : List Str} {id : FileId}
    {path : List Bytes} (hs : (stripSlash rest).splitOn slash = first :: ts)
    (hid : FileIdText (first.splitOn dot) id) (hp : List.Forall₂ PctText ts path) :
    matchNodeAddr (str "b") rest ctx = .ok (.both path id) := by
  unfold matchNodeAddr
  rw [if_neg (by decide), if_neg (by decide), if_pos rfl]
  rcases splitn2_slash (stripSlash rest) with ⟨hn, hs'⟩ | ⟨a, b, hn, hs'⟩
  · rw [hs'] at hs
    cases hs
    cases hp
    rw [hn]
    exact bind_eq_ok.mpr ⟨id, parseFileId_eq_ok.mpr hid, rfl⟩
  · rw [hs'] at hs
    cases hs
    rw [hn]
    exact bind_eq_ok.mpr ⟨id, parseFileId_eq_ok.mpr hid,
      bind_eq_ok.mpr ⟨path, mapM_pctDecode_eq_ok.mpr hp, rfl⟩⟩

theorem parseNodeAddr_cons {b : UInt8} (hb : b < 0x80) (rest ctx : Str) :
    parseNodeAddr (b :: rest) ctx = matchNodeAddr [b] rest ctx := by
  unfold parseNodeAddr
  rw [firstCharLen_cons hb]
  rfl

theorem parseNodeAddr_eq_ok {t ctx : Str} {addr : NodeAddr} :
    parseNodeAddr t ctx = .ok addr ↔ NodeAddrText t addr := by
  constructor
  · intro h
    rw [← List.take_append_drop (firstCharLen t) t]
    exact nodeAddrText_of_match h
  · intro h
    cases h with
    | root => rfl
    | @path rest cs hne hp =>
      have hd : decodeComps rest = .ok cs := decodeComps_eq_ok.mpr (.inr ⟨hne, hp⟩)
      refine (parseNodeAddr_cons (by decide) rest ctx).trans ?_
      exact bind_eq_ok.mpr ⟨cs, hd, rfl⟩
    | @file rest id hid =>
      refine (parseNodeAddr_cons (by decide) rest ctx).trans ?_
      exact bind_eq_ok.mpr ⟨id, parseFileId_eq_ok.mpr hid, rfl⟩
    | @both rest first ts id path hs hid hp =>
      refine (parseNodeAddr_cons (by decide) rest ctx).trans ?_
      exact matchNodeAddr_of_both hs hid hp

/-! ## Layers -/

/-- The tag and the body of a layer. -/
inductive LayerBody (known : List FsKind) : Str → Str → Layer → Prop
  | file {body path} (h : PctText body path) : LayerBody known (str "file") body (.file path)
  | os {body path} (h : PctText body path) : LayerBody known (str "os") body (.file path)
  | directory {body path} (h : PctText body path) :
      LayerBody known (str "dir") body (.directory path)
  | range {a b : Str} {start len : UInt64} (ha : unsigned 10 a = some start.toNat)
      (hb : unsigned 10 b = some len.toNat) :
      LayerBody known (str "range") (a ++ comma :: b) (.range start len)
  | container {format} : LayerBody known (str "container") (containerToken format)
      (.container format)
  | volume {body n : Str} {scheme} {index : Usize}
      (hs : body.splitOn comma = [volumeToken scheme, n]) (hn : unsigned 10 n = some index.toNat) :
      LayerBody known (str "volume") body (.volume scheme index none)
  | volumeGuid {body n g : Str} {rest : List Str} {scheme} {index : Usize} {guid}
      (hs : body.splitOn comma = volumeToken scheme :: n :: g :: rest)
      (hn : unsigned 10 n = some index.toNat) (hg : GuidText g guid) :
      LayerBody known (str "volume") body (.volume scheme index (some guid))
  | encryption {scheme} : LayerBody known (str "encryption") (encryptionToken scheme)
      (.encryption scheme)
  | vssStore {n : Str} {i : Usize} (hn : unsigned 10 n = some i.toNat) :
      LayerBody known (str "snapshot") (str "vss" ++ comma :: n) (.snapshot (.vssStore i))
  | apfsXid {n : Str} {x : UInt64} (hn : unsigned 10 n = some x.toNat) :
      LayerBody known (str "snapshot") (str "apfs" ++ comma :: n) (.snapshot (.apfsXid x))
  | fs {kind : FsKind} {addr at'} (hk : kind ∈ known) (hc : comma ∉ kind.asStr)
      (ha : NodeAddrText addr at') :
      LayerBody known (str "fs") (kind.asStr ++ comma :: addr) (.fs kind at')
  | stream {body id} (h : StreamText (body.splitOn dot) id) :
      LayerBody known (str "stream") body (.stream id)
  | archive : LayerBody known (str "archive") [] (.archive none)
  | member {body : Str} {i : Usize} (hi : unsigned 10 body = some i.toNat) :
      LayerBody known (str "archive") body (.archive (some i))

theorem parseVolume_sound {body s : Str} {l : Layer} (h : parseVolume body s = .ok l)
    (known : List FsKind) : LayerBody known (str "volume") body l := by
  unfold parseVolume at h
  cases hp : body.splitOn comma with
  | nil => exact absurd hp (List.splitOn_ne_nil comma body)
  | cons first it =>
    rw [hp] at h
    obtain ⟨scheme, hscheme, h1⟩ := bind_eq_ok.mp h
    have hfirst : first = volumeToken scheme := parseVolumeScheme_eq_ok.mp hscheme
    rw [hfirst] at hp
    obtain ⟨second, hsecond, h2⟩ := bind_eq_ok.mp h1
    obtain ⟨index, hindex, h3⟩ := bind_eq_ok.mp h2
    obtain ⟨guid, hguid, hr⟩ := bind_eq_ok.mp h3
    cases hr
    cases it with
    | nil => cases hsecond
    | cons n it =>
      cases hsecond
      cases it with
      | nil =>
        cases hguid
        exact .volume hp (usizeField_eq_ok.mp hindex)
      | cons g rest =>
        obtain ⟨g', hg, rfl⟩ := map_eq_ok.mp hguid
        exact .volumeGuid hp (usizeField_eq_ok.mp hindex) (parseGuid_eq_ok.mp hg)

theorem parseVolume_complete {body n s : Str} {rest : List Str} {scheme : VolumeScheme}
    {index : Usize} (hs : body.splitOn comma = volumeToken scheme :: n :: rest)
    (hn : unsigned 10 n = some index.toNat) {guid : Option Guid}
    (hg : (match (next rest).1 with
      | some g => some <$> parseGuid g s
      | none => .ok none) = Except.ok guid) :
    parseVolume body s = .ok (.volume scheme index guid) := by
  unfold parseVolume
  rw [hs]
  exact bind_eq_ok.mpr ⟨scheme, parseVolumeScheme_eq_ok.mpr rfl, bind_eq_ok.mpr ⟨n, rfl,
    bind_eq_ok.mpr ⟨index, usizeField_eq_ok.mpr hn, bind_eq_ok.mpr ⟨guid, hg, rfl⟩⟩⟩⟩

theorem parseSnapshot_sound {body s : Str} {l : Layer} (h : parseSnapshot body s = .ok l)
    (known : List FsKind) : LayerBody known (str "snapshot") body l := by
  unfold parseSnapshot at h
  obtain ⟨⟨kind, n⟩, hs, h1⟩ := bind_eq_ok.mp h
  obtain ⟨rfl, -⟩ := splitOnce_eq_some.mp (okOr_eq_ok.mp hs)
  by_cases hk : kind = str "vss"
  · simp only [if_pos hk] at h1
    obtain ⟨i, hi, hr⟩ := bind_eq_ok.mp h1
    cases hr
    rw [hk]
    exact .vssStore (usizeField_eq_ok.mp hi)
  simp only [if_neg hk] at h1
  by_cases hk : kind = str "apfs"
  · simp only [if_pos hk] at h1
    obtain ⟨x, hx, hr⟩ := bind_eq_ok.mp h1
    cases hr
    rw [hk]
    exact .apfsXid (u64Field_eq_ok.mp hx)
  · simp only [if_neg hk] at h1
    cases h1

theorem matchLayer_sound {known : List FsKind} {tag body s : Str} {l : Layer}
    (h : matchLayer known tag body s = .ok l) : LayerBody known tag body l := by
  unfold matchLayer at h
  by_cases ht : tag = str "file" ∨ tag = str "os"
  · rw [if_pos ht] at h
    obtain ⟨path, hp, hr⟩ := bind_eq_ok.mp h
    cases hr
    rcases ht with rfl | rfl
    · exact .file (pctDecode_eq_ok.mp hp)
    · exact .os (pctDecode_eq_ok.mp hp)
  rw [if_neg ht] at h
  by_cases ht : tag = str "dir"
  · rw [if_pos ht] at h
    subst ht
    obtain ⟨path, hp, hr⟩ := bind_eq_ok.mp h
    cases hr
    exact .directory (pctDecode_eq_ok.mp hp)
  rw [if_neg ht] at h
  by_cases ht : tag = str "range"
  · rw [if_pos ht] at h
    subst ht
    obtain ⟨⟨a, b⟩, hs, h1⟩ := bind_eq_ok.mp h
    obtain ⟨start, ha, h2⟩ := bind_eq_ok.mp h1
    obtain ⟨len, hb, hr⟩ := bind_eq_ok.mp h2
    cases hr
    obtain ⟨rfl, -⟩ := splitOnce_eq_some.mp (okOr_eq_ok.mp hs)
    exact .range (u64Field_eq_ok.mp ha) (u64Field_eq_ok.mp hb)
  rw [if_neg ht] at h
  by_cases ht : tag = str "container"
  · rw [if_pos ht] at h
    subst ht
    obtain ⟨format, hf, hr⟩ := bind_eq_ok.mp h
    cases hr
    rw [parseContainer_eq_ok.mp hf]
    exact .container
  rw [if_neg ht] at h
  by_cases ht : tag = str "volume"
  · rw [if_pos ht] at h
    rw [ht]
    exact parseVolume_sound h known
  rw [if_neg ht] at h
  by_cases ht : tag = str "encryption"
  · rw [if_pos ht] at h
    subst ht
    obtain ⟨scheme, hs, hr⟩ := bind_eq_ok.mp h
    cases hr
    rw [parseEncryption_eq_ok.mp hs]
    exact .encryption
  rw [if_neg ht] at h
  by_cases ht : tag = str "snapshot"
  · rw [if_pos ht] at h
    rw [ht]
    exact parseSnapshot_sound h known
  rw [if_neg ht] at h
  by_cases ht : tag = str "fs"
  · rw [if_pos ht] at h
    subst ht
    obtain ⟨⟨kind, addr⟩, hs, h1⟩ := bind_eq_ok.mp h
    obtain ⟨k, hk, h2⟩ := bind_eq_ok.mp h1
    obtain ⟨at', ha, hr⟩ := bind_eq_ok.mp h2
    cases hr
    obtain ⟨rfl, hc⟩ := splitOnce_eq_some.mp (okOr_eq_ok.mp hs)
    obtain ⟨rfl, hmem⟩ := parseFsKind_eq_ok.mp hk
    exact .fs hmem hc (parseNodeAddr_eq_ok.mp ha)
  rw [if_neg ht] at h
  by_cases ht : tag = str "stream"
  · rw [if_pos ht] at h
    subst ht
    obtain ⟨id, hid, hr⟩ := bind_eq_ok.mp h
    cases hr
    exact .stream (parseStream_eq_ok.mp hid)
  rw [if_neg ht] at h
  by_cases ht : tag = str "archive"
  · rw [if_pos ht] at h
    subst ht
    by_cases hb : body = []
    · rw [if_pos hb] at h
      cases h
      rw [hb]
      exact .archive
    · rw [if_neg hb] at h
      obtain ⟨i, hi, hr⟩ := bind_eq_ok.mp h
      cases hr
      exact .member (usizeField_eq_ok.mp hi)
  · rw [if_neg ht] at h
    cases h

theorem matchLayer_complete {known : List FsKind} {tag body s : Str} {l : Layer}
    (h : LayerBody known tag body l) : matchLayer known tag body s = .ok l := by
  cases h with
  | file h => exact bind_eq_ok.mpr ⟨_, pctDecode_eq_ok.mpr h, rfl⟩
  | os h => exact bind_eq_ok.mpr ⟨_, pctDecode_eq_ok.mpr h, rfl⟩
  | directory h => exact bind_eq_ok.mpr ⟨_, pctDecode_eq_ok.mpr h, rfl⟩
  | @range a b start len ha hb =>
    have hs : splitOnce comma (a ++ comma :: b) = some (a, b) :=
      splitOnce_append (not_mem_of_unsigned ha) b
    refine bind_eq_ok.mpr ⟨(a, b), okOr_eq_ok.mpr hs, ?_⟩
    exact bind_eq_ok.mpr ⟨start, u64Field_eq_ok.mpr ha,
      bind_eq_ok.mpr ⟨len, u64Field_eq_ok.mpr hb, rfl⟩⟩
  | container => exact bind_eq_ok.mpr ⟨_, parseContainer_eq_ok.mpr rfl, rfl⟩
  | volume hs hn => exact parseVolume_complete hs hn rfl
  | volumeGuid hs hn hg =>
    exact parseVolume_complete hs hn (map_eq_ok.mpr ⟨_, parseGuid_eq_ok.mpr hg, rfl⟩)
  | encryption => exact bind_eq_ok.mpr ⟨_, parseEncryption_eq_ok.mpr rfl, rfl⟩
  | @vssStore n i hn =>
    have hs : splitOnce comma (str "vss" ++ comma :: n) = some (str "vss", n) :=
      splitOnce_append (by decide) n
    refine bind_eq_ok.mpr ⟨(str "vss", n), okOr_eq_ok.mpr hs, ?_⟩
    exact bind_eq_ok.mpr ⟨i, usizeField_eq_ok.mpr hn, rfl⟩
  | @apfsXid n x hn =>
    have hs : splitOnce comma (str "apfs" ++ comma :: n) = some (str "apfs", n) :=
      splitOnce_append (by decide) n
    refine bind_eq_ok.mpr ⟨(str "apfs", n), okOr_eq_ok.mpr hs, ?_⟩
    exact bind_eq_ok.mpr ⟨x, u64Field_eq_ok.mpr hn, rfl⟩
  | @fs kind addr at' hk hc ha =>
    have hs : splitOnce comma (kind.asStr ++ comma :: addr) = some (kind.asStr, addr) :=
      splitOnce_append hc addr
    refine bind_eq_ok.mpr ⟨(kind.asStr, addr), okOr_eq_ok.mpr hs, ?_⟩
    exact bind_eq_ok.mpr ⟨kind, parseFsKind_eq_ok.mpr ⟨rfl, hk⟩,
      bind_eq_ok.mpr ⟨at', parseNodeAddr_eq_ok.mpr ha, rfl⟩⟩
  | stream h => exact bind_eq_ok.mpr ⟨_, parseStream_eq_ok.mpr h, rfl⟩
  | archive => rfl
  | @member body i hi =>
    have hne : body ≠ [] := by
      rintro rfl
      simp [unsigned, dropPlus] at hi
    show (if body = [] then _ else _) = _
    rw [if_neg hne]
    exact bind_eq_ok.mpr ⟨i, usizeField_eq_ok.mpr hi, rfl⟩

/-- A layer is its tag, a `:` and its body. -/
def LayerText (known : List FsKind) (t : Str) (l : Layer) : Prop :=
  ∃ tag body, splitOnce colon t = some (tag, body) ∧ LayerBody known tag body l

theorem layerParse_eq_ok {known : List FsKind} {t : Str} {l : Layer} :
    layerParse known t = .ok l ↔ LayerText known t l := by
  unfold layerParse
  constructor
  · intro h
    obtain ⟨⟨tag, body⟩, hs, h1⟩ := bind_eq_ok.mp h
    exact ⟨tag, body, okOr_eq_ok.mp hs, matchLayer_sound h1⟩
  · rintro ⟨tag, body, hs, hb⟩
    exact bind_eq_ok.mpr ⟨(tag, body), okOr_eq_ok.mpr hs, matchLayer_complete hb⟩

/-! ## Whole URIs -/

/-- The layer texts behind the scheme, of either spelling. -/
def uriLayers (s : Str) : Option (List Str) :=
  ((s.dropPrefix? scheme).or (s.dropPrefix? legacyScheme)).map (·.splitOn layerSep)

/-- An accepted URI and the chain it denotes. -/
def UriText (known : List FsKind) (s : Str) (loc : Locator) : Prop :=
  ∃ ts, uriLayers s = some ts ∧ List.Forall₂ (LayerText known) ts loc.layers

theorem foldlM_push {known : List FsKind} {ts : List Str} {spec loc : Locator} :
    ts.foldlM (fun spec l => do return .push spec (← layerParse known l)) spec = .ok loc ↔
      ∃ ls, List.Forall₂ (LayerText known) ts ls ∧ loc = spec.pushAll ls := by
  induction ts generalizing spec with
  | nil =>
    rw [List.foldlM_nil, pure_eq_ok]
    constructor
    · rintro rfl
      exact ⟨[], .nil, rfl⟩
    · rintro ⟨ls, hls, rfl⟩
      cases hls
      rfl
  | cons t ts ih =>
    rw [List.foldlM_cons]
    constructor
    · intro h
      obtain ⟨spec', hspec, hrest⟩ := bind_eq_ok.mp h
      obtain ⟨l, hl, hr⟩ := bind_eq_ok.mp hspec
      cases hr
      obtain ⟨ls, hls, rfl⟩ := ih.mp hrest
      exact ⟨l :: ls, .cons (layerParse_eq_ok.mp hl) hls, rfl⟩
    · rintro ⟨ls, hls, rfl⟩
      cases hls with
      | @cons _ l _ ls hl hls =>
        refine bind_eq_ok.mpr ⟨spec.push l, ?_, ih.mpr ⟨ls, hls, rfl⟩⟩
        exact bind_eq_ok.mpr ⟨l, layerParse_eq_ok.mpr hl, rfl⟩

theorem fromUri_eq_ok {known : List FsKind} {s : Str} {loc : Locator} :
    Locator.fromUri known s = .ok loc ↔ UriText known s loc := by
  unfold Locator.fromUri UriText uriLayers
  cases hr : (s.dropPrefix? scheme).or (s.dropPrefix? legacyScheme) with
  | none =>
    constructor
    · intro h
      cases h
    · rintro ⟨ts, hts, -⟩
      cases hts
  | some rest =>
    cases hp : rest.splitOn layerSep with
    | nil => exact absurd hp (List.splitOn_ne_nil layerSep rest)
    | cons first ts =>
      simp only [okOr, ok_bind, hp, next_cons, Option.map_some, Option.some.injEq,
        exists_eq_left']
      constructor
      · intro h
        obtain ⟨l, hl, h1⟩ := bind_eq_ok.mp h
        obtain ⟨ls, hls, rfl⟩ := foldlM_push.mp h1
        rw [Locator.layers_pushAll]
        exact .cons (layerParse_eq_ok.mp hl) hls
      · intro h
        cases hl : loc.layers with
        | nil => exact absurd hl loc.layers_ne_nil
        | cons l ls =>
          rw [hl] at h
          cases h with
          | cons hfirst hrest =>
            have hloc : loc = (Locator.root l).pushAll ls :=
              Locator.layers_injective (by rw [hl, Locator.layers_pushAll]; rfl)
            exact bind_eq_ok.mpr ⟨l, layerParse_eq_ok.mpr hfirst, foldlM_push.mpr ⟨ls, hrest, hloc⟩⟩

end ForensicVfs
