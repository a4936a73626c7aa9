import ForensicVfs.Core.Locator
import ForensicVfs.Lib.Delim
import ForensicVfs.Lib.Numeral

/-!
# The canonical URI form and its parser

`uri.rs`. Grammar: `loc:` then layers joined by `|`, each layer `tag:body`. Values are
percent-encoded outside `[A-Za-z0-9._-]`, so `| : , /` are structure. `FsKind::known()` belongs to
`forensicnomicon-core` and is a parameter (`known`) of every parser that reaches it.
-/

namespace ForensicVfs

open Delim Numeral

/-! ## Structural bytes -/

/-- `%` -/
abbrev percent : UInt8 := 37
/-- `,` -/
abbrev comma : UInt8 := 44
/-- `.` -/
abbrev dot : UInt8 := 46
/-- `/` -/
abbrev slash : UInt8 := 47
/-- `:` -/
abbrev colon : UInt8 := 58
/-- `|`, the layer separator -/
abbrev layerSep : UInt8 := 124

def scheme : Str := str "loc:"

/-- Accepted on decode, never emitted. -/
def legacyScheme : Str := str "fvfs:"

def err (detail : String) (ctx : Str) : VfsError :=
  .decode "locator-uri" 0 detail (.new ctx)

/-- `Option::ok_or_else` of an `err`. -/
def okOr {α : Type} (x : Option α) (detail : String) (ctx : Str) : VfsResult α :=
  match x with
  | some a => .ok a
  | none => .error (err detail ctx)

/-- One step of an iterator: what `next()` answers and what is left. -/
def next : List Str → Option Str × List Str
  | [] => (none, [])
  | p :: ps => (some p, ps)

/-! ## Percent-encoding -/

/-- `[A-Za-z0-9._-]` -/
def unreserved (b : UInt8) : Bool :=
  (48 ≤ b && b ≤ 57) || (65 ≤ b && b ≤ 90) || (97 ≤ b && b ≤ 122) || b == 46 || b == 95 || b == 45

def pctEncode (bytes : Bytes) : Str :=
  bytes.flatMap fun b => if unreserved b then [b] else percent :: bytePair 65 b

/-- `str::from_utf8` accepts the two bytes of an escape: both ASCII, or one two-byte character. -/
def utf8Pair (x y : UInt8) : Bool :=
  (x < 0x80 && y < 0x80) || (0xC2 ≤ x && x ≤ 0xDF && 0x80 ≤ y && y ≤ 0xBF)

/-- `from_str_radix` of an unsigned integer type of `bits` bits. -/
def fromStrRadix (radix bits : Nat) (t : Str) : Option Nat :=
  (unsigned radix t).filter (· < 2 ^ bits)

/-- The decoding loop from one position on; `s` is the whole text, for the error. -/
def pctDecodeLoop (s : Str) : Str → VfsResult Bytes
  | [] => .ok []
  | c :: rest =>
    if c = percent then
      match rest with
      | x :: y :: rest => do
        let hex ← okOr (if utf8Pair x y then some [x, y] else none) "non-ascii percent escape" s
        let v ← okOr (fromStrRadix 16 8 hex) "bad percent hex" s
        return UInt8.ofNat v :: (← pctDecodeLoop s rest)
      | _ => .error (err "truncated percent escape" s)
    else do
      return c :: (← pctDecodeLoop s rest)

def pctDecode (s : Str) : VfsResult Bytes := pctDecodeLoop s s

/-! ## Token vocabularies -/

/-- Look a token up in a vocabulary. -/
def parseToken {α : Type} (vocab : List (String × α)) (detail : String) (t ctx : Str) :
    VfsResult α :=
  okOr ((vocab.find? fun p => str p.1 == t).map Prod.snd) detail ctx

def containerToken : ContainerFormat → Str
  | .ewf => str "ewf"
  | .vmdk => str "vmdk"
  | .vhdx => str "vhdx"
  | .vhd => str "vhd"
  | .qcow2 => str "qcow2"
  | .dmg => str "dmg"
  | .aff4 => str "aff4"
  | .ad1 => str "ad1"
  | .dar => str "dar"
  | .raw => str "raw"
  | .auto => str "auto"

def containerVocab : List (String × ContainerFormat) :=
  [("ewf", .ewf), ("vmdk", .vmdk), ("vhdx", .vhdx), ("vhd", .vhd), ("qcow2", .qcow2),
    ("dmg", .dmg), ("aff4", .aff4), ("ad1", .ad1), ("dar", .dar), ("raw", .raw), ("auto", .auto)]

def parseContainer (t ctx : Str) : VfsResult ContainerFormat :=
  parseToken containerVocab "unknown container format" t ctx

def volumeToken : VolumeScheme → Str
  | .mbr => str "mbr"
  | .gpt => str "gpt"
  | .apm => str "apm"
  | .vss => str "vss"
  | .apfsContainer => str "apfscontainer"
  | .lvm => str "lvm"

def volumeVocab : List (String × VolumeScheme) :=
  [("mbr", .mbr), ("gpt", .gpt), ("apm", .apm), ("vss", .vss),
    ("apfscontainer", .apfsContainer), ("lvm", .lvm)]

def parseVolumeScheme (t ctx : Str) : VfsResult VolumeScheme :=
  parseToken volumeVocab "unknown volume scheme" t ctx

def encryptionToken : EncryptionScheme → Str
  | .bitlocker => str "bitlocker"
  | .luks1 => str "luks1"
  | .luks2 => str "luks2"
  | .fileVault => str "filevault"
  | .apfsEncrypted => str "apfsencrypted"
  | .veraCrypt => str "veracrypt"
  | .iosBackup => str "iosbackup"

def encryptionVocab : List (String × EncryptionScheme) :=
  [("bitlocker", .bitlocker), ("luks1", .luks1), ("luks2", .luks2), ("filevault", .fileVault),
    ("apfsencrypted", .apfsEncrypted), ("veracrypt", .veraCrypt), ("iosbackup", .iosBackup)]

def parseEncryption (t ctx : Str) : VfsResult EncryptionScheme :=
  parseToken encryptionVocab "unknown encryption scheme" t ctx

def parseFsKind (known : List FsKind) (t ctx : Str) : VfsResult FsKind :=
  okOr (known.find? fun k => k.asStr == t) "unknown filesystem kind" ctx

/-! ## Numbers and GUIDs -/

/-- An integer field of `bits` bits. -/
def uintField (bits : Nat) (detail : String) (t ctx : Str) : VfsResult Nat :=
  okOr (fromStrRadix 10 bits t) detail ctx

def u64Field (t ctx : Str) : VfsResult UInt64 :=
  UInt64.ofNat <$> uintField 64 "expected integer" t ctx

def u32Field (t ctx : Str) : VfsResult UInt32 :=
  UInt32.ofNat <$> uintField 32 "expected u32" t ctx

def usizeField (t ctx : Str) : VfsResult Usize :=
  UInt64.ofNat <$> uintField 64 "expected index" t ctx

def guidHex (g : Guid) : Str := g.bytes.toList.flatMap (bytePair 97)

/-- `str::is_char_boundary` -/
def isCharBoundary (t : Str) (i : Nat) : Bool :=
  if i = 0 then true
  else match t[i]? with
    | none => i == t.length
    | some b => b < 0x80 || 0xC0 ≤ b

/-- `str::get` of the range `a..b`. -/
def strGet (t : Str) (a b : Nat) : Option Str :=
  if isCharBoundary t a && isCharBoundary t b then getRange t a b else none

/-- The first `n` slots of the GUID loop. -/
def guidSlots (t ctx : Str) : (n : Nat) → VfsResult (Vector UInt8 n)
  | 0 => .ok #v[]
  | i + 1 => do
    let out ← guidSlots t ctx i
    let pair ← okOr (strGet t (i * 2) (i * 2 + 2)) "bad guid" ctx
    let v ← okOr (fromStrRadix 16 8 pair) "bad guid hex" ctx
    return out.push (UInt8.ofNat v)

def parseGuid (t ctx : Str) : VfsResult Guid :=
  if t.length ≠ 32 then .error (err "guid must be 32 hex chars" ctx)
  else Guid.mk <$> guidSlots t ctx 16

/-! ## File ids and streams -/

def fileIdToken : FileId → Str
  | .ntfsRef entry seq => str "ntfsref." ++ decimal entry.toNat ++ dot :: decimal seq.toNat
  | .extInode ino gen => str "extinode." ++ decimal ino.toNat ++ dot :: decimal gen.toNat
  | .apfsOid oid xid => str "apfsoid." ++ decimal oid.toNat ++ dot :: decimal xid.toNat
  | .fatDirEntry cluster index =>
    str "fatdirentry." ++ decimal cluster.toNat ++ dot :: decimal index.toNat
  | .isoExtent block => str "isoextent." ++ decimal block.toNat
  | .opaqueId n => str "opaque." ++ decimal n.toNat

/-- The `num` closure: the next field of the iterator, at 64 bits. -/
def num (name : String) (ctx : Str) (it : List Str) : VfsResult (UInt64 × List Str) := do
  let (field, it) := next it
  let s ← okOr field name ctx
  return (← u64Field s ctx, it)

def parseFileId (t ctx : Str) : VfsResult FileId := do
  let (head, it) := next (t.splitOn dot)
  let head ← okOr head "empty file id" ctx
  if head = str "ntfsref" then
    let (entry, it) ← num "entry" ctx it
    let (seq, _) ← num "seq" ctx it
    return .ntfsRef entry seq.toUInt16
  else if head = str "extinode" then
    let (ino, it) ← num "ino" ctx it
    let (gen, _) ← num "gen" ctx it
    return .extInode ino gen.toUInt32
  else if head = str "apfsoid" then
    let (oid, it) ← num "oid" ctx it
    let (xid, _) ← num "xid" ctx it
    return .apfsOid oid xid
  else if head = str "fatdirentry" then
    let (cluster, it) ← num "cluster" ctx it
    let (index, _) ← num "index" ctx it
    return .fatDirEntry cluster.toUInt32 index.toUInt16
  else if head = str "isoextent" then
    let (block, _) ← num "block" ctx it
    return .isoExtent block.toUInt32
  else if head = str "opaque" then
    let (n, _) ← num "n" ctx it
    return .opaqueId n
  else .error (err "unknown file id kind" ctx)

def streamToken : StreamId → Str
  | .default => str "default"
  | .named n => str "named." ++ decimal n.toNat
  | .resourceFork => str "resourcefork"
  | .xattr n => str "xattr." ++ decimal n.toNat
  | .slack => str "slack"

/-- The match on the first piece. -/
def matchStream (head : Str) (it : List Str) (ctx : Str) : VfsResult StreamId := do
  if head = str "default" then return .default
  else if head = str "resourcefork" then return .resourceFork
  else if head = str "slack" then return .slack
  else if head = str "named" then
    return .named (← u32Field ((next it).1.getD []) ctx).toUInt16
  else if head = str "xattr" then
    return .xattr (← u32Field ((next it).1.getD []) ctx).toUInt16
  else .error (err "unknown stream id" ctx)

def parseStream (t ctx : Str) : VfsResult StreamId :=
  let (head, it) := next (t.splitOn dot)
  matchStream (head.getD []) it ctx

/-! ## Node addresses -/

/-- Path components, each behind its `/`. -/
def comps (cs : List Bytes) : Str := cs.flatMap fun c => slash :: pctEncode c

def nodeAddrEncode : NodeAddr → Str
  | .path cs => str "p" ++ comps cs
  | .file id => str "f/" ++ fileIdToken id
  | .both path id => str "b/" ++ fileIdToken id ++ comps path

/-- `strip_prefix('/').unwrap_or(rest)` -/
def stripSlash : Str → Str
  | 47 :: t => t
  | t => t

def decodeComps (rest : Str) : VfsResult (List Bytes) :=
  if rest = [] then .ok []
  else ((stripSlash rest).splitOn slash).mapM pctDecode

/-- `chars().next().map_or(0, char::len_utf8)`, from the leading byte. -/
def firstCharLen : Str → Nat
  | [] => 0
  | c :: _ => if c < 0x80 then 1 else if c < 0xE0 then 2 else if c < 0xF0 then 3 else 4

/-- `splitn(2, d)` -/
def splitn2 (d : UInt8) (t : Str) : List Str :=
  match splitOnce d t with
  | some (a, b) => [a, b]
  | none => [t]

/-- The match on the first character. -/
def matchNodeAddr (tag rest ctx : Str) : VfsResult NodeAddr := do
  if tag = str "p" then
    return .path (← decodeComps rest)
  else if tag = str "f" then
    return .file (← parseFileId (stripSlash rest) ctx)
  else if tag = str "b" then
    let (first, it) := next (splitn2 slash (stripSlash rest))
    let id ← parseFileId (first.getD []) ctx
    let path ← (match (next it).1 with
      | some p => (p.splitOn slash).mapM pctDecode
      | none => .ok [])
    return .both path id
  else .error (err "unknown node address" ctx)

def parseNodeAddr (t ctx : Str) : VfsResult NodeAddr :=
  matchNodeAddr (t.take (firstCharLen t)) (t.drop (firstCharLen t)) ctx

/-! ## Layers -/

def layerEncode : Layer → Str
  | .file path => str "file:" ++ pctEncode path
  | .directory path => str "dir:" ++ pctEncode path
  | .range start len => str "range:" ++ decimal start.toNat ++ comma :: decimal len.toNat
  | .container format => str "container:" ++ containerToken format
  | .volume scheme index guid =>
    str "volume:" ++ volumeToken scheme ++ comma :: decimal index.toNat ++
      match guid with
      | some g => comma :: guidHex g
      | none => []
  | .encryption scheme => str "encryption:" ++ encryptionToken scheme
  | .snapshot (.vssStore i) => str "snapshot:vss," ++ decimal i.toNat
  | .snapshot (.apfsXid x) => str "snapshot:apfs," ++ decimal x.toNat
  | .fs kind addr => str "fs:" ++ kind.asStr ++ comma :: nodeAddrEncode addr
  | .stream id => str "stream:" ++ streamToken id
  | .archive none => str "archive:"
  | .archive (some i) => str "archive:" ++ decimal i.toNat

/-- The `volume` arm. -/
def parseVolume (body s : Str) : VfsResult Layer := do
  let (first, it) := next (body.splitOn comma)
  let scheme ← parseVolumeScheme (first.getD []) s
  let (second, it) := next it
  let index ← usizeField (← okOr second "volume needs index" s) s
  let guid ← (match (next it).1 with
    | some g => some <$> parseGuid g s
    | none => .ok none)
  return .volume scheme index guid

/-- The `snapshot` arm. -/
def parseSnapshot (body s : Str) : VfsResult Layer := do
  let (kind, n) ← okOr (splitOnce comma body) "snapshot needs kind,id" s
  if kind = str "vss" then return .snapshot (.vssStore (← usizeField n s))
  else if kind = str "apfs" then return .snapshot (.apfsXid (← u64Field n s))
  else .error (err "unknown snapshot kind" s)

/-- The match on the tag. -/
def matchLayer (known : List FsKind) (tag body s : Str) : VfsResult Layer := do
  if tag = str "file" ∨ tag = str "os" then
    return .file (← pctDecode body)
  else if tag = str "dir" then
    return .directory (← pctDecode body)
  else if tag = str "range" then
    let (a, b) ← okOr (splitOnce comma body) "range needs start,len" s
    return .range (← u64Field a s) (← u64Field b s)
  else if tag = str "container" then
    return .container (← parseContainer body s)
  else if tag = str "volume" then
    parseVolume body s
  else if tag = str "encryption" then
    return .encryption (← parseEncryption body s)
  else if tag = str "snapshot" then
    parseSnapshot body s
  else if tag = str "fs" then
    let (kind, addr) ← okOr (splitOnce comma body) "fs needs kind,addr" s
    return .fs (← parseFsKind known kind s) (← parseNodeAddr addr s)
  else if tag = str "stream" then
    return .stream (← parseStream body s)
  else if tag = str "archive" then
    if body = [] then return .archive none
    else return .archive (some (← usizeField body s))
  else .error (err "unknown layer tag" s)

def layerParse (known : List FsKind) (s : Str) : VfsResult Layer := do
  let (tag, body) ← okOr (splitOnce colon s) "layer missing tag" s
  matchLayer known tag body s

namespace Locator

/-- The lossless canonical URI form. -/
def toUri (loc : Locator) : Str := scheme ++ [layerSep].intercalate (loc.layers.map layerEncode)

/-- Parse a canonical URI. -/
def fromUri (known : List FsKind) (s : Str) : VfsResult Locator := do
  let rest ← okOr ((s.dropPrefix? scheme).or (s.dropPrefix? legacyScheme)) "missing loc: scheme" s
  let (first, layers) := next (rest.splitOn layerSep)
  let first ← okOr first "empty spec" s
  let spec := .root (← layerParse known first)
  layers.foldlM (fun spec l => do return .push spec (← layerParse known l)) spec

end Locator

end ForensicVfs
