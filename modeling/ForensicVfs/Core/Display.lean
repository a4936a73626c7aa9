import ForensicVfs.Core.Uri

/-!
# The human form

`Display` of a locator, in `uri.rs`: readable and lossy. Names and paths are shown as
`from_utf8_lossy` shows them.
-/

namespace ForensicVfs

open Numeral

/-! ## Lossy text -/

/-- The ranges of the bytes that follow a leading byte in UTF-8, if it is one. -/
def tailRanges (c : UInt8) : Option (List (UInt8 × UInt8)) :=
  if c < 0x80 then some []
  else if 0xC2 ≤ c ∧ c ≤ 0xDF then some [(0x80, 0xBF)]
  else if c = 0xE0 then some [(0xA0, 0xBF), (0x80, 0xBF)]
  else if c = 0xED then some [(0x80, 0x9F), (0x80, 0xBF)]
  else if 0xE1 ≤ c ∧ c ≤ 0xEF then some [(0x80, 0xBF), (0x80, 0xBF)]
  else if c = 0xF0 then some [(0x90, 0xBF), (0x80, 0xBF), (0x80, 0xBF)]
  else if 0xF1 ≤ c ∧ c ≤ 0xF3 then some [(0x80, 0xBF), (0x80, 0xBF), (0x80, 0xBF)]
  else if c = 0xF4 then some [(0x80, 0x8F), (0x80, 0xBF), (0x80, 0xBF)]
  else none

/-- How many of the bytes are in their ranges, and whether all the ranges are met. -/
def matchTails : List (UInt8 × UInt8) → Bytes → Nat × Bool
  | [], _ => (0, true)
  | _ :: _, [] => (0, false)
  | (lo, hi) :: ranges, b :: t =>
    if lo ≤ b ∧ b ≤ hi then ((matchTails ranges t).1 + 1, (matchTails ranges t).2) else (0, false)

/-- The bytes of the replacement character. -/
def replacement : Str := [0xEF, 0xBF, 0xBD]

/-- `String::from_utf8_lossy`: what begins no character, up to the byte that breaks it off, is shown
as the replacement character. -/
def fromUtf8Lossy : Bytes → Str
  | [] => []
  | c :: rest =>
    match (tailRanges c).map fun ranges => matchTails ranges rest with
    | some (n, true) => c :: rest.take n ++ fromUtf8Lossy (rest.drop n)
    | some (n, false) => replacement ++ fromUtf8Lossy (rest.drop n)
    | none => replacement ++ fromUtf8Lossy rest
termination_by s => s.length
decreasing_by all_goals simp only [List.length_drop, List.length_cons]; omega

/-! ## The layers -/

/-- The components, lossily, joined by `/`. -/
def displayComps (cs : List Bytes) : Str := [slash].intercalate (cs.map fromUtf8Lossy)

def displayLayer : Layer → Str
  | .file path => str "file:" ++ fromUtf8Lossy path
  | .directory path => str "dir:" ++ fromUtf8Lossy path
  | .range start len =>
    str "range[" ++ decimal start.toNat ++ str "+" ++ decimal len.toNat ++ str "]"
  | .container format => containerToken format
  | .volume scheme index _ => volumeToken scheme ++ str "#" ++ decimal index.toNat
  | .encryption scheme => encryptionToken scheme
  | .snapshot (.vssStore i) => str "vss#" ++ decimal i.toNat
  | .snapshot (.apfsXid x) => str "apfs@" ++ decimal x.toNat
  | .fs kind (.path cs) => kind.asStr ++ str ":/" ++ displayComps cs
  | .fs kind (.both path _) => kind.asStr ++ str ":/" ++ displayComps path
  | .fs kind (.file id) => kind.asStr ++ str "#" ++ fileIdToken id
  | .stream id => str ":" ++ streamToken id
  | .archive none => str "archive"
  | .archive (some i) => str "archive#" ++ decimal i.toNat

/-- `Display` of a locator: its layers, root first, with ` | ` between them. -/
def Locator.display (loc : Locator) : Str :=
  (str " | ").intercalate (loc.layers.map displayLayer)

end ForensicVfs
