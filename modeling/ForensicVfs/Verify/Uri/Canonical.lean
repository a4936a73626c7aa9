import ForensicVfs.Verify.Uri.Fields
import ForensicVfs.Verify.Uri.RoundTrip

/-!
# Which accepted texts are canonical

`rewriteUri` takes an accepted text to the current spelling: the scheme `loc:`, the tag `file` and
plain decimals of the stored numbers. The result is what `to_uri` emits exactly for the tight texts
(`UriTight`): no surplus piece, a `/` behind the tag of a node address, escapes in upper case and
only where they are needed, a GUID in lower case. `from_uri` checks none of these, so it also
accepts texts that are not canonical.
-/

namespace ForensicVfs

open Delim Numeral Result Template

/-! ## Tight texts -/

/-- An escape of upper-case digits of a byte that needs one. -/
def tightEscape (x y : UInt8) : Bool :=
  decide (IsHexDigit 65 x) && decide (IsHexDigit 65 y) &&
    (unsigned 16 [x, y]).all fun v => !unreserved (UInt8.ofNat v)

def tightPct : Str → Bool
  | [] => true
  | c :: rest =>
    if c = percent then
      match rest with
      | x :: y :: rest => tightEscape x y && tightPct rest
      | _ => false
    else unreserved c && tightPct rest

def tightGuid (t : Str) : Bool := t.all fun c => decide (IsHexDigit 97 c)

/-- As many pieces behind the tag as it has fields. -/
def tightPieces (widths : Str → List Nat) (t : Str) : Bool :=
  match t.splitOn dot with
  | [] => true
  | tag :: ps => ps.length == (widths tag).length

def tightComps (ts : List Str) : Bool := ts.all tightPct

def tightAddr : Str → Bool
  | [] => true
  | c :: rest =>
    if c = 102 then leadSlash rest == [slash] && tightPieces fileIdWidths (stripSlash rest)
    else if c = 98 then
      match (stripSlash rest).splitOn slash with
      | [] => true
      | first :: ts =>
        leadSlash rest == [slash] && tightPieces fileIdWidths first && tightComps ts
    else rest == [] || (leadSlash rest == [slash] && tightComps ((stripSlash rest).splitOn slash))

/-- At most one GUID behind the index, and a tight one. -/
def tightVolume : List Str → Bool
  | [] => true
  | [g] => tightGuid g
  | _ => false

def tightBody (tag body : Str) : Bool :=
  if tag = str "file" ∨ tag = str "os" ∨ tag = str "dir" then tightPct body
  else if tag = str "volume" then tightVolume ((body.splitOn comma).drop 2)
  else if tag = str "fs" then
    match splitOnce comma body with
    | some (_, addr) => tightAddr addr
    | none => true
  else if tag = str "stream" then tightPieces streamWidths body
  else true

def tightLayer (t : Str) : Bool :=
  match splitOnce colon t with
  | some (tag, body) => tightBody tag body
  | none => true

/-- Every layer of the URI is tight. -/
def UriTight (s : Str) : Prop := ∀ t ∈ (uriLayers s).getD [], tightLayer t = true

/-! ## The current spelling -/

/-- `os` is the legacy spelling of `file`. -/
def currentTag (tag : Str) : Str := if tag = str "os" then str "file" else tag

/-- A layer text under its current tag, with the stored numbers as plain decimals. -/
def rewriteLayer (t : Str) (l : Layer) : Str :=
  match splitOnce colon t with
  | some (tag, body) =>
    currentTag tag ++ colon :: refill (bodySegs tag body) (l.numbers.map decimal)
  | none => t

def rewriteUri (s : Str) (loc : Locator) : Str :=
  scheme ++
    [layerSep].intercalate (List.zipWith rewriteLayer ((uriLayers s).getD []) loc.layers)

/-! ## Values -/

theorem eq_pctEncode_iff {t : Str} {bs : Bytes} (h : PctText t bs) :
    t = pctEncode bs ↔ tightPct t = true := by
  induction h with
  | nil => simp [pctEncode, tightPct]
  | @raw c t bs hc _ ih =>
    have htight : tightPct (c :: t) = (unreserved c && tightPct t) := by
      rw [tightPct.eq_def]
      exact if_neg hc
    have hcons : pctEncode (c :: bs) =
        (if unreserved c then [c] else percent :: bytePair 65 c) ++ pctEncode bs := rfl
    rw [htight, hcons, Bool.and_eq_true, ← ih]
    by_cases hu : unreserved c = true
    · simp [hu]
    · simp [hu, hc]
  | @escape x y v t bs hv _ ih =>
    have htight : tightPct (percent :: x :: y :: t) = (tightEscape x y && tightPct t) := by
      rw [tightPct, if_pos rfl]
    have hcons : pctEncode (v :: bs) =
        (if unreserved v then [v] else percent :: bytePair 65 v) ++ pctEncode bs := rfl
    have hesc : tightEscape x y = true ↔ unreserved v = false ∧ bytePair 65 v = [x, y] := by
      simp only [tightEscape, hv, Option.all_some, UInt8.ofNat_toNat, Bool.and_eq_true,
        decide_eq_true_eq, Bool.not_eq_true']
      constructor
      · rintro ⟨⟨hx, hy⟩, hu⟩
        exact ⟨hu, bytePair_of_unsigned (.inl rfl) hx hy hv⟩
      · rintro ⟨hu, hp⟩
        have hd := bytePair_isHexDigit 65 v
        rw [hp] at hd
        exact ⟨⟨hd x (by simp), hd y (by simp)⟩, hu⟩
    rw [htight, hcons, Bool.and_eq_true, hesc, ← ih]
    by_cases hu : unreserved v = true
    · have hne : percent ≠ v := by
        rintro rfl
        exact absurd hu (by decide)
      simp [hu, hne]
    · simp [hu, bytePair, and_assoc, eq_comm]

theorem eq_map_pctEncode_iff {ts : List Str} {cs : List Bytes} (h : List.Forall₂ PctText ts cs) :
    ts = cs.map pctEncode ↔ tightComps ts = true := by
  unfold tightComps
  induction h with
  | nil => simp
  | cons hp _ ih => simp [eq_pctEncode_iff hp, ih]

theorem eq_flatMap_bytePair_iff {t : Str} {bs : Bytes} (h : HexText t bs) :
    t = bs.flatMap (bytePair 97) ↔ tightGuid t = true := by
  unfold tightGuid
  induction h with
  | nil => simp
  | @cons x y v t bs hv _ ih =>
    have hp : [x, y] = bytePair 97 v ↔ IsHexDigit 97 x ∧ IsHexDigit 97 y := by
      constructor
      · intro hp
        have hd := bytePair_isHexDigit 97 v
        rw [← hp] at hd
        exact ⟨hd x (by simp), hd y (by simp)⟩
      · rintro ⟨hx, hy⟩
        exact (bytePair_of_unsigned (.inr rfl) hx hy hv).symm
    rw [List.flatMap_cons, List.all_cons, List.all_cons, Bool.and_eq_true, Bool.and_eq_true, ← ih,
      decide_eq_true_eq, decide_eq_true_eq, ← and_assoc, ← hp]
    simp [bytePair, and_assoc]

theorem eq_guidHex_iff {t : Str} {g : Guid} (h : GuidText t g) :
    t = guidHex g ↔ tightGuid t = true :=
  eq_flatMap_bytePair_iff h

/-! ## File ids and streams -/

theorem refill_pieceSegs {ws : List Nat} {ps us : List Str} (hlen : us.length = ws.length)
    (hle : ws.length ≤ ps.length) :
    refill (pieceSegs ws ps) us =
      us.flatMap (dot :: ·) ++ (ps.drop ws.length).flatMap (dot :: ·) := by
  induction ws generalizing ps us with
  | nil =>
    rw [List.length_eq_zero_iff.mp hlen]
    simp [pieceSegs]
  | cons w ws ih =>
    cases ps with
    | nil => simp at hle
    | cons p ps =>
      cases us with
      | nil => simp at hlen
      | cons u us =>
        simp only [List.length_cons, Nat.add_right_cancel_iff, Nat.add_le_add_iff_right] at hlen hle
        simp [pieceSegs, ih hlen hle]

/-- The current spelling of `.`-separated fields is the token exactly when nothing is left over. -/
theorem dotted_eq_iff {widths : Str → List Nat} {t tag token : Str} {ps us : List Str}
    (hs : t.splitOn dot = tag :: ps) (hlen : us.length = (widths tag).length)
    (hle : (widths tag).length ≤ ps.length) (htok : token = tag ++ us.flatMap (dot :: ·)) :
    refill (dottedSegs widths t) us = token ↔ tightPieces widths t = true := by
  unfold dottedSegs tightPieces
  rw [hs, htok, refill_lit, refill_pieceSegs hlen hle, List.append_cancel_left_eq,
    List.append_right_eq_self, beq_iff_eq]
  constructor
  · intro h
    cases hd : ps.drop (widths tag).length with
    | nil => exact Nat.le_antisymm (List.drop_eq_nil_iff.mp hd) hle
    | cons p rest => simp [hd] at h
  · intro h
    rw [← h, List.drop_length, List.flatMap_nil]

theorem tag_one (t tag : Str) (ht : t = tag ++ [dot]) (a : Str) :
    t ++ a = tag ++ [a].flatMap (dot :: ·) := by
  simp [ht]

theorem tag_two (t tag : Str) (ht : t = tag ++ [dot]) (a b : Str) :
    t ++ a ++ dot :: b = tag ++ [a, b].flatMap (dot :: ·) := by
  simp [ht]

theorem fileId_eq_iff {t : Str} {id : FileId} (h : FileIdText (t.splitOn dot) id) :
    refill (dottedSegs fileIdWidths t) (id.numbers.map decimal) = fileIdToken id ↔
      tightPieces fileIdWidths t = true := by
  generalize hp : t.splitOn dot = ps at h
  cases h with
  | ntfsRef =>
    exact dotted_eq_iff hp rfl (Nat.le_add_left 2 _)
      (tag_two (str "ntfsref.") (str "ntfsref") rfl _ _)
  | extInode =>
    exact dotted_eq_iff hp rfl (Nat.le_add_left 2 _)
      (tag_two (str "extinode.") (str "extinode") rfl _ _)
  | apfsOid =>
    exact dotted_eq_iff hp rfl (Nat.le_add_left 2 _)
      (tag_two (str "apfsoid.") (str "apfsoid") rfl _ _)
  | fatDirEntry =>
    exact dotted_eq_iff hp rfl (Nat.le_add_left 2 _)
      (tag_two (str "fatdirentry.") (str "fatdirentry") rfl _ _)
  | isoExtent =>
    exact dotted_eq_iff hp rfl (Nat.le_add_left 1 _)
      (tag_one (str "isoextent.") (str "isoextent") rfl _)
  | opaqueId =>
    exact dotted_eq_iff hp rfl (Nat.le_add_left 1 _) (tag_one (str "opaque.") (str "opaque") rfl _)

theorem stream_eq_iff {t : Str} {id : StreamId} (h : StreamText (t.splitOn dot) id) :
    refill (dottedSegs streamWidths t) (id.numbers.map decimal) = streamToken id ↔
      tightPieces streamWidths t = true := by
  generalize hp : t.splitOn dot = ps at h
  cases h with
  | default => exact dotted_eq_iff hp rfl (Nat.zero_le _) rfl
  | resourceFork => exact dotted_eq_iff hp rfl (Nat.zero_le _) rfl
  | slack => exact dotted_eq_iff hp rfl (Nat.zero_le _) rfl
  | named =>
    exact dotted_eq_iff hp rfl (Nat.le_add_left 1 _) (tag_one (str "named.") (str "named") rfl _)
  | xattr =>
    exact dotted_eq_iff hp rfl (Nat.le_add_left 1 _) (tag_one (str "xattr.") (str "xattr") rfl _)

theorem fileIdText_tag {ps : List Str} {id : FileId} (h : FileIdText ps id) :
    ∃ c tag rest, ps = (c :: tag) :: rest ∧ c ≠ slash := by
  cases h <;> exact ⟨_, _, _, rfl, by decide⟩

/-- A file id starts with its tag, so not with a `/`. -/
theorem fileId_ne_slash {t : Str} {id : FileId} (h : FileIdText (t.splitOn dot) id)
    (us : List Str) (u v : Str) : refill (dottedSegs fileIdWidths t) us ++ u ≠ slash :: v := by
  obtain ⟨c, tag, rest, hp, hc⟩ := fileIdText_tag h
  unfold dottedSegs
  rw [hp]
  intro he
  exact hc (List.cons.inj he).1

/-! ## Node addresses -/

theorem slash_cons_stripSlash {t : Str} (h : leadSlash t = [slash]) :
    slash :: stripSlash t = t := by
  have ha := leadSlash_append t
  rwa [h] at ha

theorem leadSlash_of_cons {t u : Str} (h : t = slash :: u) : leadSlash t = [slash] := by
  rw [h]
  rfl

theorem leadSlash_append_eq_iff {t u v : Str} (hu : u ≠ slash :: v) :
    leadSlash t ++ u = slash :: v ↔ leadSlash t = [slash] ∧ u = v := by
  unfold leadSlash
  split
  · simp
  · simp [hu]

theorem eq_comps_iff {rest : Str} {cs : List Bytes}
    (hp : List.Forall₂ PctText ((stripSlash rest).splitOn slash) cs) :
    rest = comps cs ↔
      leadSlash rest = [slash] ∧ tightComps ((stripSlash rest).splitOn slash) = true := by
  rw [← eq_map_pctEncode_iff hp, comps_eq_flatMap]
  constructor
  · intro h
    have hne : cs.map pctEncode ≠ [] := by
      intro hnil
      rw [List.map_eq_nil_iff.mp hnil] at hp
      exact absurd (List.forall₂_nil_right_iff.mp hp) (List.splitOn_ne_nil slash _)
    have hlead : leadSlash rest = [slash] :=
      leadSlash_of_cons (h.trans (flatMap_cons_delim hne))
    have hflat : [] ++ ((stripSlash rest).splitOn slash).flatMap (slash :: ·) =
        [] ++ (cs.map pctEncode).flatMap (slash :: ·) := by
      rw [flatMap_splitOn, slash_cons_stripSlash hlead, ← h]
    exact ⟨hlead, ((append_flatMap_inj List.not_mem_nil List.not_mem_nil
      (fun _ => not_mem_of_mem_splitOn) (slash_not_mem_components cs)).mp hflat).2⟩
  · rintro ⟨hlead, hts⟩
    rw [← hts, flatMap_splitOn, slash_cons_stripSlash hlead]

/-- The bytes of a current spelling are the text's own and digits. -/
theorem not_mem_refill {segs : List UriSeg} {ns : List Nat} {d : UInt8} (ht : d ∉ text segs)
    (hd : unreserved d = false) : d ∉ refill segs (ns.map decimal) := by
  intro h
  rcases mem_refill h with h | ⟨u, hu, h⟩
  · exact ht h
  · obtain ⟨n, -, rfl⟩ := List.mem_map.mp hu
    exact not_mem_decimal hd n h

theorem nodeAddr_eq_iff {t : Str} {addr : NodeAddr} (h : NodeAddrText t addr) :
    refill (addrSegs t) (addr.numbers.map decimal) = nodeAddrEncode addr ↔ tightAddr t = true := by
  cases h with
  | root => exact ⟨fun _ => rfl, fun _ => rfl⟩
  | @path rest cs hne hp =>
    have htight : tightAddr (str "p" ++ rest) = (rest == [] || (leadSlash rest == [slash] &&
      tightComps ((stripSlash rest).splitOn slash))) := rfl
    have hrefill : refill (addrSegs (str "p" ++ rest)) [] = str "p" ++ (rest ++ []) := rfl
    rw [htight]
    show refill (addrSegs (str "p" ++ rest)) [] = str "p" ++ comps cs ↔ _
    rw [hrefill, List.append_nil, List.append_cancel_left_eq, eq_comps_iff hp]
    simp [hne]
  | @file rest id hid =>
    have htight : tightAddr (str "f" ++ rest) = (leadSlash rest == [slash] &&
      tightPieces fileIdWidths (stripSlash rest)) := rfl
    have hne := fileId_ne_slash hid (id.numbers.map decimal) [] (fileIdToken id)
    rw [List.append_nil] at hne
    rw [htight, Bool.and_eq_true, beq_iff_eq, ← fileId_eq_iff hid]
    show str "f" ++ (leadSlash rest ++ refill (dottedSegs fileIdWidths (stripSlash rest))
      (id.numbers.map decimal)) = str "f" ++ (slash :: fileIdToken id) ↔ _
    rw [List.append_cancel_left_eq, leadSlash_append_eq_iff hne]
  | @both rest first ts id path hs hid hp =>
    have htight : tightAddr (str "b" ++ rest) =
        (leadSlash rest == [slash] && tightPieces fileIdWidths first && tightComps ts) := by
      show tightAddr (98 :: rest) = _
      rw [tightAddr, if_neg (by decide), if_pos rfl, hs]
    have hrefill : refill (addrSegs (str "b" ++ rest)) (id.numbers.map decimal) =
        str "b" ++ (leadSlash rest ++ (refill (dottedSegs fileIdWidths first)
          (id.numbers.map decimal) ++ ts.flatMap (slash :: ·))) := by
      have hlen := (denotes_fileId hid).length_eq
      rw [addrSegs_both hs, refill_lit, refill_append_lit _ (by rw [hlen, List.length_map]),
        List.append_assoc]
    have hpieces : ∀ t ∈ first :: ts, slash ∉ t := hs ▸ fun _ => not_mem_of_mem_splitOn
    obtain ⟨hfirst, hts⟩ := List.forall_mem_cons.mp hpieces
    have hspell : slash ∉ refill (dottedSegs fileIdWidths first) (id.numbers.map decimal) :=
      not_mem_refill (by rwa [text_dottedSegs]) (by decide)
    rw [htight, Bool.and_eq_true, Bool.and_eq_true, beq_iff_eq, ← fileId_eq_iff hid,
      ← eq_map_pctEncode_iff hp]
    show refill (addrSegs (str "b" ++ rest)) (id.numbers.map decimal) =
      str "b" ++ (slash :: (fileIdToken id ++ comps path)) ↔ _
    rw [hrefill, List.append_cancel_left_eq, leadSlash_append_eq_iff (fileId_ne_slash hid _ _ _),
      comps_eq_flatMap, append_flatMap_inj hspell (not_mem_fileIdToken rfl id) hts
        (slash_not_mem_components path), and_assoc]

/-! ## Layers -/

theorem tagged_eq_iff {t x y : Str} (tag : Str) (ht : t = tag ++ [colon]) :
    tag ++ colon :: x = t ++ y ↔ x = y := by
  rw [ht, List.append_assoc, List.append_cancel_left_eq, List.singleton_append, List.cons.injEq,
    eq_self, true_and]

/-- The GUID of a volume and what is behind it. -/
theorem guidTail_eq_iff {g : Str} {rest : List Str} {guid : Guid} (hg : GuidText g guid)
    (hc : ∀ t ∈ g :: rest, comma ∉ t) :
    (g :: rest).flatMap (comma :: ·) = comma :: guidHex guid ↔
      tightVolume (g :: rest) = true := by
  have hg' : ∀ t ∈ [guidHex guid], comma ∉ t := by
    simpa using not_mem_guidHex rfl guid
  have hinj : [] ++ (g :: rest).flatMap (comma :: ·) = [] ++ [guidHex guid].flatMap (comma :: ·) ↔
      ([] : Str) = [] ∧ g :: rest = [guidHex guid] :=
    append_flatMap_inj List.not_mem_nil List.not_mem_nil hc hg'
  rw [List.nil_append, List.nil_append, List.flatMap_singleton, eq_self, true_and] at hinj
  rw [hinj]
  cases rest with
  | nil =>
    rw [List.cons.injEq, eq_self, and_true]
    exact eq_guidHex_iff hg
  | cons p rest => simp [tightVolume]

theorem body_eq_iff {known : List FsKind} {tag body : Str} {l : Layer}
    (h : LayerBody known tag body l) :
    currentTag tag ++ colon :: refill (bodySegs tag body) (l.numbers.map decimal) =
      layerEncode l ↔ tightBody tag body = true := by
  cases h with
  | file h =>
    refine (tagged_eq_iff (str "file") rfl).trans ?_
    refine (Eq.congr_left (List.append_nil body)).trans ?_
    exact eq_pctEncode_iff h
  | os h =>
    refine (tagged_eq_iff (str "file") rfl).trans ?_
    refine (Eq.congr_left (List.append_nil body)).trans ?_
    exact eq_pctEncode_iff h
  | directory h =>
    refine (tagged_eq_iff (str "dir") rfl).trans ?_
    refine (Eq.congr_left (List.append_nil body)).trans ?_
    exact eq_pctEncode_iff h
  | range ha hb =>
    rw [bodySegs_range (not_mem_of_unsigned ha), layerEncode, List.append_assoc]
    refine iff_of_true ((tagged_eq_iff (str "range") rfl).mpr ?_) rfl
    simp [Layer.numbers]
  | @container format =>
    refine iff_of_true ((tagged_eq_iff (str "container") rfl).mpr ?_) rfl
    exact List.append_nil (containerToken format)
  | volume hs hn =>
    have htight : tightBody (str "volume") body = tightVolume ((body.splitOn comma).drop 2) := rfl
    rw [bodySegs_volume hs, htight, hs, layerEncode, List.append_nil, List.append_assoc]
    refine iff_of_true ((tagged_eq_iff (str "volume") rfl).mpr ?_) rfl
    simp [Layer.numbers]
  | @volumeGuid _ n g rest scheme index guid hs hn hg =>
    have htight : tightBody (str "volume") body = tightVolume ((body.splitOn comma).drop 2) := rfl
    have hc : ∀ t ∈ volumeToken scheme :: n :: g :: rest, comma ∉ t :=
      hs ▸ fun _ => not_mem_of_mem_splitOn
    have hc' : ∀ t ∈ g :: rest, comma ∉ t :=
      (List.forall_mem_cons.mp (List.forall_mem_cons.mp hc).2).2
    rw [bodySegs_volume hs, htight, hs, List.drop_succ_cons, List.drop_succ_cons, List.drop_zero,
      ← guidTail_eq_iff hg hc', layerEncode, List.append_assoc, List.append_assoc]
    refine (tagged_eq_iff (str "volume") rfl).trans ?_
    simp [Layer.numbers]
  | @encryption scheme =>
    refine iff_of_true ((tagged_eq_iff (str "encryption") rfl).mpr ?_) rfl
    exact List.append_nil (encryptionToken scheme)
  | @vssStore n i hn =>
    have henc : layerEncode (.snapshot (.vssStore i)) =
        str "snapshot:" ++ (str "vss" ++ [comma] ++ (decimal i.toNat ++ [])) := by
      rw [List.append_nil]
      rfl
    rw [bodySegs_snapshot (by decide), henc]
    exact iff_of_true ((tagged_eq_iff (str "snapshot") rfl).mpr rfl) rfl
  | @apfsXid n x hn =>
    have henc : layerEncode (.snapshot (.apfsXid x)) =
        str "snapshot:" ++ (str "apfs" ++ [comma] ++ (decimal x.toNat ++ [])) := by
      rw [List.append_nil]
      rfl
    rw [bodySegs_snapshot (by decide), henc]
    exact iff_of_true ((tagged_eq_iff (str "snapshot") rfl).mpr rfl) rfl
  | @fs kind addr at' hk hc ha =>
    have htight : tightBody (str "fs") (kind.asStr ++ comma :: addr) = tightAddr addr := by
      rw [tightBody, if_neg (by decide), if_neg (by decide), if_pos rfl, splitOnce_append hc]
    rw [htight, bodySegs_fs hc, layerEncode, List.append_assoc, ← nodeAddr_eq_iff ha]
    refine (tagged_eq_iff (str "fs") rfl).trans ?_
    rw [refill_lit, List.append_assoc, List.append_cancel_left_eq, List.singleton_append,
      List.cons.injEq, eq_self, true_and]
    rfl
  | stream h =>
    refine (tagged_eq_iff (str "stream") rfl).trans ?_
    exact stream_eq_iff h
  | archive => exact iff_of_true rfl rfl
  | @member _ i hi =>
    rw [bodySegs_member (ne_nil_of_unsigned hi)]
    refine iff_of_true ((tagged_eq_iff (str "archive") rfl).mpr ?_) rfl
    exact List.append_nil (decimal i.toNat)

theorem layer_eq_iff {known : List FsKind} {t : Str} {l : Layer} (h : LayerText known t l) :
    rewriteLayer t l = layerEncode l ↔ tightLayer t = true := by
  obtain ⟨tag, body, hs, hb⟩ := h
  unfold rewriteLayer tightLayer
  rw [hs]
  exact body_eq_iff hb

/-! ## Whole URIs -/

theorem layerSep_not_mem_layerText {known : List FsKind} {t : Str} {l : Layer}
    (h : LayerText known t l) (ht : layerSep ∉ t) : layerSep ∉ layerEncode l := by
  obtain ⟨tag, body, hs, hb⟩ := h
  obtain ⟨rfl, -⟩ := splitOnce_eq_some.mp hs
  apply layerSep_not_mem_layerEncode l
  cases hb with
  | fs hk hc ha =>
    intro k hk' hm
    cases hk'
    exact ht (by simp [hm])
  | _ => simp [Layer.fsKind?]

/-- No layer of an accepted locator is written with a `|`. -/
theorem layerSep_not_mem_accepted {known : List FsKind} {s : Str} {loc : Locator}
    (h : UriText known s loc) : ∀ u ∈ loc.layers.map layerEncode, layerSep ∉ u := by
  obtain ⟨ts, hts, hall⟩ := h
  obtain ⟨rest, -, rfl⟩ := Option.map_eq_some_iff.mp hts
  intro u hu
  obtain ⟨l, hl, rfl⟩ := List.mem_map.mp hu
  obtain ⟨i, hi, rfl⟩ := List.mem_iff_getElem.mp hl
  have ht : i < (rest.splitOn layerSep).length := hall.length_eq ▸ hi
  exact layerSep_not_mem_layerText (List.forall₂_iff_get.mp hall |>.2 i ht hi)
    (not_mem_of_mem_splitOn (List.getElem_mem ht))

theorem layerSep_not_mem_rewriteLayer {t : Str} {l : Layer} (ht : layerSep ∉ t) :
    layerSep ∉ rewriteLayer t l := by
  unfold rewriteLayer
  split
  · next tag body hs =>
    obtain ⟨rfl, -⟩ := splitOnce_eq_some.mp hs
    have htag : layerSep ∉ currentTag tag := by
      unfold currentTag
      split
      · decide
      · exact fun h => ht (List.mem_append_left _ h)
    have hbody : layerSep ∉ text (bodySegs tag body) := by
      rw [text_bodySegs]
      exact fun h => ht (List.mem_append_right _ (List.mem_cons_of_mem _ h))
    exact List.not_mem_append htag
      (List.not_mem_cons_of_ne_of_not_mem (by decide) (not_mem_refill hbody (by decide)))
  · exact ht

theorem rewriteLayers_eq_iff {known : List FsKind} {ts : List Str} {ls : List Layer}
    (h : List.Forall₂ (LayerText known) ts ls) :
    List.zipWith rewriteLayer ts ls = ls.map layerEncode ↔ ∀ t ∈ ts, tightLayer t = true := by
  induction h with
  | nil => simp
  | cons hl _ ih =>
    rw [List.zipWith_cons_cons, List.map_cons, List.cons.injEq, layer_eq_iff hl, ih,
      List.forall_mem_cons]

theorem rewriteUri_eq_iff {known : List FsKind} {s : Str} {loc : Locator}
    (h : UriText known s loc) : rewriteUri s loc = loc.toUri ↔ UriTight s := by
  have hold := layerSep_not_mem_accepted h
  obtain ⟨ts, hts, hall⟩ := h
  have hsep : ∀ t ∈ ts, layerSep ∉ t := by
    obtain ⟨rest, -, rfl⟩ := Option.map_eq_some_iff.mp hts
    exact fun _ => not_mem_of_mem_splitOn
  have hlen : ts.length = loc.layers.length := hall.length_eq
  have hpos : 0 < loc.layers.length := List.length_pos_iff.mpr loc.layers_ne_nil
  have hne : List.zipWith rewriteLayer ts loc.layers ≠ [] := by
    rw [← List.length_pos_iff, List.length_zipWith]
    omega
  have hne' : loc.layers.map layerEncode ≠ [] := by simp [loc.layers_ne_nil]
  have hnew : ∀ u ∈ List.zipWith rewriteLayer ts loc.layers, layerSep ∉ u := by
    intro u hu
    obtain ⟨i, hi, rfl⟩ := List.mem_iff_getElem.mp hu
    rw [List.getElem_zipWith]
    exact layerSep_not_mem_rewriteLayer (hsep _ (List.getElem_mem _))
  unfold rewriteUri Locator.toUri UriTight
  rw [hts, Option.getD_some, List.append_cancel_left_eq, intercalate_inj hne hne' hnew hold]
  exact rewriteLayers_eq_iff hall

/-- `from_uri` accepts this text only with the locator whose canonical URI it spells. -/
def CanonicalOnly (known : List FsKind) (s : Str) : Prop :=
  ∀ loc, Locator.fromUri known s = .ok loc → rewriteUri s loc = loc.toUri

/-- **What `from_uri` accepts is canonical exactly where it is tight.** -/
theorem canonicalOnly_iff (known : List FsKind) (s : Str) :
    CanonicalOnly known s ↔ (UriForm known s → UriTight s) := by
  constructor
  · rintro h ⟨loc, hloc⟩
    exact (rewriteUri_eq_iff hloc).mp (h loc (fromUri_eq_ok.mpr hloc))
  · intro h loc hloc
    have htext := fromUri_eq_ok.mp hloc
    exact (rewriteUri_eq_iff htext).mpr (h ⟨loc, htext⟩)

/-- A surplus field is accepted and dropped. -/
theorem not_canonicalOnly_surplus :
    ¬CanonicalOnly [⟨str "ntfs"⟩] (str "loc:fs:ntfs,f/ntfsref.5.1.99") := by
  intro h
  have hok : Locator.fromUri [⟨str "ntfs"⟩] (str "loc:fs:ntfs,f/ntfsref.5.1.99") =
      .ok (.root (.fs ⟨str "ntfs"⟩ (.file (.ntfsRef 5 1)))) := by rfl
  exact absurd (h _ hok) (by decide)

end ForensicVfs
