import ForensicVfs.Core.Uri
import ForensicVfs.Lib.Result

/-!
# The accepted texts of the values

What the sub-parsers of single values accept, as relations between a text and the value it denotes:
tokens, integers, percent-encoded bytes (`PctText`) and GUIDs (`GuidText`). The relations speak of
texts alone, with every laxity of the parser in sight: an escape or a GUID pair is any two bytes the
integer parser reads, digits of either case and a `+` included. Each sub-parser is exact for its
relation, so nothing above this file unfolds one.
-/

namespace ForensicVfs

open Delim Numeral Result

/-! ## Lookups -/

@[simp] theorem okOr_eq_ok {α : Type} {x : Option α} {detail : String} {ctx : Str} {a : α} :
    okOr x detail ctx = .ok a ↔ x = some a := by
  cases x <;> simp [okOr]

/-- A vocabulary that lists every value under its token, and only so, parses tokens exactly. -/
theorem parseToken_eq_ok {α : Type} {vocab : List (String × α)} {token : α → Str}
    (hsound : ∀ p ∈ vocab, token p.2 = str p.1) (hall : ∀ x, ∃ p ∈ vocab, p.2 = x)
    (hinj : Function.Injective token) {detail : String} {t ctx : Str} {x : α} :
    parseToken vocab detail t ctx = .ok x ↔ t = token x := by
  simp only [parseToken, okOr_eq_ok, Option.map_eq_some_iff]
  constructor
  · rintro ⟨p, hp, rfl⟩
    have hpt := List.find?_some hp
    rw [hsound p (List.mem_of_find?_eq_some hp)]
    exact (eq_of_beq hpt).symm
  · rintro rfl
    obtain ⟨q, hq, rfl⟩ := hall x
    cases hf : vocab.find? fun p => str p.1 == token q.2 with
    | none =>
      have := List.find?_eq_none.mp hf q hq
      simp [hsound q hq] at this
    | some p =>
      have hpt := List.find?_some hf
      rw [beq_iff_eq] at hpt
      rw [← hsound p (List.mem_of_find?_eq_some hf)] at hpt
      exact ⟨p, rfl, hinj hpt⟩

theorem containerToken_injective : Function.Injective containerToken := by
  intro a b h
  cases a <;> cases b <;> first | rfl | exact absurd h (by decide)

theorem volumeToken_injective : Function.Injective volumeToken := by
  intro a b h
  cases a <;> cases b <;> first | rfl | exact absurd h (by decide)

theorem encryptionToken_injective : Function.Injective encryptionToken := by
  intro a b h
  cases a <;> cases b <;> first | rfl | exact absurd h (by decide)

theorem parseContainer_eq_ok {t ctx : Str} {f : ContainerFormat} :
    parseContainer t ctx = .ok f ↔ t = containerToken f :=
  parseToken_eq_ok (by decide) (fun x => by cases x <;> decide) containerToken_injective

theorem parseVolumeScheme_eq_ok {t ctx : Str} {s : VolumeScheme} :
    parseVolumeScheme t ctx = .ok s ↔ t = volumeToken s :=
  parseToken_eq_ok (by decide) (fun x => by cases x <;> decide) volumeToken_injective

theorem parseEncryption_eq_ok {t ctx : Str} {s : EncryptionScheme} :
    parseEncryption t ctx = .ok s ↔ t = encryptionToken s :=
  parseToken_eq_ok (by decide) (fun x => by cases x <;> decide) encryptionToken_injective

theorem parseFsKind_eq_ok {known : List FsKind} {t ctx : Str} {k : FsKind} :
    parseFsKind known t ctx = .ok k ↔ t = k.asStr ∧ k ∈ known := by
  simp only [parseFsKind, okOr_eq_ok]
  constructor
  · intro h
    have he := List.find?_some h
    exact ⟨(eq_of_beq he).symm, List.mem_of_find?_eq_some h⟩
  · rintro ⟨rfl, hk⟩
    cases hf : known.find? fun k' => k'.asStr == k.asStr with
    | none => simpa using List.find?_eq_none.mp hf k hk
    | some k' =>
      have he := List.find?_some hf
      rw [beq_iff_eq] at he
      cases k
      cases k'
      cases he
      rfl

/-! ## Numbers -/

theorem fromStrRadix_eq_some {radix bits : Nat} {t : Str} {n : Nat} :
    fromStrRadix radix bits t = some n ↔ unsigned radix t = some n ∧ n < 2 ^ bits := by
  simp [fromStrRadix, Option.filter_eq_some_iff]

theorem u64Field_eq_ok {t ctx : Str} {v : UInt64} :
    u64Field t ctx = .ok v ↔ unsigned 10 t = some v.toNat := by
  simp only [u64Field, map_eq_ok, uintField, okOr_eq_ok, fromStrRadix_eq_some]
  constructor
  · rintro ⟨n, ⟨hn, hlt⟩, rfl⟩
    rw [hn, UInt64.toNat_ofNat_of_lt' hlt]
  · intro h
    exact ⟨v.toNat, ⟨h, v.toNat_lt⟩, UInt64.ofNat_toNat⟩

theorem u32Field_eq_ok {t ctx : Str} {v : UInt32} :
    u32Field t ctx = .ok v ↔ unsigned 10 t = some v.toNat := by
  simp only [u32Field, map_eq_ok, uintField, okOr_eq_ok, fromStrRadix_eq_some]
  constructor
  · rintro ⟨n, ⟨hn, hlt⟩, rfl⟩
    rw [hn, UInt32.toNat_ofNat_of_lt' hlt]
  · intro h
    exact ⟨v.toNat, ⟨h, v.toNat_lt⟩, UInt32.ofNat_toNat⟩

theorem usizeField_eq_ok {t ctx : Str} {v : Usize} :
    usizeField t ctx = .ok v ↔ unsigned 10 t = some v.toNat := by
  simp only [usizeField, map_eq_ok, uintField, okOr_eq_ok, fromStrRadix_eq_some]
  constructor
  · rintro ⟨n, ⟨hn, hlt⟩, rfl⟩
    rw [hn, UInt64.toNat_ofNat_of_lt' hlt]
  · intro h
    exact ⟨v.toNat, ⟨h, v.toNat_lt⟩, UInt64.ofNat_toNat⟩

/-- A byte that is neither `+` nor alphanumeric is in no integer text. -/
theorem not_mem_of_unsigned {radix : Nat} {t : Str} {n : Nat} (h : unsigned radix t = some n)
    {d : UInt8} (hd : d ≠ 43 := by decide)
    (hb : ¬((48 ≤ d.toNat ∧ d.toNat ≤ 57) ∨ (65 ≤ d.toNat ∧ d.toNat ≤ 90) ∨
      (97 ≤ d.toNat ∧ d.toNat ≤ 122)) := by decide) : d ∉ t := by
  intro hm
  rcases unsigned_mem h hm with rfl | ⟨v, hv⟩
  · exact hd rfl
  · exact hb (digitValue_some_bound hv)

/-! ## Percent-encoded values -/

/-- The percent-encoded text of a byte string, escapes of either case and `+` sign included. -/
inductive PctText : Str → Bytes → Prop
  | nil : PctText [] []
  | raw {c : UInt8} {t : Str} {bs : Bytes} (hc : c ≠ percent) (ht : PctText t bs) :
      PctText (c :: t) (c :: bs)
  | escape {x y v : UInt8} {t : Str} {bs : Bytes} (hv : unsigned 16 [x, y] = some v.toNat)
      (ht : PctText t bs) : PctText (percent :: x :: y :: t) (v :: bs)

/-- An integer text is ASCII. -/
theorem ascii_of_unsigned {radix n : Nat} {t : Str} (h : unsigned radix t = some n) :
    ∀ c ∈ t, c < 0x80 := by
  intro c hc
  rw [UInt8.lt_iff_toNat_lt]
  rcases unsigned_mem h hc with rfl | ⟨v, hv⟩
  · decide
  · have := digitValue_some_bound hv
    simp only [UInt8.reduceToNat]
    omega

theorem utf8Pair_of_unsigned {radix n : Nat} {x y : UInt8}
    (h : unsigned radix [x, y] = some n) : utf8Pair x y = true := by
  have hx := ascii_of_unsigned h x (by simp)
  have hy := ascii_of_unsigned h y (by simp)
  simp [utf8Pair, hx, hy]

theorem pctDecodeLoop_raw {s : Str} {c : UInt8} (hc : c ≠ percent) (t : Str) :
    pctDecodeLoop s (c :: t) = (pctDecodeLoop s t >>= fun bs => pure (c :: bs)) := by
  rw [pctDecodeLoop.eq_def]
  simp only [if_neg hc]

theorem pctDecodeLoop_eq_ok {s t : Str} {bs : Bytes} :
    pctDecodeLoop s t = .ok bs ↔ PctText t bs := by
  constructor
  · intro h
    induction t using pctDecodeLoop.induct generalizing bs with
    | case1 =>
      cases h
      exact .nil
    | case2 x y rest ih =>
      simp only [pctDecodeLoop, if_true] at h
      obtain ⟨hex, hhex, h1⟩ := bind_eq_ok.mp h
      obtain ⟨v, hv, h2⟩ := bind_eq_ok.mp h1
      obtain ⟨bs', hbs, h3⟩ := bind_eq_ok.mp h2
      rw [pure_eq_ok] at h3
      rw [okOr_eq_ok] at hhex hv
      split at hhex
      · cases hhex
        obtain ⟨hu, hlt⟩ := fromStrRadix_eq_some.mp hv
        cases h3
        exact .escape (by rw [hu, UInt8.toNat_ofNat_of_lt' hlt]) (ih hbs)
      · cases hhex
    | case3 rest hrest =>
      simp only [pctDecodeLoop, if_true] at h
      cases h
    | case4 c rest hc ih =>
      rw [pctDecodeLoop_raw hc] at h
      obtain ⟨bs', hbs, h⟩ := bind_eq_ok.mp h
      rw [pure_eq_ok] at h
      cases h
      exact .raw hc (ih hbs)
  · intro h
    induction h with
    | nil => rfl
    | raw hc _ ih =>
      rw [pctDecodeLoop_raw hc, ih]
      rfl
    | @escape x y v t bs hv _ ih =>
      have hr : fromStrRadix 16 8 [x, y] = some v.toNat :=
        fromStrRadix_eq_some.mpr ⟨hv, v.toNat_lt⟩
      simp only [pctDecodeLoop, if_true, utf8Pair_of_unsigned hv, okOr, ok_bind, hr, ih,
        UInt8.ofNat_toNat]
      rfl

theorem pctDecode_eq_ok {t : Str} {bs : Bytes} : pctDecode t = .ok bs ↔ PctText t bs :=
  pctDecodeLoop_eq_ok

theorem mapM_pctDecode_eq_ok {ts : List Str} {cs : List Bytes} :
    ts.mapM pctDecode = .ok cs ↔ List.Forall₂ PctText ts cs := by
  rw [mapM_eq_ok]
  constructor
  · exact fun h => h.imp fun _ _ => pctDecode_eq_ok.mp
  · exact fun h => h.imp fun _ _ => pctDecode_eq_ok.mpr

/-! ## GUIDs -/

/-- Pairs of bytes that each denote a byte in radix 16. -/
inductive HexText : Str → Bytes → Prop
  | nil : HexText [] []
  | cons {x y v : UInt8} {t : Str} {bs : Bytes} (hv : unsigned 16 [x, y] = some v.toNat)
      (ht : HexText t bs) : HexText (x :: y :: t) (v :: bs)

namespace HexText

theorem length_eq {t : Str} {bs : Bytes} (h : HexText t bs) : t.length = 2 * bs.length := by
  induction h with
  | nil => rfl
  | cons _ _ ih => simp [ih]; omega

theorem append_pair {t : Str} {bs : Bytes} (h : HexText t bs) {x y v : UInt8}
    (hv : unsigned 16 [x, y] = some v.toNat) : HexText (t ++ [x, y]) (bs ++ [v]) := by
  induction h with
  | nil => exact .cons hv .nil
  | cons hv' _ ih => exact .cons hv' ih

theorem of_append_pair {t : Str} {bs : Bytes} {x y v : UInt8}
    (h : HexText (t ++ [x, y]) (bs ++ [v])) :
    HexText t bs ∧ unsigned 16 [x, y] = some v.toNat := by
  induction bs generalizing t with
  | nil =>
    have hlen := h.length_eq
    simp only [List.length_append, List.length_cons, List.length_nil] at hlen
    have ht : t = [] := List.length_eq_zero_iff.mp (by omega)
    subst ht
    cases h with
    | cons hv _ => exact ⟨.nil, hv⟩
  | cons b bs ih =>
    have hlen := h.length_eq
    simp only [List.length_append, List.length_cons, List.length_nil] at hlen
    match t, hlen with
    | p :: q :: t, _ =>
      cases h with
      | cons hv ht =>
        obtain ⟨ht, hlast⟩ := ih ht
        exact ⟨.cons hv ht, hlast⟩

/-- A text of hexadecimal pairs is ASCII. -/
theorem ascii {t : Str} {bs : Bytes} (h : HexText t bs) : ∀ c ∈ t, c < 0x80 := by
  induction h with
  | nil => simp
  | @cons x y v t bs hv _ ih =>
    intro c hc
    rcases List.mem_cons.mp hc with rfl | hc
    · exact ascii_of_unsigned hv c List.mem_cons_self
    · rcases List.mem_cons.mp hc with rfl | hc
      · exact ascii_of_unsigned hv c (List.mem_cons_of_mem _ List.mem_cons_self)
      · exact ih c hc

end HexText

/-- The text of a GUID: sixteen pairs. -/
def GuidText (t : Str) (g : Guid) : Prop := HexText t g.bytes.toList

theorem isCharBoundary_of_ascii {t : Str} (ha : ∀ c ∈ t, c < 0x80) {i : Nat}
    (hi : i ≤ t.length) : isCharBoundary t i = true := by
  unfold isCharBoundary
  split
  · rfl
  · cases hb : t[i]? with
    | none =>
      have := List.getElem?_eq_none_iff.mp hb
      simp
      omega
    | some b => simp [ha b (List.mem_of_getElem? hb)]

/-- The pair at slot `i` extends the text read so far. -/
theorem take_slot {t : Str} {i : Nat} {pair : Str} (hi : i * 2 + 2 ≤ t.length)
    (hp : getRange t (i * 2) (i * 2 + 2) = some pair) :
    ∃ x y, pair = [x, y] ∧ t.take ((i + 1) * 2) = t.take (i * 2) ++ [x, y] := by
  have hlen : (t.drop (i * 2)).length = t.length - i * 2 := List.length_drop
  match hd : t.drop (i * 2), hlen with
  | [], hlen => simp only [List.length_nil] at hlen; omega
  | [_], hlen => simp only [List.length_singleton] at hlen; omega
  | x :: y :: rest, _ =>
    rw [getRange, if_pos ⟨by omega, hi⟩, hd] at hp
    refine ⟨x, y, ?_, ?_⟩
    · simpa using hp.symm
    · rw [show (i + 1) * 2 = i * 2 + 2 by omega, List.take_add, hd]
      rfl

theorem guidSlots_sound {t ctx : Str} {n : Nat} (hn : n * 2 ≤ t.length) {v : Vector UInt8 n}
    (h : guidSlots t ctx n = .ok v) : HexText (t.take (n * 2)) v.toList := by
  induction n with
  | zero =>
    have hv : v.toList = [] := List.length_eq_zero_iff.mp (by simp)
    rw [hv]
    simpa using HexText.nil
  | succ i ih =>
    rw [guidSlots] at h
    obtain ⟨out, hout, h1⟩ := bind_eq_ok.mp h
    obtain ⟨pair, hpair, h2⟩ := bind_eq_ok.mp h1
    obtain ⟨w, hw, h3⟩ := bind_eq_ok.mp h2
    rw [pure_eq_ok] at h3
    rw [okOr_eq_ok] at hpair hw
    unfold strGet at hpair
    split at hpair
    · obtain ⟨x, y, rfl, htake⟩ := take_slot (by omega) hpair
      obtain ⟨hu, hlt⟩ := fromStrRadix_eq_some.mp hw
      rw [← h3, htake, Vector.toList_push]
      exact (ih (by omega) hout).append_pair (by rw [hu, UInt8.toNat_ofNat_of_lt' hlt])
    · cases hpair

theorem guidSlots_complete {t ctx : Str} (ha : ∀ c ∈ t, c < 0x80) {n : Nat}
    (hn : n * 2 ≤ t.length) {v : Vector UInt8 n} (h : HexText (t.take (n * 2)) v.toList) :
    guidSlots t ctx n = .ok v := by
  induction n with
  | zero => simp [guidSlots]
  | succ i ih =>
    have hpush : ∃ out b, v = Vector.push out b := Vector.exists_push
    obtain ⟨out, b, rfl⟩ := hpush
    have hget : strGet t (i * 2) (i * 2 + 2) = getRange t (i * 2) (i * 2 + 2) := by
      simp [strGet, isCharBoundary_of_ascii ha (show i * 2 ≤ t.length by omega),
        isCharBoundary_of_ascii ha (show i * 2 + 2 ≤ t.length by omega)]
    have hp : getRange t (i * 2) (i * 2 + 2) = some ((t.drop (i * 2)).take 2) := by
      rw [getRange, if_pos ⟨by omega, by omega⟩]
      simp
    obtain ⟨x, y, hxy, htake⟩ := take_slot (by omega) hp
    rw [htake, Vector.toList_push] at h
    obtain ⟨hpre, hv⟩ := h.of_append_pair
    have hr : fromStrRadix 16 8 [x, y] = some b.toNat :=
      fromStrRadix_eq_some.mpr ⟨hv, b.toNat_lt⟩
    simp only [guidSlots, ih (by omega) hpre, ok_bind, hget, hp, hxy, okOr, hr, UInt8.ofNat_toNat]
    rfl

theorem parseGuid_eq_ok {t ctx : Str} {g : Guid} : parseGuid t ctx = .ok g ↔ GuidText t g := by
  unfold parseGuid GuidText
  constructor
  · intro h
    split at h
    · cases h
    · next hlen =>
      obtain ⟨v, hv, rfl⟩ := map_eq_ok.mp h
      have htext := guidSlots_sound (by omega) hv
      rwa [List.take_of_length_le (by omega)] at htext
  · intro h
    have hlen := h.length_eq
    simp only [Vector.length_toList] at hlen
    have htext : HexText (t.take (16 * 2)) g.bytes.toList := by
      rwa [List.take_of_length_le (by omega)]
    rw [if_neg (by omega), guidSlots_complete h.ascii (by omega) htext]
    rfl

end ForensicVfs
