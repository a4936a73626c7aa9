import ForensicVfs.Verify.Adapters.Stack

/-!
# Reading all or failing

`read_exact_at` asks for all the bytes in one read. Behind a chain of windows over a file that read
is one positioned read of the file, of the whole buffer, as long as the stream has the bytes
(`readAt_nest_within`); past the end of the stream no read fills the buffer. So whether
`read_exact_at` gives what the stream has is decided by that one read: where the operating system
stops short it fails, although the stream is not too short (`readExactAt_complete_iff`).
-/

namespace ForensicVfs

open Slice Nested Result

/-! ## The bytes of a stream -/

/-- The bytes a chain of windows over `content` shows. -/
def streamBytes (content : Bytes) (ws : List (UInt64 × UInt64)) : Bytes :=
  ws.foldl (fun B w => slice B w.1.toNat w.2.toNat) content

/-- They are the part the windows have in common. -/
theorem streamBytes_eq (content : Bytes) (ws : List (UInt64 × UInt64)) :
    streamBytes content ws =
      slice content (origin (ws.map extent)) (room content.length (ws.map extent)) := by
  induction ws generalizing content with
  | nil => exact slice_self.symm
  | cons w ws ih =>
    have hroom := room_le (min w.2.toNat (content.length - w.1.toNat)) (ws.map extent)
    show streamBytes (slice content w.1.toNat w.2.toNat) ws = _
    rw [ih, slice_slice, length_slice, List.map_cons, origin_cons, room]
    congr 1
    show min (room (min w.2.toNat (content.length - w.1.toNat)) (ws.map extent)) _ = _
    exact Nat.min_eq_left (by omega)

/-- A part of the stream is a part of the content. -/
theorem slice_streamBytes {content : Bytes} {ws : List (UInt64 × UInt64)} {offset n : Nat}
    (h : offset + n ≤ room content.length (ws.map extent)) :
    slice (streamBytes content ws) offset n =
      slice content (origin (ws.map extent) + offset) n := by
  rw [streamBytes_eq, slice_slice, Nat.min_eq_left (by omega)]

/-! ## One read -/

/-- Reads stay within the buffer and the stream. -/
def ImageSource.Bounded (s : ImageSource) : Prop :=
  ∀ offset buf n, (s.readAt offset buf).1 = .ok n →
    n ≤ buf.length ∧ (n = 0 ∨ offset.toNat + n ≤ s.len.toNat)

theorem SubRange.bounded {s : SubRange} (h : s.parent.Bounded) : s.source.Bounded :=
  fun _ _ _ hn => SubRange.readAt_le (fun offset buf n hn => (h offset buf n hn).1) hn

theorem bounded_nest {parent : DynSource} (h : parent.Bounded) (ws : List (UInt64 × UInt64)) :
    (nest parent ws).Bounded := by
  induction ws generalizing parent with
  | nil => exact h
  | cons w ws ih => exact ih (SubRange.bounded h)

/-- Where a read of a chain of windows arrives in the parent. -/
def arrival (ws : List (UInt64 × UInt64)) (offset : UInt64) : UInt64 :=
  .ofNat (origin (ws.map extent) + offset.toNat)

section Within

variable {parent : DynSource} {ws : List (UInt64 × UInt64)} {offset : UInt64}

/-- A read within the stream is one within the parent. -/
theorem arrival_within {n : Nat} (hn : 0 < n)
    (hend : offset.toNat + n ≤ (nest parent ws).len.toNat) :
    (arrival ws offset).toNat = origin (ws.map extent) + offset.toNat ∧
      (arrival ws offset).toNat + n ≤ parent.len.toNat := by
  have hroom := room_le parent.len.toNat (ws.map extent)
  have hlt := parent.len.toNat_lt
  rw [len_nest] at hend
  have harrival : (arrival ws offset).toNat = origin (ws.map extent) + offset.toNat :=
    toNat_ofNat_of_lt (by omega)
  exact ⟨harrival, by omega⟩

/-- **A read the stream has the bytes for** is one read of the parent, of the whole buffer. -/
theorem readAt_nest_within {buf : Bytes} (hbuf : buf ≠ [])
    (hend : offset.toNat + buf.length ≤ (nest parent ws).len.toNat) :
    (nest parent ws).readAt offset buf = parent.readAt (arrival ws offset) buf := by
  have hpos : 0 < buf.length := List.length_pos_iff.mpr hbuf
  cases ws with
  | nil =>
    rw [arrival, List.map_nil, origin_nil, Nat.zero_add, UInt64.ofNat_toNat]
    rfl
  | cons w ws =>
    rw [len_nest] at hend
    rw [readAt_nest, view, if_neg (by omega), Nat.min_eq_left (by omega), overPrefix_length]
    rfl

end Within

section Files

variable {file : File} {s : FileSource}

/-- An opened file, and what its length is. -/
theorem fileSource_of_fromFile (h : FileSource.fromFile file = .ok s) :
    s.file = file ∧ s.len.toNat = file.content.length := by
  refine ⟨?_, FileSource.len_of_fromFile h⟩
  obtain ⟨len, -, hs⟩ := bind_eq_ok.mp h
  cases hs
  rfl

theorem bounded_fileSource (h : FileSource.fromFile file = .ok s) : s.source.Bounded := by
  obtain ⟨rfl, hlen⟩ := fileSource_of_fromFile h
  intro offset buf n hn
  show _ ∧ (_ ∨ _ ≤ s.len.toNat)
  rw [hlen]
  exact FileSource.readAt_le hn

theorem FileSource.readAt_of_lt {offset : UInt64} (h : offset < s.len) (buf : Bytes) :
    s.readAt offset buf =
      ((s.file.readAt offset buf).1.mapError (.io "read_at"), (s.file.readAt offset buf).2) :=
  if_neg (UInt64.not_le.mpr h)

end Files

/-! ## All or nothing -/

/-- `read_exact_at` succeeds, and the buffer holds the bytes of `B` from the offset on. -/
def ReadsExactly (src : ImageSource) (B : Bytes) (offset : UInt64) (buf : Bytes) : Prop :=
  readExactAt src offset buf = (.ok (), slice B offset.toNat buf.length)

/-- Past the end of the stream `read_exact_at` fails. -/
theorem not_readsExactly_of_lt {src : ImageSource} (h : src.Bounded) {B : Bytes} {offset : UInt64}
    {buf : Bytes} (hbuf : buf ≠ []) (hend : src.len.toNat < offset.toNat + buf.length) :
    ¬ReadsExactly src B offset buf := by
  intro hexact
  have hpos : 0 < buf.length := List.length_pos_iff.mpr hbuf
  have hbound := (h offset buf _ (readExactAt_eq_ok.mp hexact).1).2
  omega

/-- **When `read_exact_at` gives what the stream has.** Over a file of unchanged length, and any
chain of windows over it, it succeeds with the stream's bytes exactly when the stream has them, if
and only if the one positioned read of the file that it comes down to is not cut short by the
operating system. -/
theorem readExactAt_complete_iff {file : File} {s : FileSource}
    (h : FileSource.fromFile file = .ok s) (ws : List (UInt64 × UInt64)) (offset : UInt64)
    (buf : Bytes) (hbuf : buf ≠ []) :
    (ReadsExactly (nest s.source ws) (streamBytes file.content ws) offset buf ↔
        offset.toNat + buf.length ≤ (nest s.source ws).len.toNat) ↔
      (offset.toNat + buf.length ≤ (nest s.source ws).len.toNat →
        (file.readAt (arrival ws offset) buf).1 = .ok buf.length) := by
  by_cases hend : offset.toNat + buf.length ≤ (nest s.source ws).len.toNat
  · obtain ⟨rfl, hlen⟩ := fileSource_of_fromFile h
    have hpos : 0 < buf.length := List.length_pos_iff.mpr hbuf
    obtain ⟨harrival, hwithin⟩ := arrival_within hpos hend
    have hlt : arrival ws offset < s.len :=
      UInt64.lt_iff_toNat_lt.mpr (Nat.lt_of_lt_of_le (Nat.lt_add_of_pos_right hpos) hwithin)
    have hread : (nest s.source ws).readAt offset buf =
        ((s.file.readAt (arrival ws offset) buf).1.mapError (.io "read_at"),
          (s.file.readAt (arrival ws offset) buf).2) :=
      (readAt_nest_within hbuf hend).trans (FileSource.readAt_of_lt hlt buf)
    rw [iff_true_right hend, forall_prop_of_true hend, ReadsExactly, readExactAt_eq_ok, hread,
      mapError_eq_ok]
    refine ⟨And.left, fun hfull => ⟨hfull, ?_⟩⟩
    -- the bytes a full read gives are those of the stream
    obtain ⟨-, hbytes⟩ := s.file.readAt_ok _ _ _ hfull
    have hroom : offset.toNat + buf.length ≤ room s.file.content.length (ws.map extent) := by
      rw [← hlen]
      exact Nat.le_trans hend (Nat.le_of_eq (len_nest s.source ws))
    rw [slice_streamBytes hroom, ← harrival, ← hbytes]
    exact (List.take_of_length_le (Nat.le_of_eq (s.file.length_readAt _ _))).symm
  · have hnot := not_readsExactly_of_lt (B := streamBytes file.content ws)
      (bounded_nest (bounded_fileSource h) ws) hbuf (Nat.lt_of_not_le hend)
    exact iff_of_true (iff_of_false hnot hend) fun hle => absurd hle hend

theorem readExactAt_complete_iff_window :
    let s : FileSource := ⟨numberedFile 4, 4⟩
    (ReadsExactly (nest s.source [(1, 2)]) (streamBytes (numberedFile 4).content [(1, 2)]) 0
        [1, 2] ↔
        (0 : UInt64).toNat + [(1 : UInt8), 2].length ≤ (nest s.source [(1, 2)]).len.toNat) ↔
      ((0 : UInt64).toNat + [(1 : UInt8), 2].length ≤ (nest s.source [(1, 2)]).len.toNat →
        ((numberedFile 4).readAt (arrival [(1, 2)] 0) [1, 2]).1 = .ok [(1 : UInt8), 2].length) :=
  readExactAt_complete_iff rfl [(1, 2)] 0 [1, 2] (List.cons_ne_nil 1 [2])

/-! ## A file larger than one read -/

/-- Before the end of the file a read gives at least one byte. -/
def File.Progresses (file : File) : Prop :=
  ∀ offset buf, buf ≠ [] → offset.toNat < file.content.length →
    ∃ n, (file.readAt offset buf).1 = .ok n ∧ 0 < n

theorem progresses_cappedFile {size cap : Nat} (hcap : 0 < cap) :
    (cappedFile size cap).Progresses := by
  intro offset buf hbuf hoffset
  have hpos : 0 < buf.length := List.length_pos_iff.mpr hbuf
  have hsize : (cappedFile size cap).content.length = size := length_numbered size
  rw [hsize] at hoffset
  exact ⟨_, rfl, by omega⟩

theorem fromFile_cappedFile {size cap : Nat} (hsize : size < 2 ^ 64) :
    FileSource.fromFile (cappedFile size cap) = .ok ⟨cappedFile size cap, .ofNat size⟩ := by
  have hmeta : (cappedFile size cap).metadata = .ok (.ofNat size) := if_pos hsize
  rw [FileSource.fromFile, hmeta]
  rfl

/-- A file that is read no more than `cap` bytes at a time does not fill a greater buffer. -/
theorem not_readsExactly_cappedFile {size cap : Nat} {len : UInt64} {B : Bytes}
    {offset : UInt64} {buf : Bytes} (hoffset : offset < len) (hcap : cap < buf.length) :
    ¬ReadsExactly (FileSource.source ⟨cappedFile size cap, len⟩) B offset buf := by
  intro hexact
  have hfull : (FileSource.readAt ⟨cappedFile size cap, len⟩ offset buf).1 = .ok buf.length :=
    (readExactAt_eq_ok.mp hexact).1
  rw [FileSource.readAt_of_lt hoffset] at hfull
  have hmin : min (min buf.length cap) (size - offset.toNat) = buf.length := Except.ok.inj hfull
  omega

/-- A file of `0x7ffff001` bytes, of which Linux reads at most `0x7ffff000` at once: reading it
whole fails. -/
theorem readExactAt_past_cap :
    let file := cappedFile 0x7ffff001 0x7ffff000
    let s : FileSource := ⟨file, 0x7ffff001⟩
    let buf : Bytes := List.replicate 0x7ffff001 0
    file.Progresses ∧ FileSource.fromFile file = .ok s ∧ buf ≠ [] ∧
      ¬(ReadsExactly (nest s.source []) (streamBytes file.content []) 0 buf ↔
        (0 : UInt64).toNat + buf.length ≤ (nest s.source []).len.toNat) := by
  intro file s buf
  have hlen : buf.length = 0x7ffff001 := List.length_replicate
  refine ⟨progresses_cappedFile (by decide), fromFile_cappedFile (by decide), ?_, fun h => ?_⟩
  · apply List.ne_nil_of_length_pos
    rw [hlen]
    decide
  · refine not_readsExactly_cappedFile (by decide) ?_ (h.mpr ?_)
    · rw [hlen]
      decide
    · rw [hlen]
      show 0 + 0x7ffff001 ≤ (0x7ffff001 : UInt64).toNat
      decide

end ForensicVfs
