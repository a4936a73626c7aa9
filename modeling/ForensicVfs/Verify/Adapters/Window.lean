import ForensicVfs.Core.Adapters
import ForensicVfs.Lib.Nested

/-!
# Nested windows of a source

A window read is one read of the parent, shifted by the base and cut to what the window has left
(`readAt_eq_view`); the clamp at construction keeps the shift from saturating. So a chain of
windows over windows reads as the one window that all of them have in common (`nest_flattens`), and
what it asks of the root parent lies inside that one.
-/

namespace ForensicVfs

open Slice Nested

/-! ## One window -/

/-- A read of the part `[base, base + len)` of a parent. -/
def view (parent : DynSource) (base len : Nat) (offset : UInt64) (buf : Bytes) :
    VfsResult Nat × Bytes :=
  if len ≤ offset.toNat then (.ok 0, buf)
  else overPrefix (min buf.length (len - offset.toNat)) buf
    (parent.readAt (.ofNat (base + offset.toNat)))

namespace SubRange

/-- The read a window passes on to its parent. -/
def issued (s : SubRange) (offset : UInt64) (buf : Bytes) : Option (UInt64 × Bytes) :=
  if offset ≥ s.len then none
  else some (saturatingAdd s.base offset, buf.take (min buf.length (s.len - offset).toNat))

theorem readAt_eq_issued (s : SubRange) (offset : UInt64) (buf : Bytes) :
    s.readAt offset buf =
      match s.issued offset buf with
      | none => (.ok 0, buf)
      | some (abs, dst) =>
        ((s.parent.readAt abs dst).1, (s.parent.readAt abs dst).2 ++ buf.drop dst.length) := by
  unfold readAt issued
  by_cases h : offset ≥ s.len
  · rw [if_pos h, if_pos h]
  · rw [if_neg h, if_neg h]
    simp only [overPrefix, List.length_take]
    rw [min_eq_left (Nat.min_le_left _ _)]

theorem len_new (parent : DynSource) (base len : UInt64) :
    (new parent base len).len.toNat = min len.toNat (parent.len.toNat - base.toNat) := by
  show (min len (saturatingSub parent.len base)).toNat = _
  rw [UInt64.toNat_min, toNat_saturatingSub]

/-- The shift of an offset within the window does not saturate. -/
theorem saturatingAdd_eq (s : SubRange) {offset : UInt64} (h : offset.toNat < s.len.toNat) :
    saturatingAdd s.base offset = .ofNat (s.base.toNat + offset.toNat) := by
  have hclamp := s.clamped
  have hlen := s.parent.len.toNat_lt
  apply UInt64.toNat_inj.mp
  rw [toNat_saturatingAdd, toNat_ofNat_of_lt (by omega)]
  omega

theorem readAt_eq_view (s : SubRange) (offset : UInt64) (buf : Bytes) :
    s.readAt offset buf = view s.parent s.base.toNat s.len.toNat offset buf := by
  unfold readAt view
  by_cases h : offset ≥ s.len
  · rw [if_pos h, if_pos (UInt64.le_iff_toNat_le.mp h)]
  · have hle : ¬s.len.toNat ≤ offset.toNat := fun hle => h (UInt64.le_iff_toNat_le.mpr hle)
    have hlt : offset.toNat < s.len.toNat := by omega
    rw [if_neg h, if_neg hle]
    simp only
    rw [s.saturatingAdd_eq hlt, toNat_sub_of_lt (UInt64.not_le.mp h)]

end SubRange

theorem overPrefix_length {α : Type} (buf : Bytes) (read : Bytes → α × Bytes) :
    overPrefix buf.length buf read = read buf := by
  simp [overPrefix]

/-- **A view of a window** is a view of its parent. -/
theorem view_source (s : SubRange) {base len : Nat} (h : len ≤ s.len.toNat - base)
    (offset : UInt64) (buf : Bytes) : view s.source base len offset buf =
      view s.parent (s.base.toNat + base) len offset buf := by
  unfold view
  by_cases hoffset : len ≤ offset.toNat
  · rw [if_pos hoffset, if_pos hoffset]
  · rw [if_neg hoffset, if_neg hoffset]
    have hlen := s.len.toNat_lt
    have hshift : (UInt64.ofNat (base + offset.toNat)).toNat = base + offset.toNat :=
      toNat_ofNat_of_lt (by omega)
    have hread : ∀ dst : Bytes, dst.length ≤ len - offset.toNat →
        s.readAt (.ofNat (base + offset.toNat)) dst =
          s.parent.readAt (.ofNat (s.base.toNat + base + offset.toNat)) dst := by
      intro dst hdst
      rw [s.readAt_eq_view, view, hshift, if_neg (by omega), Nat.min_eq_left (by omega),
        overPrefix_length, Nat.add_assoc]
    show overPrefix _ buf (s.readAt _) = _
    unfold overPrefix
    rw [hread _ (by rw [List.length_take]; omega)]

/-! ## Chains of windows -/

/-- Windows over windows of a parent, the outermost first. -/
def nest : DynSource → List (UInt64 × UInt64) → DynSource
  | parent, [] => parent
  | parent, w :: ws => nest (SubRange.new parent w.1 w.2).source ws

/-- The read that arrives at the parent. -/
def nestIssued : DynSource → List (UInt64 × UInt64) → UInt64 → Bytes → Option (UInt64 × Bytes)
  | _, [], offset, buf => some (offset, buf)
  | parent, w :: ws, offset, buf =>
    (nestIssued (SubRange.new parent w.1 w.2).source ws offset buf).bind fun r =>
      (SubRange.new parent w.1 w.2).issued r.1 r.2

/-- The bases and lengths as numbers. -/
def extent (w : UInt64 × UInt64) : Nat × Nat := (w.1.toNat, w.2.toNat)

theorem len_nest (parent : DynSource) (ws : List (UInt64 × UInt64)) :
    (nest parent ws).len.toNat = room parent.len.toNat (ws.map extent) := by
  induction ws generalizing parent with
  | nil => rfl
  | cons w ws ih =>
    rw [nest, ih, List.map_cons, room]
    congr 1
    exact SubRange.len_new parent w.1 w.2

/-- **A chain of windows reads as one view of the parent.** -/
theorem readAt_nest (parent : DynSource) (w : UInt64 × UInt64) (ws : List (UInt64 × UInt64))
    (offset : UInt64) (buf : Bytes) : (nest parent (w :: ws)).readAt offset buf =
      view parent (origin ((w :: ws).map extent))
        (room parent.len.toNat ((w :: ws).map extent)) offset buf := by
  induction ws generalizing parent w with
  | nil =>
    show (SubRange.new parent w.1 w.2).readAt offset buf = _
    rw [SubRange.readAt_eq_view, SubRange.len_new]
    rfl
  | cons w' ws ih =>
    have hroom := room_le (SubRange.new parent w.1 w.2).len.toNat ((w' :: ws).map extent)
    rw [nest, ih]
    refine (view_source (SubRange.new parent w.1 w.2) hroom offset buf).trans ?_
    rw [SubRange.len_new]
    rfl

theorem issued_within {s : SubRange} {offset abs : UInt64} {buf dst : Bytes}
    (h : s.issued offset buf = some (abs, dst)) : abs.toNat = s.base.toNat + offset.toNat ∧
      dst.length ≤ buf.length ∧ offset.toNat + dst.length ≤ s.len.toNat := by
  unfold SubRange.issued at h
  split at h
  · cases h
  · next hoffset =>
    have hlt := UInt64.not_le.mp hoffset
    have hclamp := s.clamped
    have hparent := s.parent.len.toNat_lt
    cases h
    rw [toNat_saturatingAdd, List.length_take, toNat_sub_of_lt hlt]
    rw [UInt64.lt_iff_toNat_lt] at hlt
    omega

theorem prefix_of_issued {s : SubRange} {offset abs : UInt64} {buf dst : Bytes}
    (h : s.issued offset buf = some (abs, dst)) : dst <+: buf := by
  unfold SubRange.issued at h
  split at h
  · cases h
  · cases h
    exact List.take_prefix _ buf

theorem prefix_of_nestIssued {parent : DynSource} {ws : List (UInt64 × UInt64)}
    {offset abs : UInt64} {buf dst : Bytes}
    (h : nestIssued parent ws offset buf = some (abs, dst)) : dst <+: buf := by
  induction ws generalizing parent abs dst with
  | nil =>
    cases h
    exact List.prefix_rfl
  | cons w ws ih =>
    obtain ⟨r, hr, hs⟩ := Option.bind_eq_some_iff.mp h
    exact (prefix_of_issued hs).trans (ih hr)

theorem drop_append_drop {b buf : Bytes} (h : b <+: buf) {k : Nat} (hk : k ≤ b.length) :
    b.drop k ++ buf.drop b.length = buf.drop k := by
  obtain ⟨rest, rfl⟩ := h
  rw [List.drop_left, List.drop_append_of_le_length hk]

/-- The answer of a chain of windows is the parent's to the one read that arrives there. -/
theorem readAt_nest_eq_issued (parent : DynSource) (ws : List (UInt64 × UInt64)) (offset : UInt64)
    (buf : Bytes) : (nest parent ws).readAt offset buf =
      match nestIssued parent ws offset buf with
      | none => (.ok 0, buf)
      | some (abs, dst) =>
        ((parent.readAt abs dst).1, (parent.readAt abs dst).2 ++ buf.drop dst.length) := by
  induction ws generalizing parent with
  | nil =>
    show parent.readAt offset buf = (_, _ ++ buf.drop buf.length)
    rw [List.drop_length, List.append_nil]
  | cons w ws ih =>
    rw [nest, ih, nestIssued]
    cases hr : nestIssued (SubRange.new parent w.1 w.2).source ws offset buf with
    | none => rfl
    | some r =>
      obtain ⟨abs, dst⟩ := r
      have hread := (SubRange.new parent w.1 w.2).readAt_eq_issued abs dst
      have hfirst : (SubRange.new parent w.1 w.2).source.readAt abs dst =
          (SubRange.new parent w.1 w.2).readAt abs dst := rfl
      have hparent : (SubRange.new parent w.1 w.2).parent = parent := rfl
      simp only [Option.bind_some, hfirst, hread]
      cases hs : (SubRange.new parent w.1 w.2).issued abs dst with
      | none =>
        simp only
        obtain ⟨rest, rfl⟩ := prefix_of_nestIssued hr
        rw [List.drop_left]
      | some q =>
        simp only [hparent]
        rw [List.append_assoc, drop_append_drop (prefix_of_nestIssued hr)
          (prefix_of_issued hs).length_le]

/-- What arrives at the parent lies in the common part of the windows. -/
theorem nestIssued_within {parent : DynSource} {w : UInt64 × UInt64} {ws : List (UInt64 × UInt64)}
    {offset abs : UInt64} {buf dst : Bytes}
    (h : nestIssued parent (w :: ws) offset buf = some (abs, dst)) :
    abs.toNat = origin ((w :: ws).map extent) + offset.toNat ∧ dst.length ≤ buf.length ∧
      offset.toNat + dst.length ≤ room parent.len.toNat ((w :: ws).map extent) := by
  induction ws generalizing parent w abs dst with
  | nil =>
    obtain ⟨hbase, hdst, hlen⟩ := issued_within h
    rw [SubRange.len_new] at hlen
    exact ⟨hbase, hdst, hlen⟩
  | cons w' ws ih =>
    obtain ⟨r, hr, hs⟩ := Option.bind_eq_some_iff.mp h
    obtain ⟨hbase, hdst, hlen⟩ := issued_within hs
    obtain ⟨hbase', hdst', hlen'⟩ := ih hr
    have hlen'' : offset.toNat + r.2.length ≤
        room parent.len.toNat ((w :: w' :: ws).map extent) := by
      rw [List.map_cons, room]
      refine Nat.le_trans hlen' (Nat.le_of_eq ?_)
      congr 1
      exact SubRange.len_new parent w.1 w.2
    have hfirst : (SubRange.new parent w.1 w.2).base.toNat = (extent w).1 := rfl
    rw [List.map_cons, origin_cons, ← List.map_cons, ← hfirst]
    omega

/-- The one window a chain of windows amounts to. -/
def flat (parent : DynSource) (ws : List (UInt64 × UInt64)) : SubRange :=
  .new parent (.ofNat (origin (ws.map extent)))
    (.ofNat (room parent.len.toNat (ws.map extent)))

/-- The numbers of the one window are exact: its length is that of the common part, and its base the
sum of the bases unless it is empty. -/
theorem flat_exact (parent : DynSource) (ws : List (UInt64 × UInt64)) :
    (flat parent ws).len.toNat = room parent.len.toNat (ws.map extent) ∧
      (0 < (flat parent ws).len.toNat →
        (flat parent ws).base.toNat = origin (ws.map extent)) := by
  have hroom := room_le parent.len.toNat (ws.map extent)
  have hparent := parent.len.toNat_lt
  have hlen : (UInt64.ofNat (room parent.len.toNat (ws.map extent))).toNat =
      room parent.len.toNat (ws.map extent) := toNat_ofNat_of_lt (by omega)
  have hflat : (flat parent ws).len.toNat = min (room parent.len.toNat (ws.map extent))
      (parent.len.toNat - (UInt64.ofNat (origin (ws.map extent))).toNat) := by
    unfold flat
    rw [SubRange.len_new, hlen]
  have hbase : 0 < room parent.len.toNat (ws.map extent) →
      (UInt64.ofNat (origin (ws.map extent))).toNat = origin (ws.map extent) := by
    intro hpos
    exact toNat_ofNat_of_lt (by omega)
  rcases Nat.eq_zero_or_pos (room parent.len.toNat (ws.map extent)) with hzero | hpos
  · rw [hflat, hzero, Nat.zero_min]
    exact ⟨rfl, fun h => absurd h (Nat.lt_irrefl 0)⟩
  · rw [hbase hpos] at hflat
    exact ⟨by omega, fun _ => hbase hpos⟩

/-- **Nested windows flatten.** A chain of windows has the length of the one window whose base is
the sum of the bases and whose length is the part they have in common, reads as it does, and asks
nothing of the parent outside that part. -/
theorem nest_flattens (parent : DynSource) (w : UInt64 × UInt64) (ws : List (UInt64 × UInt64)) :
    let inner := nest parent (w :: ws)
    let one := flat parent (w :: ws)
    let both := common parent.len.toNat ((w :: ws).map extent)
    inner.len = one.len ∧ (∀ offset buf, inner.readAt offset buf = one.readAt offset buf) ∧
      both = Set.Ico (origin ((w :: ws).map extent))
        (origin ((w :: ws).map extent) + one.len.toNat) ∧
      (0 < one.len.toNat → one.base.toNat = origin ((w :: ws).map extent)) ∧
      (∀ offset buf, inner.readAt offset buf =
        match nestIssued parent (w :: ws) offset buf with
        | none => (.ok 0, buf)
        | some (abs, dst) =>
          ((parent.readAt abs dst).1, (parent.readAt abs dst).2 ++ buf.drop dst.length)) ∧
      ∀ offset buf abs dst, nestIssued parent (w :: ws) offset buf = some (abs, dst) →
        Set.Ico abs.toNat (abs.toNat + dst.length) ⊆ both := by
  obtain ⟨hlen, hbase⟩ := flat_exact parent (w :: ws)
  refine ⟨?_, fun offset buf => ?_, ?_, hbase, readAt_nest_eq_issued parent (w :: ws),
    fun offset buf abs dst h => ?_⟩
  · apply UInt64.toNat_inj.mp
    rw [hlen, len_nest]
  · rw [readAt_nest, SubRange.readAt_eq_view, hlen]
    unfold view
    split
    · rfl
    · next hoffset =>
      rw [hbase (by omega)]
      rfl
  · rw [common_eq, hlen]
  · obtain ⟨habs, -, hdst⟩ := nestIssued_within h
    rw [common_eq]
    apply Set.Ico_subset_Ico <;> omega

end ForensicVfs
