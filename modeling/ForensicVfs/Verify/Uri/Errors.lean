import ForensicVfs.Verify.Uri.Grammar

/-!
# What a rejected URI is told

Every error of the parsers is one that `err` makes, with a part of the text they were given
(`Shows`): a field parser is told which layer it works for and shows that, and a percent-decoder
shows what it decodes. So `from_uri` fails with the error of the first layer that cannot be parsed,
and what it shows is a part of that layer (`fromUri_error_shows`).
-/

namespace ForensicVfs

open Delim Numeral Result

/-- A parse error that shows a part of the text. -/
def Shows (t : Str) (e : VfsError) : Prop := ∃ detail ctx, ctx <:+: t ∧ e = err detail ctx

section Shows

variable {α : Type} {known : List FsKind} {t u ctx body tag : Str}

theorem Shows.of_part {e : VfsError} (hu : u <:+: t) (h : Shows u e) : Shows t e := by
  obtain ⟨detail, ctx, hctx, rfl⟩ := h
  exact ⟨detail, ctx, hctx.trans hu, rfl⟩

theorem fails_err (detail : String) (h : ctx <:+: t) :
    Fails (Shows t) (.error (err detail ctx) : VfsResult α) :=
  fails_error ⟨detail, ctx, h, rfl⟩

theorem fails_okOr (x : Option α) (detail : String) (h : ctx <:+: t) :
    Fails (Shows t) (okOr x detail ctx) := by
  cases x with
  | none => exact fails_err detail h
  | some a => exact fails_ok _ a

/-! ## Values -/

theorem fails_pctDecodeLoop (s u : Str) : Fails (Shows s) (pctDecodeLoop s u) := by
  induction u using pctDecodeLoop.induct with
  | case1 => exact fails_ok _ _
  | case2 x y rest ih =>
    simp only [pctDecodeLoop, if_true]
    refine (fails_okOr _ _ List.infix_rfl).bind fun hex _ => ?_
    refine (fails_okOr _ _ List.infix_rfl).bind fun v _ => ?_
    exact ih.bind fun bs _ => fails_pure _ _
  | case3 rest hrest =>
    simp only [pctDecodeLoop, if_true]
    exact fails_err _ List.infix_rfl
  | case4 c rest hc ih =>
    rw [pctDecodeLoop_raw hc]
    exact ih.bind fun bs _ => fails_pure _ _

theorem fails_pctDecode (h : u <:+: t) : Fails (Shows t) (pctDecode u) :=
  fun e he => (fails_pctDecodeLoop u u e he).of_part h

theorem fails_parseToken (vocab : List (String × α)) (detail : String) (u : Str)
    (h : ctx <:+: t) : Fails (Shows t) (parseToken vocab detail u ctx) :=
  fails_okOr _ detail h

theorem fails_u64Field (u : Str) (h : ctx <:+: t) : Fails (Shows t) (u64Field u ctx) :=
  (fails_okOr _ _ h).map _

theorem fails_u32Field (u : Str) (h : ctx <:+: t) : Fails (Shows t) (u32Field u ctx) :=
  (fails_okOr _ _ h).map _

theorem fails_usizeField (u : Str) (h : ctx <:+: t) : Fails (Shows t) (usizeField u ctx) :=
  (fails_okOr _ _ h).map _

theorem fails_guidSlots (u : Str) (h : ctx <:+: t) (n : Nat) :
    Fails (Shows t) (guidSlots u ctx n) := by
  induction n with
  | zero => exact fails_ok _ _
  | succ n ih =>
    refine ih.bind fun out _ => ?_
    refine (fails_okOr _ _ h).bind fun pair _ => ?_
    exact (fails_okOr _ _ h).bind fun v _ => fails_pure _ _

theorem fails_parseGuid (u : Str) (h : ctx <:+: t) : Fails (Shows t) (parseGuid u ctx) :=
  .ite (fails_err _ h) ((fails_guidSlots u h 16).map _)

theorem fails_num (name : String) (it : List Str) (h : ctx <:+: t) :
    Fails (Shows t) (num name ctx it) := by
  refine (fails_okOr _ _ h).bind fun s _ => ?_
  exact (fails_u64Field s h).bind fun v _ => fails_pure _ _

theorem fails_parseFileId (u : Str) (h : ctx <:+: t) : Fails (Shows t) (parseFileId u ctx) := by
  have hone : ∀ (name : String) (it : List Str) (f : UInt64 × List Str → FileId),
      Fails (Shows t) (num name ctx it >>= fun x => pure (f x)) :=
    fun name it f => (fails_num name it h).bind fun x _ => fails_pure _ _
  have htwo : ∀ (name name' : String) (it : List Str)
      (f : UInt64 × List Str → UInt64 × List Str → FileId), Fails (Shows t)
        (num name ctx it >>= fun x => num name' ctx x.2 >>= fun y => pure (f x y)) :=
    fun name name' it f => (fails_num name it h).bind fun x _ => hone name' x.2 _
  refine (fails_okOr _ _ h).bind fun head _ => ?_
  refine .ite (htwo _ _ _ _) (.ite (htwo _ _ _ _) (.ite (htwo _ _ _ _) (.ite (htwo _ _ _ _) ?_)))
  exact .ite (hone _ _ _) (.ite (hone _ _ _) (fails_err _ h))

theorem fails_parseStream (u : Str) (h : ctx <:+: t) : Fails (Shows t) (parseStream u ctx) := by
  have hindex : ∀ (field : Str) (f : UInt32 → StreamId),
      Fails (Shows t) (u32Field field ctx >>= fun n => pure (f n)) :=
    fun field f => (fails_u32Field field h).bind fun n _ => fails_pure _ _
  unfold parseStream matchStream
  refine .ite (fails_pure _ _) (.ite (fails_pure _ _) (.ite (fails_pure _ _) ?_))
  exact .ite (hindex _ _) (.ite (hindex _ _) (fails_err _ h))

/-! ## Node addresses -/

theorem stripSlash_suffix (u : Str) : stripSlash u <:+ u := by
  unfold stripSlash
  split
  · exact List.suffix_cons _ _
  · exact List.suffix_rfl

/-- The path components behind a `/`, each a part of the text. -/
theorem fails_components (h : u <:+: t) :
    Fails (Shows t) ((u.splitOn slash).mapM pctDecode) :=
  fails_mapM fun _ hc => fails_pctDecode ((infix_of_mem_splitOn hc).trans h)

theorem fails_decodeComps (h : u <:+: t) : Fails (Shows t) (decodeComps u) :=
  .ite (fails_ok _ _) (fails_components ((stripSlash_suffix u).isInfix.trans h))

/-- The second part of a split in two is a part of the text. -/
theorem infix_of_next_splitn2 {d : UInt8} {p : Str}
    (h : (next (next (splitn2 d u)).2).1 = some p) : p <:+: u := by
  unfold splitn2 at h
  cases hs : splitOnce d u with
  | none =>
    rw [hs] at h
    cases h
  | some ab =>
    obtain ⟨a, b⟩ := ab
    rw [hs] at h
    cases h
    obtain ⟨rfl, -⟩ := splitOnce_eq_some.mp hs
    exact ⟨a ++ [d], [], by simp⟩

theorem fails_parseNodeAddr (hu : u <:+: t) (h : ctx <:+: t) :
    Fails (Shows t) (parseNodeAddr u ctx) := by
  have hrest : u.drop (firstCharLen u) <:+: t := (List.drop_suffix _ u).isInfix.trans hu
  unfold parseNodeAddr matchNodeAddr
  generalize u.drop (firstCharLen u) = rest at hrest ⊢
  have hstrip : stripSlash rest <:+: t := (stripSlash_suffix rest).isInfix.trans hrest
  refine .ite ?_ (.ite ?_ (.ite ?_ (fails_err _ h)))
  · exact (fails_decodeComps hrest).bind fun cs _ => fails_pure _ _
  · exact (fails_parseFileId _ h).bind fun id _ => fails_pure _ _
  · refine (fails_parseFileId _ h).bind fun id _ => ?_
    refine Fails.bind ?_ fun path _ => fails_pure _ _
    split
    · next p hp => exact fails_components ((infix_of_next_splitn2 hp).trans hstrip)
    · exact fails_ok _ _

/-! ## Layers -/

theorem fails_parseVolume (body : Str) (h : ctx <:+: t) :
    Fails (Shows t) (parseVolume body ctx) := by
  refine (fails_parseToken _ _ _ h).bind fun scheme _ => ?_
  refine (fails_okOr _ _ h).bind fun second _ => ?_
  refine (fails_usizeField _ h).bind fun index _ => ?_
  refine Fails.bind ?_ fun guid _ => fails_pure _ _
  split
  · exact (fails_parseGuid _ h).map _
  · exact fails_ok _ _

theorem fails_parseSnapshot (body : Str) (h : ctx <:+: t) :
    Fails (Shows t) (parseSnapshot body ctx) := by
  refine (fails_okOr _ _ h).bind fun p _ => ?_
  refine .ite ?_ (.ite ?_ (fails_err _ h))
  · exact (fails_usizeField _ h).bind fun i _ => fails_pure _ _
  · exact (fails_u64Field _ h).bind fun x _ => fails_pure _ _

theorem fails_matchLayer (hbody : body <:+: t) : Fails (Shows t) (matchLayer known tag body t) := by
  have h : t <:+: t := List.infix_rfl
  refine .ite ?_ (.ite ?_ (.ite ?_ (.ite ?_ (.ite ?_ (.ite ?_ (.ite ?_ (.ite ?_ (.ite ?_ (.ite ?_
    (fails_err _ h))))))))))
  · exact (fails_pctDecode hbody).bind fun path _ => fails_pure _ _
  · exact (fails_pctDecode hbody).bind fun path _ => fails_pure _ _
  · refine (fails_okOr _ _ h).bind fun p _ => ?_
    refine (fails_u64Field _ h).bind fun start _ => ?_
    exact (fails_u64Field _ h).bind fun len _ => fails_pure _ _
  · exact (fails_parseToken _ _ _ h).bind fun format _ => fails_pure _ _
  · exact fails_parseVolume body h
  · exact (fails_parseToken _ _ _ h).bind fun scheme _ => fails_pure _ _
  · exact fails_parseSnapshot body h
  · refine (fails_okOr _ _ h).bind fun p hp => ?_
    obtain ⟨kind, addr⟩ := p
    obtain ⟨hbodyEq, -⟩ := splitOnce_eq_some.mp (okOr_eq_ok.mp hp)
    have haddr : addr <:+: t := by
      refine List.IsInfix.trans ⟨kind ++ [comma], [], ?_⟩ hbody
      rw [hbodyEq]
      simp
    refine (fails_okOr _ _ h).bind fun k _ => ?_
    exact (fails_parseNodeAddr haddr h).bind fun at' _ => fails_pure _ _
  · exact (fails_parseStream _ h).bind fun id _ => fails_pure _ _
  · refine .ite (fails_pure _ _) ?_
    exact (fails_usizeField _ h).bind fun i _ => fails_pure _ _

/-- A layer's error shows a part of the layer. -/
theorem fails_layerParse (known : List FsKind) (t : Str) :
    Fails (Shows t) (layerParse known t) := by
  refine (fails_okOr _ _ List.infix_rfl).bind fun p hp => ?_
  obtain ⟨tag, body⟩ := p
  obtain ⟨rfl, -⟩ := splitOnce_eq_some.mp (okOr_eq_ok.mp hp)
  exact fails_matchLayer ⟨tag ++ [colon], [], by simp⟩

/-! ## Whole URIs -/

theorem suffix_of_schemes {s rest : Str}
    (h : (s.dropPrefix? scheme).or (s.dropPrefix? legacyScheme) = some rest) : rest <:+ s := by
  rcases Option.or_eq_some_iff.mp h with h | ⟨-, h⟩
  · obtain ⟨p, rfl, -⟩ := List.dropPrefix?_eq_some_iff.mp h
    exact List.suffix_append p rest
  · obtain ⟨p, rfl, -⟩ := List.dropPrefix?_eq_some_iff.mp h
    exact List.suffix_append p rest

/-- The layers behind the first fail as the first of them that cannot be parsed. -/
theorem foldlM_push_error {known : List FsKind} {ts : List Str} {spec : Locator} {e : VfsError}
    (h : ts.foldlM (fun spec l => do return .push spec (← layerParse known l)) spec = .error e) :
    ∃ before u after, ts = before ++ u :: after ∧ (∀ v ∈ before, ∃ l, LayerText known v l) ∧
      layerParse known u = .error e := by
  induction ts generalizing spec with
  | nil => cases h
  | cons t ts ih =>
    rw [List.foldlM_cons] at h
    cases ht : layerParse known t with
    | error e' =>
      rw [ht] at h
      cases h
      exact ⟨[], t, ts, rfl, fun v hv => absurd hv List.not_mem_nil, ht⟩
    | ok l =>
      rw [ht] at h
      obtain ⟨before, u, after, rfl, hb, hu⟩ := ih h
      refine ⟨t :: before, u, after, rfl, ?_, hu⟩
      exact List.forall_mem_cons.mpr ⟨⟨l, layerParse_eq_ok.mp ht⟩, hb⟩

/-- The parser fails at the scheme, or as the first layer that cannot be parsed. -/
theorem fromUri_eq_error {known : List FsKind} {s : Str} {e : VfsError}
    (h : Locator.fromUri known s = .error e) :
    (uriLayers s = none ∧ e = err "missing loc: scheme" s) ∨
      ∃ before u after, uriLayers s = some (before ++ u :: after) ∧
        (∀ v ∈ before, ∃ l, LayerText known v l) ∧ layerParse known u = .error e := by
  unfold Locator.fromUri at h
  unfold uriLayers
  cases hr : (s.dropPrefix? scheme).or (s.dropPrefix? legacyScheme) with
  | none =>
    rw [hr] at h
    cases h
    exact .inl ⟨rfl, rfl⟩
  | some rest =>
    rw [hr] at h
    simp only [okOr, ok_bind] at h
    rw [Option.map_some]
    cases hp : rest.splitOn layerSep with
    | nil => exact absurd hp (List.splitOn_ne_nil layerSep rest)
    | cons first ts =>
      rw [hp] at h
      right
      cases hfirst : layerParse known first with
      | error e' =>
        simp only [next_cons, ok_bind, hfirst] at h
        cases h
        exact ⟨[], first, ts, rfl, fun v hv => absurd hv List.not_mem_nil, hfirst⟩
      | ok l =>
        simp only [next_cons, ok_bind, hfirst] at h
        obtain ⟨before, u, after, rfl, hb, hu⟩ := foldlM_push_error h
        refine ⟨first :: before, u, after, rfl, ?_, hu⟩
        exact List.forall_mem_cons.mpr ⟨⟨l, layerParse_eq_ok.mp hfirst⟩, hb⟩

end Shows

/-- **A rejected URI is told why.** It has no scheme, and is shown; or the error is that of its
first layer that cannot be parsed, and shows a part of that layer. -/
theorem fromUri_error_shows {known : List FsKind} {s : Str} {e : VfsError}
    (h : Locator.fromUri known s = .error e) :
    (uriLayers s = none ∧ e = err "missing loc: scheme" s) ∨
      ∃ before t after, uriLayers s = some (before ++ t :: after) ∧
        (∀ u ∈ before, ∃ l, LayerText known u l) ∧ (∀ l, ¬LayerText known t l) ∧ t <:+: s ∧
          Shows t e := by
  rcases fromUri_eq_error h with hscheme | ⟨before, t, after, hts, hb, ht⟩
  · exact .inl hscheme
  · refine .inr ⟨before, t, after, hts, hb, fun l hl => ?_, ?_, fails_layerParse known t e ht⟩
    · rw [layerParse_eq_ok.mpr hl] at ht
      cases ht
    · obtain ⟨rest, hrest, hpieces⟩ := Option.map_eq_some_iff.mp hts
      have hmem : t ∈ rest.splitOn layerSep := by
        rw [hpieces]
        exact List.mem_append_right _ List.mem_cons_self
      exact (infix_of_mem_splitOn hmem).trans (suffix_of_schemes hrest).isInfix

/-- The member index of an archive that is no number. -/
theorem fromUri_error_shows_member :
    let s := str "loc:file:e.zip|archive:x|fs:ntfs,p"
    (uriLayers s = none ∧ err "expected index" (str "archive:x") = err "missing loc: scheme" s) ∨
      ∃ before t after, uriLayers s = some (before ++ t :: after) ∧
        (∀ u ∈ before, ∃ l, LayerText [⟨str "ntfs"⟩] u l) ∧
        (∀ l, ¬LayerText [⟨str "ntfs"⟩] t l) ∧ t <:+: s ∧
          Shows t (err "expected index" (str "archive:x")) :=
  fromUri_error_shows (by rfl)

end ForensicVfs
