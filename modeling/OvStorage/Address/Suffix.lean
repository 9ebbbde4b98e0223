import OvStorage.Address.Containment

/-!
# What lies below a prefix

`relative_suffix` recovers by stripping serializations what an address has below a prefix.
Here the path part of the suffix is read as segments: those of the address behind the
prefix's own, with or without their leading `/`.

The first strip compares whole serializations. On a prefix `x:/` without an authority it cuts
into the `//` of an address written `x:///…` (`SplitsAuthority`), and the suffix keeps a `/`
of it.
-/

namespace OvStorage.Address

open SegList List

/-- `text.strip_prefix('/').unwrap_or(text)`. -/
def withoutLeading (text : Bytes) : Bytes := (text.dropPrefix? [slash]).getD text

/-- `text.strip_suffix('/').unwrap_or(text)`. -/
def withoutTrailing (text : Bytes) : Bytes := (text.dropSuffix? [slash]).getD text

/-! ### What is left of the path -/

/-- The segments of the address below the prefix, with the empty one a trailing `/` is. -/
def tailSegs (ps us : List Bytes) : List Bytes := us.drop (nodeSegs ps).length

/-- The prefix is `x:/` and the address is written `x:///…`. -/
def SplitsAuthority (u p : Parts) : Prop :=
  p.hasAuthority = false ∧ u.hasAuthority = true ∧ p.path = [slash] ∧ p.query = none

instance (u p : Parts) : Decidable (SplitsAuthority u p) := inferInstanceAs (Decidable (_ ∧ _))

/-- The path part of a suffix. -/
def suffixPath (suffix : Bytes) : Bytes := (cutAt question (cutAt hash suffix).1).1

variable {query : Option Bytes}

theorem suffixPath_append {path : Bytes} (hq : question ∉ path) (hh : hash ∉ path)
    (hquery : ∀ q ∈ query, hash ∉ q) : suffixPath (path ++ tagged question query) = path := by
  have hnot : hash ∉ path ++ tagged question query := by
    rw [mem_append, not_or, mem_tagged]
    refine ⟨hh, ?_⟩
    rintro ⟨q, hq, he | hm⟩
    · exact absurd he (by decide)
    · exact hquery q hq hm
  have hcut : cutAt hash (path ++ tagged question query) = (path ++ tagged question query, none) := by
    rw [cutAt, splitOnce_of_not_mem hnot]
  rw [suffixPath, hcut, cutAt_append_tagged hq]

/-- The path part of what follows a path in a serialization. -/
theorem suffixPath_of_append {path rest suffix : Bytes} (hq : question ∉ path)
    (hh : hash ∉ path) (hquery : ∀ q ∈ query, hash ∉ q) (hrest : question ∉ rest)
    (h : path ++ tagged question query = rest ++ suffix) : path = rest ++ suffixPath suffix := by
  obtain ⟨σ, o, rfl, hσ⟩ := exists_tagged question suffix
  have hcut : question ∉ rest ++ σ := by
    rw [mem_append, not_or]
    exact ⟨hrest, hσ⟩
  rw [← append_assoc] at h
  obtain ⟨rfl, rfl⟩ := append_tagged_inj hq hcut h
  have hhash : hash ∉ σ := fun hm => hh (mem_append_right _ hm)
  rw [suffixPath_append hσ hhash hquery]

section Strips

variable {u p : Url}

/-- The fronts of a serialization and of a covering prefix of it agree. -/
theorem front_of_append (hscheme : p.scheme = u.scheme)
    (hu : PathFixed u.scheme u.path) (hp : PathFixed p.scheme p.path) (hsplit : ¬ SplitsAuthority u.toParts p.toParts)
    {suffix : Bytes} (h : u.front ++ (u.path ++ tagged question u.query) =
      p.front ++ (p.path ++ tagged question p.query) ++ suffix) : u.front = p.front := by
  unfold Parts.front at h ⊢
  rw [hscheme] at h ⊢
  obtain ⟨up, hup⟩ := List.head?_eq_some_iff.mp hu.1
  obtain ⟨pp, hpp⟩ := List.head?_eq_some_iff.mp hp.1
  have hcancel := append_cancel_left (show (u.scheme ++ [colon]) ++ _ = (u.scheme ++ [colon]) ++ _ by simpa using h)
  rw [hup, hpp] at hcancel
  cases hau : u.hasAuthority <;> cases hap : p.hasAuthority <;>
    simp only [hau, hap, if_true, Bool.false_eq_true, if_false,
    nil_append, cons_append] at hcancel ⊢
  · -- only the prefix has an authority: the path of the address would begin with `//`
    exfalso
    have hslashes := hu.not_slashes
    rw [hup] at hslashes
    rw [List.cons.injEq] at hcancel
    cases up with
    | nil =>
      cases hq : u.query with
      | none => simp [hq] at hcancel
      | some q =>
        simp only [hq, tagged_some, nil_append, List.cons.injEq] at hcancel
        exact absurd hcancel.2.1 (by decide)
    | cons x up =>
      simp only [cons_append, List.cons.injEq] at hcancel
      simp [hcancel.2.1] at hslashes
  · exfalso
    have hslashes := hp.not_slashes
    rw [hpp] at hslashes
    rw [List.cons.injEq] at hcancel
    cases pp with
    | nil =>
      refine hsplit ⟨hap, hau, hpp, ?_⟩
      cases hq : p.query with
      | none => rfl
      | some q =>
        simp only [hq, tagged_some, nil_append, cons_append, List.cons.injEq] at hcancel
        exact absurd hcancel.2.1 (by decide)
    | cons x pp =>
      simp only [cons_append, List.cons.injEq] at hcancel
      simp [← hcancel.2.1] at hslashes
  · rw [List.cons.injEq, List.cons.injEq] at hcancel
    have heq := (AtSep.append_inj (slash_notMem_authority u.wf) (slash_notMem_authority p.wf) (atSep_cons _)
      (atSep_cons _) (by simpa using hcancel.2.2)).1
    rw [heq]

/-- What is left of the path: a continuation of the prefix's path, or of its node path when
only the prefix ends in `/`; but a strip that cuts into `//` leaves the path behind a `/`. -/
theorem relativeSuffix_path {U : UrlCrate} (law : U.Lawful) {us ps : List Bytes} (hu : Shape u.toParts us)
    (hp : Shape p.toParts ps) (hanc : isAncestorOrSelf p.toParts u.toParts = true) :
    ∃ suffix, relativeSuffix U u p = some suffix ∧
      (SplitsAuthority u.toParts p.toParts ∧ suffixPath suffix = slash :: u.path ∨
        ¬ SplitsAuthority u.toParts p.toParts ∧ (u.path = p.path ++ suffixPath suffix ∨
          ¬ p.path <+: u.path ∧ u.path = nodePath p.toParts ++ suffixPath suffix)) := by
  have hcov := (hp.isAncestorOrSelf_iff hu).mp hanc
  have hscheme : p.scheme = u.scheme := hcov.scheme
  have hhost : p.host = u.host := hcov.host
  have hquery : ∀ q ∈ u.query, hash ∉ q := u.wf.query_bytes
  obtain ⟨hs1, hs2⟩ := relativeSuffix_heads law hu.kept hp.kept hscheme
  -- what a strip of the path leaves, behind the front of the address
  have hcut : ∀ {path suffix : Bytes}, question ∉ path → u.asStr = u.front ++ path ++ suffix →
      u.path = path ++ suffixPath suffix := by
    intro path suffix hq h
    rw [hu.asStr_eq, append_assoc] at h
    exact suffixPath_of_append u.wf.path_bytes.1 u.wf.path_bytes.2 hquery hq (append_cancel_left h)
  unfold relativeSuffix
  simp only [hanc, Bool.not_true, Bool.false_eq_true, if_false]
  by_cases hsplit : SplitsAuthority u.toParts p.toParts
  · have hbare := bare_of_host_none u.wf (hhost ▸ host_none_of_authority p.wf hsplit.1)
    have hfront : u.asStr = p.asStr ++ (slash :: u.path ++ tagged question u.query) := by
      rw [hu.asStr_eq, hp.asStr_eq]
      unfold Parts.front Parts.userinfo Parts.hostPort
      rw [hsplit.1, hsplit.2.1, hsplit.2.2.1, hsplit.2.2.2, hbare.1, hbare.2.1, hbare.2.2, hscheme,
        ← hhost, host_none_of_authority p.wf hsplit.1]
      simp
    refine ⟨_, by rw [dropPrefix?_eq_some.mpr hfront], Or.inl ⟨hsplit, ?_⟩⟩
    refine suffixPath_append ?_ ?_ hquery
    · rw [mem_cons, not_or]
      exact ⟨by decide, u.wf.path_bytes.1⟩
    · rw [mem_cons, not_or]
      exact ⟨by decide, u.wf.path_bytes.2⟩
  · cases h1 : u.asStr.dropPrefix? p.asStr with
    | some suffix =>
      refine ⟨suffix, rfl, Or.inr ⟨hsplit, Or.inl ?_⟩⟩
      rw [dropPrefix?_eq_some] at h1
      have hfront := front_of_append hscheme hu.pathFixed hp.pathFixed hsplit
        (by rw [← hu.asStr_eq, ← hp.asStr_eq]; exact h1)
      rw [hp.asStr_eq, ← hfront, append_assoc, append_assoc] at h1
      cases hpq : p.query with
      | none =>
        rw [hpq] at h1
        exact hcut p.wf.path_bytes.1 (by simpa using h1)
      | some q =>
        -- a pinned prefix is the address itself
        rw [hu.asStr_eq, hpq] at h1
        have huq : u.query = some q := by
          have := hcov.query
          simp only [nodeOf, hpq, reduceCtorEq, false_or] at this
          exact this.symm
        rw [huq] at h1
        have h1 : u.path ++ tagged question (some q) = p.path ++ tagged question (some (q ++ suffix)) := by
          simpa using append_cancel_left h1
        obtain ⟨hpath, hq⟩ := append_tagged_inj u.wf.path_bytes.1 p.wf.path_bytes.1 h1
        have hnil : suffix = [] := by simpa using hq
        rw [hnil, hpath]
        exact (append_nil _).symm
    | none =>
      simp only [hs1, hs2]
      cases h2 : u.asStr.dropPrefix? (u.front ++ p.path) with
      | some suffix =>
        exact ⟨suffix, rfl, Or.inr ⟨hsplit, Or.inl (hcut p.wf.path_bytes.1 (dropPrefix?_eq_some.mp h2))⟩⟩
      | none =>
        have hsegs := hp.segs_of_covers hu hcov
        obtain ⟨rest, hrest⟩ := hp.path_of_covers hu hscheme hhost hsegs
        have h3 : u.asStr.dropPrefix? (u.front ++ nodePath p.toParts) = some (rest ++ tagged question u.query) := by
          rw [dropPrefix?_eq_some, hu.asStr_eq, hrest]
          simp
        refine ⟨_, h3, Or.inr ⟨hsplit, Or.inr ⟨?_, hcut ?_ (dropPrefix?_eq_some.mp h3)⟩⟩⟩
        · rintro ⟨rest', hrest'⟩
          have : u.asStr.dropPrefix? (u.front ++ p.path) = some (rest' ++ tagged question u.query) := by
            rw [dropPrefix?_eq_some, hu.asStr_eq, ← hrest']
            simp
          rw [h2] at this
          cases this
        · intro hm
          exact u.wf.path_bytes.1 (by rw [hrest]; exact mem_append_left _ hm)

end Strips

/-! ### The segments below the prefix -/

theorem nodeSegs_cases {ss : List Bytes} (h : ss ≠ []) : ss = nodeSegs ss ∨ ss = nodeSegs ss ++ [[]] := by
  unfold nodeSegs
  split_ifs with hl
  · right
    obtain ⟨ys, rfl⟩ := List.getLast?_eq_some_iff.mp hl
    simp
  · exact Or.inl rfl

theorem Settled.of_append {as bs : List Bytes} (h : Settled (as ++ bs)) : Settled bs := by
  induction as with
  | nil => exact h
  | cons a as ih =>
    cases has : as ++ bs with
    | nil =>
      rw [(append_eq_nil_iff.mp has).2]
      trivial
    | cons c cs =>
      rw [cons_append, has] at h
      exact ih (has ▸ h.2)

theorem escapedSegs_append (u : Parts) (as bs : List Bytes) :
    escapedSegs u (as ++ bs) = escapedSegs u as ++ escapedSegs u bs := map_append

theorem withoutLeading_cons (t : Bytes) : withoutLeading (slash :: t) = t := getD_dropPrefix?_cons t

theorem withoutLeading_of_head {t : Bytes} (h : t.head? ≠ some slash) : withoutLeading t = t :=
  getD_dropPrefix?_of_head h

section Below

variable {u p : Parts} {us ps : List Bytes}

/-- The address continues the prefix by the segments below it. -/
theorem segs_eq_of_covers (h : nodeSegs ps <+: nodeSegs us) : us = nodeSegs ps ++ tailSegs ps us := by
  obtain ⟨rest, hrest⟩ := h.trans (nodeSegs_front us)
  rw [tailSegs, ← hrest, drop_left]

/-- What is left of the path are the segments below the prefix, with or without their leading
`/`; nothing is left for both spellings of the prefix's own node. -/
theorem Shape.suffix_segs (hu : Shape u us) (hp : Shape p ps) (hscheme : p.scheme = u.scheme) (hhost : p.host = u.host)
    (hsegs : us = nodeSegs ps ++ tailSegs ps us) {σ : Bytes}
    (hσ : u.path = p.path ++ σ ∨ ¬ p.path <+: u.path ∧ u.path = nodePath p ++ σ) :
    σ = [] ∧ (tailSegs ps us = [] ∨ tailSegs ps us = [[]]) ∨
      σ ≠ [] ∧ tailSegs ps us ≠ [] ∧ slash :: withoutLeading σ = pieces slash (escapedSegs u (tailSegs ps us)) := by
  have hset : ∀ ns, escapedSegs p ns = escapedSegs u ns := escapedSegs_congr hscheme (by rw [hhost])
  have hpath : u.path = pieces slash (escapedSegs u (nodeSegs ps)) ++
      pieces slash (escapedSegs u (tailSegs ps us)) := by
    conv_lhs => rw [hu.path, hsegs]
    rw [escapedSegs_append, pieces_append]
  have hsettled : Settled (tailSegs ps us) := Settled.of_append (hsegs ▸ hu.settled)
  have hfree : SepFree slash (tailSegs ps us) := fun s hs => hu.sepFree s (mem_of_mem_drop hs)
  generalize tailSegs ps us = ts at *
  rcases nodeSegs_cases hp.ne_nil with hps | hps
  · -- the prefix does not end in `/`
    have hpp : p.path = pieces slash (escapedSegs u (nodeSegs ps)) := by rw [hp.path, hset, ← hps]
    have hrest : σ = pieces slash (escapedSegs u ts) := by
      rcases hσ with h | ⟨hno, -⟩
      · rw [hpath, hpp] at h
        exact (append_cancel_left h).symm
      · exact absurd ⟨_, by rw [hpath, hpp]⟩ hno
    cases ts with
    | nil => exact Or.inl ⟨hrest, Or.inl rfl⟩
    | cons t ts =>
      refine Or.inr ⟨by rw [hrest]; simp [escapedSegs], by simp, ?_⟩
      rw [hrest, escapedSegs, map_cons, pieces_cons, withoutLeading_cons]
  · have hpp : p.path = pieces slash (escapedSegs u (nodeSegs ps)) ++ [slash] := by
      conv_lhs => rw [hp.path, hset, hps]
      simp [escapedSegs]
    rcases hσ with h | ⟨hno, h⟩
    · have hrest : pieces slash (escapedSegs u ts) = slash :: σ := by
        rw [hpath, hpp, append_assoc] at h
        exact append_cancel_left h
      cases ts with
      | nil => simp [escapedSegs] at hrest
      | cons t ts =>
        rw [escapedSegs, map_cons, pieces_cons, List.cons.injEq] at hrest
        by_cases ht : t = []
        · have hts : ts = [] := by
            cases ts with
            | nil => rfl
            | cons x ts => exact absurd ht hsettled.1.1
          subst ht hts
          exact Or.inl ⟨by simpa using hrest.2.symm, Or.inr rfl⟩
        · have hhead : σ.head? ≠ some slash := by
            rw [← hrest.2]
            obtain ⟨b, e, he⟩ := exists_cons_of_ne_nil (mt percentEncode_eq_nil_iff.mp ht)
            rw [he, cons_append, List.head?_cons, Ne, Option.some.injEq]
            intro hb
            have hno : slash ∉ percentEncode (canonicalPathSet u) t :=
              slash_notMem_percentEncode (sepFree_cons.mp hfree).1
            exact hno (by rw [he, hb]; exact mem_cons_self)
          refine Or.inr ⟨?_, by simp, ?_⟩
          · rintro rfl
            exact ht (percentEncode_eq_nil_iff.mp (append_eq_nil_iff.mp hrest.2).1)
          · rw [withoutLeading_of_head hhead, escapedSegs, map_cons, pieces_cons, hrest.2]
    · -- the prefix ends in `/` and the address does not continue it
      cases ts with
      | nil =>
        have hne : nodeSegs ps ≠ [] := by
          intro hn
          rw [hn] at hpath
          have := hu.path_head
          rw [hpath] at this
          simp [escapedSegs] at this
        refine Or.inl ⟨?_, Or.inl rfl⟩
        have hnode : nodePath p = pieces slash (escapedSegs u (nodeSegs ps)) := by
          rw [hp.nodePath_eq, hset, nodeText, if_neg (by simpa [escapedSegs] using hne)]
        rw [hpath, hnode] at h
        simpa [escapedSegs] using h
      | cons t ts =>
        refine absurd ⟨percentEncode (canonicalPathSet u) t ++ pieces slash (escapedSegs u ts), ?_⟩ hno
        rw [hpath, hpp]
        simp [escapedSegs]

/-- The segments of a path are those of its node and, behind a trailing `/`, an empty one. -/
theorem Shape.getLast?_slash_iff (h : Shape u us) : u.path.getLast? = some slash ↔ us.getLast? = some [] := by
  rw [h.path]
  rcases nodeSegs_cases h.ne_nil with he | he
  · have hne : nodeSegs us ≠ [] := he ▸ h.ne_nil
    refine iff_of_false ?_ ?_
    · rw [he]
      refine getLast?_pieces_ne (by simpa [escapedSegs] using hne) (escapedSegs_sepFree h.nodeSegs_sepFree)
        (escapedSegs_nonempty (nodeSegs_names h.settled) u)
    · intro hl
      rw [he] at hl
      exact (nodeSegs_names h.settled [] (mem_of_getLast? hl)).1 rfl
  · refine iff_of_true ?_ ?_
    · rw [he, escapedSegs_append, pieces_append, List.getLast?_append_of_ne_nil _ (by simp [escapedSegs])]
      rfl
    · rw [he]
      simp

theorem Shape.withoutTrailing_eq (h : Shape u us) :
    withoutTrailing u.path = pieces slash (escapedSegs u (nodeSegs us)) := by
  unfold withoutTrailing
  rcases nodeSegs_cases h.ne_nil with he | he
  · have hno : u.path.dropSuffix? [slash] = none := by
      rw [Option.eq_none_iff_forall_ne_some]
      intro q hq
      rw [dropSuffix?_eq_some] at hq
      have hl : u.path.getLast? = some slash := by rw [hq]; simp
      rw [h.getLast?_slash_iff, he] at hl
      exact (nodeSegs_names h.settled [] (mem_of_getLast? hl)).1 rfl
    rw [hno, Option.getD_none, h.path, ← he]
  · have hpath : u.path = pieces slash (escapedSegs u (nodeSegs us)) ++ [slash] := by
      conv_lhs => rw [h.path, he, escapedSegs_append, pieces_append]
      rfl
    rw [dropSuffix?_eq_some.mpr hpath]
    rfl

end Below

end OvStorage.Address
