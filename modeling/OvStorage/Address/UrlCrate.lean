import OvStorage.Address.Url

/-!
# What the callers rely on in the `url` crate

`Url::parse`, `Url::set_path` and `Url::set_query` rewrite the text they are given,
by the state machine of the URL Standard. They are parameters of the model
(`UrlCrate`), and `Lawful` is the part of their behaviour that
`ovstorage-layer/src/address.rs` documents and relies on.

## The laws

* `set_path` keeps a path byte for byte when there is nothing in it for the crate
  to rewrite (`PathFixed`): every byte is ASCII outside the crate's own `PATH` set,
  no segment is a dot segment, escaped or not, no `\` on a special scheme, no run of
  `/` at the head, and on `file:` no leading `C|`.
* `set_path` turns a leading `C|` of a `file:` path into `C:`.
* `set_query` escapes with the query set of the scheme, which on a special scheme
  holds `'` too.
* `parse` reads back its own serializations, and reads the components of a
  serialization independently of each other (`parse_respell`); but a `file:` URL
  whose first path segment is a drive letter loses its host (`parse_driveShare`).

`reference` satisfies them (`reference_lawful`) and computes.
-/

namespace OvStorage.Address

open SegList List

/-! ### Text the crate leaves alone -/

/-- The crate's `PATH` set. -/
def PATH : AsciiSet :=
  ((((((((CONTROLS.add 0x20).add 0x22).add 0x3C).add 0x3E).add 0x60).add 0x23).add 0x3F).add 0x7B).add 0x7D

/-- The crate's `QUERY` set; on a special scheme `SPECIAL_QUERY`, with `'`. -/
def querySet (scheme : Bytes) : AsciiSet :=
  let QUERY : AsciiSet := ((((CONTROLS.add 0x20).add 0x22).add 0x23).add 0x3C).add 0x3E
  if scheme ∈ SPECIAL then QUERY.add 0x27 else QUERY

/-- A path segment that `set_path` keeps. -/
def SegFixed (scheme s : Bytes) : Prop :=
  (∀ b ∈ s, shouldPercentEncode PATH b = false ∧ b ≠ slash ∧ (scheme ∈ SPECIAL → b ≠ backslash)) ∧
    percentDecode s ≠ [dot] ∧ percentDecode s ≠ [dot, dot]

/-- `u8::is_ascii_alphabetic`. -/
def isAsciiAlphabetic (b : UInt8) : Prop := 0x41 ≤ b ∧ b ≤ 0x5A ∨ 0x61 ≤ b ∧ b ≤ 0x7A

/-- A drive letter written `C|`. -/
def BarDrive (s : Bytes) : Prop := ∃ a ∈ s.head?, isAsciiAlphabetic a ∧ s = [a, bar]

/-- A drive letter written `C:`. -/
def ColonDrive (s : Bytes) : Prop := ∃ a ∈ s.head?, isAsciiAlphabetic a ∧ s = [a, colon]

/-- The segments of a path that `set_path` keeps. -/
def SegsFixed (scheme : Bytes) : List Bytes → Prop
  | [] => False
  | s :: ss => (∀ t ∈ s :: ss, SegFixed scheme t) ∧ (s = [] → ss = []) ∧ (scheme = FILE → ¬ BarDrive s)

/-- The segments of an absolute path. -/
def pathSegs (p : Bytes) : List Bytes := (p.splitOn slash).tail

/-- A path that `set_path` keeps byte for byte. -/
def PathFixed (scheme p : Bytes) : Prop := p.head? = some slash ∧ SegsFixed scheme (pathSegs p)

/-- A query that `set_query` keeps byte for byte. -/
def QueryFixed (scheme q : Bytes) : Prop := ∀ b ∈ q, shouldPercentEncode (querySet scheme) b = false

/-- A `file:` address with a host and a drive letter in first place: its serialization is
read without the host. -/
def Parts.DriveShare (u : Parts) : Prop :=
  u.scheme = FILE ∧ u.host.isSome ∧ ∃ s ∈ (pathSegs u.path).head?, ColonDrive s

instance (scheme s : Bytes) : Decidable (SegFixed scheme s) := inferInstanceAs (Decidable (_ ∧ _))

instance (b : UInt8) : Decidable (isAsciiAlphabetic b) := inferInstanceAs (Decidable (_ ∨ _))

instance (s : Bytes) : Decidable (BarDrive s) := inferInstanceAs (Decidable (∃ a ∈ s.head?, _))

instance (s : Bytes) : Decidable (ColonDrive s) := inferInstanceAs (Decidable (∃ a ∈ s.head?, _))

instance (scheme : Bytes) : (ss : List Bytes) → Decidable (SegsFixed scheme ss)
  | [] => isFalse id
  | _ :: _ => inferInstanceAs (Decidable (_ ∧ _))

instance (scheme p : Bytes) : Decidable (PathFixed scheme p) := inferInstanceAs (Decidable (_ ∧ _))

instance (scheme q : Bytes) : Decidable (QueryFixed scheme q) := inferInstanceAs (Decidable (∀ b ∈ q, _))

instance (u : Parts) : Decidable u.DriveShare := inferInstanceAs (Decidable (_ ∧ _))

variable {ss : List Bytes}

theorem pathSegs_pieces (h : SepFree slash ss) : pathSegs (pieces slash ss) = ss := by
  simp [pathSegs, splitOn_pieces h]

/-! ### The crate -/

/-- The functions of the crate that rewrite text. -/
structure UrlCrate where
  /-- `Url::parse`; a refusal is the text of its `ParseError`. -/
  parse : Bytes → Except Bytes Url
  /-- `Url::set_path`. -/
  setPath : Url → Bytes → Url
  /-- `Url::set_query` with a query. -/
  setQuery : Url → Bytes → Url

/-- The serialization of the address is read as the address. -/
def UrlCrate.Parsed (U : UrlCrate) (u : Url) : Prop := U.parse u.asStr = .ok u

/-- `v` is `u` with another path and query, perhaps the host in lower case, the userinfo
dropped, and the empty authority written or not. -/
structure Respells (u v : Parts) : Prop where
  scheme : v.scheme = u.scheme
  host : v.host = u.host ∨ v.host = u.host.map (List.map toAsciiLowercase)
  port : v.port = u.port
  userinfo : v.username = u.username ∧ v.password = u.password ∨ v.username = [] ∧ v.password = none
  path : PathFixed v.scheme v.path
  query : ∀ q ∈ v.query, QueryFixed v.scheme q
  fragment : v.fragment = none

/-- What the callers rely on. -/
structure UrlCrate.Lawful (U : UrlCrate) : Prop where
  setPath_fixed : ∀ (u : Url) (p : Bytes), u.cannotBeABase = false → PathFixed u.scheme p →
    (U.setPath u p).toParts = { u.toParts with path := p }
  setPath_drive : ∀ (u : Url) (a : UInt8) (ss : List Bytes), u.scheme = FILE → isAsciiAlphabetic a →
    (∀ s ∈ ss, SegFixed FILE s) →
    (U.setPath u (pieces slash ([a, bar] :: ss))).toParts = { u.toParts with path := pieces slash ([a, colon] :: ss) }
  setQuery_escapes : ∀ (u : Url) (q : Bytes), (0x09 ∉ q ∧ 0x0A ∉ q ∧ 0x0D ∉ q) →
    (U.setQuery u q).toParts = { u.toParts with query := some (percentEncode (querySet u.scheme) q) }
  parse_asStr : ∀ (raw : Bytes) (u : Url), U.parse raw = .ok u → U.Parsed u
  parsed_query : ∀ u : Url, U.Parsed u → ∀ q ∈ u.query, QueryFixed u.scheme q
  parse_respell : ∀ u v : Url, U.Parsed u → Respells u.toParts v.toParts → ¬ v.DriveShare → U.Parsed v
  parse_driveShare : ∀ u v : Url, U.Parsed u → Respells u.toParts v.toParts → v.DriveShare →
    (U.parse v.asStr).map Url.toParts = .ok { v.toParts with host := none }

/-! ### Consequences -/

variable {scheme p q s : Bytes}

theorem PathFixed.of_pieces (hss : SepFree slash ss) (h : SegsFixed scheme ss) :
    PathFixed scheme (pieces slash ss) := by
  refine ⟨?_, by rwa [pathSegs_pieces hss]⟩
  cases ss with
  | nil => exact h.elim
  | cons s ss => rfl

theorem PathFixed.exists_pieces (h : PathFixed scheme p) :
    ∃ ss, p = pieces slash ss ∧ SepFree slash ss ∧ SegsFixed scheme ss := by
  obtain ⟨ss, -, rfl, hss⟩ := SegList.exists_pieces h.1
  exact ⟨ss, rfl, hss, by simpa [pathSegs_pieces hss] using h.2⟩

theorem SegsFixed.forall (h : SegsFixed scheme ss) : ∀ s ∈ ss, SegFixed scheme s := by
  cases ss with
  | nil => exact h.elim
  | cons s ss => exact h.1

/-- Every byte of a kept path is outside the crate's `PATH` set. -/
theorem PathFixed.bytes (h : PathFixed scheme p) {b : UInt8} (hb : b ∈ p) : shouldPercentEncode PATH b = false := by
  obtain ⟨ss, rfl, -, hfix⟩ := h.exists_pieces
  obtain ⟨s, hs, hb⟩ := mem_flatMap.mp hb
  rcases mem_cons.mp hb with rfl | hb
  · decide
  · exact ((hfix.forall s hs).1 b hb).1

theorem PathFixed.not_dot (h : PathFixed scheme p) : [slash, dot, slash].isPrefixOf p = false := by
  obtain ⟨ss, rfl, hsep, hfix⟩ := h.exists_pieces
  rw [← Bool.not_eq_true, List.isPrefixOf_iff_prefix]
  rintro ⟨t, ht⟩
  cases ss with
  | nil => exact hfix
  | cons s ss =>
    rw [sepFree_cons] at hsep
    have hs : [dot] = s :=
      (AtSep.append_inj (by simp) hsep.1 (atSep_cons t) (atSep_pieces ss) (List.cons.inj ht).2).1
    exact (hfix.1 s mem_cons_self).2.1 (by rw [← hs]; rfl)

theorem segFixed_nil (scheme : Bytes) : SegFixed scheme [] :=
  ⟨by simp, by simp [percentDecode], by simp [percentDecode]⟩

/-- The setter keeps the truncations of a path it keeps. -/
theorem PathFixed.of_mem_heads {c : Bytes} (h : PathFixed scheme p) (hc : c ∈ heads slash p) : PathFixed scheme c := by
  obtain ⟨ss, rfl, hsep, hfix⟩ := h.exists_pieces
  rw [heads_pieces hsep] at hc
  obtain ⟨k, hk, rfl⟩ := mem_map.mp hc
  rw [mem_range] at hk
  have hpieces : pieces slash (ss.take k) ++ [slash] = pieces slash (ss.take k ++ [[]]) := by simp
  rw [hpieces]
  refine PathFixed.of_pieces ?_ ?_
  · rw [sepFree_append]
    exact ⟨fun s hs => hsep s (mem_of_mem_take hs), by simp⟩
  · cases ss with
    | nil => exact hfix.elim
    | cons s ss =>
      cases k with
      | zero =>
        refine ⟨?_, fun _ => rfl, fun _ hd => ?_⟩
        · intro t ht
          rw [mem_singleton.mp ht]
          exact segFixed_nil scheme
        · obtain ⟨x, hx, -⟩ := hd
          cases hx
      | succ k =>
        refine ⟨?_, fun hs => ?_, hfix.2.2⟩
        · intro t ht
          rcases mem_append.mp (show t ∈ (s :: ss.take k) ++ [[]] from ht) with ht | ht
          · refine hfix.1 t ?_
            rcases mem_cons.mp ht with rfl | ht
            · exact mem_cons_self
            · exact mem_cons_of_mem _ (mem_of_mem_take ht)
          · rw [mem_singleton.mp ht]
            exact segFixed_nil scheme
        · rw [hfix.2.1 hs] at hk
          simp at hk

/-- The setter keeps a path that gains its closing slash. -/
theorem PathFixed.close (h : PathFixed scheme p) (hlast : p.getLast? ≠ some slash) :
    PathFixed scheme (p ++ [slash]) := by
  obtain ⟨ss, rfl, hsep, hfix⟩ := h.exists_pieces
  have hpieces : pieces slash ss ++ [slash] = pieces slash (ss ++ [[]]) := by simp
  rw [hpieces]
  refine PathFixed.of_pieces (by simp [hsep]) ?_
  cases ss with
  | nil => exact hfix.elim
  | cons s ss =>
    refine ⟨?_, fun hs => ?_, hfix.2.2⟩
    · intro t ht
      rcases mem_append.mp (show t ∈ (s :: ss) ++ [[]] from ht) with ht | ht
      · exact hfix.1 t ht
      · rw [mem_singleton.mp ht]
        exact segFixed_nil scheme
    · -- the root has its slash already
      rw [hs, hfix.2.1 hs] at hlast
      exact absurd rfl hlast

/-- An address with a path that the setter keeps. -/
def Url.withPath (u : Url) (p : Bytes) (h : PathFixed u.scheme p) : Url :=
  ⟨{ u.toParts with path := p },
    { u.wf with
      path_bytes := ⟨fun hm => absurd (h.bytes hm) (by decide), fun hm => absurd (h.bytes hm) (by decide)⟩
      path_absolute := fun _ => Or.inr h.1
      path_dot := fun _ => h.not_dot
      special := fun hs => ⟨(u.wf.special hs).1, h.1⟩ }⟩

variable {u : Url}

theorem UrlCrate.Lawful.setPath_eq {U : UrlCrate} (law : U.Lawful) (hc : u.cannotBeABase = false)
    (h : PathFixed u.scheme p) : U.setPath u p = u.withPath p h :=
  Url.ext_parts (law.setPath_fixed u p hc h)

theorem percentEncode_of_fixed {set : AsciiSet} (h : ∀ b ∈ q, shouldPercentEncode set b = false) :
    percentEncode set q = q := by
  induction q with
  | nil => rfl
  | cons b q ih =>
    rw [percentEncode_cons, encodeByte_of_not (h b mem_cons_self), ih fun x hx => h x (mem_cons_of_mem b hx)]
    rfl

/-- The query set holds the controls and `#`. -/
theorem querySet_holds (scheme : Bytes) : shouldPercentEncode (querySet scheme) hash = true ∧
    shouldPercentEncode (querySet scheme) 0x09 = true ∧ shouldPercentEncode (querySet scheme) 0x0A = true ∧
    shouldPercentEncode (querySet scheme) 0x0D = true := by
  unfold querySet
  split <;> decide

theorem QueryFixed.controls (h : QueryFixed scheme q) : (0x09 ∉ q ∧ 0x0A ∉ q ∧ 0x0D ∉ q) := by
  have hset := querySet_holds scheme
  refine ⟨fun hm => ?_, fun hm => ?_, fun hm => ?_⟩ <;> have := h _ hm <;> simp_all

/-! ### A crate that computes -/

/-- `set_query`: escape with the query set of the scheme. -/
def Url.escapeQuery (u : Url) (q : Bytes) : Url :=
  ⟨{ u.toParts with query := some (percentEncode (querySet u.scheme) q) },
    { u.wf with
      query_bytes := by
        intro q' hq' hm
        rw [Option.mem_some_iff] at hq'
        subst hq'
        rcases mem_percentEncode hm with h | h | h
        · exact absurd h (by decide)
        · exact absurd h (by decide)
        · rw [(querySet_holds u.scheme).1] at h
          exact absurd h.2 (by decide) }⟩

/-- Drop the host of a `file:` address. -/
def Url.dropHost (u : Url) (hf : u.scheme = FILE) : Url :=
  ⟨{ u.toParts with host := none },
    { u.wf with
      host_authority := by simp
      host_ne := by simp
      host_bytes := by simp
      host_colon := by simp
      userinfo_host := by simp [u.wf.file_plain hf]
      port_host := by simp [u.wf.file_plain hf]
      special_host := fun _ h => absurd hf h
      special_lowercase := by simp }⟩

/-- The segments `set_path` writes on the scheme: a leading `C|` of a `file:` path is a `C:`. -/
def writtenSegs (scheme : Bytes) : List Bytes → List Bytes
  | [] => []
  | s :: ss => if scheme = FILE ∧ BarDrive s then (s.take 1 ++ [colon]) :: ss else s :: ss

/-- `Url::parse` on serializations, `Url::set_path` on paths with at most a drive letter to
rewrite, `Url::set_query`. -/
def reference : UrlCrate where
  parse raw :=
    match readParts raw with
    | none => .error (utf8 "relative URL without a base")
    | some p =>
      if h : p.WellFormed ∧ ∀ q ∈ p.query, QueryFixed p.scheme q then
        if hd : p.DriveShare then .ok (Url.dropHost ⟨p, h.1⟩ hd.1) else .ok ⟨p, h.1⟩
      else .error (utf8 "invalid domain character")
  setPath u p :=
    if u.cannotBeABase then u
    else
      let written := pieces slash (writtenSegs u.scheme (pathSegs p))
      if h : PathFixed u.scheme written then u.withPath written h else u
  setQuery u q := u.escapeQuery q

theorem reference_parse (hq : ∀ q ∈ u.query, QueryFixed u.scheme q) :
    reference.parse u.asStr = if hd : u.DriveShare then .ok (u.dropHost hd.1) else .ok u := by
  simp only [reference, readParts_asStr u.wf]
  rw [dif_pos ⟨u.wf, hq⟩]

theorem not_driveShare_of_host {u : Parts} (h : u.host = none) : ¬ u.DriveShare := by
  rintro ⟨-, hh, -⟩
  simp [h] at hh

theorem reference_parsed_iff : reference.Parsed u ↔ (∀ q ∈ u.query, QueryFixed u.scheme q) ∧ ¬ u.DriveShare := by
  unfold UrlCrate.Parsed
  constructor
  · intro h
    have hq : ∀ q ∈ u.query, QueryFixed u.scheme q := by
      simp only [reference, readParts_asStr u.wf] at h
      split at h
      · rename_i hq; exact hq.2
      · simp at h
    refine ⟨hq, fun hd => ?_⟩
    rw [reference_parse hq, dif_pos hd] at h
    have hh : u.host = none := by rw [← Except.ok.inj h]; rfl
    exact not_driveShare_of_host hh hd
  · rintro ⟨hq, hd⟩
    rw [reference_parse hq, dif_neg hd]

theorem reference_parse_asStr {raw : Bytes} (h : reference.parse raw = .ok u) : reference.Parsed u := by
  rw [reference_parsed_iff]
  simp only [reference] at h
  split at h
  · simp at h
  · rename_i p hp
    split at h
    · rename_i hw
      split at h <;> rename_i hd
      · cases h
        exact ⟨hw.2, not_driveShare_of_host rfl⟩
      · cases h
        exact ⟨hw.2, hd⟩
    · simp at h

theorem isAsciiAlphabetic_fixed : ∀ a : UInt8, isAsciiAlphabetic a →
    shouldPercentEncode PATH a = false ∧ a ≠ slash ∧ a ≠ backslash ∧ a ≠ bar ∧ a ≠ percent ∧ a ≠ dot :=
  forall_uint8 (by decide +kernel)

variable {a : UInt8}

/-- A drive letter is kept, written `C:`. -/
theorem segFixed_colonDrive (ha : isAsciiAlphabetic a) (scheme : Bytes) : SegFixed scheme [a, colon] := by
  obtain ⟨h1, h2, h3, -, h5, h6⟩ := isAsciiAlphabetic_fixed a ha
  have hdec : percentDecode [a, colon] = [a, colon] := rfl
  refine ⟨?_, ?_, ?_⟩
  · intro b hb
    simp only [mem_cons, not_mem_nil, or_false] at hb
    rcases hb with rfl | rfl
    · exact ⟨h1, h2, fun _ => h3⟩
    · exact ⟨by decide, by decide, fun _ => by decide⟩
  · rw [hdec]; simp
  · rw [hdec]; simp [h6]

theorem SegsFixed.not_barDrive (h : SegsFixed scheme (s :: ss)) :
    ¬ (scheme = FILE ∧ BarDrive s) := fun ⟨hf, hb⟩ => h.2.2 hf hb

theorem SegFixed.slash_notMem (h : SegFixed scheme s) : slash ∉ s := fun hm => (h.1 _ hm).2.1 rfl

theorem SegsFixed.sepFree (h : SegsFixed scheme ss) : SepFree slash ss :=
  fun s hs => (h.forall s hs).slash_notMem

theorem reference_setPath_pieces (hc : u.cannotBeABase = false) (hss : SepFree slash ss)
    (hw : SegsFixed u.scheme (writtenSegs u.scheme ss)) :
    (reference.setPath u (pieces slash ss)).toParts =
      { u.toParts with path := pieces slash (writtenSegs u.scheme ss) } := by
  simp only [reference, pathSegs_pieces hss, hc, Bool.false_eq_true, if_false]
  rw [dif_pos (PathFixed.of_pieces hw.sepFree hw)]
  rfl

theorem writtenSegs_of_fixed (h : SegsFixed scheme ss) : writtenSegs scheme ss = ss := by
  cases ss with
  | nil => rfl
  | cons s ss => rw [writtenSegs, if_neg h.not_barDrive]

theorem segsFixed_colonDrive (ha : isAsciiAlphabetic a) (hss : ∀ s ∈ ss, SegFixed FILE s) :
    SegsFixed FILE ([a, colon] :: ss) := by
  refine ⟨?_, by simp, fun _ => ?_⟩
  · intro t ht
    rcases mem_cons.mp ht with rfl | ht
    · exact segFixed_colonDrive ha FILE
    · exact hss t ht
  · rintro ⟨b, -, -, hb⟩
    simp only [List.cons.injEq, and_true] at hb
    exact absurd hb.2 (by decide)

theorem writtenSegs_drive (hf : scheme = FILE) (ha : isAsciiAlphabetic a) (ss : List Bytes) :
    writtenSegs scheme ([a, bar] :: ss) = [a, colon] :: ss := by
  rw [writtenSegs, if_pos ⟨hf, a, rfl, ha, rfl⟩]
  rfl

theorem reference_setPath_drive (hf : u.scheme = FILE) (ha : isAsciiAlphabetic a) (hss : ∀ s ∈ ss, SegFixed FILE s) :
    (reference.setPath u (pieces slash ([a, bar] :: ss))).toParts =
      { u.toParts with path := pieces slash ([a, colon] :: ss) } := by
  have hfile : FILE ∈ SPECIAL := by simp [SPECIAL]
  have hc : u.cannotBeABase = false := by simp [Parts.cannotBeABase, (u.wf.special (hf ▸ hfile)).1]
  have hw := writtenSegs_drive hf ha ss
  have hnot := isAsciiAlphabetic_fixed a ha
  have hsep : SepFree slash ([a, bar] :: ss) := by
    rw [sepFree_cons]
    refine ⟨?_, fun s hs => (hss s hs).slash_notMem⟩
    simp only [mem_cons, not_mem_nil, or_false, not_or]
    exact ⟨Ne.symm hnot.2.1, by decide⟩
  rw [reference_setPath_pieces hc hsep (by rw [hw, hf]; exact segsFixed_colonDrive ha hss), hw]

/-- What `set_path` makes of segments it keeps but for a drive letter. -/
theorem UrlCrate.Lawful.setPath_written {U : UrlCrate} (law : U.Lawful) (hc : u.cannotBeABase = false) (hne : ss ≠ [])
    (hfix : ∀ s ∈ ss, SegFixed u.scheme s) (hhead : ∀ ts, ss = [] :: ts → ts = []) :
    PathFixed u.scheme (pieces slash (writtenSegs u.scheme ss)) ∧
    (U.setPath u (pieces slash ss)).toParts = { u.toParts with path := pieces slash (writtenSegs u.scheme ss) } := by
  obtain ⟨s, ss, rfl⟩ := exists_cons_of_ne_nil hne
  by_cases hd : u.scheme = FILE ∧ BarDrive s
  · obtain ⟨hf, a, -, ha, rfl⟩ := hd
    have hss : ∀ t ∈ ss, SegFixed FILE t := fun t ht => hf ▸ hfix t (mem_cons_of_mem _ ht)
    have hsegs := segsFixed_colonDrive ha hss
    rw [writtenSegs_drive hf ha]
    refine ⟨?_, law.setPath_drive u a ss hf ha hss⟩
    rw [hf]
    exact PathFixed.of_pieces hsegs.sepFree hsegs
  · have hsegs : SegsFixed u.scheme (s :: ss) :=
      ⟨hfix, fun he => hhead ss (by rw [he]), fun hf hb => hd ⟨hf, hb⟩⟩
    have hpath := PathFixed.of_pieces hsegs.sepFree hsegs
    rw [writtenSegs_of_fixed hsegs]
    exact ⟨hpath, law.setPath_fixed u _ hc hpath⟩

/-- The query set lets escapes through. -/
theorem querySet_keepsEscapes (scheme : Bytes) : (querySet scheme).KeepsEscapes := by
  unfold AsciiSet.KeepsEscapes querySet
  split
  · exact forall_uint8 (by decide +kernel)
  · exact forall_uint8 (by decide +kernel)

theorem queryFixed_percentEncode (scheme q : Bytes) : QueryFixed scheme (percentEncode (querySet scheme) q) := by
  intro b hb
  rcases mem_percentEncode hb with h | h | h
  · exact querySet_keepsEscapes scheme b (Or.inl h)
  · exact querySet_keepsEscapes scheme b (Or.inr h)
  · exact h.2

/-- The laws hold of `reference`. -/
theorem reference_lawful : reference.Lawful where
  setPath_fixed := by
    intro u p hc h
    obtain ⟨ss, rfl, hsep, hfix⟩ := h.exists_pieces
    have hw := writtenSegs_of_fixed hfix
    rw [reference_setPath_pieces hc hsep (hw.symm ▸ hfix), hw]
  setPath_drive := fun u a ss hf ha hss => reference_setPath_drive hf ha hss
  setQuery_escapes := fun u q _ => rfl
  parse_asStr := fun raw u h => reference_parse_asStr h
  parsed_query := fun u h => (reference_parsed_iff.mp h).1
  parse_respell := by
    intro u v _ hr hd
    exact reference_parsed_iff.mpr ⟨hr.query, hd⟩
  parse_driveShare := by
    intro u v _ hr hd
    rw [reference_parse hr.query, dif_pos hd]
    rfl

end OvStorage.Address
