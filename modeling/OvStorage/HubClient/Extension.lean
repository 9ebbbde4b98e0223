import OvStorage.HubClient.Keys

/-!
# The extension under a hub key

The hub keeps the bytes of a key in a file with an extension, which is not part of the key: who opens the key with
another extension is handed a path that does not exist. The extension comes from the path's text behind its last dot.

## What is proved

* `one_key_one_extension_iff`: with one key, two requests have one extension exactly where these texts are the same, or
  differ in spellings only and decode to UTF-8.
-/

namespace OvStorage.HubClient

open List

open Address (Bytes Url utf8 slash dot percent unescape hexDigit forall_uint8)

variable {s t rest e e' path : Bytes} {v x h l : UInt8} {f : UInt8 → Bool}

/-! ### One escape at a time -/

/-- The two ways to spell a byte. -/
inductive Spelling (v : UInt8) : Bytes → Prop
  | raw : Spelling v [v]
  | escape {h l : UInt8} (hv : unescape percent h l = some v) : Spelling v [percent, h, l]

/-- What a text begins with, and what the decoder makes of it. -/
theorem exists_first (f : UInt8 → Bool) (hs : s ≠ []) :
    ∃ v e rest, s = e ++ rest ∧ decodeEscapes f s = v :: decodeEscapes f rest ∧ Spelling v e ∧
    (e = [v] ∨ f v = true) := by
  match s with
  | [a] => exact ⟨a, [a], [], rfl, rfl, .raw, .inl rfl⟩
  | [a, b] => exact ⟨a, [a], [b], rfl, rfl, .raw, .inl rfl⟩
  | a :: h :: l :: rest =>
    cases hfirst : (unescape a h l).filter f with
    | none => exact ⟨a, [a], h :: l :: rest, rfl, by rw [decodeEscapes, hfirst], .raw, .inl rfl⟩
    | some v =>
      obtain ⟨hv, hf⟩ := Option.filter_eq_some_iff.mp hfirst
      have ha : a = percent := by
        by_contra hne
        rw [Address.unescape_of_ne hne] at hv
        cases hv
      subst ha
      exact ⟨v, [percent, h, l], rest, rfl, by rw [decodeEscapes, hfirst], .escape hv, .inr hf⟩

theorem decodeEscapes_escape (hv : unescape percent h l = some v) (hf : f v = true) (rest : Bytes) :
    decodeEscapes f (percent :: h :: l :: rest) = v :: decodeEscapes f rest := by
  rw [decodeEscapes, Option.filter_eq_some_iff.mpr ⟨hv, hf⟩]

theorem decodeEscapes_spelling (he : Spelling v e) (hf : f v = true) (hne : v ≠ percent) :
    decodeEscapes f (e ++ rest) = v :: decodeEscapes f rest := by
  cases he with
  | raw => exact decodeEscapes_cons hne rest
  | escape hv => exact decodeEscapes_escape hv hf rest

theorem decodeEscapes_eq_nil : decodeEscapes f s = [] ↔ s = [] := by
  constructor
  · intro h
    by_contra hs
    obtain ⟨v, e, rest, -, hdecode, -⟩ := exists_first f hs
    rw [hdecode] at h
    cases h
  · rintro rfl
    rfl

theorem hexDigit_of_unescape (hv : unescape percent h l = some v) : (hexDigit h).isSome ∧ (hexDigit l).isSome := by
  unfold unescape at hv
  rw [if_pos rfl] at hv
  split at hv
  next hh hl => simp [hh, hl]
  next => cases hv

theorem escapedFromRaw_spec (hx : escapedFromRaw x = true) : x ≠ percent ∧ hexDigit x = none := by
  have hlisted : ∀ x ∈ utf8 " \"<>\x60\x7b\x7d", x ≠ percent ∧ hexDigit x = none := by decide +kernel
  have hother : ∀ x : UInt8, (!(0x20 ≤ x && x < 0x7F)) = true → x ≠ percent ∧ hexDigit x = none :=
    forall_uint8 (by decide +kernel)
  unfold escapedFromRaw at hx
  split_ifs at hx with _ hmem
  · exact hlisted x hmem
  · exact hother x hx

/-! ### Texts that differ in spellings only -/

/-- The texts differ only in how they spell bytes that the `url` crate escapes in a path. -/
inductive Alike : Bytes → Bytes → Prop
  | nil : Alike [] []
  | byte {s t : Bytes} (b : UInt8) : Alike s t → Alike (b :: s) (b :: t)
  | spelled {s t e e' : Bytes} {v : UInt8} (hv : escapedFromRaw v = true) (he : Spelling v e) (he' : Spelling v e') :
      Alike s t → Alike (e ++ s) (e' ++ t)

theorem Alike.symm (h : Alike s t) : Alike t s := by
  induction h with
  | nil => exact .nil
  | byte b _ ih => exact .byte b ih
  | spelled hv he he' _ ih => exact .spelled hv he' he ih

/-- A hexadecimal digit is spelled in one way. -/
theorem Alike.of_hexDigit (h : Alike (x :: s) t) (hx : (hexDigit x).isSome) : ∃ t', t = x :: t' ∧ Alike s t' := by
  generalize hxs : x :: s = xs at h
  cases h with
  | nil => cases hxs
  | byte b hst =>
    cases hxs
    exact ⟨_, rfl, hst⟩
  | spelled hv he he' hst =>
    cases he with
    | raw =>
      cases hxs
      rw [(escapedFromRaw_spec hv).2] at hx
      cases hx
    | escape _ =>
      cases hxs
      cases hx

/-- An escape behind a `%` is one in both texts. -/
theorem Alike.decode_percent (hst : Alike s t) (ih : decodeEscapes escapedFromRaw s = decodeEscapes escapedFromRaw t)
    (hs : s = h :: l :: rest) (hv : unescape percent h l = some v) (hf : escapedFromRaw v = true) :
    decodeEscapes escapedFromRaw (percent :: s) = decodeEscapes escapedFromRaw (percent :: t) := by
  subst hs
  obtain ⟨hh, hl⟩ := hexDigit_of_unescape hv
  have hne : ∀ {x : UInt8}, (hexDigit x).isSome → x ≠ percent := fun hx hxp => by
    rw [hxp] at hx
    cases hx
  obtain ⟨t₁, rfl, hst₁⟩ := hst.of_hexDigit hh
  obtain ⟨t₂, rfl, -⟩ := hst₁.of_hexDigit hl
  rw [decodeEscapes_cons (hne hh), decodeEscapes_cons (hne hl), decodeEscapes_cons (hne hh),
    decodeEscapes_cons (hne hl)] at ih
  rw [decodeEscapes_escape hv hf, decodeEscapes_escape hv hf, (List.cons.inj (List.cons.inj ih).2).2]

/-- A `%` stands for itself, or begins an escape. -/
theorem decodeEscapes_percent (f : UInt8 → Bool) (s : Bytes) :
    decodeEscapes f (percent :: s) = percent :: decodeEscapes f s ∨
    ∃ h l rest v, s = h :: l :: rest ∧ unescape percent h l = some v ∧ f v = true := by
  match s with
  | [] => exact .inl rfl
  | [_] => exact .inl rfl
  | h :: l :: rest =>
    cases hfirst : (unescape percent h l).filter f with
    | none => exact .inl (by rw [decodeEscapes, hfirst])
    | some v => exact .inr ⟨h, l, rest, v, rfl, Option.filter_eq_some_iff.mp hfirst⟩

theorem Alike.decode_eq (h : Alike s t) : decodeEscapes escapedFromRaw s = decodeEscapes escapedFromRaw t := by
  induction h with
  | nil => rfl
  | @byte s t b hst ih =>
    by_cases hb : b = percent
    · subst hb
      rcases decodeEscapes_percent escapedFromRaw s with hs | ⟨h, l, rest, v, hs, hv, hf⟩
      · rcases decodeEscapes_percent escapedFromRaw t with ht | ⟨h, l, rest, v, ht, hv, hf⟩
        · rw [hs, ht, ih]
        · exact (hst.symm.decode_percent ih.symm ht hv hf).symm
      · exact hst.decode_percent ih hs hv hf
    · rw [decodeEscapes_cons hb, decodeEscapes_cons hb, ih]
  | spelled hv he he' _ ih =>
    have hne := (escapedFromRaw_spec hv).1
    rw [decodeEscapes_spelling he hv hne, decodeEscapes_spelling he' hv hne, ih]

theorem alike_of_decode_eq (h : decodeEscapes escapedFromRaw s = decodeEscapes escapedFromRaw t) : Alike s t := by
  induction hn : s.length using Nat.strong_induction_on generalizing s t with
  | _ n ih =>
    by_cases hs : s = []
    · subst hs
      obtain rfl := decodeEscapes_eq_nil.mp h.symm
      exact .nil
    · have ht : t ≠ [] := fun ht => hs (decodeEscapes_eq_nil.mp (h.trans (decodeEscapes_eq_nil.mpr ht)))
      obtain ⟨v, e, rest, rfl, hdecode, he, hraw⟩ := exists_first escapedFromRaw hs
      obtain ⟨v', e', rest', rfl, hdecode', he', hraw'⟩ := exists_first escapedFromRaw ht
      rw [hdecode, hdecode'] at h
      obtain ⟨rfl, hrest⟩ := List.cons.inj h
      have hlt : rest.length < n := by
        rw [← hn, length_append]
        cases he <;> simp
      have hst := ih rest.length hlt hrest rfl
      rcases hraw with rfl | hf
      · rcases hraw' with rfl | hf
        · exact .byte v hst
        · exact .spelled hf he he' hst
      · exact .spelled hf he he' hst

theorem decodeEscapes_eq_iff_alike : decodeEscapes escapedFromRaw s = decodeEscapes escapedFromRaw t ↔ Alike s t :=
  ⟨alike_of_decode_eq, Alike.decode_eq⟩

/-- What the decoder makes of a text is another spelling of it. -/
theorem alike_decode (s : Bytes) : Alike (decodeEscapes escapedFromRaw s) s := by
  induction hn : s.length using Nat.strong_induction_on generalizing s with
  | _ n ih =>
    by_cases hs : s = []
    · subst hs
      exact .nil
    · obtain ⟨v, e, rest, rfl, hdecode, he, hraw⟩ := exists_first escapedFromRaw hs
      have hlt : rest.length < n := by
        rw [← hn, length_append]
        cases he <;> simp
      have hst := ih rest.length hlt rest rfl
      rw [hdecode]
      rcases hraw with rfl | hf
      · exact .byte v hst
      · exact .spelled hf .raw he hst

/-! ### The text behind the last dot -/

/-- The text behind the last dot, nothing where a slash follows it. -/
def tailOf (path : Bytes) : Bytes := (behindLastDot path).getD []

/-- The text decodes to UTF-8. -/
def Readable (tail : Bytes) : Prop := Utf8.WellFormed (decodeEscapes escapedFromRaw tail)

instance (tail : Bytes) : Decidable (Readable tail) := inferInstanceAs (Decidable (Utf8.WellFormed _))

theorem getExtension_eq (path : Bytes) : getExtension path =
    if Readable (tailOf path) then decodeEscapes escapedFromRaw (tailOf path) else fromUtf8Lossy (tailOf path) := by
  unfold getExtension tailOf
  cases behindLastDot path with
  | none => exact (if_pos Utf8.wellFormed_nil).symm
  | some tail => rfl

theorem mem_tailOf (hx : x ∈ tailOf path) : x ∈ path := by
  unfold tailOf behindLastDot at hx
  split at hx
  next => cases hx
  next after front hsplit =>
    split_ifs at hx with hslash
    · cases hx
    · rw [← mem_reverse, (SegList.splitOnce_eq_some_iff.mp hsplit).2]
      exact mem_append_left _ (mem_reverse.mp hx)

theorem ascii_decodeEscapes (hs : ∀ x ∈ s, x < 0x80) :
    ∀ x ∈ decodeEscapes (Allowed.contains .Unreserved) s, x < 0x80 := by
  have hall : ∀ x ∈ RFC3986_UNRESERVED, x < 0x80 := by decide +kernel
  induction hn : s.length using Nat.strong_induction_on generalizing s with
  | _ n ih =>
    by_cases hne : s = []
    · subst hne
      exact hs
    · obtain ⟨v, e, rest, rfl, hdecode, he, hraw⟩ := exists_first (Allowed.contains .Unreserved) hne
      have hlt : rest.length < n := by
        rw [← hn, length_append]
        cases he <;> simp
      rw [hdecode]
      refine forall_mem_cons.mpr ⟨?_, ih rest.length hlt (fun x hx => hs x (mem_append_right _ hx)) rfl⟩
      rcases hraw with rfl | hf
      · exact hs v (mem_append_left _ mem_cons_self)
      · exact hall v (contains_iff_mem.mp hf)

theorem mem_truncateLastSegment (hx : x ∈ truncateLastSegment s) : x ∈ s := by
  unfold truncateLastSegment at hx
  split at hx
  next after front hsplit =>
    rw [← mem_reverse, (SegList.splitOnce_eq_some_iff.mp hsplit).2]
    exact mem_append_right _ (mem_cons_of_mem _ (mem_reverse.mp hx))
  next => cases hx

theorem mem_removeDotsFrom (out rest : Bytes) (hx : x ∈ removeDotsFrom out rest) : x ∈ out ∨ x ∈ rest := by
  fun_induction removeDotsFrom out rest with
  | case1 out => exact .inl hx
  | case2 out b tail rest _ ih | case3 out b tail rest _ _ ih | case4 out b tail rest _ _ _ ih
  | case5 out b tail rest _ _ _ _ ih =>
    exact (ih hx).imp_right mem_of_mem_drop
  | case6 out b tail rest _ _ _ _ hb ih =>
    exact (ih hx).imp_right fun h => mem_cons.mpr (.inl ((mem_singleton.mp h).trans hb.1.symm))
  | case7 out b tail rest _ _ _ _ _ _ ih => exact (ih hx).imp mem_truncateLastSegment mem_of_mem_drop
  | case8 out b tail rest _ _ _ _ _ _ hb ih =>
    exact (ih hx).imp mem_truncateLastSegment fun h => mem_cons.mpr (.inl ((mem_singleton.mp h).trans hb.1.symm))
  | case9 => exact .inl hx
  | case10 out b tail rest _ _ _ _ _ _ _ _ ih =>
    rcases ih hx with h | h
    · rcases mem_append.mp h with h | h
      · exact .inl h
      · exact .inr (cons_subset_cons b (takeWhile_subset _) h)
    · exact .inr (mem_cons_of_mem b (dropWhile_subset _ h))

theorem ascii_decodedPath (r : Request) : ∀ x ∈ decodedPath r.url, x < 0x80 := by
  intro x hx
  simp only [decodedPath] at hx
  split at hx
  · rcases mem_removeDotsFrom _ _ hx with hx | hx
    · cases hx
    · exact ascii_decodeEscapes r.path_ascii x hx
  · exact ascii_decodeEscapes r.path_ascii x hx

/-! ### The extension -/

variable {sha256 : Bytes → Digest} {r r' : Request} {k k' : HubKey}

/-- The texts behind the last dots are the same, or differ in spellings only and decode to UTF-8. -/
def Request.SameTail (r r' : Request) : Prop :=
  let tail := tailOf (decodedPath r.url)
  let tail' := tailOf (decodedPath r'.url)
  tail = tail' ∨ Alike tail tail' ∧ Readable tail

theorem getExtension_eq_iff (r r' : Request) :
    getExtension (decodedPath r.url) = getExtension (decodedPath r'.url) ↔ r.SameTail r' := by
  have hplain : ∀ r : Request, fromUtf8Lossy (tailOf (decodedPath r.url)) = tailOf (decodedPath r.url) := fun r => by
    have happend := fromUtf8Lossy_append (fun x hx => ascii_decodedPath r x (mem_tailOf hx)) []
    rwa [append_nil, fromUtf8Lossy, append_nil] at happend
  -- a text that the decoder leaves as it is reads like what it comes from
  have hmixed : ∀ {s t : Bytes}, Readable s → ¬ Readable t → decodeEscapes escapedFromRaw s ≠ t :=
      fun {s t} hs ht heq => by
    refine ht ?_
    rw [Readable, ← heq, (alike_decode s).decode_eq]
    exact hs
  rw [getExtension_eq, getExtension_eq, hplain, hplain, Request.SameTail]
  generalize tailOf (decodedPath r.url) = tail
  generalize tailOf (decodedPath r'.url) = tail'
  by_cases hread : Readable tail
  · by_cases hread' : Readable tail'
    · rw [if_pos hread, if_pos hread', decodeEscapes_eq_iff_alike]
      refine ⟨fun h => .inr ⟨h, hread⟩, ?_⟩
      rintro (rfl | ⟨h, -⟩)
      · exact decodeEscapes_eq_iff_alike.mp rfl
      · exact h
    · rw [if_pos hread, if_neg hread']
      refine iff_of_false (hmixed hread hread') ?_
      rintro (rfl | ⟨h, -⟩)
      · exact hread' hread
      · exact hread' (show Utf8.WellFormed _ from h.decode_eq ▸ hread)
  · rw [if_neg hread]
    by_cases hread' : Readable tail'
    · rw [if_pos hread']
      refine iff_of_false (fun h => hmixed hread' hread h.symm) ?_
      rintro (rfl | ⟨-, h⟩)
      · exact hread hread'
      · exact hread h
    · rw [if_neg hread']
      exact ⟨.inl, fun h => h.elim id fun h => absurd h.2 hread⟩

theorem Request.extension_of_hubKey (h : r.hubKey sha256 .OmniClientCompat = some k) :
    k.extension = getExtension (decodedPath r.url) := by
  unfold hubKey HubClient.hubKey at h
  simp only at h
  split at h
  · cases h
  · split at h
    next => cases h; rfl
    next =>
      split_ifs at h
      cases h
      rfl

/-- **One hub key, one extension**, exactly where the texts behind the last dots read alike. -/
theorem one_key_one_extension_iff (hk : r.hubKey sha256 .OmniClientCompat = some k)
    (hk' : r'.hubKey sha256 .OmniClientCompat = some k') :
    (k.key = k'.key → k.extension = k'.extension) ↔ (k.key = k'.key → r.SameTail r') := by
  rw [Request.extension_of_hubKey hk, Request.extension_of_hubKey hk', getExtension_eq_iff]

/-- A copy of the file, with the key of its content. -/
theorem one_key_one_extension_iff_copy :
    (robot (some [0x5A])).SameTail (requested (utf8 "/b.usd") (some [0x5A]) (by decide +kernel)) := by
  have hk : (robot (some [0x5A])).hubKey (fun _ => robotDigest) .OmniClientCompat =
      some ⟨utf8 "md5;Wg==", utf8 "usd", utf8 "https", some [0x5A]⟩ := by decide +kernel
  have hk' : (requested (utf8 "/b.usd") (some [0x5A]) (by decide +kernel)).hubKey (fun _ => robotDigest)
        .OmniClientCompat =
      some ⟨utf8 "md5;Wg==", utf8 "usd", utf8 "https", some [0x5A]⟩ := by decide +kernel
  exact (one_key_one_extension_iff hk hk').mp (fun _ => rfl) rfl

/-- `|` and its escape come to one key, and to two extensions: the `url` crate leaves a `|` in a path as it is. -/
theorem bar_keeps_two_extensions : ∃ k k',
    (requested (utf8 "/a.u|x") none (by decide +kernel)).hubKey (fun _ => robotDigest) .OmniClientCompat = some k ∧
    (requested (utf8 "/a.u%7Cx") none (by decide +kernel)).hubKey (fun _ => robotDigest) .OmniClientCompat = some k' ∧
      k.key = k'.key ∧ k.extension ≠ k'.extension :=
  ⟨⟨utf8 "https://server/a.u%7Cx@abc123", utf8 "u|x", utf8 "https", none⟩,
    ⟨utf8 "https://server/a.u%7Cx@abc123", utf8 "u%7Cx", utf8 "https", none⟩,
    by decide +kernel, by decide +kernel, rfl, by decide +kernel⟩

end OvStorage.HubClient
