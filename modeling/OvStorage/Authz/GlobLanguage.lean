import OvStorage.Authz.Glob
import OvStorage.Lib.Utf8
import OvStorage.Lib.Wildcard

/-!
# What a principal pattern stands for

`glob_match` against the language of its pattern, and `principals_intersect` against the
principals that two languages share.
-/

namespace OvStorage.Authz

open List

open Address (Bytes utf8)
open SegList Wildcard

/-! ### Where a part is found -/

variable {pattern needle hay : Bytes}

/-- What is found is the first occurrence. -/
theorem exists_of_find {i : ℕ} (h : find needle hay = some i) :
    ∃ front back, hay = front ++ needle ++ back ∧ front.length = i ∧
      ∀ w v', front ++ needle ++ back = w ++ needle ++ v' → front.length ≤ w.length := by
  induction hay generalizing i with
  | nil =>
    unfold find at h
    split at h
    · rename_i hneedle
      exact ⟨[], [], by simp [hneedle], Option.some.inj h, by simp⟩
    · cases h
  | cons b bs ih =>
    unfold find at h
    split at h
    · rename_i hprefix
      obtain ⟨back, hback⟩ := List.isPrefixOf_iff_prefix.mp hprefix
      exact ⟨[], back, by simp [hback], Option.some.inj h, by simp⟩
    · rename_i hprefix
      obtain ⟨j, hj, rfl⟩ := Option.map_eq_some_iff.mp h
      obtain ⟨front, back, rfl, rfl, hfirst⟩ := ih hj
      refine ⟨b :: front, back, rfl, rfl, ?_⟩
      intro w v' heq
      cases w with
      | nil =>
        rw [nil_append] at heq
        exact absurd (List.isPrefixOf_iff_prefix.mpr ⟨v', heq.symm⟩) hprefix
      | cons c w =>
        simp only [cons_append, List.cons.injEq] at heq
        simpa using hfirst w v' heq.2

/-- What is not found does not occur. -/
theorem not_occurs_of_find (h : find needle hay = none) (w v' : Bytes) : hay ≠ w ++ needle ++ v' := by
  induction hay generalizing w with
  | nil =>
    rintro heq
    have hneedle : needle = [] := by simp_all
    unfold find at h
    rw [if_pos hneedle] at h
    cases h
  | cons b bs ih =>
    unfold find at h
    split at h
    · cases h
    · rename_i hprefix
      have hbs : find needle bs = none := by simpa using h
      cases w with
      | nil => exact fun heq => hprefix (List.isPrefixOf_iff_prefix.mpr ⟨v', heq.symm⟩)
      | cons c w =>
        intro heq
        exact ih hbs w (List.cons.inj heq).2

/-! ### The scan -/

/-- The scan of the inner parts and the test of the last one. -/
def Matches (parts : List Bytes) (last remainder : Bytes) : Prop := ∃ r, globInner parts remainder = some r ∧ last <:+ r

/-- The scan follows the language: an empty part is a second wildcard, and any other is taken where it first occurs. -/
theorem scan_matches_iff {parts : List Bytes} {last remainder : Bytes} (hparts : SepFree star parts)
    (hlast : star ∉ last) :
    Matches parts last remainder ↔ Language star (pieces star (parts ++ [last])) remainder := by
  induction parts generalizing remainder with
  | nil =>
    rw [nil_append, pieces_cons, pieces_nil, append_nil, language_last_iff hlast]
    simp [Matches, globInner]
  | cons part parts ih =>
    obtain ⟨hpart, hparts⟩ := sepFree_cons.mp hparts
    -- behind a part there is a wildcard again
    obtain ⟨q, hq⟩ : ∃ q, pieces star (parts ++ [last]) = star :: q := by
      cases parts <;> exact ⟨_, rfl⟩
    have ih' := fun r => @ih r hparts
    rw [cons_append, pieces_cons, hq]
    rw [hq] at ih'
    unfold Matches globInner
    by_cases hempty : part = []
    · simp only [if_pos hempty]
      rw [hempty, nil_append, language_wild_wild_iff]
      exact ih' remainder
    · simp only [if_neg hempty]
      cases hfind : find part remainder with
      | none =>
        simp only [reduceCtorEq, false_and, exists_false, false_iff]
        intro h
        obtain ⟨w, lv, rfl, hlv⟩ := language_wild_iff.mp h
        obtain ⟨v', rfl, -⟩ := (language_append_iff hpart).mp hlv
        exact not_occurs_of_find hfind w v' (by simp)
      | some i =>
        obtain ⟨front, back, rfl, rfl, hfirst⟩ := exists_of_find hfind
        have hdrop : (front ++ part ++ back).drop (front.length + part.length) = back := by
          rw [← length_append, drop_left]
        simp only [hdrop]
        rw [language_first_iff hpart hfirst]
        exact ih' back

/-- The bytes that are matched are those of the pattern's language. -/
theorem globMatch_iff {value : Bytes} : globMatch pattern value = true ↔ Language star pattern value := by
  by_cases hstar : pattern = [star]
  · subst hstar
    unfold globMatch
    rw [if_pos rfl, language_wild_iff]
    simp only [true_iff]
    exact ⟨value, [], by simp, .nil⟩
  · obtain ⟨first, rest, rfl, hfirst, hrest⟩ := exists_segments star pattern
    unfold globMatch
    rw [if_neg hstar, splitOn_append_pieces hfirst hrest, language_append_iff hfirst]
    rcases eq_nil_or_concat' rest with rfl | ⟨parts, last, rfl⟩
    · simp only [length_singleton, if_true, pieces_nil, append_nil, beq_iff_eq, language_nil_iff]
      constructor
      · rintro rfl
        exact ⟨[], by simp, rfl⟩
      · rintro ⟨v', rfl, rfl⟩
        simp
    · obtain ⟨hparts, hlast⟩ := sepFree_append.mp hrest
      have hinner : ((first :: (parts ++ [last])).drop 1).take ((first :: (parts ++ [last])).length - 2) = parts := by
        simp
      have hone : (first :: (parts ++ [last])).length ≠ 1 := by simp
      have hgetLast : (first :: (parts ++ [last])).getLastD [] = last := by
        rw [← cons_append, getLastD_concat]
      have hfront : (if (first :: (parts ++ [last])).headD [] = [] then some value
          else value.dropPrefix? ((first :: (parts ++ [last])).headD [])) = value.dropPrefix? first := by
        split
        · rename_i hempty
          obtain rfl : first = [] := hempty
          exact (dropPrefix?_eq_some.mpr (nil_append value).symm).symm
        · rfl
      simp only [if_neg hone, hinner, hgetLast, hfront]
      cases hdrop : value.dropPrefix? first with
      | none =>
        simp only [Bool.false_eq_true, false_iff]
        rintro ⟨v', rfl, -⟩
        rw [dropPrefix?_eq_some.mpr rfl] at hdrop
        cases hdrop
      | some remainder =>
        obtain rfl := dropPrefix?_eq_some.mp hdrop
        have hmatches := @scan_matches_iff parts last remainder hparts (hlast last (by simp))
        have hbehind : (∃ v', first ++ remainder = first ++ v' ∧ Language star (pieces star (parts ++ [last])) v') ↔
            Language star (pieces star (parts ++ [last])) remainder := by
          constructor
          · rintro ⟨v', heq, h⟩
            rwa [append_cancel_left heq]
          · exact fun h => ⟨remainder, rfl, h⟩
        rw [hbehind, ← hmatches]
        unfold Matches
        cases hinner' : globInner parts remainder with
        | none => simp only [hinner', reduceCtorEq, Bool.false_eq_true, false_and, exists_false]
        | some r => simp only [hinner', isSuffixOf_iff_suffix, Option.some.injEq, exists_eq_left']

/-! ### Bytes and characters -/

theorem encode_star : String.utf8EncodeChar '*' = [star] := by decide

/-- The byte of a wildcard is in no other character. -/
theorem star_not_mem_encode {c : Char} (hc : c ≠ '*') : star ∉ String.utf8EncodeChar c :=
  fun hmem => hc (Utf8.eq_of_ascii_mem encode_star (by decide) hmem)

theorem star_mem_encode_iff {m : List Char} : star ∈ Utf8.encode m ↔ '*' ∈ m := by
  rw [Utf8.encode, mem_flatMap]
  constructor
  · rintro ⟨c, hc, hmem⟩
    by_contra hno
    exact star_not_mem_encode (fun heq => hno (heq ▸ hc)) hmem
  · exact fun h => ⟨'*', h, by simp [encode_star]⟩

variable {p v : List Char}

theorem Language.encode (h : Language '*' p v) : Language star (Utf8.encode p) (Utf8.encode v) := by
  induction h with
  | nil => exact .nil
  | wild w _ ih =>
    rw [Utf8.encode_append, Utf8.encode_cons, encode_star]
    exact .wild _ ih
  | letter hx _ ih =>
    rw [Utf8.encode_cons, Utf8.encode_cons]
    exact (language_append_iff (star_not_mem_encode hx)).mpr ⟨_, rfl, ih⟩

/-- What a pattern matches by bytes it matches by characters: a text behind a wildcard begins with a whole character,
unless the next is a wildcard again. -/
theorem language_of_encode (h : Language star (Utf8.encode p) (Utf8.encode v)) : Language '*' p v := by
  induction p generalizing v with
  | nil =>
    rw [Utf8.encode_nil, language_nil_iff, Utf8.encode_eq_nil] at h
    exact language_nil_iff.mpr h
  | cons c p ih =>
    rw [Utf8.encode_cons] at h
    by_cases hc : c = '*'
    · subst hc
      rw [encode_star, singleton_append] at h
      cases p with
      | nil => exact language_wild_iff.mpr ⟨v, [], by simp, .nil⟩
      | cons d p =>
        rw [Utf8.encode_cons] at h
        by_cases hd : d = '*'
        · subst hd
          rw [encode_star, singleton_append, language_wild_wild_iff] at h
          rw [language_wild_wild_iff]
          exact ih (by rwa [Utf8.encode_cons, encode_star])
        · obtain ⟨w, lv, hv, hlv⟩ := language_wild_iff.mp h
          obtain ⟨v', rfl, hp⟩ := (language_append_iff (star_not_mem_encode hd)).mp hlv
          obtain ⟨m₁, m₂, rfl, -, rfl⟩ := Utf8.encode_split hv.symm
          refine .wild m₁ (ih ?_)
          rw [Utf8.encode_cons, Utf8.encode_cons]
          exact (language_append_iff (star_not_mem_encode hd)).mpr ⟨_, rfl, hp⟩
    · obtain ⟨v', hv, hp⟩ := (language_append_iff (star_not_mem_encode hc)).mp h
      obtain ⟨m₁, m₂, rfl, hm₁, rfl⟩ := Utf8.encode_split (w := []) hv.symm
      obtain rfl := Utf8.encode_eq_nil.mp hm₁
      exact .letter hc (ih hp)

theorem language_encode_iff : Language star (Utf8.encode p) (Utf8.encode v) ↔ Language '*' p v :=
  ⟨language_of_encode, Language.encode⟩

/-! ### Patterns and principals -/

/-- A pattern without a wildcard matches itself. -/
theorem language_self (h : star ∉ pattern) : Language star pattern pattern := (language_literal_iff h).mpr rfl

theorem star_mem_of_trailing {literal : Bytes} (h : trailingStarLiteral pattern = some literal) : star ∈ pattern := by
  unfold trailingStarLiteral at h
  split at h
  · cases h
  · rename_i lit hsuffix
    rw [dropSuffix?_eq_some.mp hsuffix]
    simp

/-- An overlap that is found without a wildcard in one pattern is one. -/
theorem exists_principal_of_intersect {a b : Bytes} (h : principalsIntersect a b = true)
    (hstar : ¬ (star ∈ a ∧ star ∈ b)) :
    (star ∉ a ∧ Language star b a) ∨ (star ∉ b ∧ Language star a b) := by
  unfold principalsIntersect at h
  split at h
  · rename_i hor
    rcases hor with rfl | hab | hba
    · have ha : star ∉ a := fun hmem => hstar ⟨hmem, hmem⟩
      exact .inl ⟨ha, language_self ha⟩
    · by_cases hb : star ∈ b
      · have ha : star ∉ a := fun hmem => hstar ⟨hmem, hb⟩
        obtain rfl := globMatch_literal ha hab
        exact absurd hb ha
      · exact .inr ⟨hb, globMatch_iff.mp hab⟩
    · by_cases ha : star ∈ a
      · have hb : star ∉ b := fun hmem => hstar ⟨ha, hmem⟩
        obtain rfl := globMatch_literal hb hba
        exact absurd ha hb
      · exact .inl ⟨ha, globMatch_iff.mp hba⟩
  · split at h
    · rename_i x y hx hy
      exact absurd ⟨star_mem_of_trailing hx, star_mem_of_trailing hy⟩ hstar
    · rw [Bool.and_eq_true, contains_iff_mem, contains_iff_mem] at h
      exact absurd h hstar

/-- `glob_match` decides the language of a pattern, in which `*` stands for any text and every other character for
itself. `principals_intersect` finds the overlap of two patterns that some principal is matched by, and finds one where
there is none only if both patterns contain a wildcard. -/
theorem patterns_by_language :
    (∀ pattern value : String, globMatch (utf8 pattern) (utf8 value) = true ↔
      Language '*' pattern.toList value.toList) ∧
      ∀ a b : String,
        ((∃ principal : String, Language '*' a.toList principal.toList ∧ Language '*' b.toList principal.toList) →
          principalsIntersect (utf8 a) (utf8 b) = true) ∧
        (principalsIntersect (utf8 a) (utf8 b) = true →
          (∃ principal : String, Language '*' a.toList principal.toList ∧ Language '*' b.toList principal.toList) ∨
            '*' ∈ a.toList ∧ '*' ∈ b.toList) := by
  have hutf8 : ∀ s : String, utf8 s = Utf8.encode s.toList := fun s => (Utf8.encode_toList s).symm
  have hmatch : ∀ pattern value : String,
      globMatch (utf8 pattern) (utf8 value) = true ↔ Language '*' pattern.toList value.toList := by
    intro pattern value
    rw [globMatch_iff, hutf8, hutf8, language_encode_iff]
  refine ⟨hmatch, fun a b => ⟨?_, ?_⟩⟩
  · rintro ⟨principal, ha, hb⟩
    exact principalsIntersect_of_match ((hmatch a principal).mpr ha) ((hmatch b principal).mpr hb)
  · intro h
    by_cases hstar : '*' ∈ a.toList ∧ '*' ∈ b.toList
    · exact .inr hstar
    · have hself : ∀ s : String, star ∉ utf8 s → Language '*' s.toList s.toList := by
        intro s hs
        rw [hutf8, star_mem_encode_iff] at hs
        exact (language_literal_iff hs).mpr rfl
      have hbytes : ¬ (star ∈ utf8 a ∧ star ∈ utf8 b) := by
        rwa [hutf8, hutf8, star_mem_encode_iff, star_mem_encode_iff]
      rcases exists_principal_of_intersect h hbytes with ⟨ha, hba⟩ | ⟨hb, hab⟩
      · rw [hutf8, hutf8, language_encode_iff] at hba
        exact .inl ⟨a, hself a ha, hba⟩
      · rw [hutf8, hutf8, language_encode_iff] at hab
        exact .inl ⟨b, hab, hself b hb⟩

end OvStorage.Authz
