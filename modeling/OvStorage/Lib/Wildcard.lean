import OvStorage.Lib.SegList

/-!
# Patterns with a wildcard

The language of a pattern in which one letter stands for any text, and all others for themselves.
-/

namespace OvStorage.Wildcard

open SegList

variable {α : Type*} {wild : α} {p q v w : List α}

/-- The texts of a pattern. -/
inductive Language (wild : α) : List α → List α → Prop
  | nil : Language wild [] []
  | wild {p v : List α} (w : List α) : Language wild p v → Language wild (wild :: p) (w ++ v)
  | letter {x : α} {p v : List α} : x ≠ wild → Language wild p v → Language wild (x :: p) (x :: v)

theorem language_nil_iff : Language wild [] v ↔ v = [] := by
  constructor
  · rintro ⟨⟩
    rfl
  · rintro rfl
    exact .nil

theorem language_wild_iff : Language wild (wild :: p) v ↔ ∃ w v', v = w ++ v' ∧ Language wild p v' := by
  constructor
  · intro h
    cases h with
    | wild w h => exact ⟨w, _, rfl, h⟩
    | letter hx h => exact absurd rfl hx
  · rintro ⟨w, v', rfl, h⟩
    exact .wild w h

variable {l : List α}

/-- Letters that are no wildcard stand for themselves. -/
theorem language_append_iff (hl : wild ∉ l) : Language wild (l ++ p) v ↔ ∃ v', v = l ++ v' ∧ Language wild p v' := by
  induction l generalizing v with
  | nil => simp
  | cons x l ih =>
    rw [List.mem_cons, not_or] at hl
    constructor
    · intro h
      cases h with
      | wild w h => exact absurd rfl hl.1
      | letter hx h =>
        obtain ⟨v', rfl, hp⟩ := (ih hl.2).mp h
        exact ⟨v', rfl, hp⟩
    · rintro ⟨v', rfl, h⟩
      exact .letter (Ne.symm hl.1) ((ih hl.2).mpr ⟨v', rfl, h⟩)

/-- A pattern without a wildcard is a text, and its only one. -/
theorem language_literal_iff (hl : wild ∉ l) : Language wild l v ↔ v = l := by
  have h := language_append_iff (p := []) (v := v) hl
  simpa [language_nil_iff] using h

/-- A wildcard takes what is put before. -/
theorem Language.prepend (h : Language wild (wild :: p) v) (w : List α) : Language wild (wild :: p) (w ++ v) := by
  obtain ⟨w', v', rfl, hp⟩ := language_wild_iff.mp h
  rw [← List.append_assoc]
  exact .wild _ hp

/-- Two wildcards are as one. -/
theorem language_wild_wild_iff : Language wild (wild :: wild :: p) v ↔ Language wild (wild :: p) v := by
  constructor
  · intro h
    obtain ⟨w, v', rfl, hp⟩ := language_wild_iff.mp h
    exact hp.prepend w
  · exact fun h => .wild [] h

/-- Behind a wildcard a text may be taken where it first occurs. -/
theorem language_first_iff {front back : List α} (hl : wild ∉ l)
    (hfirst : ∀ w v', front ++ l ++ back = w ++ l ++ v' → front.length ≤ w.length) :
    Language wild (wild :: (l ++ wild :: p)) (front ++ l ++ back) ↔ Language wild (wild :: p) back := by
  constructor
  · intro h
    obtain ⟨w, lv, hv, hlp⟩ := language_wild_iff.mp h
    obtain ⟨v', rfl, hp⟩ := (language_append_iff hl).mp hlp
    rw [← List.append_assoc] at hv
    have hle := hfirst w v' hv
    -- what is behind a later occurrence is at the end of what is behind the first
    have hsuffix : v' <:+ back := by
      have hlen := congrArg List.length hv
      simp only [List.length_append] at hlen
      refine List.suffix_of_suffix_length_le (⟨_, hv.symm⟩ : v' <:+ front ++ l ++ back) ⟨_, rfl⟩ (by omega)
    obtain ⟨x, rfl⟩ := hsuffix
    exact hp.prepend x
  · intro h
    rw [List.append_assoc]
    exact .wild front ((language_append_iff hl).mpr ⟨back, rfl, h⟩)

/-- A pattern that ends in a text behind a wildcard. -/
theorem language_last_iff (hl : wild ∉ l) : Language wild (wild :: l) v ↔ l <:+ v := by
  rw [language_wild_iff]
  constructor
  · rintro ⟨w, v', rfl, h⟩
    obtain rfl := (language_literal_iff hl).mp h
    exact ⟨w, rfl⟩
  · rintro ⟨w, rfl⟩
    exact ⟨w, l, rfl, (language_literal_iff hl).mpr rfl⟩

end OvStorage.Wildcard
