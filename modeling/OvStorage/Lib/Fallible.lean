import Mathlib.Data.List.Forall2

/-!
# Lists of fallible conversions

`List.mapM` in `Except`: it succeeds where every conversion does, and its answer is the list of their answers.
-/

namespace Fallible

variable {α β ε : Type*} {f : α → Except ε β} {l : List α} {l' : List β}

/-- The conversions of a list succeed one by one. -/
theorem mapM_eq_ok_iff : l.mapM f = .ok l' ↔ List.Forall₂ (fun a b => f a = .ok b) l l' := by
  induction l generalizing l' with
  | nil => exact ⟨fun h => by cases h; exact .nil, fun h => by cases h; rfl⟩
  | cons a l ih =>
    rw [List.mapM_cons]
    cases ha : f a with
    | error e => exact ⟨nofun, fun h => by cases h with | cons hb _ => cases ha.symm.trans hb⟩
    | ok b =>
      cases hl : l.mapM f with
      | error e =>
        refine ⟨nofun, fun h => ?_⟩
        cases h with
        | cons _ hrest => cases hl.symm.trans (ih.mpr hrest)
      | ok rest =>
        constructor
        · rintro ⟨⟩
          exact .cons ha (ih.mp hl)
        · intro h
          cases h with
          | cons hb hrest =>
            cases ha.symm.trans hb
            cases hl.symm.trans (ih.mpr hrest)
            rfl

theorem exists_mapM_eq_ok (h : ∀ a ∈ l, ∃ b, f a = .ok b) : ∃ l', l.mapM f = .ok l' := by
  induction l with
  | nil => exact ⟨[], rfl⟩
  | cons a l ih =>
    obtain ⟨b, hb⟩ := h a List.mem_cons_self
    obtain ⟨rest, hrest⟩ := ih fun a ha => h a (List.mem_cons_of_mem _ ha)
    exact ⟨b :: rest, (mapM_eq_ok_iff).mpr (.cons hb ((mapM_eq_ok_iff).mp hrest))⟩

theorem mem_of_mapM (h : l.mapM f = .ok l') {a : α} (ha : a ∈ l) : ∃ b ∈ l', f a = .ok b := by
  have hall := (mapM_eq_ok_iff).mp h
  clear h
  induction hall with
  | nil => cases ha
  | cons hab _ ih =>
    rcases List.mem_cons.mp ha with rfl | ha
    · exact ⟨_, List.mem_cons_self, hab⟩
    · obtain ⟨b, hb, hfb⟩ := ih ha
      exact ⟨b, List.mem_cons_of_mem _ hb, hfb⟩

theorem mem_of_mem_mapM (h : l.mapM f = .ok l') {b : β} (hb : b ∈ l') : ∃ a ∈ l, f a = .ok b := by
  have hall := (mapM_eq_ok_iff).mp h
  clear h
  induction hall with
  | nil => cases hb
  | cons hab _ ih =>
    rcases List.mem_cons.mp hb with rfl | hb
    · exact ⟨_, List.mem_cons_self, hab⟩
    · obtain ⟨a, ha, hfa⟩ := ih hb
      exact ⟨a, List.mem_cons_of_mem _ ha, hfa⟩

/-- A relation among what is converted is one among the answers. -/
theorem pairwise_mapM {R : α → α → Prop} {S : β → β → Prop} (h : l.mapM f = .ok l') (hl : l.Pairwise R)
    (hRS : ∀ a ∈ l, ∀ a' ∈ l, R a a' → ∀ b b', f a = .ok b → f a' = .ok b' → S b b') : l'.Pairwise S := by
  induction l generalizing l' with
  | nil =>
    cases h
    exact .nil
  | cons a l ih =>
    have hall := (mapM_eq_ok_iff).mp h
    obtain ⟨ha, hpair⟩ := List.pairwise_cons.mp hl
    obtain ⟨b, rest, hab, hrest, rfl⟩ := List.forall₂_cons_left_iff.mp hall
    have hrest := (mapM_eq_ok_iff).mpr hrest
    refine List.pairwise_cons.mpr ⟨fun b' hb' => ?_, ih hrest hpair fun a ha a' ha' =>
      hRS a (List.mem_cons_of_mem _ ha) a' (List.mem_cons_of_mem _ ha')⟩
    obtain ⟨a', ha', hab'⟩ := mem_of_mem_mapM hrest hb'
    exact hRS a List.mem_cons_self a' (List.mem_cons_of_mem _ ha') (ha a' ha') b b' hab hab'

end Fallible
