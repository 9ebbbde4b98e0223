import Mathlib.Data.List.Sort
import Mathlib.Order.Basic

/-!
# The first hit in a list sorted by descending key

A table that is scanned for its first match after a stable sort by descending key:
`sortByKeyDesc` sorts, and `find?_sortByKeyDesc` says which element the scan finds.
It is one of the greatest key among all matches, and of the matches with that key
the one that stood first before the sort.
-/

namespace StableSort

variable {α κ : Type*} [LinearOrder κ]

/-- A stable sort, greatest key first. -/
def sortByKeyDesc (key : α → κ) (l : List α) : List α := l.insertionSort fun a b => key b ≤ key a

variable {key : α → κ}

instance total_key : Std.Total fun a b : α => key b ≤ key a := ⟨fun a b => le_total (key b) (key a)⟩

instance trans_key : IsTrans α fun a b => key b ≤ key a := ⟨fun _ _ _ h k => le_trans k h⟩

theorem perm_sortByKeyDesc (key : α → κ) (l : List α) : (sortByKeyDesc key l).Perm l :=
  List.perm_insertionSort _ l

variable {l : List α}

@[simp] theorem mem_sortByKeyDesc {x : α} : x ∈ sortByKeyDesc key l ↔ x ∈ l :=
  (perm_sortByKeyDesc key l).mem_iff

theorem pairwise_sortByKeyDesc (key : α → κ) (l : List α) :
    (sortByKeyDesc key l).Pairwise fun a b => key b ≤ key a :=
  List.pairwise_insertionSort _ l

/-- Elements with one key keep their order. -/
theorem filter_sortByKeyDesc (key : α → κ) (q : α → Bool) (k : κ) (l : List α) (hq : ∀ x ∈ l, q x = true → key x = k) :
    (sortByKeyDesc key l).filter q = l.filter q := by
  have hpair : (l.filter q).Pairwise fun a b => key b ≤ key a := by
    refine List.Pairwise.imp_of_mem (R := fun _ _ => True) ?_ (List.pairwise_of_forall fun _ _ => trivial)
    intro a b ha hb _
    rw [List.mem_filter] at ha hb
    exact le_of_eq ((hq b hb.1 hb.2).trans (hq a ha.1 ha.2).symm)
  have hsub : (l.filter q).Sublist (sortByKeyDesc key l) := List.sublist_insertionSort hpair List.filter_sublist
  have hsub := hsub.filter q
  simp only [List.filter_filter, Bool.and_self] at hsub
  exact (hsub.eq_of_length ((perm_sortByKeyDesc key l).filter q).length_eq.symm).symm

/-- The first match after the sort: greatest key, and the first of those before it. -/
theorem find?_sortByKeyDesc {p : α → Bool} {r : α} (h : (sortByKeyDesc key l).find? p = some r) :
    r ∈ l ∧ p r = true ∧ (∀ x ∈ l, p x = true → key x ≤ key r) ∧
      l.find? (fun x => p x && decide (key x = key r)) = some r := by
  have hmem := List.mem_of_find?_eq_some h
  have hp : p r = true := List.find?_some h
  obtain ⟨-, pre, post, hsplit, hpre⟩ := List.find?_eq_some_iff_append.mp h
  have hmax : ∀ x ∈ l, p x = true → key x ≤ key r := by
    intro x hx hpx
    have hpair := pairwise_sortByKeyDesc key l
    have hx : x ∈ sortByKeyDesc key l := mem_sortByKeyDesc.mpr hx
    rw [hsplit] at hx
    rw [hsplit, List.pairwise_append] at hpair
    rcases List.mem_append.mp hx with hx | hx
    · exact absurd hpx (by simpa using hpre x hx)
    · rcases List.mem_cons.mp hx with rfl | hx
      · exact le_rfl
      · exact (List.pairwise_cons.mp hpair.2.1).1 x hx
  refine ⟨mem_sortByKeyDesc.mp hmem, hp, hmax, ?_⟩
  -- the matches with that key stand in the sorted list as they stood in `l`
  set q : α → Bool := fun x => p x && decide (key x = key r) with hq
  have hfilter := filter_sortByKeyDesc key q (key r) l (fun x _ hx => by
    rw [hq, Bool.and_eq_true, decide_eq_true_eq] at hx; exact hx.2)
  have hfirst : (sortByKeyDesc key l).find? q = some r := by
    rw [hsplit, List.find?_append, List.find?_cons_of_pos (by simp [hq, hp])]
    have hnone : pre.find? q = none := by
      rw [List.find?_eq_none]
      intro x hx
      have := hpre x hx
      simp_all
    rw [hnone]
    rfl
  rw [← List.head?_filter, ← hfilter, List.head?_filter]
  exact hfirst

theorem find?_sortByKeyDesc_isSome {p : α → Bool} :
    ((sortByKeyDesc key l).find? p).isSome = true ↔ ∃ x ∈ l, p x = true := by
  simp [List.find?_isSome]

end StableSort
