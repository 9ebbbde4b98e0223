import Mathlib.Data.List.Nodup
import Mathlib.Algebra.GroupWithZero.Nat
import Mathlib.Algebra.BigOperators.Group.List.Basic
import Mathlib.Algebra.Order.BigOperators.Group.List

/-!
# Finite tables

A table of rows with distinct keys, as a hash map holds them: `get`, `insert`,
`erase`, `modify` and `retain`. The rows stand in some order, which no operation
promises anything about. `weight` sums a measure of the values, so that a counter
kept beside the table can be compared with it.
-/

/-- Rows with distinct keys. -/
structure Table (κ ν : Type*) where
  rows : List (κ × ν)
  nodup : (rows.map Prod.fst).Nodup
deriving DecidableEq

namespace Table

open List

variable {κ ν : Type*}

/-- The table without rows. -/
def empty : Table κ ν := ⟨[], nodup_nil⟩

variable {t : Table κ ν}

theorem eq_empty_of_rows (h : t.rows = []) : t = empty := by
  obtain ⟨rows, hn⟩ := t
  obtain rfl : rows = [] := h
  rfl

/-- Keep the rows that pass the test. -/
def retain (t : Table κ ν) (keep : κ → ν → Bool) : Table κ ν :=
  ⟨t.rows.filter fun row => keep row.1 row.2, t.nodup.sublist (filter_sublist.map _)⟩

variable {row : κ × ν}

@[simp] theorem mem_retain {keep : κ → ν → Bool} : row ∈ (t.retain keep).rows ↔
    row ∈ t.rows ∧ keep row.1 row.2 = true :=
  mem_filter

variable [DecidableEq κ]

/-- The value at a key. -/
def get (t : Table κ ν) (k : κ) : Option ν := t.rows.lookup k

/-- Drop the row at a key, if there is one. -/
def erase (t : Table κ ν) (k : κ) : Table κ ν := t.retain fun k' _ => decide (k' ≠ k)

/-- Put a row, in place of the one at its key. -/
def insert (t : Table κ ν) (k : κ) (v : ν) : Table κ ν :=
  ⟨(k, v) :: (t.erase k).rows, by
    rw [map_cons, nodup_cons]
    refine ⟨?_, (t.erase k).nodup⟩
    rintro h
    obtain ⟨row, hrow, he⟩ := mem_map.mp h
    have := (mem_retain.mp hrow).2
    simp [he] at this⟩

/-- Change the value at a key. -/
def modify (t : Table κ ν) (k : κ) (f : ν → ν) : Table κ ν :=
  ⟨t.rows.map fun row => if row.1 = k then (row.1, f row.2) else row, by
    have hfst : (Prod.fst ∘ fun row : κ × ν => if row.1 = k then (row.1, f row.2) else row) = Prod.fst := by
      funext row
      simp only [Function.comp_apply]
      split_ifs <;> rfl
    rw [map_map, hfst]
    exact t.nodup⟩

omit [DecidableEq κ] in
theorem map_fst_mapRows (t : Table κ ν) (f : ν → ν) :
    (t.rows.map fun row => (row.1, f row.2)).map Prod.fst = t.rows.map Prod.fst := by
  rw [map_map]
  rfl

/-- Change every value. -/
def map (t : Table κ ν) (f : ν → ν) : Table κ ν :=
  ⟨t.rows.map fun row => (row.1, f row.2), by
    rw [map_fst_mapRows]
    exact t.nodup⟩

variable {k k' : κ} {v : ν}

theorem mem_rows_iff : (k, v) ∈ t.rows ↔ t.get k = some v := by
  obtain ⟨rows, hn⟩ := t
  unfold get
  dsimp only
  induction rows with
  | nil => simp
  | cons row rows ih =>
    obtain ⟨k', v'⟩ := row
    rw [map_cons, nodup_cons] at hn
    rw [lookup_cons]
    by_cases hk : k = k'
    · subst hk
      have hno : (k, v) ∉ rows := fun hm => hn.1 (mem_map.mpr ⟨(k, v), hm, rfl⟩)
      simp [hno, eq_comm]
    · have hb : (k == k') = false := beq_eq_false_iff_ne.mpr hk
      rw [hb]
      simpa [hk] using ih hn.2

theorem get_eq_none_iff : t.get k = none ↔ ∀ v, (k, v) ∉ t.rows := by
  rw [Option.eq_none_iff_forall_ne_some]
  exact forall_congr' fun v => not_congr mem_rows_iff.symm

theorem get_retain (t : Table κ ν) (keep : κ → ν → Bool) (k : κ) :
    (t.retain keep).get k = (t.get k).filter (keep k) := by
  apply Option.ext
  intro v
  simp only [Option.filter_eq_some_iff]
  rw [← mem_rows_iff, mem_retain, mem_rows_iff]

@[simp] theorem get_empty (k : κ) : (empty : Table κ ν).get k = none := rfl

theorem mem_erase : row ∈ (t.erase k).rows ↔ row ∈ t.rows ∧ row.1 ≠ k := by
  simp [erase]

@[simp] theorem get_erase_self (t : Table κ ν) (k : κ) : (t.erase k).get k = none := by
  rw [get_eq_none_iff]
  intro v hv
  exact (mem_erase.mp hv).2 rfl

theorem get_erase_of_ne (t : Table κ ν) (h : k' ≠ k) : (t.erase k).get k' = t.get k' := by
  rw [erase, get_retain]
  cases t.get k' <;> simp [h]

@[simp] theorem get_insert_self (t : Table κ ν) (k : κ) (v : ν) : (t.insert k v).get k = some v := by
  rw [← mem_rows_iff]; exact mem_cons_self

theorem mem_insert : row ∈ (t.insert k v).rows ↔ row = (k, v) ∨ row ∈ t.rows ∧ row.1 ≠ k := by
  simp [insert, mem_erase]

theorem get_insert_of_ne (t : Table κ ν) (v : ν) (h : k' ≠ k) : (t.insert k v).get k' = t.get k' := by
  apply Option.ext
  intro w
  rw [← mem_rows_iff, ← mem_rows_iff, mem_insert]
  simp [h]

theorem mem_modify {f : ν → ν} :
    (k', v) ∈ (t.modify k f).rows ↔ (∃ w, (k', w) ∈ t.rows ∧ k' = k ∧ v = f w) ∨ (k', v) ∈ t.rows ∧ k' ≠ k := by
  simp only [modify, mem_map]
  constructor
  · rintro ⟨⟨a, w⟩, hm, he⟩
    split_ifs at he with hk
    · cases he
      exact Or.inl ⟨w, hm, hk, rfl⟩
    · cases he
      exact Or.inr ⟨hm, hk⟩
  · rintro (⟨w, hm, rfl, rfl⟩ | ⟨hm, hk⟩)
    · exact ⟨(k', w), hm, by simp⟩
    · exact ⟨(k', v), hm, by simp [hk]⟩

theorem get_modify_self (t : Table κ ν) (k : κ) (f : ν → ν) : (t.modify k f).get k = (t.get k).map f := by
  apply Option.ext
  intro v
  rw [← mem_rows_iff, mem_modify, Option.map_eq_some_iff]
  simp [mem_rows_iff, eq_comm]

theorem get_modify_of_ne (t : Table κ ν) (f : ν → ν) (h : k' ≠ k) : (t.modify k f).get k' = t.get k' := by
  apply Option.ext
  intro v
  rw [← mem_rows_iff, mem_modify, mem_rows_iff]
  simp [h]

theorem get_map (t : Table κ ν) (f : ν → ν) (k : κ) : (t.map f).get k = (t.get k).map f := by
  apply Option.ext
  intro v
  rw [← mem_rows_iff, Option.map_eq_some_iff]
  constructor
  · intro h
    obtain ⟨row, hrow, he⟩ := mem_map.mp h
    cases he
    exact ⟨row.2, mem_rows_iff.mp hrow, rfl⟩
  · rintro ⟨w, hw, rfl⟩
    exact mem_map.mpr ⟨(k, w), mem_rows_iff.mpr hw, rfl⟩

/-- Putting the rows of another table, one after the other. -/
theorem get_foldl_insert (t u : Table κ ν) (k : κ) :
    (u.rows.foldl (fun t row => t.insert row.1 row.2) t).get k = (u.get k).or (t.get k) := by
  obtain ⟨rows, hn⟩ := u
  unfold get
  dsimp only
  change (rows.foldl (fun t row => t.insert row.1 row.2) t).get k = (rows.lookup k).or (t.get k)
  induction rows generalizing t with
  | nil => rfl
  | cons row rows ih =>
    rw [map_cons, nodup_cons] at hn
    rw [foldl_cons, ih _ hn.2, lookup_cons]
    by_cases hk : k = row.1
    · have hnone : rows.lookup k = none := lookup_eq_none_iff.mpr fun row' hrow' => by
        rw [hk, bne_iff_ne]
        intro heq
        exact hn.1 (mem_map.mpr ⟨row', hrow', heq.symm⟩)
      rw [hnone, hk, get_insert_self, beq_self_eq_true]
      rfl
    · rw [get_insert_of_ne _ _ hk, beq_eq_false_iff_ne.mpr hk]

theorem get_foldl_erase (t : Table κ ν) (keys : List κ) (k : κ) :
    (keys.foldl erase t).get k = if k ∈ keys then none else t.get k := by
  induction keys generalizing t with
  | nil => rfl
  | cons key keys ih =>
    rw [foldl_cons, ih]
    by_cases hk : k = key
    · rw [hk, get_erase_self]
      simp
    · rw [get_erase_of_ne _ hk]
      simp [hk]

/-! ### Weight -/

section

omit [DecidableEq κ]

/-- The sum of a measure over the values. -/
def weight (w : ν → ℕ) (t : Table κ ν) : ℕ := (t.rows.map fun row => w row.2).sum

/-- What is kept and what is dropped make up the whole. -/
theorem weight_retain_add (w : ν → ℕ) (t : Table κ ν) (keep : κ → ν → Bool) :
    (t.retain keep).weight w + (t.retain fun k v => !keep k v).weight w = t.weight w := by
  obtain ⟨rows, hn⟩ := t
  unfold weight retain
  dsimp only
  clear hn
  induction rows with
  | nil => rfl
  | cons row rows ih =>
    rw [map_cons, sum_cons, ← ih]
    cases hk : keep row.1 row.2 with
    | true => simp only [filter_cons, hk, if_true, Bool.not_true, Bool.false_eq_true, if_false, map_cons,
        sum_cons]; omega
    | false => simp only [filter_cons, hk, if_true, Bool.not_false, Bool.false_eq_true, if_false, map_cons,
        sum_cons]; omega

end

theorem weight_erase (w : ν → ℕ) (h : t.get k = some v) : (t.erase k).weight w + w v = t.weight w := by
  rw [← mem_rows_iff] at h
  obtain ⟨rows, hn⟩ := t
  unfold weight erase retain
  dsimp only at h ⊢
  induction rows with
  | nil => simp at h
  | cons row rows ih =>
    rw [map_cons, nodup_cons] at hn
    rcases mem_cons.mp h with rfl | h
    · have hall : ∀ r ∈ rows, decide (r.1 ≠ k) = true := by
        intro r hr
        simp only [ne_eq, decide_eq_true_eq]
        intro he
        exact hn.1 (mem_map.mpr ⟨r, hr, he⟩)
      rw [filter_cons_of_neg (by simp), filter_eq_self.mpr hall, map_cons, sum_cons]
      exact Nat.add_comm _ _
    · have hk : row.1 ≠ k := by
        rintro rfl
        exact hn.1 (mem_map.mpr ⟨_, h, rfl⟩)
      rw [filter_cons_of_pos (by simpa using hk), map_cons, map_cons, sum_cons, sum_cons,
        ← ih hn.2 h]
      omega

theorem erase_of_get_none (h : t.get k = none) : t.erase k = t := by
  obtain ⟨rows, hn⟩ := t
  unfold erase retain
  congr 1
  rw [filter_eq_self]
  intro row hrow
  simp only [ne_eq, decide_eq_true_eq]
  rintro rfl
  exact get_eq_none_iff.mp h row.2 hrow

theorem weight_insert (w : ν → ℕ) (t : Table κ ν) (k : κ) (v : ν) :
    (t.insert k v).weight w = w v + (t.erase k).weight w := rfl

theorem weight_modify (w : ν → ℕ) (t : Table κ ν) (k : κ) {f : ν → ν} (hf : ∀ v, w (f v) = w v) :
    (t.modify k f).weight w = t.weight w := by
  unfold weight modify
  rw [map_map]
  congr 1
  apply map_congr_left
  intro row _
  simp only [Function.comp_apply]
  split_ifs
  · exact hf row.2
  · rfl

omit [DecidableEq κ] in
theorem weight_one (t : Table κ ν) : t.weight (fun _ => 1) = t.rows.length := by simp [weight]

theorem length_erase (h : t.get k = some v) : (t.erase k).rows.length + 1 = t.rows.length := by
  rw [← weight_one, ← weight_one, weight_erase (fun _ => 1) h]

theorem length_modify (t : Table κ ν) (k : κ) (f : ν → ν) : (t.modify k f).rows.length = t.rows.length := length_map _

end Table
