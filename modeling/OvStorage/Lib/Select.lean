import Mathlib.Data.List.Basic
import Mathlib.Data.Prod.Lex
import Mathlib.Order.Basic

/-!
# The last element of greatest key

`maxByKey key l` is what `Iterator::max_by_key` picks: an element of greatest key, and of
those the last one. `maxByKey_eq_some_iff` says where in the list it stands; from it, a
key that ends in the position picks the same element as the key without it
(`maxByKey_lex`), what is picked is the last of the elements with the greatest key
(`maxByKey_eq_getLast?`), and it stays picked among fewer (`maxByKey_filter_of_imp`).
`maxByKey_inserted` says what is picked when more elements come in between.
-/

namespace Select

open List

variable {α β κ : Type*} [LinearOrder κ]

/-- The element of greatest key, the last one on a tie. -/
def maxByKey (key : α → κ) : List α → Option α
  | [] => none
  | x :: xs => some (xs.foldl (fun best y => if key y < key best then best else y) x)

/-- `x` stands in `l` with nothing greater before it and only smaller behind it. -/
def IsLastMax (key : α → κ) (l : List α) (x : α) : Prop :=
  ∃ pre post, l = pre ++ x :: post ∧ (∀ y ∈ pre, key y ≤ key x) ∧ ∀ y ∈ post, key y < key x

variable {key : α → κ}

variable {l : List α} {x y : α}

theorem IsLastMax.mem (h : IsLastMax key l x) : x ∈ l := by
  obtain ⟨pre, post, rfl, -, -⟩ := h
  simp

theorem IsLastMax.le (h : IsLastMax key l x) : ∀ y ∈ l, key y ≤ key x := by
  obtain ⟨pre, post, rfl, hpre, hpost⟩ := h
  intro y hy
  rcases mem_append.1 hy with hy | hy
  · exact hpre y hy
  · rcases mem_cons.1 hy with rfl | hy
    · exact le_rfl
    · exact (hpost y hy).le

/-- Of the elements with the greatest key, it is the last. -/
theorem IsLastMax.getLast? (h : IsLastMax key l x) : (l.filter fun y => decide (key y = key x)).getLast? = some x := by
  obtain ⟨pre, post, rfl, -, hpost⟩ := h
  have hnone : post.filter (fun y => decide (key y = key x)) = [] :=
    filter_eq_nil_iff.2 fun y hy => by simpa using (hpost y hy).ne
  rw [filter_append, filter_cons_of_pos (by simp), hnone]
  exact List.getLast?_concat

theorem IsLastMax.unique (hx : IsLastMax key l x) (hy : IsLastMax key l y) : x = y := by
  have hkey : key x = key y := le_antisymm (hy.le x hx.mem) (hx.le y hy.mem)
  have h := hx.getLast?
  rw [hkey, hy.getLast?] at h
  exact (Option.some.inj h).symm

theorem isLastMax_foldl (key : α → κ) (xs : List α) (x : α) :
    IsLastMax key (x :: xs) (xs.foldl (fun best y => if key y < key best then best else y) x) := by
  induction xs generalizing x with
  | nil => exact ⟨[], [], rfl, by simp, by simp⟩
  | cons y ys ih =>
    rw [foldl_cons]
    split
    · rename_i hlt
      obtain ⟨pre, post, he, hpre, hpost⟩ := ih x
      generalize ys.foldl (fun best y => if key y < key best then best else y) x = r at he hpre hpost ⊢
      cases pre with
      | nil =>
        cases he
        refine ⟨[], y :: ys, rfl, by simp, ?_⟩
        intro z hz
        rcases mem_cons.1 hz with rfl | hz
        · exact hlt
        · exact hpost z hz
      | cons p pre =>
        cases he
        refine ⟨x :: y :: pre, post, rfl, ?_, hpost⟩
        intro z hz
        rcases mem_cons.1 hz with rfl | hz
        · exact hpre z (by simp)
        · rcases mem_cons.1 hz with rfl | hz
          · exact hlt.le.trans (hpre x (by simp))
          · exact hpre z (by simp [hz])
    · rename_i hge
      obtain ⟨pre, post, he, hpre, hpost⟩ := ih y
      have hmax := IsLastMax.le ⟨pre, post, he, hpre, hpost⟩ y (by simp)
      refine ⟨x :: pre, post, by rw [he]; rfl, ?_, hpost⟩
      intro z hz
      rcases mem_cons.1 hz with rfl | hz
      · exact (not_lt.1 hge).trans hmax
      · exact hpre z hz

theorem maxByKey_eq_some_iff : maxByKey key l = some x ↔ IsLastMax key l x := by
  cases l with
  | nil =>
    refine iff_of_false (by simp [maxByKey]) ?_
    rintro ⟨pre, post, h, -⟩
    simp at h
  | cons y ys =>
    rw [maxByKey, Option.some_inj]
    constructor
    · rintro rfl
      exact isLastMax_foldl key ys y
    · exact fun h => (isLastMax_foldl key ys y).unique h

theorem maxByKey_eq_none_iff : maxByKey key l = none ↔ l = [] := by
  cases l <;> simp [maxByKey]

/-- The one of greater key, the later one on a tie. -/
def laterMax (key : α → κ) : Option α → Option α → Option α
  | none, y => y
  | x, none => x
  | some x, some y => if key y < key x then some x else some y

theorem maxByKey_append (xs ys : List α) :
    maxByKey key (xs ++ ys) = laterMax key (maxByKey key xs) (maxByKey key ys) := by
  cases hx : maxByKey key xs with
  | none =>
    rw [maxByKey_eq_none_iff.1 hx, nil_append]
    rfl
  | some x =>
    cases hy : maxByKey key ys with
    | none =>
      rw [maxByKey_eq_none_iff.1 hy, append_nil, hx]
      rfl
    | some y =>
      have hmaxX := maxByKey_eq_some_iff.1 hx
      have hmaxY := maxByKey_eq_some_iff.1 hy
      change _ = if key y < key x then some x else some y
      split_ifs with hlt
      · obtain ⟨pre, post, rfl, hpre, hpost⟩ := hmaxX
        refine maxByKey_eq_some_iff.2 ⟨pre, post ++ ys, by simp, hpre, fun z hz => ?_⟩
        rcases mem_append.1 hz with hz | hz
        · exact hpost z hz
        · exact (hmaxY.le z hz).trans_lt hlt
      · obtain ⟨pre, post, rfl, hpre, hpost⟩ := hmaxY
        refine maxByKey_eq_some_iff.2 ⟨xs ++ pre, post, by simp, fun z hz => ?_, hpost⟩
        rcases mem_append.1 hz with hz | hz
        · exact (hmaxX.le z hz).trans (not_lt.1 hlt)
        · exact hpre z hz

/-- What is picked when more elements come in between, none of which ties with what stands before them: the best of
these if it is greater than what was picked without them. -/
theorem maxByKey_inserted {xs ys zs : List α} (hy : maxByKey key ys = some y) (htie : ∀ x ∈ xs, key x ≠ key y) :
    maxByKey key (xs ++ ys ++ zs) =
      if (maxByKey key (xs ++ zs)).all fun best => key best < key y then some y else maxByKey key (xs ++ zs) := by
  rw [maxByKey_append, maxByKey_append, maxByKey_append, hy]
  cases hx : maxByKey key xs with
  | none =>
    cases maxByKey key zs with
    | none => simp [laterMax]
    | some z => simp [laterMax]
  | some x =>
    have hne := htie x (maxByKey_eq_some_iff.1 hx).mem
    cases maxByKey key zs with
    | none =>
      rcases lt_or_gt_of_ne hne with hlt | hgt
      · simp [laterMax, hlt, hlt.not_gt]
      · simp [laterMax, hgt, hgt.not_gt]
    | some z =>
      rcases lt_or_gt_of_ne hne with hlt | hgt
      · by_cases hz : key z < key x
        · simp [laterMax, hlt, hlt.not_gt, hz, hz.trans hlt]
        · simp [laterMax, hlt.not_gt, hz]
      · by_cases hz : key z < key x
        · simp [laterMax, hgt, hgt.not_gt, hz]
        · have hzy : ¬ key z < key y := fun h => hz (h.trans hgt)
          simp [laterMax, hgt, hz, hzy]

theorem maxByKey_map {f : β → α} (l : List β) :
    maxByKey key (l.map f) = (maxByKey (fun x => key (f x)) l).map f := by
  cases h : maxByKey (fun x => key (f x)) l with
  | none => rw [maxByKey_eq_none_iff.1 h]; rfl
  | some x =>
    obtain ⟨pre, post, rfl, hpre, hpost⟩ := maxByKey_eq_some_iff.1 h
    refine maxByKey_eq_some_iff.2 ⟨pre.map f, post.map f, by simp, ?_, ?_⟩
    · exact forall_mem_map.2 hpre
    · exact forall_mem_map.2 hpost

/-- A position at the end of the key changes nothing. -/
theorem maxByKey_lex {pos : α → ℕ} (hpos : l.Pairwise fun x y => pos x < pos y) :
    maxByKey (fun x => toLex (key x, pos x)) l = maxByKey key l := by
  cases h : maxByKey (fun x => toLex (key x, pos x)) l with
  | none => rw [maxByKey_eq_none_iff.1 h]; rfl
  | some x =>
    obtain ⟨pre, post, rfl, hpre, hpost⟩ := maxByKey_eq_some_iff.1 h
    refine (maxByKey_eq_some_iff.2 ⟨pre, post, rfl, fun y hy => ?_, fun y hy => ?_⟩).symm
    · rcases Prod.Lex.le_iff.1 (hpre y hy) with h1 | h1
      · exact le_of_lt h1
      · exact le_of_eq h1.1
    · rcases Prod.Lex.lt_iff.1 (hpost y hy) with h1 | h1
      · exact h1
      · have hafter : pos x < pos y := (pairwise_cons.1 (pairwise_append.1 hpos).2.1).1 y hy
        exact absurd h1.2 (not_lt.2 hafter.le)

/-- What is picked only depends on the elements with the greatest key. -/
theorem maxByKey_eq_getLast? {m : κ} (hle : ∀ x ∈ l, key x ≤ m) (hm : ∃ x ∈ l, key x = m) :
    maxByKey key l = (l.filter fun x => decide (key x = m)).getLast? := by
  cases h : maxByKey key l with
  | none =>
    obtain ⟨x, hx, -⟩ := hm
    rw [maxByKey_eq_none_iff.1 h] at hx
    exact absurd hx not_mem_nil
  | some x =>
    have hmax := maxByKey_eq_some_iff.1 h
    obtain ⟨y, hy, rfl⟩ := hm
    rw [le_antisymm (hmax.le y hy) (hle x hmax.mem), hmax.getLast?]

/-- What is picked stays picked among fewer. -/
theorem maxByKey_filter_of_imp {p q : α → Bool} (h : maxByKey key (l.filter p) = some x)
    (hx : q x = true) (himp : ∀ y ∈ l, q y = true → p y = true) : maxByKey key (l.filter q) = some x := by
  have hcut : l.filter q = (l.filter p).filter q := by
    rw [filter_filter]
    refine filter_congr fun y hy => ?_
    cases hq : q y with
    | false => rfl
    | true => simp [himp y hy hq]
  obtain ⟨pre, post, hsplit, hpre, hpost⟩ := maxByKey_eq_some_iff.1 h
  rw [hcut, hsplit, filter_append, filter_cons_of_pos hx]
  refine maxByKey_eq_some_iff.2 ⟨_, _, rfl, fun y hy => ?_, fun y hy => ?_⟩
  · exact hpre y (mem_of_mem_filter hy)
  · exact hpost y (mem_of_mem_filter hy)

/-- A permutation that keeps the order inside each group keeps what is picked, if elements
that tie are of one group. -/
theorem maxByKey_perm {γ : Type*} [DecidableEq γ] {l' : List α} (hperm : l'.Perm l) {g : α → γ}
    (hgroup : ∀ w, l'.filter (fun x => decide (g x = w)) = l.filter fun x => decide (g x = w)) {p : α → Bool}
    (htie : ∀ x ∈ l, ∀ y ∈ l, p x = true → p y = true → key x = key y → g x = g y) :
    maxByKey key (l'.filter p) = maxByKey key (l.filter p) := by
  cases h : maxByKey key (l.filter p) with
  | none =>
    have hnil := maxByKey_eq_none_iff.1 h
    exact maxByKey_eq_none_iff.2 (((hperm.filter p).trans (hnil ▸ List.Perm.refl _)).eq_nil)
  | some x =>
    have hmax := maxByKey_eq_some_iff.1 h
    obtain ⟨hx, hpx⟩ := mem_filter.1 hmax.mem
    -- the elements that tie with `x` all stand in its group
    have hcut : ∀ {k : List α}, (∀ y ∈ k, y ∈ l) → (k.filter p).filter (fun y => decide (key y = key x)) =
        (k.filter fun y => decide (g y = g x)).filter fun y => p y && decide (key y = key x) := by
      intro k hk
      rw [filter_filter, filter_filter]
      refine filter_congr fun y hy => ?_
      by_cases hkey : key y = key x
      · cases hpy : p y with
        | false => simp
        | true => simp [htie y (hk y hy) x hx hpy hpx hkey, hkey]
      · simp [hkey]
    have hle : ∀ y ∈ l'.filter p, key y ≤ key x := fun y hy => hmax.le y ((hperm.filter p).mem_iff.1 hy)
    rw [maxByKey_eq_getLast? hle ⟨x, (hperm.filter p).mem_iff.2 hmax.mem, rfl⟩,
      hcut fun y hy => hperm.mem_iff.1 hy, hgroup, ← hcut fun y hy => hy, hmax.getLast?]

end Select
