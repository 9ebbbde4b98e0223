import Mathlib.Data.List.Nodup
import Mathlib.Data.List.Infix

/-!
# Closing a list under ancestors

Every address `x` has a chain of proper ancestors `anc x`, outermost first. A list of
entries is *closed* by putting in front of each entry those of its ancestors that are
missing. There are two ways to find out which these are:

* `closeKnown` remembers everything: an ancestor is put unless it is the address of some
  entry, wherever that stands, or was put before;
* `closeChain` remembers the preceding entry: an ancestor is put unless it is shared with
  the chain of that entry.

`closeKnown_eq_closeChain_iff` says when the two agree: an ancestor that is not missing has
to be the preceding entry or an ancestor of it (`Contiguous`).
-/

namespace Ancestry

open List

variable {α β : Type*}

/-- Chains of ancestors, for the addresses in `V`: what is above an ancestor is the chain up to
it, and an ancestor is closed, as a directory path is by its separator. -/
structure Lawful (anc : α → List α) (closed : α → Bool) (V : α → Prop) : Prop where
  valid : ∀ {x a}, V x → a ∈ anc x → V a
  closed : ∀ {x a}, V x → a ∈ anc x → closed a = true
  initial : ∀ {x a}, V x → a ∈ anc x → ∃ rest, anc x = anc a ++ a :: rest
  nodup : ∀ {x}, V x → (anc x).Nodup
  irrefl : ∀ {x}, V x → x ∉ anc x

/-! ### The two ways -/

section Ways

variable [DecidableEq α] (anc : α → List α) (closed : α → Bool) (make : α → β) (addr : β → α)

/-- How many elements two lists share in front. -/
def shared (as bs : List α) : ℕ := ((as.zip bs).takeWhile fun (a, b) => a == b).length

/-- Put the addresses that are not known, and know them from then on. -/
def addFresh : List α → List α → List α × List α
  | known, [] => (known, [])
  | known, a :: as =>
    if a ∈ known then addFresh known as
    else
      let (known, fresh) := addFresh (a :: known) as
      (known, a :: fresh)

/-- Close by what is known. -/
def closeKnown : List α → List β → List β
  | _, [] => []
  | known, y :: ys =>
    let (known, fresh) := addFresh known (anc (addr y))
    fresh.map make ++ y :: closeKnown known ys

/-- The chain an entry leaves: its ancestors, and itself when it can be one. -/
def chainOf (z : α) : List α := anc z ++ if closed z then [z] else []

/-- Close by the chain of the preceding entry. -/
def closeChain : List α → List β → List β
  | _, [] => []
  | chain, y :: ys =>
    let ancestors := anc (addr y)
    (ancestors.drop (shared ancestors chain)).map make ++ y :: closeChain (chainOf anc closed (addr y)) ys

/-- The ancestors of `x` that are not missing are in the chain of the last of `pre`. -/
def FollowsOn (all : α → Prop) (pre : List α) (x : α) : Prop :=
  ∀ a ∈ anc x, (all a ∨ ∃ z ∈ pre, a ∈ anc z) → ∃ z ∈ pre.getLast?, a = z ∨ a ∈ anc z

/-- Every address follows on the ones before it. -/
def Contiguous (all : α → Prop) : List α → List α → Prop
  | _, [] => True
  | pre, x :: xs => FollowsOn anc all pre x ∧ Contiguous all (pre ++ [x]) xs

attribute [local grind =] addFresh closeKnown closeChain

end Ways

/-! ### What two lists share -/

section Shared

variable [DecidableEq α]

@[simp] theorem shared_nil_right (as : List α) : shared as [] = 0 := by cases as <;> rfl

theorem shared_cons (a b : α) (as bs : List α) :
    shared (a :: as) (b :: bs) = if a = b then shared as bs + 1 else 0 := by
  unfold shared
  rw [zip_cons_cons, takeWhile_cons]
  split_ifs with h1 h2 h2
  · rfl
  · exact absurd (eq_of_beq h1) h2
  · exact absurd (beq_iff_eq.mpr h2) h1
  · rfl

theorem take_shared_front (as bs : List α) : as.take (shared as bs) <+: bs := by
  induction as generalizing bs with
  | nil => simp
  | cons a as ih =>
    cases bs with
    | nil => simp
    | cons b bs =>
      rw [shared_cons]
      split_ifs with h
      · subst h
        rw [take_succ_cons, cons_prefix_cons]
        exact ⟨rfl, ih bs⟩
      · simp

/-- A common front is shared. -/
theorem length_le_shared {ps as bs : List α} (ha : ps <+: as) (hb : ps <+: bs) : ps.length ≤ shared as bs := by
  induction ps generalizing as bs with
  | nil => simp
  | cons p ps ih =>
    obtain ⟨as', rfl⟩ := ha
    obtain ⟨bs', rfl⟩ := hb
    rw [cons_append, cons_append, shared_cons, if_pos rfl, length_cons]
    exact Nat.succ_le_succ (ih (prefix_append ps as') (prefix_append ps bs'))

end Shared

/-! ### What is known -/

section Fresh

variable [DecidableEq α]

variable {known as : List α}

theorem mem_addFresh {a : α} : a ∈ (addFresh known as).1 ↔ a ∈ known ∨ a ∈ as := by
  induction as generalizing known with
  | nil => simp [addFresh]
  | cons b as ih =>
    rw [addFresh]
    split_ifs with h
    · rw [ih, mem_cons]
      constructor
      · exact fun hm => hm.imp_right Or.inr
      · rintro (hm | rfl | hm)
        · exact Or.inl hm
        · exact Or.inl h
        · exact Or.inr hm
    · simp only [ih, mem_cons]
      tauto

theorem not_mem_of_mem_addFresh {a : α} (h : a ∈ (addFresh known as).2) : a ∉ known := by
  induction as generalizing known with
  | nil => cases h
  | cons b as ih =>
    rw [addFresh] at h
    split_ifs at h with hb
    · exact ih h
    · rcases mem_cons.mp h with rfl | h
      · exact hb
      · exact fun hk => ih h (mem_cons_of_mem b hk)

theorem addFresh_eq_filter (h : as.Nodup) : (addFresh known as).2 = as.filter fun a => decide (a ∉ known) := by
  induction as generalizing known with
  | nil => rfl
  | cons b as ih =>
    rw [nodup_cons] at h
    rw [addFresh]
    split_ifs with hb
    · rw [ih h.2, filter_cons_of_neg (by simpa using hb)]
    · simp only [ih h.2]
      rw [filter_cons_of_pos (by simpa using hb)]
      congr 1
      apply filter_congr
      intro a ha
      have hne : a ≠ b := fun he => h.1 (he ▸ ha)
      simp [hne]

/-- What closing by what is known adds is not known. -/
theorem mem_closeKnown {anc : α → List α} {make : α → β} {addr : β → α} {ys : List β} {y : β}
    (h : y ∈ closeKnown anc make addr known ys) : y ∈ ys ∨ ∃ a, a ∉ known ∧ y = make a := by
  induction ys generalizing known with
  | nil => cases h
  | cons z ys ih =>
    rw [closeKnown, mem_append, mem_cons] at h
    rcases h with h | rfl | h
    · obtain ⟨a, ha, rfl⟩ := mem_map.mp h
      exact Or.inr ⟨a, not_mem_of_mem_addFresh ha, rfl⟩
    · exact Or.inl mem_cons_self
    · rcases ih h with h | ⟨a, ha, rfl⟩
      · exact Or.inl (mem_cons_of_mem z h)
      · exact Or.inr ⟨a, fun hk => ha ((mem_addFresh).mpr (Or.inl hk)), rfl⟩

end Fresh

/-! ### What is put -/

section Put

variable [DecidableEq α] {anc : α → List α} {closed : α → Bool} {make : α → β} {addr : β → α}

/-- Closing by what is known puts nothing of a kind that no unknown address makes. -/
theorem countP_closeKnown {p : β → Bool} {known : List α} (hp : ∀ a ∉ known, p (make a) = false) (ys : List β) :
    (closeKnown anc make addr known ys).countP p = ys.countP p := by
  induction ys generalizing known with
  | nil => rfl
  | cons y ys ih =>
    have hfresh : ((addFresh known (anc (addr y))).2.map make).countP p = 0 := by
      rw [countP_eq_zero]
      rintro z hz
      obtain ⟨a, ha, rfl⟩ := mem_map.mp hz
      rw [hp a (not_mem_of_mem_addFresh ha)]
      decide
    rw [closeKnown, countP_append, countP_cons, countP_cons, hfresh, Nat.zero_add,
      ih fun a ha => hp a fun hk => ha ((mem_addFresh).mpr (Or.inl hk))]

theorem sublist_closeChain (chain : List α) (ys : List β) : ys.Sublist (closeChain anc closed make addr chain ys) := by
  induction ys generalizing chain with
  | nil => exact List.Sublist.refl _
  | cons y ys ih => exact List.Sublist.trans ((ih _).cons_cons y) (sublist_append_right _ _)

end Put

/-! ### Agreement -/

section Agreement

variable [DecidableEq α] {anc : α → List α} {closed : α → Bool} {V : α → Prop}

/-- An ancestor is shared with the chain of an entry when it is the entry or an ancestor of it. -/
theorem Lawful.mem_take_shared (law : Lawful anc closed V) {x z a : α} (hx : V x) (hz : V z) (ha : a ∈ anc x) :
    a ∈ (anc x).take (shared (anc x) (chainOf anc closed z)) ↔ a = z ∨ a ∈ anc z := by
  constructor
  · intro hm
    have hc := (take_shared_front (anc x) (chainOf anc closed z)).subset hm
    rw [chainOf, mem_append] at hc
    rcases hc with hc | hc
    · exact Or.inr hc
    · split_ifs at hc
      · exact Or.inl (mem_singleton.mp hc)
      · cases hc
  · intro h
    -- `anc a ++ [a]` begins both chains
    obtain ⟨rest, hrest⟩ := law.initial hx ha
    have hfront : anc a ++ [a] <+: chainOf anc closed z := by
      rcases h with rfl | h
      · rw [chainOf, law.closed hx ha, if_pos rfl]
      · obtain ⟨rest', hrest'⟩ := law.initial hz h
        rw [chainOf, hrest']
        exact ⟨rest' ++ (if closed z then [z] else []), by simp⟩
    have hfrontx : anc a ++ [a] <+: anc x := ⟨rest, by rw [hrest]; simp⟩
    have hlen := length_le_shared hfrontx hfront
    have htake : anc a ++ [a] <+: (anc x).take (shared (anc x) (chainOf anc closed z)) := by
      rw [prefix_take_iff]
      exact ⟨hfrontx, hlen⟩
    exact htake.subset (by simp)

/-- The chain left by the last of the addresses so far. -/
def lastChain (anc : α → List α) (closed : α → Bool) (pre : List α) : List α :=
  pre.getLast?.elim [] (chainOf anc closed)

variable {all : α → Prop} {known pre : List α}

/-- One entry: the fresh ancestors are those that are not shared exactly when it follows on. -/
theorem Lawful.fresh_eq_drop_iff (law : Lawful anc closed V) {x : α} (hx : V x)
    (hpre : ∀ z ∈ pre, V z ∧ all z) (hknown : ∀ a, a ∈ known ↔ all a ∨ ∃ z ∈ pre, a ∈ anc z) :
    (addFresh known (anc x)).2 = (anc x).drop (shared (anc x) (lastChain anc closed pre)) ↔
      FollowsOn anc all pre x := by
  have hnodup := law.nodup hx
  rw [addFresh_eq_filter hnodup]
  have hshared : ∀ a ∈ anc x, a ∈ (anc x).take (shared (anc x) (lastChain anc closed pre)) ↔
      ∃ z ∈ pre.getLast?, a = z ∨ a ∈ anc z := by
    intro a ha
    unfold lastChain
    cases hl : pre.getLast? with
    | none => simp
    | some z => simpa using law.mem_take_shared hx (hpre z (mem_of_getLast? hl)).1 ha
  generalize shared (anc x) (lastChain anc closed pre) = n at hshared ⊢
  constructor
  · intro h a ha hk
    rw [← hshared a ha]
    have hnot : a ∉ (anc x).drop n := by
      rw [← h, mem_filter]
      rintro ⟨-, hd⟩
      exact of_decide_eq_true hd ((hknown a).mpr hk)
    rw [← take_append_drop n (anc x), mem_append] at ha
    exact ha.resolve_right hnot
  · intro h
    have hsplit : (anc x).take n ++ (anc x).drop n = anc x := take_append_drop n (anc x)
    have hdisj : ∀ a ∈ (anc x).take n, a ∉ (anc x).drop n := by
      rw [← hsplit, nodup_append] at hnodup
      exact fun a h1 h2 => hnodup.2.2 a h1 a h2 rfl
    conv_lhs => rw [← hsplit]
    rw [filter_append]
    have htake : ((anc x).take n).filter (fun a => decide (a ∉ known)) = [] := by
      rw [filter_eq_nil_iff]
      intro a ha hd
      obtain ⟨z, hz, hza⟩ := (hshared a (mem_of_mem_take ha)).mp ha
      have hzm := mem_of_getLast? hz
      refine of_decide_eq_true hd ((hknown a).mpr ?_)
      rcases hza with rfl | hza
      · exact Or.inl (hpre a hzm).2
      · exact Or.inr ⟨z, hzm, hza⟩
    have hdrop : ((anc x).drop n).filter (fun a => decide (a ∉ known)) = (anc x).drop n := by
      rw [filter_eq_self]
      intro a ha
      refine decide_eq_true fun hk => ?_
      have hax := mem_of_mem_drop ha
      exact hdisj a ((hshared a hax).mpr (h a hax ((hknown a).mp hk))) ha
    rw [htake, hdrop, nil_append]

/-- A list is cut in one way at the first occurrence of an element. -/
theorem append_cons_inj {y : β} {as bs as' bs' : List β} (h : y ∉ as) (h' : y ∉ as') :
    as ++ y :: bs = as' ++ y :: bs' ↔ as = as' ∧ bs = bs' := by
  constructor
  · intro he
    induction as generalizing as' with
    | nil =>
      cases as' with
      | nil => exact ⟨rfl, (List.cons.inj he).2⟩
      | cons a as' => exact absurd ((List.cons.inj he).1 ▸ mem_cons_self) h'
    | cons a as ih =>
      cases as' with
      | nil => exact absurd ((List.cons.inj he).1 ▸ mem_cons_self) h
      | cons a' as' =>
        obtain ⟨ha, he⟩ := List.cons.inj he
        obtain ⟨rfl, rfl⟩ := ih (fun hm => h (mem_cons_of_mem a hm)) (fun hm => h' (mem_cons_of_mem a' hm)) he
        exact ⟨by rw [ha], rfl⟩
  · rintro ⟨rfl, rfl⟩
    rfl

/-- The two ways agree exactly on contiguous lists. -/
theorem Lawful.closeKnown_eq_closeChain_iff (law : Lawful anc closed V) {make : α → β} {addr : β → α}
    (hmake : ∀ a, addr (make a) = a) {ys : List β}
    (hys : ∀ y ∈ ys, V (addr y) ∧ all (addr y)) (hpre : ∀ z ∈ pre, V z ∧ all z)
    (hknown : ∀ a, a ∈ known ↔ all a ∨ ∃ z ∈ pre, a ∈ anc z) :
    closeKnown anc make addr known ys = closeChain anc closed make addr (lastChain anc closed pre) ys ↔
      Contiguous anc all pre (ys.map addr) := by
  induction ys generalizing known pre with
  | nil => exact iff_of_true rfl trivial
  | cons y ys ih =>
    obtain ⟨hy, hally⟩ := hys y mem_cons_self
    have hnot : ∀ as : List α, as ⊆ anc (addr y) → y ∉ as.map make := by
      intro as has hm
      obtain ⟨a, ha, he⟩ := mem_map.mp hm
      have hay : addr y = a := by rw [← he, hmake]
      exact law.irrefl hy (hay ▸ has ha)
    have hfresh : (addFresh known (anc (addr y))).2 ⊆ anc (addr y) := by
      rw [addFresh_eq_filter (law.nodup hy)]
      exact filter_subset_self _
    have hinj : Function.Injective make := fun a b h => by rw [← hmake a, h, hmake]
    simp only [map_cons, Contiguous, closeKnown, closeChain]
    rw [append_cons_inj (hnot _ hfresh) (hnot _ (drop_subset _ _))]
    have hchain : chainOf anc closed (addr y) = lastChain anc closed (pre ++ [addr y]) := by simp [lastChain]
    rw [hchain, ih (fun z hz => hys z (mem_cons_of_mem y hz))]
    · rw [(map_injective_iff.mpr hinj).eq_iff, law.fresh_eq_drop_iff hy hpre hknown]
    · intro z hz
      rcases mem_append.mp hz with hz | hz
      · exact hpre z hz
      · rw [mem_singleton.mp hz]
        exact ⟨hy, hally⟩
    · intro a
      rw [mem_addFresh, hknown]
      simp only [mem_append, mem_singleton, or_and_right, exists_or, exists_eq_left]
      exact or_assoc

end Agreement

/-! ### Repeated entries -/

section Repeated

variable {anc : α → List α}

theorem contiguous_congr {all all' : α → Prop} (hall : ∀ a, all a ↔ all' a) {pre pre' : List α}
    (hlast : pre.getLast? = pre'.getLast?) (hmem : ∀ z, z ∈ pre ↔ z ∈ pre') (xs : List α) :
    Contiguous anc all pre xs ↔ Contiguous anc all' pre' xs := by
  induction xs generalizing pre pre' with
  | nil => rfl
  | cons x xs ih =>
    rw [Contiguous, Contiguous]
    refine and_congr ?_ (ih (by simp) fun z => by simp [hmem])
    unfold FollowsOn
    simp only [hall, hmem, hlast]

/-- An entry behind one with its own address says nothing new. -/
theorem contiguous_repeat {all : α → Prop} {pre xs : List α} {x : α} :
    Contiguous anc all (pre ++ [x]) (x :: xs) ↔ Contiguous anc all (pre ++ [x]) xs := by
  have hself : FollowsOn anc all (pre ++ [x]) x := fun a ha _ => ⟨x, by simp, Or.inr ha⟩
  rw [Contiguous, and_iff_right hself]
  exact contiguous_congr (fun _ => Iff.rfl) (by simp) (fun z => by simp) xs

end Repeated

/-! ### What closing leaves -/

section Closed

variable [DecidableEq α] {anc : α → List α} {closed : α → Bool} {V : α → Prop} {make : α → β} {addr : β → α}
  {known : List α}
  {ys : List β}

theorem sublist_closeKnown (known : List α) (ys : List β) : ys.Sublist (closeKnown anc make addr known ys) := by
  induction ys generalizing known with
  | nil => exact List.Sublist.refl _
  | cons y ys ih => exact List.Sublist.trans ((ih _).cons_cons y) (sublist_append_right _ _)

/-- Closing puts nothing of a kind that no address makes. -/
theorem filter_closeKnown {p : β → Bool} (hp : ∀ a, p (make a) = false) (known : List α) (ys : List β) :
    (closeKnown anc make addr known ys).filter p = ys.filter p := by
  induction ys generalizing known with
  | nil => rfl
  | cons y ys ih =>
    have hfresh : ((addFresh known (anc (addr y))).2.map make).filter p = [] := by
      rw [filter_eq_nil_iff]
      intro z hz
      obtain ⟨a, -, rfl⟩ := mem_map.mp hz
      simp [hp a]
    rw [closeKnown, filter_append, hfresh, nil_append, filter_cons, filter_cons, ih]

variable {x a b : α}

theorem mem_fresh_iff (law : Lawful anc closed V) (hx : V x) :
    a ∈ (addFresh known (anc x)).2 ↔ a ∈ anc x ∧ a ∉ known := by
  rw [addFresh_eq_filter (law.nodup hx), mem_filter, decide_eq_true_eq]

omit [DecidableEq α] in
theorem Lawful.trans (law : Lawful anc closed V) (hx : V x) (hb : b ∈ anc x) (ha : a ∈ anc b) : a ∈ anc x := by
  obtain ⟨rest, he⟩ := law.initial hx hb
  rw [he]
  exact mem_append_left _ ha

/-- A list that is closed by what is known has the ancestors of its entries, or they are known. -/
theorem Lawful.closeKnown_closed (law : Lawful anc closed V) (hmake : ∀ a, addr (make a) = a)
    (hys : ∀ y ∈ ys, V (addr y)) {y : β} (hy : y ∈ closeKnown anc make addr known ys) (ha : a ∈ anc (addr y)) :
    a ∈ known ∨ ∃ z ∈ closeKnown anc make addr known ys, addr z = a := by
  induction ys generalizing known with
  | nil => cases hy
  | cons x ys ih =>
    have hx := hys x mem_cons_self
    rw [closeKnown, mem_append, mem_cons] at hy
    have hput : ∀ b ∈ anc (addr x), b ∈ known ∨ ∃ z ∈ closeKnown anc make addr known (x :: ys), addr z = b := by
      intro b hb
      by_cases hk : b ∈ known
      · exact .inl hk
      · refine .inr ⟨make b, ?_, hmake b⟩
        rw [closeKnown]
        exact mem_append_left _ (mem_map_of_mem ((mem_fresh_iff law hx).mpr ⟨hb, hk⟩))
    rcases hy with hy | rfl | hy
    · obtain ⟨b, hb, rfl⟩ := mem_map.mp hy
      rw [hmake] at ha
      exact hput a (law.trans hx ((mem_fresh_iff law hx).mp hb).1 ha)
    · exact hput a ha
    · rcases ih (fun y hy => hys y (mem_cons_of_mem x hy)) hy with hknown | ⟨z, hz, rfl⟩
      · rcases mem_addFresh.mp hknown with hknown | hanc
        · exact .inl hknown
        · exact hput a hanc
      · refine .inr ⟨z, ?_, rfl⟩
        rw [closeKnown]
        exact mem_append_right _ (mem_cons_of_mem x hz)

/-- Of two ancestors the one that is put first is above the other. -/
theorem Lawful.not_above (law : Lawful anc closed V) (hx : V x) {front back : List α}
    (hfresh : (addFresh known (anc x)).2 = front ++ b :: back) : b ∉ front ∧ b ∉ back ∧ ∀ c ∈ front, b ∉ anc c := by
  have hmem : b ∈ (addFresh known (anc x)).2 := by
    rw [hfresh]
    exact mem_append_right _ mem_cons_self
  obtain ⟨hb, hk⟩ := (mem_fresh_iff law hx).mp hmem
  rw [addFresh_eq_filter (law.nodup hx)] at hfresh
  have hnodup : (front ++ b :: back).Nodup := hfresh ▸ (law.nodup hx).filter _
  obtain ⟨hfront, hback, hdisjoint⟩ := nodup_append.mp hnodup
  have hnot : b ∉ front := fun hb => hdisjoint b hb b mem_cons_self rfl
  obtain ⟨rest, hrest⟩ := law.initial hx hb
  have hVb := law.valid hx hb
  rw [hrest, filter_append, filter_cons_of_pos (p := fun a => decide (a ∉ known)) (decide_eq_true hk)] at hfresh
  obtain ⟨hsame, -⟩ := (append_cons_inj (fun h => law.irrefl hVb (mem_of_mem_filter h)) hnot).mp hfresh
  refine ⟨hnot, (nodup_cons.mp hback).1, fun c hc hbc => ?_⟩
  rw [← hsame] at hc
  exact law.irrefl hVb (law.trans hVb (mem_of_mem_filter hc) hbc)

/-- An address that was not known is put once, in front of the first entry below it. -/
theorem Lawful.closeKnown_put (law : Lawful anc closed V) (hmake : ∀ a, addr (make a) = a) (hys : ∀ y ∈ ys, V (addr y))
    (hknown : ∀ y ∈ ys, addr y ∈ known) {x : β} (hx : x ∈ closeKnown anc make addr known ys) (hfresh : addr x ∉ known) :
    x = make (addr x) ∧ ∃ front back, closeKnown anc make addr known ys = front ++ x :: back ∧
      (∀ y ∈ front ++ back, addr y ≠ addr x) ∧ (∀ y ∈ front, addr x ∉ anc (addr y)) ∧
      ∃ y ∈ back, y ∈ ys ∧ addr x ∈ anc (addr y) := by
  induction ys generalizing known with
  | nil => cases hx
  | cons y ys ih =>
    have hy := hys y mem_cons_self
    have hyk := hknown y mem_cons_self
    -- behind this entry nothing more is put that is known then
    have hlater : ∀ {z : β}, z ∈ closeKnown anc make addr (addFresh known (anc (addr y))).1 ys →
        addr z ∈ known ∨ addr z ∉ (addFresh known (anc (addr y))).1 := by
      intro z hz
      rcases mem_closeKnown hz with hz | ⟨a, ha, rfl⟩
      · exact .inl (hknown z (mem_cons_of_mem y hz))
      · rw [hmake]
        exact .inr ha
    rw [closeKnown, mem_append, mem_cons] at hx
    simp only [closeKnown]
    rcases hx with hx | rfl | hx
    · obtain ⟨b, hb, rfl⟩ := mem_map.mp hx
      rw [hmake] at hfresh ⊢
      obtain ⟨hanc, -⟩ := (mem_fresh_iff law hy).mp hb
      obtain ⟨front, back, hsplit⟩ := append_of_mem hb
      obtain ⟨hfront, hback, habove⟩ := law.not_above hy hsplit
      refine ⟨rfl, front.map make, back.map make ++
        y :: closeKnown anc make addr (addFresh known (anc (addr y))).1 ys, ?_, ?_, ?_,
        y, by simp, by simp, hanc⟩
      · rw [hsplit]
        simp
      · intro z hz he
        simp only [mem_append, mem_map, mem_cons] at hz
        rcases hz with ⟨c, hc, rfl⟩ | ⟨c, hc, rfl⟩ | rfl | hz
        · rw [hmake] at he
          exact hfront (he ▸ hc)
        · rw [hmake] at he
          exact hback (he ▸ hc)
        · exact hfresh (he ▸ hyk)
        · rcases hlater hz with hk | hk
          · exact hfresh (he ▸ hk)
          · exact hk (he ▸ mem_addFresh.mpr (.inr hanc))
      · intro z hz
        obtain ⟨c, hc, rfl⟩ := mem_map.mp hz
        rw [hmake]
        exact habove c hc
    · exact absurd hyk hfresh
    · have hnew : addr x ∉ (addFresh known (anc (addr y))).1 := (hlater hx).resolve_left hfresh
      obtain ⟨hmade, front, back, hsplit, honce, hbefore, z, hz, hzys, hneeds⟩ := ih
        (fun z hz => hys z (mem_cons_of_mem y hz))
        (fun z hz => mem_addFresh.mpr (.inl (hknown z (mem_cons_of_mem y hz)))) hx hnew
      refine ⟨hmade, (addFresh known (anc (addr y))).2.map make ++ y :: front, back, ?_, ?_, ?_, z, hz,
        mem_cons_of_mem y hzys, hneeds⟩
      · rw [hsplit]
        simp
      · intro w hw he
        simp only [append_assoc, cons_append, mem_append, mem_map, mem_cons] at hw
        rcases hw with ⟨c, hc, rfl⟩ | rfl | hw
        · rw [hmake] at he
          exact hnew (he ▸ mem_addFresh.mpr (.inr ((mem_fresh_iff law hy).mp hc).1))
        · exact hfresh (he ▸ hyk)
        · exact honce w (mem_append.mpr hw) he
      · intro w hw hanc
        simp only [mem_append, mem_map, mem_cons] at hw
        rcases hw with ⟨c, hc, rfl⟩ | rfl | hw
        · rw [hmake] at hanc
          exact hnew (mem_addFresh.mpr (.inr (law.trans hy ((mem_fresh_iff law hy).mp hc).1 hanc)))
        · exact hnew (mem_addFresh.mpr (.inr hanc))
        · exact hbefore w hw hanc

end Closed

end Ancestry
