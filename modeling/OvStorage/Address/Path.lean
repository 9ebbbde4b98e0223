import Mathlib.Data.List.TakeWhile
import OvStorage.Lib.SegList
import OvStorage.Address.Percent

/-!
# Normalizing a decoded path

`normalize_path_bytes` of `ovstorage-layer/src/address.rs`: collapse the runs of
`/`, then resolve the dot segments, on the decoded bytes of a path.

## The model

`collapseEmptySegments` is the `retain` with its `previous_was_slash` flag.
`removeDotSegments` is the loop of RFC 3986 §5.2.4 on `rest` and `out`, one
`if` for each arm of the source. Every turn of the loop takes at least one byte
from `rest`, so it is given as many turns as `rest` has bytes (`removeDotLoop`).

The reading of the loop is on segments: `resolve` runs a stack of segments, as
an operating system reads a path, and `removeDotLoop_pieces` says that the loop
computes it. A decoded path is one that normalization leaves alone exactly when
its segments are `Settled`: none is `.` or `..`, and none but the last is empty.

## What is proved

* `canonicalPath_faithful`: escaping the normalized path loses nothing and is idempotent.
-/

namespace OvStorage.Address

open SegList List

/-- `b'.'`. -/
abbrev dot : UInt8 := 0x2E

@[simp] theorem dot_ne_slash : dot ≠ slash := by decide

@[simp] theorem slash_ne_dot : slash ≠ dot := by decide

/-! ### The two passes -/

/-- The `retain` of `collapse_empty_segments`, with `previous_was_slash` given. -/
def collapseFrom : Bool → Bytes → Bytes
  | _, [] => []
  | previousWasSlash, b :: bs =>
    if b == slash && previousWasSlash then collapseFrom (b == slash) bs
    else b :: collapseFrom (b == slash) bs

/-- `collapse_empty_segments`: runs of `/` become one. -/
def collapseEmptySegments (path : Bytes) : Bytes := collapseFrom false path

/-- `truncate_last_segment`: drop the last segment and the `/` before it. -/
def truncateLastSegment (out : Bytes) : Bytes := (out.reverse.dropWhile (· != slash)).tail.reverse

/-- Where the first segment of `rest` ends: behind its leading `/`, if any, and
everything up to the next one. -/
def segmentEnd (rest : Bytes) : ℕ :=
  let afterLeadingSlash := if rest.head? = some slash then 1 else 0
  match (rest.drop afterLeadingSlash).findIdx? (· == slash) with
  | some offset => afterLeadingSlash + offset
  | none => rest.length

/-- The loop of `remove_dot_segments`; the first argument counts its turns. -/
def removeDotLoop : ℕ → Bytes → Bytes → Bytes
  | 0, _, out => out
  | n + 1, rest, out =>
    if rest = [] then out
    else if [dot, dot, slash].isPrefixOf rest then removeDotLoop n (rest.drop 3) out
    else if [dot, slash].isPrefixOf rest || [slash, dot, slash].isPrefixOf rest then
      removeDotLoop n (rest.drop 2) out
    else if rest = [slash, dot] then removeDotLoop n (rest.take 1) out
    else if [slash, dot, dot, slash].isPrefixOf rest then
      removeDotLoop n (rest.drop 3) (truncateLastSegment out)
    else if rest = [slash, dot, dot] then removeDotLoop n (rest.take 1) (truncateLastSegment out)
    else if rest = [dot] || rest = [dot, dot] then removeDotLoop n [] out
    else removeDotLoop n (rest.drop (segmentEnd rest)) (out ++ rest.take (segmentEnd rest))

/-- `remove_dot_segments`. -/
def removeDotSegments (input : Bytes) : Bytes := removeDotLoop input.length input []

/-- `normalize_path_bytes`: collapse the runs first, then resolve the dot segments. -/
def normalizePathBytes (decoded : Bytes) : Bytes := removeDotSegments (collapseEmptySegments decoded)

example : normalizePathBytes (utf8 "/a//../b/./c/") = utf8 "/b/c/" := by decide

example : removeDotSegments (utf8 "/a/b/c/./../../g") = utf8 "/a/g" := by decide

/-! ### The reading on segments -/

/-- The segments with the empty ones dropped, but for the last. -/
def collapseSegs : List Bytes → List Bytes
  | [] => []
  | [s] => [s]
  | s :: t :: ss => if s = [] then collapseSegs (t :: ss) else s :: collapseSegs (t :: ss)

/-- A written path: a first segment that no `/` leads, and the rest. -/
structure Stack where
  /-- What stands before the first `/`; empty in an absolute path. -/
  head : Bytes
  /-- The segments kept so far. -/
  segs : List Bytes

/-- The bytes of the stack, as `out` holds them. -/
def Stack.bytes (a : Stack) : Bytes := a.head ++ pieces slash a.segs

/-- Keep a segment. -/
def Stack.push (a : Stack) (s : Bytes) : Stack := ⟨a.head, a.segs ++ [s]⟩

/-- Undo the last segment; at the bottom, what no `/` leads goes too. -/
def Stack.pop (a : Stack) : Stack := if a.segs = [] then ⟨[], []⟩ else ⟨a.head, a.segs.dropLast⟩

/-- Read the segments one by one: `.` is dropped, `..` undoes the last one kept, and
either of them in last place leaves a trailing `/`. -/
def resolve : List Bytes → Stack → Stack
  | [], a => a
  | [s], a =>
    if s = [dot] then a.push []
    else if s = [dot, dot] then a.pop.push []
    else a.push s
  | s :: t :: ss, a =>
    if s = [dot] then resolve (t :: ss) a
    else if s = [dot, dot] then resolve (t :: ss) a.pop
    else resolve (t :: ss) (a.push s)

/-- A segment that names something: not empty, `.` or `..`. -/
def Names (s : Bytes) : Prop := s ≠ [] ∧ s ≠ [dot] ∧ s ≠ [dot, dot]

/-- Segments that normalization leaves alone: all name something, but the last may be
empty, which is a trailing `/`. -/
def Settled : List Bytes → Prop
  | [] => True
  | [s] => s = [] ∨ Names s
  | s :: t :: ss => Names s ∧ Settled (t :: ss)

instance (s : Bytes) : Decidable (Names s) := inferInstanceAs (Decidable (_ ∧ _))

/-- No segment but the last is empty: what collapsing leaves. -/
def Packed : List Bytes → Prop
  | [] => True
  | [_] => True
  | s :: t :: ss => s ≠ [] ∧ Packed (t :: ss)

attribute [local grind =] collapseFrom collapseSegs removeDotLoop

/-! ### Collapsing, on segments -/

variable {s h rest p : Bytes}

theorem collapseFrom_append (hs : slash ∉ s) (hne : s ≠ []) (b : Bool) (rest : Bytes) :
    collapseFrom b (s ++ rest) = s ++ collapseFrom false rest := by
  induction s generalizing b with
  | nil => exact absurd rfl hne
  | cons x s ih =>
    simp only [mem_cons, not_or] at hs
    have hx : (x == slash) = false := beq_eq_false_iff_ne.mpr (Ne.symm hs.1)
    simp only [cons_append, collapseFrom, hx, Bool.false_and, Bool.false_eq_true, if_false]
    by_cases hs' : s = []
    · subst hs'; rfl
    · rw [ih hs.2 hs']

variable {ss : List Bytes}

theorem collapseFrom_true (hs : slash ∉ s) (hss : SepFree slash ss) :
    slash :: collapseFrom true (s ++ pieces slash ss) = pieces slash (collapseSegs (s :: ss)) := by
  induction ss generalizing s with
  | nil =>
    by_cases hne : s = []
    · subst hne; rfl
    · rw [collapseFrom_append hs hne]; rfl
  | cons t ss ih =>
    rw [sepFree_cons] at hss
    have ih := ih hss.1 hss.2
    by_cases hne : s = []
    · subst hne
      simpa [collapseFrom, collapseSegs] using ih
    · rw [collapseFrom_append hs hne]
      simp only [collapseSegs, hne, if_false, pieces_cons]
      rw [← ih]
      simp [collapseFrom]

/-- Collapsing the bytes of a path collapses its segments. -/
theorem collapseEmptySegments_append (hh : slash ∉ h) (hss : SepFree slash ss) :
    collapseEmptySegments (h ++ pieces slash ss) = h ++ pieces slash (collapseSegs ss) := by
  have habs : collapseFrom false (pieces slash ss) = pieces slash (collapseSegs ss) := by
    cases ss with
    | nil => rfl
    | cons s ss =>
      rw [sepFree_cons] at hss
      rw [← collapseFrom_true hss.1 hss.2]
      simp [collapseFrom]
  unfold collapseEmptySegments
  by_cases hne : h = []
  · subst hne; simpa using habs
  · rw [collapseFrom_append hh hne, habs]

theorem collapseSegs_sepFree (h : SepFree slash ss) : SepFree slash (collapseSegs ss) := by
  induction ss using collapseSegs.induct with
  | case1 => exact h
  | case2 s => exact h
  | case3 t ss ih => simp only [sepFree_cons] at h; simpa [collapseSegs] using ih (by simp [h])
  | case4 s t ss hs ih =>
    simp only [sepFree_cons] at h
    simp only [collapseSegs, hs, if_false, sepFree_cons]
    exact ⟨h.1, ih (by simp [h])⟩

theorem collapseSegs_eq_nil_iff : collapseSegs ss = [] ↔ ss = [] := by
  induction ss using collapseSegs.induct with
  | case1 => simp [collapseSegs]
  | case2 s => simp [collapseSegs]
  | case3 t ss ih => simpa [collapseSegs] using ih
  | case4 s t ss hs ih => simp [collapseSegs, hs]

theorem Packed.cons (hs : s ≠ []) (h : Packed ss) : Packed (s :: ss) := by
  cases ss with
  | nil => trivial
  | cons t ss => exact ⟨hs, h⟩

theorem collapseSegs_packed (ss : List Bytes) : Packed (collapseSegs ss) := by
  induction ss using collapseSegs.induct with
  | case1 => trivial
  | case2 s => trivial
  | case3 t ss ih => simpa [collapseSegs] using ih
  | case4 s t ss hs ih =>
    simp only [collapseSegs, hs, if_false]
    exact Packed.cons hs ih

/-! ### The loop, on segments -/

theorem removeDotLoop_nil (n : ℕ) (out : Bytes) : removeDotLoop n [] out = out := by
  cases n <;> simp [removeDotLoop]

theorem truncateLastSegment_append (hs : slash ∉ s) (out : Bytes) : truncateLastSegment (out ++ slash :: s) = out := by
  have hrev : ∀ x ∈ s.reverse, (x != slash) = true := by
    intro x hx
    simp only [bne_iff_ne, ne_eq]
    rintro rfl
    exact hs (mem_reverse.mp hx)
  unfold truncateLastSegment
  rw [reverse_append, reverse_cons, append_assoc, dropWhile_append_of_pos hrev]
  simp

theorem truncateLastSegment_of_not_mem (hh : slash ∉ h) : truncateLastSegment h = [] := by
  have hrev : ∀ x ∈ h.reverse, (x != slash) = true := by
    intro x hx
    simp only [bne_iff_ne, ne_eq]
    rintro rfl
    exact hh (mem_reverse.mp hx)
  unfold truncateLastSegment
  rw [dropWhile_eq_nil_iff.mpr hrev]
  rfl

/-- The stack holds no `/` inside a segment. -/
def Stack.SepFree (a : Stack) : Prop := slash ∉ a.head ∧ SegList.SepFree slash a.segs

variable {a : Stack}

/-- Truncating `out` undoes the last segment of the stack. -/
theorem truncateLastSegment_bytes (ha : a.SepFree) : truncateLastSegment a.bytes = a.pop.bytes := by
  obtain ⟨h, segs⟩ := a
  unfold Stack.pop Stack.bytes
  rcases eq_nil_or_concat segs with rfl | ⟨init, s, rfl⟩
  · simpa using truncateLastSegment_of_not_mem ha.1
  · have hs : slash ∉ s := by
      have := ha.2; simp at this; exact this.2
    simp only [concat_eq_append, pieces_append, pieces_cons, pieces_nil, append_nil,
      append_eq_nil_iff, cons_ne_self, and_false, if_false, dropLast_concat]
    rw [← append_assoc]
    exact truncateLastSegment_append hs _

theorem push_bytes (a : Stack) (s : Bytes) : (a.push s).bytes = a.bytes ++ slash :: s := by
  simp [Stack.push, Stack.bytes]

theorem Stack.SepFree.push (ha : a.SepFree) (hs : slash ∉ s) : (a.push s).SepFree :=
  ⟨ha.1, by simpa [Stack.push] using ⟨ha.2, hs⟩⟩

theorem Stack.SepFree.pop (ha : a.SepFree) : a.pop.SepFree := by
  unfold Stack.pop
  split
  · exact ⟨by simp, sepFree_nil⟩
  · exact ⟨ha.1, fun s hs => ha.2 s (dropLast_subset _ hs)⟩

section Turns

variable (n : ℕ) (r out : Bytes)

theorem turn_dot : removeDotLoop (n + 1) (slash :: dot :: slash :: r) out = removeDotLoop n (slash :: r) out := by
  simp [removeDotLoop]

theorem turn_dot_last : removeDotLoop (n + 1) [slash, dot] out = removeDotLoop n [slash] out := by
  simp [removeDotLoop]

theorem turn_dotDot : removeDotLoop (n + 1) (slash :: dot :: dot :: slash :: r) out =
    removeDotLoop n (slash :: r) (truncateLastSegment out) := by
  simp [removeDotLoop]

theorem turn_dotDot_last : removeDotLoop (n + 1) [slash, dot, dot] out =
    removeDotLoop n [slash] (truncateLastSegment out) := by
  simp [removeDotLoop]

end Turns

theorem segmentEnd_of_not_mem (hs : slash ∉ s) (hr : AtSep slash rest) :
    segmentEnd (slash :: (s ++ rest)) = s.length + 1 := by
  unfold segmentEnd
  simp only [List.head?_cons, if_true, drop_one, tail_cons, findIdx?_append_atSep hs hr]
  rcases hr with rfl | ⟨t, rfl⟩
  · simp
  · simp; omega

/-- A segment that is neither `.` nor `..` moves to the output. -/
theorem turn_segment (hs : slash ∉ s) (h1 : s ≠ [dot]) (h2 : s ≠ [dot, dot]) (hr : AtSep slash rest) (n : ℕ)
    (out : Bytes) :
    removeDotLoop (n + 1) (slash :: (s ++ rest)) out = removeDotLoop n rest (out ++ slash :: s) := by
  -- none of the dot arms is taken: what follows the leading `/` is `s`, up to the next `/`
  have hcut : ∀ {t rest' : Bytes}, slash ∉ t → AtSep slash rest' → t ++ rest' = s ++ rest → t = s :=
    fun ht hr' h => (AtSep.append_inj ht hs hr' hr h).1
  have p1 : ¬ [slash, dot, slash].isPrefixOf (slash :: (s ++ rest)) := by
    rw [List.isPrefixOf_iff_prefix]
    rintro ⟨t, ht⟩
    exact h1 (hcut (t := [dot]) (by simp) (atSep_cons t) (by simpa using ht)).symm
  have p2 : ¬ [slash, dot, dot, slash].isPrefixOf (slash :: (s ++ rest)) := by
    rw [List.isPrefixOf_iff_prefix]
    rintro ⟨t, ht⟩
    exact h2 (hcut (t := [dot, dot]) (by simp) (atSep_cons t) (by simpa using ht)).symm
  have e1 : slash :: (s ++ rest) ≠ [slash, dot] := fun he =>
    h1 (hcut (t := [dot]) (by simp) atSep_nil (by simpa using he.symm)).symm
  have e2 : slash :: (s ++ rest) ≠ [slash, dot, dot] := fun he =>
    h2 (hcut (t := [dot, dot]) (by simp) atSep_nil (by simpa using he.symm)).symm
  rw [removeDotLoop, segmentEnd_of_not_mem hs hr]
  have p3 : ¬ [dot, dot, slash].isPrefixOf (slash :: (s ++ rest)) := by simp
  have p4 : ¬ [dot, slash].isPrefixOf (slash :: (s ++ rest)) := by simp
  rw [if_neg (by simp), if_neg p3, if_neg (by simp [p1, p4]), if_neg e1, if_neg p2, if_neg e2, if_neg (by simp)]
  simp

theorem turn_slash (n : ℕ) (out : Bytes) (hn : 1 ≤ n) : removeDotLoop n [slash] out = out ++ [slash] := by
  obtain ⟨m, rfl⟩ : ∃ m, n = m + 1 := ⟨n - 1, by omega⟩
  have h := turn_segment (show slash ∉ ([] : Bytes) by simp) (by decide) (by decide) atSep_nil m out
  rw [append_nil] at h
  rw [h, removeDotLoop_nil]

/-- The loop resolves the segments. -/
theorem removeDotLoop_pieces (hss : SepFree slash ss) (ha : a.SepFree) {n : ℕ} (hn : (pieces slash ss).length ≤ n) :
    removeDotLoop n (pieces slash ss) a.bytes = (resolve ss a).bytes := by
  -- along the recursion of `resolve`; each segment costs one turn, a last `.` or `..` two
  fun_induction resolve ss a generalizing n with
  | case1 => exact removeDotLoop_nil n _
  | case2 a =>
    obtain ⟨m, rfl⟩ : ∃ m, n = m + 1 := ⟨n - 1, by simp at hn; omega⟩
    have hm : 1 ≤ m := by simp at hn; omega
    rw [push_bytes]
    exact (turn_dot_last m _).trans (turn_slash m _ hm)
  | case3 a =>
    obtain ⟨m, rfl⟩ : ∃ m, n = m + 1 := ⟨n - 1, by simp at hn; omega⟩
    have hm : 1 ≤ m := by simp at hn; omega
    rw [push_bytes, ← truncateLastSegment_bytes ha]
    exact (turn_dotDot_last m _).trans (turn_slash m _ hm)
  | case4 s a h1 h2 =>
    obtain ⟨m, rfl⟩ : ∃ m, n = m + 1 := ⟨n - 1, by simp at hn; omega⟩
    rw [sepFree_cons] at hss
    rw [pieces_cons, pieces_nil, turn_segment hss.1 h1 h2 atSep_nil, removeDotLoop_nil, push_bytes]
  | case5 t ss a ih =>
    obtain ⟨m, rfl⟩ : ∃ m, n = m + 1 := ⟨n - 1, by simp at hn; omega⟩
    rw [sepFree_cons] at hss
    rw [← ih hss.2 ha (n := m) (by simp at hn ⊢; omega)]
    exact turn_dot m _ _
  | case6 t ss a h1 ih =>
    obtain ⟨m, rfl⟩ : ∃ m, n = m + 1 := ⟨n - 1, by simp at hn; omega⟩
    rw [sepFree_cons] at hss
    rw [← ih hss.2 ha.pop (n := m) (by simp at hn ⊢; omega), ← truncateLastSegment_bytes ha]
    exact turn_dotDot m _ _
  | case7 s t ss a h1 h2 ih =>
    obtain ⟨m, rfl⟩ : ∃ m, n = m + 1 := ⟨n - 1, by simp at hn; omega⟩
    rw [sepFree_cons] at hss
    rw [pieces_cons, turn_segment hss.1 h1 h2 (atSep_pieces _), ← push_bytes]
    exact ih hss.2 (ha.push hss.1) (by simp at hn ⊢; omega)

/-! ### The head of a relative path -/

/-- A path whose head no `/` leads: a head `.` or `..` goes away with the `/` behind it,
any other is kept. -/
def resolveHead : Bytes → List Bytes → Stack
  | h, [] => if h = [dot] ∨ h = [dot, dot] then ⟨[], []⟩ else ⟨h, []⟩
  | h, t :: ss => if h = [dot] ∨ h = [dot, dot] then resolveHead t ss else resolve (t :: ss) ⟨h, []⟩

theorem resolveHead_nil (ss : List Bytes) : resolveHead [] ss = resolve ss ⟨[], []⟩ := by
  cases ss <;> simp [resolveHead, resolve]

theorem segmentEnd_of_head (hh : slash ∉ h) (hne : h ≠ []) (hr : AtSep slash rest) :
    segmentEnd (h ++ rest) = h.length := by
  obtain ⟨b, h, rfl⟩ := exists_cons_of_ne_nil hne
  have hb : b ≠ slash := fun he => hh (by simp [he])
  unfold segmentEnd
  simp only [cons_append, List.head?_cons, Option.some.injEq, hb, if_false, drop_zero]
  rw [← cons_append, findIdx?_append_atSep hh hr]
  rcases hr with rfl | ⟨t, rfl⟩
  · simp
  · simp

/-- A head that is neither `.` nor `..` moves to the output. -/
theorem turn_head (hh : slash ∉ h) (hne : h ≠ []) (h1 : h ≠ [dot]) (h2 : h ≠ [dot, dot])
    (hr : AtSep slash rest) (n : ℕ) (out : Bytes) :
    removeDotLoop (n + 1) (h ++ rest) out = removeDotLoop n rest (out ++ h) := by
  have hcut : ∀ {t rest' : Bytes}, slash ∉ t → AtSep slash rest' → t ++ rest' = h ++ rest → t = h :=
    fun ht hr' he => (AtSep.append_inj ht hh hr' hr he).1
  have hlead : ∀ {q : Bytes}, ¬ (slash :: q).isPrefixOf (h ++ rest) := by
    intro q hq
    obtain ⟨t, ht⟩ := List.isPrefixOf_iff_prefix.mp hq
    exact hne (hcut (t := []) (by simp) (atSep_cons (q ++ t)) (by simpa using ht)).symm
  have heq : ∀ {q : Bytes}, h ++ rest ≠ slash :: q := fun he => hlead (q := []) (by
    rw [List.isPrefixOf_iff_prefix, he]; exact ⟨_, rfl⟩)
  have p1 : ¬ [dot, slash].isPrefixOf (h ++ rest) := by
    rw [List.isPrefixOf_iff_prefix]
    rintro ⟨t, ht⟩
    exact h1 (hcut (t := [dot]) (by simp) (atSep_cons t) (by simpa using ht)).symm
  have p2 : ¬ [dot, dot, slash].isPrefixOf (h ++ rest) := by
    rw [List.isPrefixOf_iff_prefix]
    rintro ⟨t, ht⟩
    exact h2 (hcut (t := [dot, dot]) (by simp) (atSep_cons t) (by simpa using ht)).symm
  have e1 : h ++ rest ≠ [dot] := fun he => h1 (hcut (t := [dot]) (by simp) atSep_nil (by simpa using he.symm)).symm
  have e2 : h ++ rest ≠ [dot, dot] := fun he =>
    h2 (hcut (t := [dot, dot]) (by simp) atSep_nil (by simpa using he.symm)).symm
  rw [removeDotLoop, segmentEnd_of_head hh hne hr, if_neg (by simp [hne]), if_neg p2, if_neg (by simp [p1, hlead]),
    if_neg heq, if_neg hlead, if_neg heq, if_neg (by simp [e1, e2])]
  simp

/-- Where the head is `.` or `..`, the path goes on behind the `/` after it. -/
theorem turn_dotHead (hd : h = [dot] ∨ h = [dot, dot]) (r : Bytes) (n : ℕ) (out : Bytes) :
    removeDotLoop (n + 1) (h ++ slash :: r) out = removeDotLoop n r out := by
  rcases hd with rfl | rfl <;> simp [removeDotLoop]

theorem turn_dotHead_last (hd : h = [dot] ∨ h = [dot, dot]) (n : ℕ) (out : Bytes) :
    removeDotLoop (n + 1) h out = out := by
  rcases hd with rfl | rfl <;> simp [removeDotLoop, removeDotLoop_nil]

/-- The loop on a path that may be relative. -/
theorem removeDotLoop_head (hh : slash ∉ h) (hss : SepFree slash ss) {n : ℕ} (hn : (h ++ pieces slash ss).length ≤ n) :
    removeDotLoop n (h ++ pieces slash ss) [] = (resolveHead h ss).bytes := by
  have hkeep : ∀ {h ss n}, slash ∉ h → SepFree slash ss → (h ++ pieces slash ss).length ≤ n →
      ¬ (h = [dot] ∨ h = [dot, dot]) →
      removeDotLoop n (h ++ pieces slash ss) [] = (resolve ss ⟨h, []⟩).bytes := by
    intro h ss n hh hss hn hd
    rw [not_or] at hd
    by_cases hne : h = []
    · subst hne
      exact removeDotLoop_pieces hss (a := ⟨[], []⟩) ⟨by simp, sepFree_nil⟩ hn
    · have hpos : 0 < h.length := length_pos_iff.mpr hne
      rw [length_append] at hn
      obtain ⟨m, rfl⟩ : ∃ m, n = m + 1 := ⟨n - 1, by omega⟩
      have hstack := removeDotLoop_pieces hss (a := ⟨h, []⟩) ⟨hh, sepFree_nil⟩ (n := m) (by omega)
      rw [turn_head hh hne hd.1 hd.2 (atSep_pieces ss), ← hstack]
      simp [Stack.bytes]
  fun_induction resolveHead h ss generalizing n with
  | case1 h hd =>
    obtain ⟨m, rfl⟩ : ∃ m, n = m + 1 := ⟨n - 1, by rcases hd with rfl | rfl <;> simp at hn <;> omega⟩
    rw [pieces_nil, append_nil, turn_dotHead_last hd]
    rfl
  | case2 h hd => exact (hkeep hh hss hn hd).trans (by simp [resolve])
  | case3 h t ss hd ih =>
    rw [sepFree_cons] at hss
    simp only [pieces_cons, length_append, length_cons] at hn
    obtain ⟨m, rfl⟩ : ∃ m, n = m + 1 := ⟨n - 1, by omega⟩
    rw [pieces_cons, turn_dotHead hd]
    exact ih hss.1 hss.2 (by simp only [length_append]; omega)
  | case4 h t ss hd => exact hkeep hh hss hn hd

/-- `normalize_path_bytes` is `resolveHead` on the segments of a path. -/
theorem normalizePathBytes_append (hh : slash ∉ h) (hss : SepFree slash ss) :
    normalizePathBytes (h ++ pieces slash ss) = (resolveHead h (collapseSegs ss)).bytes := by
  unfold normalizePathBytes removeDotSegments
  rw [collapseEmptySegments_append hh hss]
  exact removeDotLoop_head hh (collapseSegs_sepFree hss) (Nat.le_refl _)

/-! ### What comes out is settled -/

theorem Settled.append {pre : List Bytes} (hpre : ∀ s ∈ pre, Names s) (hss : Settled ss) : Settled (pre ++ ss) := by
  induction pre with
  | nil => exact hss
  | cons s pre ih =>
    have ih := ih fun t ht => hpre t (mem_cons_of_mem s ht)
    have hs := hpre s mem_cons_self
    cases hrest : pre ++ ss with
    | nil => simpa [hrest, Settled] using Or.inr hs
    | cons t ts => rw [cons_append, hrest]; exact ⟨hs, hrest ▸ ih⟩

theorem names_pop (ha : ∀ s ∈ a.segs, Names s) : ∀ s ∈ a.pop.segs, Names s := by
  unfold Stack.pop
  split
  · simp
  · exact fun s hs => ha s (dropLast_subset _ hs)

/-- A run over segments of which none but the last is empty leaves settled ones. -/
theorem resolve_settled (hp : Packed ss) (ha : ∀ s ∈ a.segs, Names s) : Settled (resolve ss a).segs := by
  fun_induction resolve ss a with
  | case1 a => simpa using Settled.append ha (show Settled [] from trivial)
  | case2 a => exact Settled.append ha (show Settled [[]] from Or.inl rfl)
  | case3 a => exact Settled.append (names_pop ha) (show Settled [[]] from Or.inl rfl)
  | case4 s a h1 h2 =>
    refine Settled.append ha (show Settled [s] from ?_)
    by_cases hs : s = []
    · exact Or.inl hs
    · exact Or.inr ⟨hs, h1, h2⟩
  | case5 t ss a ih => exact ih hp.2 ha
  | case6 t ss a h1 ih => exact ih hp.2 (names_pop ha)
  | case7 s t ss a h1 h2 ih =>
    refine ih hp.2 ?_
    intro x hx
    rcases mem_append.mp hx with hx | hx
    · exact ha x hx
    · rw [mem_singleton.mp hx]; exact ⟨hp.1, h1, h2⟩

/-- Settled segments are pushed as they are. -/
theorem resolve_of_settled (h : Settled ss) (a : Stack) : resolve ss a = ⟨a.head, a.segs ++ ss⟩ := by
  fun_induction resolve ss a with
  | case1 a => simp
  | case2 a => simp [Settled, Names] at h
  | case3 a => simp [Settled, Names] at h
  | case4 s a h1 h2 => rfl
  | case5 t ss a ih => simp [Settled, Names] at h
  | case6 t ss a h1 ih => simp [Settled, Names] at h
  | case7 s t ss a h1 h2 ih => rw [ih h.2]; simp [Stack.push]

theorem collapseSegs_of_settled (h : Settled ss) : collapseSegs ss = ss := by
  induction ss using collapseSegs.induct with
  | case1 => rfl
  | case2 s => rfl
  | case3 t ss ih => simp [Settled, Names] at h
  | case4 s t ss hs ih => simp only [collapseSegs, hs, if_false, ih h.2]

theorem resolve_sepFree (hss : SepFree slash ss) (ha : a.SepFree) : (resolve ss a).SepFree := by
  fun_induction resolve ss a with
  | case1 a => exact ha
  | case2 a => exact ha.push (by simp)
  | case3 a => exact ha.pop.push (by simp)
  | case4 s a h1 h2 => exact ha.push (sepFree_cons.mp hss).1
  | case5 t ss a ih => exact ih (sepFree_cons.mp hss).2 ha
  | case6 t ss a h1 ih => exact ih (sepFree_cons.mp hss).2 ha.pop
  | case7 s t ss a h1 h2 ih => exact ih (sepFree_cons.mp hss).2 (ha.push (sepFree_cons.mp hss).1)

/-- The head is kept, or popped away. -/
theorem resolve_head (ss : List Bytes) (a : Stack) : (resolve ss a).head = a.head ∨ (resolve ss a).head = [] := by
  have hpop : ∀ b : Stack, b.pop.head = b.head ∨ b.pop.head = [] := by
    intro b
    unfold Stack.pop
    split
    · exact Or.inr rfl
    · exact Or.inl rfl
  fun_induction resolve ss a with
  | case1 a => exact Or.inl rfl
  | case2 a => exact Or.inl rfl
  | case3 a => exact hpop a
  | case4 s a h1 h2 => exact Or.inl rfl
  | case5 t ss a ih => exact ih
  | case6 t ss a h1 ih =>
    rcases ih with ih | ih
    · rcases hpop a with h | h
      · exact Or.inl (ih.trans h)
      · exact Or.inr (ih.trans h)
    · exact Or.inr ih
  | case7 s t ss a h1 h2 ih => exact ih

theorem resolve_segs_ne_nil (h : ss ≠ []) (a : Stack) : (resolve ss a).segs ≠ [] := by
  fun_induction resolve ss a with
  | case1 a => exact absurd rfl h
  | case2 a => simp [Stack.push]
  | case3 a => simp [Stack.push]
  | case4 s a h1 h2 => simp [Stack.push]
  | case5 t ss a ih => exact ih (by simp)
  | case6 t ss a h1 ih => exact ih (by simp)
  | case7 s t ss a h1 h2 ih => exact ih (by simp)

/-- A written path that normalization leaves alone. -/
structure Stack.Settled (a : Stack) : Prop where
  sepFree : a.SepFree
  head_ne : ¬ (a.head = [dot] ∨ a.head = [dot, dot])
  segs : Address.Settled a.segs

theorem Packed.tail (h : Packed (s :: ss)) : Packed ss := by
  cases ss with
  | nil => trivial
  | cons t ss => exact h.2

theorem resolveHead_settled (hh : slash ∉ h) (hss : SepFree slash ss) (hp : Packed ss) :
    (resolveHead h ss).Settled := by
  fun_induction resolveHead h ss with
  | case1 h hd => exact ⟨⟨by simp, sepFree_nil⟩, by simp, trivial⟩
  | case2 h hd => exact ⟨⟨hh, sepFree_nil⟩, hd, trivial⟩
  | case3 h t ss hd ih => exact ih (sepFree_cons.mp hss).1 (sepFree_cons.mp hss).2 hp.tail
  | case4 h t ss hd =>
    refine ⟨resolve_sepFree hss ⟨hh, sepFree_nil⟩, ?_, resolve_settled hp (by simp)⟩
    rcases resolve_head (t :: ss) ⟨h, []⟩ with he | he
    · rw [he]; exact hd
    · rw [he]; simp

theorem resolveHead_of_settled (ha : a.Settled) : resolveHead a.head a.segs = a := by
  obtain ⟨h, segs⟩ := a
  cases segs with
  | nil => simp [resolveHead, ha.head_ne]
  | cons s segs =>
    rw [resolveHead, if_neg ha.head_ne, resolve_of_settled ha.segs]
    rfl

theorem normalizePathBytes_of_settled (ha : a.Settled) : normalizePathBytes a.bytes = a.bytes := by
  rw [Stack.bytes, normalizePathBytes_append ha.sepFree.1 ha.sepFree.2, collapseSegs_of_settled ha.segs,
    resolveHead_of_settled ha]
  rfl

/-- Every path normalizes to a settled one. -/
theorem normalizePathBytes_settled (p : Bytes) : ∃ a : Stack, a.Settled ∧ normalizePathBytes p = a.bytes := by
  obtain ⟨h, ss, rfl, hh, hss⟩ := exists_segments slash p
  exact ⟨_, resolveHead_settled hh (collapseSegs_sepFree hss) (collapseSegs_packed ss),
    normalizePathBytes_append hh hss⟩

/-- Normalizing is idempotent. -/
theorem normalizePathBytes_idem (p : Bytes) : normalizePathBytes (normalizePathBytes p) = normalizePathBytes p := by
  obtain ⟨a, ha, he⟩ := normalizePathBytes_settled p
  rw [he, normalizePathBytes_of_settled ha]

/-- The segments an absolute path normalizes to. -/
def normalSegs (ss : List Bytes) : List Bytes := (resolve (collapseSegs ss) ⟨[], []⟩).segs

theorem normalSegs_of_settled (h : Settled ss) : normalSegs ss = ss := by
  rw [normalSegs, collapseSegs_of_settled h, resolve_of_settled h]
  rfl

/-- On an absolute path, normalizing collapses and resolves the segments. -/
theorem normalizePathBytes_pieces (hss : SepFree slash ss) :
    normalizePathBytes (pieces slash ss) = pieces slash (normalSegs ss) := by
  have hhead : (resolve (collapseSegs ss) ⟨[], []⟩).head = [] := by
    rcases resolve_head (collapseSegs ss) ⟨[], []⟩ with he | he <;> exact he
  have he := normalizePathBytes_append (h := []) (by simp) hss
  rw [resolveHead_nil, Stack.bytes, hhead] at he
  exact he

theorem normalSegs_spec (hne : ss ≠ []) (hss : SepFree slash ss) :
    normalSegs ss ≠ [] ∧ SepFree slash (normalSegs ss) ∧ Settled (normalSegs ss) := by
  refine ⟨resolve_segs_ne_nil (mt collapseSegs_eq_nil_iff.mp hne) _, ?_,
    resolve_settled (collapseSegs_packed ss) (by simp)⟩
  exact (resolve_sepFree (collapseSegs_sepFree hss) ⟨by simp, sepFree_nil⟩).2

/-- An absolute path normalizes to an absolute path with settled segments. -/
theorem normalizePathBytes_absolute (h : p.head? = some slash) :
    ∃ st, st ≠ [] ∧ SepFree slash st ∧ Settled st ∧ normalizePathBytes p = pieces slash st := by
  obtain ⟨ss, hne, rfl, hss⟩ := exists_pieces h
  obtain ⟨h1, h2, h3⟩ := normalSegs_spec hne hss
  exact ⟨_, h1, h2, h3, normalizePathBytes_pieces hss⟩

/-- Nothing but separators is the root. -/
theorem normalizePathBytes_slashes (hne : p ≠ []) (h : ∀ b ∈ p, b = slash) : normalizePathBytes p = [slash] := by
  obtain ⟨n, rfl⟩ : ∃ n, p = pieces slash (List.replicate (n + 1) []) := by
    refine ⟨p.length - 1, ?_⟩
    have hlen : p.length - 1 + 1 = p.length := Nat.succ_pred_eq_of_pos (length_pos_iff.mpr hne)
    have hp : p = List.replicate p.length slash := eq_replicate_iff.mpr ⟨rfl, h⟩
    rw [hlen, pieces, flatMap_replicate]
    conv_lhs => rw [hp]
    generalize p.length = m
    induction m with
    | zero => rfl
    | succ m ih => rw [replicate_succ, replicate_succ, flatten_cons, ← ih]; rfl
  have hcollapse : ∀ n, collapseSegs (List.replicate (n + 1) []) = [[]] := by
    intro n
    induction n with
    | zero => rfl
    | succ n ih =>
      rw [replicate_succ, replicate_succ, collapseSegs, if_pos rfl, ← replicate_succ, ih]
  rw [normalizePathBytes_pieces (by intro s hs; rw [eq_of_mem_replicate hs]; simp), normalSegs, hcollapse]
  rfl

/-! ### The canonical path -/

/-- The path stage of `canonicalize`: decode, normalize, and escape with the set. -/
def canonicalPath (set : AsciiSet) (path : Bytes) : Bytes :=
  percentEncode set (normalizePathBytes (percentDecode path))

example : canonicalPath CANONICAL_PATH (utf8 "/a%2F..%2Fb") = utf8 "/b" := by decide

example : canonicalPath CANONICAL_PATH (utf8 "/a%252Fb") = utf8 "/a%252Fb" := by decide

/-- The sets `canonical_path_set` chooses from. -/
def canonicalPathSets : List AsciiSet := [CANONICAL_PATH, CANONICAL_FILE_PATH, CANONICAL_FILE_SHARE_PATH]

variable {set : AsciiSet}

/-- What the proofs need of an escape set: it holds `%` and not `/`. -/
theorem canonicalPathSets_percent (h : set ∈ canonicalPathSets) :
    set percent = true ∧ shouldPercentEncode set slash = false := by
  simp only [canonicalPathSets, mem_cons, not_mem_nil, or_false] at h
  rcases h with rfl | rfl | rfl <;> decide

theorem percentDecode_canonicalPath (hp : set percent = true) (path : Bytes) :
    percentDecode (canonicalPath set path) = normalizePathBytes (percentDecode path) :=
  percentDecode_percentEncode hp _

theorem canonicalPath_eq_iff (hp : set percent = true) (p q : Bytes) : canonicalPath set p = canonicalPath set q ↔
      normalizePathBytes (percentDecode p) = normalizePathBytes (percentDecode q) :=
  ⟨percentEncode_injective hp, congrArg (percentEncode set)⟩

theorem canonicalPath_idem (hp : set percent = true) (path : Bytes) :
    canonicalPath set (canonicalPath set path) = canonicalPath set path := by
  rw [canonicalPath_eq_iff hp, percentDecode_canonicalPath hp, normalizePathBytes_idem]

/-- Escaping the normalized path loses nothing, is idempotent, and merges two paths exactly
when they name one byte key. -/
theorem canonicalPath_faithful {set : AsciiSet} (hset : set ∈ canonicalPathSets) (s t : Bytes) :
    percentDecode (canonicalPath set s) = normalizePathBytes (percentDecode s) ∧
    canonicalPath set (canonicalPath set s) = canonicalPath set s ∧
    (canonicalPath set s = canonicalPath set t ↔
      normalizePathBytes (percentDecode s) = normalizePathBytes (percentDecode t)) :=
  have hp := (canonicalPathSets_percent hset).1
  ⟨percentDecode_canonicalPath hp s, canonicalPath_idem hp s, canonicalPath_eq_iff hp s t⟩

/-- The share set, on a path whose first segment reads as a drive letter. -/
theorem canonicalPath_faithful_share :
    CANONICAL_FILE_SHARE_PATH ∈ canonicalPathSets ∧
    percentDecode (canonicalPath CANONICAL_FILE_SHARE_PATH (utf8 "/C%3A/./%FF")) =
      normalizePathBytes (percentDecode (utf8 "/C%3A/./%FF")) :=
  have hmem : CANONICAL_FILE_SHARE_PATH ∈ canonicalPathSets := by simp [canonicalPathSets]
  ⟨hmem, (canonicalPath_faithful hmem (utf8 "/C%3A/./%FF") []).1⟩

/-! ### Escaping, segment by segment -/

theorem percentEncode_pieces (hs : shouldPercentEncode set slash = false) (ss : List Bytes) :
    percentEncode set (pieces slash ss) = pieces slash (ss.map (percentEncode set)) := by
  induction ss with
  | nil => rfl
  | cons s ss ih =>
    rw [pieces_cons, percentEncode_cons, encodeByte_of_not hs, percentEncode_append, ih]
    rfl

theorem percentDecode_append_pieces (h : Bytes) (ss : List Bytes) :
    percentDecode (h ++ pieces slash ss) = percentDecode h ++ pieces slash (ss.map percentDecode) := by
  induction ss generalizing h with
  | nil => simp
  | cons s ss ih => rw [pieces_cons, percentDecode_append_slash, ih, map_cons, pieces_cons]

theorem percentDecode_pieces (ss : List Bytes) :
    percentDecode (pieces slash ss) = pieces slash (ss.map percentDecode) :=
  percentDecode_append_pieces [] ss

theorem slash_notMem_percentEncode (hs : slash ∉ s) : slash ∉ percentEncode set s := by
  intro hmem
  rcases mem_percentEncode hmem with h | h | h
  · exact absurd h (by decide)
  · exact absurd h (by decide)
  · exact hs h.1

theorem sepFree_percentEncode (h : SepFree slash ss) : SepFree slash (ss.map (percentEncode set)) := by
  intro s hs
  obtain ⟨t, ht, rfl⟩ := mem_map.mp hs
  exact slash_notMem_percentEncode (h t ht)

end OvStorage.Address
