import Mathlib.Data.List.Basic
import Mathlib.Data.List.Infix
import Mathlib.Data.List.DropRight

/-!
# Lists of segments

A list over `α` in which one element `sep` separates segments, as `/` does in a
path. `pieces sep ss` writes the segments `ss` one after the other, each led by a
separator, so that `[a, b]` is `/a/b`, `[]` is the empty list and a last segment
that is empty is a trailing separator. Every list that begins with the separator
is `pieces` of exactly one list of segments without separators in them
(`pieces_splitOn`, `splitOn_pieces`), and cutting such a list at a separator is
cutting the list of its segments (`pieces_append_iff`).

The last section cuts a list once: `splitOnce` at the first separator, and
`tagged`, an optional part led by its separator, as `?query` is.
-/

namespace SegList

open List

variable {α : Type*}

/-- The segments, each led by the separator. -/
def pieces (sep : α) (ss : List (List α)) : List α := ss.flatMap (sep :: ·)

/-- No segment holds the separator. -/
def SepFree (sep : α) (ss : List (List α)) : Prop := ∀ s ∈ ss, sep ∉ s

variable {sep : α}

@[simp] theorem pieces_nil : pieces sep [] = [] := rfl

@[simp] theorem pieces_cons (s : List α) (ss : List (List α)) :
    pieces sep (s :: ss) = sep :: (s ++ pieces sep ss) := rfl

@[simp] theorem pieces_append (ss ts : List (List α)) :
    pieces sep (ss ++ ts) = pieces sep ss ++ pieces sep ts := by
  simp [pieces]

variable {ss : List (List α)}

theorem pieces_eq_nil_iff : pieces sep ss = [] ↔ ss = [] := by
  cases ss <;> simp

theorem intercalate_cons (s : List α) (ss : List (List α)) : [sep].intercalate (s :: ss) = s ++ pieces sep ss := by
  induction ss generalizing s with
  | nil => simp
  | cons t ss ih => rw [intercalate_cons_cons, ih]; simp

@[simp] theorem sepFree_nil : SepFree sep ([] : List (List α)) := by simp [SepFree]

@[simp] theorem sepFree_cons {s : List α} : SepFree sep (s :: ss) ↔ sep ∉ s ∧ SepFree sep ss := by
  simp [SepFree]

@[simp] theorem sepFree_append {ts : List (List α)} : SepFree sep (ss ++ ts) ↔ SepFree sep ss ∧ SepFree sep ts := by
  simp only [SepFree, mem_append]
  exact ⟨fun h => ⟨fun s hs => h s (Or.inl hs), fun s hs => h s (Or.inr hs)⟩,
    fun h s hs => hs.elim (h.1 s) (h.2 s)⟩

/-- A list that is empty or begins with the separator, as what follows a segment is. -/
def AtSep (sep : α) (rest : List α) : Prop := rest = [] ∨ ∃ t, rest = sep :: t

theorem atSep_nil : AtSep sep ([] : List α) := Or.inl rfl

theorem atSep_cons (t : List α) : AtSep sep (sep :: t) := Or.inr ⟨t, rfl⟩

theorem atSep_pieces (ss : List (List α)) : AtSep sep (pieces sep ss) := by
  cases ss with
  | nil => exact atSep_nil
  | cons s ss => exact atSep_cons _

section Split

variable [BEq α] [LawfulBEq α]

variable {ss ts : List (List α)} {s l rest c t : List α}

/-- Splitting what was written gives the segments back. -/
theorem splitOn_append_pieces (hs : sep ∉ s) (h : SepFree sep ss) : (s ++ pieces sep ss).splitOn sep = s :: ss := by
  induction ss generalizing s with
  | nil => rw [pieces_nil, append_nil, splitOn_eq_singleton hs]
  | cons t ss ih =>
    rw [sepFree_cons] at h
    rw [pieces_cons, splitOn_append_cons_self_of_not_mem hs, ih h.1 h.2]

theorem splitOn_pieces (h : SepFree sep ss) : (pieces sep ss).splitOn sep = [] :: ss :=
  splitOn_append_pieces (s := []) (by simp) h

theorem sepFree_splitOn (sep : α) (l : List α) : SepFree sep (l.splitOn sep) := by
  induction l with
  | nil => simp
  | cons x l ih =>
    rw [splitOn_cons_eq_if_modifyHead]
    split
    · simpa using ih
    · rename_i hx
      have hne := splitOn_ne_nil sep l
      revert ih hne
      cases l.splitOn sep with
      | nil => simp
      | cons s ss =>
        intro ih _
        simp only [sepFree_cons] at ih
        simp only [modifyHead_cons, sepFree_cons, mem_cons, not_or]
        exact ⟨⟨fun he => hx (by simp [he]), ih.1⟩, ih.2⟩

/-- Writing what was split gives the list back, behind one separator. -/
theorem pieces_splitOn (sep : α) (l : List α) : pieces sep (l.splitOn sep) = sep :: l := by
  induction l with
  | nil => simp
  | cons x l ih =>
    rw [splitOn_cons_eq_if_modifyHead]
    split
    · rename_i hx
      rw [pieces_cons, ih, nil_append, eq_of_beq hx]
    · have hne := splitOn_ne_nil sep l
      revert ih hne
      cases l.splitOn sep with
      | nil => simp
      | cons s ss => intro ih _; simpa using ih

/-- A list is its first segment and the pieces after it. -/
theorem exists_segments (sep : α) (l : List α) : ∃ s ss, l = s ++ pieces sep ss ∧ sep ∉ s ∧ SepFree sep ss := by
  have hp := pieces_splitOn sep l
  have hf := sepFree_splitOn sep l
  have hne := splitOn_ne_nil sep l
  revert hp hf hne
  cases l.splitOn sep with
  | nil => simp
  | cons s ss =>
    intro hp hf _
    rw [pieces_cons, List.cons.injEq] at hp
    rw [sepFree_cons] at hf
    exact ⟨s, ss, hp.2.symm, hf⟩

theorem infix_of_mem_splitOn (h : s ∈ l.splitOn sep) : s <:+: l := by
  obtain ⟨t, ts, rfl, ht, hts⟩ := exists_segments sep l
  rw [splitOn_append_pieces ht hts, mem_cons] at h
  rcases h with rfl | h
  · exact prefix_append s _ |>.isInfix
  · obtain ⟨as, bs, rfl⟩ := append_of_mem h
    exact ⟨t ++ pieces sep as ++ [sep], pieces sep bs, by simp⟩

/-- A list that begins with the separator is `pieces` of its segments. -/
theorem exists_pieces (h : l.head? = some sep) : ∃ ss, ss ≠ [] ∧ l = pieces sep ss ∧ SepFree sep ss := by
  cases l with
  | nil => simp at h
  | cons x l =>
    rw [List.head?_cons, Option.some.injEq] at h
    subst h
    exact ⟨l.splitOn x, splitOn_ne_nil x l, (pieces_splitOn x l).symm, sepFree_splitOn x l⟩

theorem append_pieces_inj (hs : sep ∉ s) (hss : SepFree sep ss)
    (ht : sep ∉ t) (hts : SepFree sep ts) (h : s ++ pieces sep ss = t ++ pieces sep ts) : s = t ∧ ss = ts := by
  have := congrArg (List.splitOn sep) h
  rwa [splitOn_append_pieces hs hss, splitOn_append_pieces ht hts, List.cons.injEq] at this

theorem pieces_inj (hss : SepFree sep ss) (hts : SepFree sep ts) (h : pieces sep ss = pieces sep ts) : ss = ts :=
  (append_pieces_inj (s := []) (t := []) (by simp) hss (by simp) hts h).2

theorem AtSep.exists_pieces (h : AtSep sep rest) : ∃ ss, rest = pieces sep ss ∧ SepFree sep ss := by
  rcases h with rfl | ⟨t, rfl⟩
  · exact ⟨[], rfl, sepFree_nil⟩
  · exact ⟨t.splitOn sep, (pieces_splitOn sep t).symm, sepFree_splitOn sep t⟩

/-- A list is cut after its first segment in one way. -/
theorem AtSep.append_inj {rest' : List α} (hs : sep ∉ s) (ht : sep ∉ t) (hr : AtSep sep rest)
    (hr' : AtSep sep rest') (h : s ++ rest = t ++ rest') : s = t ∧ rest = rest' := by
  obtain ⟨ss, rfl, hss⟩ := hr.exists_pieces
  obtain ⟨ts, rfl, hts⟩ := hr'.exists_pieces
  obtain ⟨rfl, rfl⟩ := append_pieces_inj hs hss ht hts h
  exact ⟨rfl, rfl⟩

/-- Cutting a written list where a segment ends is cutting the list of segments. -/
theorem pieces_append_iff (hss : SepFree sep ss) (hts : SepFree sep ts) (hr : AtSep sep rest) :
    pieces sep ts = pieces sep ss ++ rest ↔ ∃ us, ts = ss ++ us ∧ rest = pieces sep us := by
  constructor
  · intro h
    obtain ⟨us, rfl, hf⟩ := hr.exists_pieces
    rw [← pieces_append] at h
    exact ⟨us, pieces_inj hts (by simp [hss, hf]) h, rfl⟩
  · rintro ⟨us, rfl, rfl⟩
    rw [pieces_append]

/-- The fronts of a list that end in the separator, the shortest first. -/
def heads (sep : α) : List α → List (List α)
  | [] => []
  | x :: l => (if x == sep then [[x]] else []) ++ (heads sep l).map (x :: ·)

attribute [local grind =] heads

theorem heads_append_of_not_mem (hs : sep ∉ s) (rest : List α) :
    heads sep (s ++ rest) = (heads sep rest).map (s ++ ·) := by
  induction s with
  | nil => simp
  | cons x s ih =>
    simp only [mem_cons, not_or] at hs
    have hx : (x == sep) = false := beq_eq_false_iff_ne.mpr (Ne.symm hs.1)
    rw [cons_append, heads, hx, ih hs.2, map_map]
    rfl

/-- The fronts of written segments are the written fronts of the segments. -/
theorem heads_pieces (h : SepFree sep ss) :
    heads sep (pieces sep ss) = (List.range ss.length).map fun k => pieces sep (ss.take k) ++ [sep] := by
  induction ss with
  | nil => rfl
  | cons s ss ih =>
    rw [sepFree_cons] at h
    rw [pieces_cons, heads, heads_append_of_not_mem h.1, ih h.2, length_cons, range_succ_eq_map]
    simp [Function.comp_def]

theorem mem_heads (h : c ∈ heads sep l) : c <+: l ∧ c.getLast? = some sep := by
  induction l generalizing c with
  | nil => cases h
  | cons x l ih =>
    rw [heads, mem_append, mem_map] at h
    rcases h with h | ⟨c, hc, rfl⟩
    · split_ifs at h with hx
      · rw [mem_singleton.mp h, ← eq_of_beq hx]
        exact ⟨prefix_append [x] l, rfl⟩
      · cases h
    · obtain ⟨hfront, hlast⟩ := ih hc
      refine ⟨(prefix_cons_inj x).mpr hfront, ?_⟩
      cases c with
      | nil => cases hlast
      | cons y c => rwa [List.getLast?_cons_cons]

theorem mem_heads_of_front (hfront : c <+: l) (hlast : c.getLast? = some sep) : c ∈ heads sep l := by
  induction l generalizing c with
  | nil => simp [prefix_nil.mp hfront] at hlast
  | cons x l ih =>
    cases c with
    | nil => cases hlast
    | cons y c =>
      obtain ⟨rfl, htail⟩ := cons_prefix_cons.mp hfront
      rw [heads, mem_append, mem_map]
      cases c with
      | nil =>
        obtain rfl : y = sep := Option.some.inj hlast
        exact .inl (by simp)
      | cons z c => exact .inr ⟨z :: c, ih htail (by rwa [List.getLast?_cons_cons] at hlast), rfl⟩

omit [LawfulBEq α] in
/-- The fronts of a front are the shorter ones, and itself. -/
theorem heads_of_heads {pre post : List (List α)} (h : heads sep l = pre ++ c :: post) : heads sep c = pre ++ [c] := by
  induction l generalizing pre c post with
  | nil => simp [heads] at h
  | cons x l ih =>
    have hstep : ∀ {pre' : List (List α)}, (heads sep l).map (x :: ·) = pre' ++ c :: post →
        ∃ c', c = x :: c' ∧ (heads sep c').map (x :: ·) = pre' ++ [c] := by
      intro pre' he
      obtain ⟨p1, p2, hl, rfl, he'⟩ := map_eq_append_iff.mp he
      obtain ⟨c', p3, rfl, rfl, -⟩ := map_eq_cons_iff.mp he'
      exact ⟨c', rfl, by rw [ih hl, map_append]; rfl⟩
    rw [heads] at h
    by_cases hx : (x == sep) = true
    · rw [if_pos hx] at h
      cases pre with
      | nil =>
        rw [← (List.cons.inj h).1]
        simp [heads, hx]
      | cons p pre =>
        obtain ⟨hp, h⟩ := List.cons.inj h
        obtain ⟨c', rfl, he⟩ := hstep h
        rw [heads, if_pos hx, he, ← hp]
        rfl
    · rw [if_neg hx] at h
      obtain ⟨c', rfl, he⟩ := hstep h
      rw [heads, if_neg hx, he]
      rfl

theorem pairwise_length_heads (sep : α) (l : List α) : (heads sep l).Pairwise fun a b => a.length < b.length := by
  induction l with
  | nil => exact List.Pairwise.nil
  | cons x l ih =>
    rw [heads, pairwise_append]
    refine ⟨?_, ?_, ?_⟩
    · split_ifs
      · exact pairwise_singleton _ _
      · exact List.Pairwise.nil
    · exact pairwise_map.mpr (ih.imp fun h => Nat.succ_lt_succ h)
    · intro a ha b hb
      obtain ⟨c, hc, rfl⟩ := mem_map.mp hb
      split_ifs at ha
      · rw [mem_singleton.mp ha]
        have hne : c ≠ [] := by
          rintro rfl
          exact absurd (mem_heads hc).2 (by simp)
        have := length_pos_iff.mpr hne
        simp only [length_cons, length_nil]
        omega
      · cases ha

end Split

/-! ### Cutting once -/

/-- An optional part, led by its separator when it is there. -/
def tagged (sep : α) : Option (List α) → List α
  | none => []
  | some l => sep :: l

@[simp] theorem tagged_none : tagged sep none = [] := rfl

@[simp] theorem tagged_some (l : List α) : tagged sep (some l) = sep :: l := rfl

theorem atSep_tagged (o : Option (List α)) : AtSep sep (tagged sep o) := by
  cases o with
  | none => exact atSep_nil
  | some l => exact atSep_cons l

theorem tagged_inj {o o' : Option (List α)} : tagged sep o = tagged sep o' ↔ o = o' := by
  cases o <;> cases o' <;> simp

theorem mem_tagged {o : Option (List α)} {x : α} : x ∈ tagged sep o ↔ ∃ l, o = some l ∧ (x = sep ∨ x ∈ l) := by
  cases o <;> simp

/-- The two sides of the first separator, if there is one. -/
def splitOnce [BEq α] (sep : α) : List α → Option (List α × List α)
  | [] => none
  | x :: l => if x == sep then some ([], l) else (splitOnce sep l).map fun p => (x :: p.1, p.2)

/-- A list and its optional part, cut at the first separator. -/
def cutAt [BEq α] (sep : α) (l : List α) : List α × Option (List α) :=
  match splitOnce sep l with
  | some (s, t) => (s, some t)
  | none => (l, none)

section Once

variable [BEq α] [LawfulBEq α]

variable {s l t rest p r : List α}

theorem append_tagged_inj {o o' : Option (List α)} (hs : sep ∉ s) (ht : sep ∉ t)
    (h : s ++ tagged sep o = t ++ tagged sep o') : s = t ∧ o = o' := by
  obtain ⟨rfl, he⟩ := AtSep.append_inj hs ht (atSep_tagged o) (atSep_tagged o') h
  exact ⟨rfl, tagged_inj.mp he⟩

/-- A list is what stands before its first separator, and the optional part behind it. -/
theorem exists_tagged (sep : α) (l : List α) : ∃ s o, l = s ++ tagged sep o ∧ sep ∉ s := by
  obtain ⟨s, ss, rfl, hs, -⟩ := exists_segments sep l
  cases ss with
  | nil => exact ⟨s, none, rfl, hs⟩
  | cons t ss => exact ⟨s, some (t ++ pieces sep ss), rfl, hs⟩

theorem splitOnce_append (hs : sep ∉ s) (l : List α) : splitOnce sep (s ++ sep :: l) = some (s, l) := by
  induction s with
  | nil => simp [splitOnce]
  | cons x s ih =>
    simp only [mem_cons, not_or] at hs
    have hx : (x == sep) = false := beq_eq_false_iff_ne.mpr (Ne.symm hs.1)
    simp [splitOnce, hx, ih hs.2]

theorem splitOnce_of_not_mem (h : sep ∉ l) : splitOnce sep l = none := by
  induction l with
  | nil => rfl
  | cons x l ih =>
    simp only [mem_cons, not_or] at h
    have hx : (x == sep) = false := beq_eq_false_iff_ne.mpr (Ne.symm h.1)
    simp [splitOnce, hx, ih h.2]

theorem splitOnce_eq_some_iff : splitOnce sep l = some (s, t) ↔ sep ∉ s ∧ l = s ++ sep :: t := by
  constructor
  · intro h
    induction l generalizing s with
    | nil => simp [splitOnce] at h
    | cons x l ih =>
      rw [splitOnce] at h
      split at h
      · rename_i hx
        cases h
        simp [eq_of_beq hx]
      · rename_i hx
        obtain ⟨p, hp, he⟩ := Option.map_eq_some_iff.mp h
        cases he
        obtain ⟨hn, rfl⟩ := ih hp
        refine ⟨?_, rfl⟩
        rw [mem_cons, not_or]
        exact ⟨fun he => hx (by simp [he]), hn⟩
  · rintro ⟨hs, rfl⟩
    exact splitOnce_append hs t

theorem cutAt_append_tagged (hs : sep ∉ s) (o : Option (List α)) : cutAt sep (s ++ tagged sep o) = (s, o) := by
  cases o with
  | none => simp [cutAt, splitOnce_of_not_mem hs]
  | some l => simp [cutAt, splitOnce_append hs]

/-- The segment before the first separator, and what follows it. -/
theorem takeWhile_append_atSep (hs : sep ∉ s) (hr : AtSep sep rest) :
    (s ++ rest).takeWhile (· != sep) = s ∧ (s ++ rest).dropWhile (· != sep) = rest := by
  have hall : ∀ x ∈ s, (x != sep) = true := by
    intro x hx
    simp only [bne_iff_ne, ne_eq]
    rintro rfl
    exact hs hx
  rw [takeWhile_append_of_pos hall, dropWhile_append_of_pos hall]
  rcases hr with rfl | ⟨t, rfl⟩ <;> simp

/-- The first separator stands where the text in front of it ends. -/
theorem findIdx?_append_atSep (hs : sep ∉ s) (hr : AtSep sep rest) :
    (s ++ rest).findIdx? (· == sep) = if rest = [] then none else some s.length := by
  have hnone : s.findIdx? (· == sep) = none := by
    rw [List.findIdx?_eq_none_iff]
    intro x hx
    exact beq_eq_false_iff_ne.mpr fun he => hs (he ▸ hx)
  rw [List.findIdx?_append, hnone]
  rcases hr with rfl | ⟨t, rfl⟩ <;> simp [List.findIdx?_cons]

/-- `strip_prefix`: what is left behind a given front. -/
theorem dropPrefix?_eq_some : l.dropPrefix? p = some r ↔ l = p ++ r := by
  rw [List.dropPrefix?_eq_some_iff]
  constructor
  · rintro ⟨q, rfl, hq⟩; rw [eq_of_beq hq]
  · rintro rfl; exact ⟨p, rfl, BEq.rfl⟩

/-- A leading separator, taken away once. -/
theorem getD_dropPrefix?_cons (t : List α) : ((sep :: t).dropPrefix? [sep]).getD (sep :: t) = t := by
  rw [dropPrefix?_eq_some.mpr (show sep :: t = [sep] ++ t from rfl)]
  rfl

theorem getD_dropPrefix?_of_head (h : t.head? ≠ some sep) : (t.dropPrefix? [sep]).getD t = t := by
  cases hd : t.dropPrefix? [sep] with
  | none => rfl
  | some r =>
    rw [dropPrefix?_eq_some] at hd
    simp [hd] at h

/-- `strip_suffix`: what is left before a given end. -/
theorem dropSuffix?_eq_some : l.dropSuffix? r = some p ↔ l = p ++ r := by
  rw [List.dropSuffix?_eq_some_iff]
  constructor
  · rintro ⟨q, rfl, hq⟩; rw [eq_of_beq hq]
  · rintro rfl; exact ⟨r, rfl, BEq.rfl⟩

end Once

end SegList
