import OvStorage.Address.Canonical

/-!
# How an operating system reads a path

`normalize_path_bytes` of `ovstorage-layer/src/address.rs` against a reading that knows nothing of its two passes:
the segments go over a stack of names, one by one.

## What is proved

* `normalizePathBytes_reads`: on an absolute path the two passes are the reading.
-/

namespace OvStorage.Address

open SegList

/-! ### The loop -/

/-- One turn of the loop of `remove_dot_segments`, on what is not empty. -/
def dotTurn (rest out : Bytes) : Bytes × Bytes :=
  if [dot, dot, slash].isPrefixOf rest then (rest.drop 3, out)
  else if [dot, slash].isPrefixOf rest || [slash, dot, slash].isPrefixOf rest then (rest.drop 2, out)
  else if rest = [slash, dot] then (rest.take 1, out)
  else if [slash, dot, dot, slash].isPrefixOf rest then (rest.drop 3, truncateLastSegment out)
  else if rest = [slash, dot, dot] then (rest.take 1, truncateLastSegment out)
  else if rest = [dot] || rest = [dot, dot] then ([], out)
  else (rest.drop (segmentEnd rest), out ++ rest.take (segmentEnd rest))

/-- The loop itself: its condition before each turn. -/
def dotTurns : ℕ → Bytes × Bytes → Bytes × Bytes
  | 0, state => state
  | n + 1, (rest, out) => if rest = [] then (rest, out) else dotTurns n (dotTurn rest out)

theorem removeDotLoop_succ (n : ℕ) (rest out : Bytes) :
    removeDotLoop (n + 1) rest out = if rest = [] then out else removeDotLoop n (dotTurn rest out).1
      (dotTurn rest out).2 := by
  rw [removeDotLoop]
  unfold dotTurn
  split_ifs <;> rfl

/-- The turns that are counted are those of the loop. -/
theorem removeDotLoop_eq (n : ℕ) (rest out : Bytes) : removeDotLoop n rest out = (dotTurns n (rest, out)).2 := by
  induction n generalizing rest out with
  | zero => rfl
  | succ n ih =>
    rw [removeDotLoop_succ, dotTurns]
    split_ifs
    · rfl
    · exact ih _ _

variable {rest s t : Bytes}

theorem segmentEnd_pos (h : rest ≠ []) : 0 < segmentEnd rest := by
  obtain ⟨b, rest, rfl⟩ := List.exists_cons_of_ne_nil h
  unfold segmentEnd
  by_cases hb : b = slash
  · simp only [List.head?_cons, hb, if_true, List.drop_one, List.tail_cons]
    split
    · omega
    · exact Nat.succ_pos _
  · have hf : ∀ offset, (b :: rest).findIdx? (· == slash) = some offset → 0 < offset := by
      intro offset hoffset
      rw [List.findIdx?_cons, if_neg (by simpa using hb)] at hoffset
      obtain ⟨n, -, rfl⟩ := Option.map_eq_some_iff.mp hoffset
      exact Nat.succ_pos n
    simp only [List.head?_cons, Option.some.injEq, hb, if_false, List.drop_zero]
    split
    · next offset hoffset => exact Nat.lt_of_lt_of_le (hf offset hoffset) (Nat.le_add_left _ _)
    · exact Nat.succ_pos _

/-- Every turn takes something from what is left. -/
theorem dotTurn_lt (h : rest ≠ []) (out : Bytes) : (dotTurn rest out).1.length < rest.length := by
  have hpos : 0 < rest.length := List.length_pos_iff.mpr h
  have hend := segmentEnd_pos h
  unfold dotTurn
  split_ifs with h1 h2 h3 h4 h5 h6
  all_goals simp only [List.length_drop, List.length_take, List.length_nil]
  all_goals try omega
  · rw [h3]
    decide
  · rw [h5]
    decide

/-- The loop ends with nothing left. -/
theorem dotTurns_ends {n : ℕ} (h : rest.length ≤ n) (out : Bytes) : (dotTurns n (rest, out)).1 = [] := by
  induction n generalizing rest out with
  | zero => exact List.length_eq_zero_iff.mp (Nat.le_zero.mp h)
  | succ n ih =>
    rw [dotTurns]
    split_ifs with hrest
    · exact hrest
    · have hlt := dotTurn_lt hrest out
      revert hlt
      obtain ⟨rest', out'⟩ := dotTurn rest out
      intro hlt
      have hlt : rest'.length < rest.length := hlt
      exact ih (by omega) out'

/-! ### The reading -/

/-- What one segment does to the names kept so far. -/
def readSegment (stack : List Bytes) (s : Bytes) : List Bytes :=
  if s = [] ∨ s = [dot] then stack else if s = [dot, dot] then stack.dropLast else stack ++ [s]

/-- The names that are left when the segments are read. -/
def readSegments (stack segs : List Bytes) : List Bytes := segs.foldl readSegment stack

/-- The last segment names nothing of its own. -/
def Closes (segs : List Bytes) : Prop := ∃ s ∈ segs.getLast?, s = [] ∨ s = [dot] ∨ s = [dot, dot]

instance (segs : List Bytes) : Decidable (Closes segs) := inferInstanceAs (Decidable (∃ s ∈ segs.getLast?, _))

/-- A path as an operating system reads it. -/
def systemReading (path : Bytes) : Bytes :=
  let segs := path.splitOn slash
  let stack := readSegments [] segs
  if stack = [] ∨ Closes segs then pieces slash stack ++ [slash] else pieces slash stack

example : systemReading (utf8 "/a//../b/./c/..") = utf8 "/b/" := by decide +kernel

theorem readSegments_cons (stack : List Bytes) (s : Bytes) (segs : List Bytes) :
    readSegments stack (s :: segs) = readSegments (readSegment stack s) segs := rfl

theorem readSegments_append (stack segs segs' : List Bytes) :
    readSegments stack (segs ++ segs') = readSegments (readSegments stack segs) segs' := List.foldl_append

variable {segs : List Bytes}

theorem closes_cons : Closes (s :: t :: segs) ↔ Closes (t :: segs) := by
  rw [Closes, Closes, List.getLast?_cons_cons]

theorem closes_append {segs' : List Bytes} (h : segs' ≠ []) : Closes (segs ++ segs') ↔ Closes segs' := by
  rw [Closes, Closes, List.getLast?_append_of_ne_nil _ h]

/-- A trailing `/` is an empty last segment. -/
theorem pieces_close (stack segs : List Bytes) :
    pieces slash (if Closes segs then stack ++ [[]] else stack) =
      if Closes segs then pieces slash stack ++ [slash] else pieces slash stack := by
  split_ifs <;> simp

theorem collapseSegs_ne_nil : ∃ t ts, collapseSegs (s :: segs) = t :: ts :=
  List.exists_cons_of_ne_nil (mt collapseSegs_eq_nil_iff.mp (by simp))

/-- A segment that is not the last one of what collapsing leaves. -/
theorem resolve_collapse_cons (stack : List Bytes) :
    resolve (collapseSegs (s :: t :: segs)) ⟨[], stack⟩ =
      resolve (collapseSegs (t :: segs)) ⟨[], readSegment stack s⟩ := by
  obtain ⟨u, us, hu⟩ := @collapseSegs_ne_nil t segs
  rw [collapseSegs, hu]
  unfold readSegment
  by_cases hempty : s = []
  · rw [if_pos hempty, if_pos (.inl hempty)]
  · rw [if_neg hempty, resolve]
    by_cases hdot : s = [dot]
    · rw [if_pos hdot, if_pos (.inr hdot)]
    · by_cases hdots : s = [dot, dot]
      · have hpop : Stack.pop ⟨[], stack⟩ = ⟨[], stack.dropLast⟩ := by
          cases stack <;> rfl
        rw [if_neg hdot, if_pos hdots, if_neg (by simp [hempty, hdot]), if_pos hdots, hpop]
      · rw [if_neg hdot, if_neg hdots, if_neg (by simp [hempty, hdot]), if_neg hdots]
        rfl

/-- The two passes are the reading of the segments. -/
theorem resolve_collapse (h : segs ≠ []) (stack : List Bytes) : (resolve (collapseSegs segs) ⟨[], stack⟩).segs =
      if Closes segs then readSegments stack segs ++ [[]] else readSegments stack segs := by
  induction segs generalizing stack with
  | nil => exact absurd rfl h
  | cons s segs ih =>
    cases segs with
    | cons t segs =>
      rw [resolve_collapse_cons, ih (by simp), readSegments_cons stack]
      simp only [closes_cons]
    | nil =>
      have hclose : Closes [s] ↔ s = [] ∨ s = [dot] ∨ s = [dot, dot] := by simp [Closes]
      rw [collapseSegs, resolve, readSegments_cons]
      change _ = if Closes [s] then readSegment stack s ++ [[]] else readSegment stack s
      rw [readSegment]
      by_cases hdot : s = [dot]
      · rw [if_pos hdot, if_pos (hclose.mpr (.inr (.inl hdot))), if_pos (.inr hdot)]
        rfl
      · by_cases hdots : s = [dot, dot]
        · rw [if_neg hdot, if_pos hdots, if_pos (hclose.mpr (.inr (.inr hdots))),
            if_neg (by simp [hdots]), if_pos hdots]
          cases stack <;> rfl
        · rw [if_neg hdot, if_neg hdots]
          by_cases hempty : s = []
          · rw [if_pos (hclose.mpr (.inl hempty)), if_pos (.inl hempty), hempty]
            rfl
          · rw [if_neg (by simp [hclose, hempty, hdot, hdots]), if_neg (by simp [hempty, hdot]), if_neg hdots]
            rfl

/-- Where nothing is kept the last segment has named nothing. -/
theorem closes_of_readSegments (h : segs ≠ []) {stack : List Bytes} (hread : readSegments stack segs = []) :
    Closes segs := by
  obtain ⟨front, s, rfl⟩ : ∃ front s, segs = front ++ [s] := by simpa [h] using segs.eq_nil_or_concat
  rw [readSegments_append, readSegments_cons] at hread
  change readSegment _ s = [] at hread
  refine ⟨s, by simp, ?_⟩
  unfold readSegment at hread
  split_ifs at hread with hempty hdots
  · exact hempty.imp_right .inl
  · exact .inr (.inr hdots)
  · simp at hread

theorem systemReading_pieces (h : segs ≠ []) (hsep : SepFree slash segs) : systemReading (pieces slash segs) =
      if Closes segs then pieces slash (readSegments [] segs) ++ [slash] else pieces slash (readSegments [] segs) := by
  obtain ⟨s, segs, rfl⟩ := List.exists_cons_of_ne_nil h
  unfold systemReading
  have hlead : readSegments [] ([] :: s :: segs) = readSegments [] (s :: segs) := rfl
  rw [splitOn_pieces hsep]
  simp only [hlead, closes_cons]
  refine if_congr ⟨fun hor => hor.elim (closes_of_readSegments h) id, .inr⟩ rfl rfl

/-- On an absolute path normalizing is the reading. -/
theorem normalizePathBytes_eq (h : segs ≠ []) (hsep : SepFree slash segs) :
    normalizePathBytes (pieces slash segs) = systemReading (pieces slash segs) := by
  rw [normalizePathBytes_pieces hsep, normalSegs, resolve_collapse h, pieces_close, systemReading_pieces h hsep]

/-- A separator more changes nothing. -/
theorem systemReading_double {front back : Bytes} (h : (front ++ slash :: back).head? = some slash) :
    systemReading (front ++ slash :: slash :: back) = systemReading (front ++ slash :: back) := by
  obtain ⟨s, segs, rfl, hs, hsegs⟩ := exists_segments slash front
  obtain ⟨t, segs', rfl, ht, hsegs'⟩ := exists_segments slash back
  obtain rfl : s = [] := by
    cases s with
    | nil => rfl
    | cons b s =>
      cases h
      simp at hs
  have hone : [] ++ pieces slash segs ++ slash :: (t ++ pieces slash segs') = pieces slash (segs ++ t :: segs') := by
    simp
  have htwo : [] ++ pieces slash segs ++ slash :: slash :: (t ++ pieces slash segs') =
      pieces slash (segs ++ [] :: t :: segs') := by simp
  rw [hone, htwo, systemReading_pieces (by simp) (by simp [hsegs, ht, hsegs']),
    systemReading_pieces (by simp) (by simp [hsegs, ht, hsegs'])]
  simp only [closes_append (show t :: segs' ≠ [] by simp),
    closes_append (show [] :: t :: segs' ≠ [] by simp), closes_cons,
    readSegments_append]
  rfl

/-- Only the last of settled segments may be empty. -/
theorem Settled.names_of_mem_dropLast (h : Settled segs) : ∀ s ∈ segs.dropLast, Names s := by
  induction segs with
  | nil => simp
  | cons s segs ih =>
    cases segs with
    | nil => simp
    | cons t segs =>
      rw [List.dropLast_cons_of_ne_nil (by simp)]
      intro u hu
      rcases List.mem_cons.mp hu with rfl | hu
      · exact h.1
      · exact ih h.2 u hu

/-- `normalize_path_bytes` on an absolute path is the operating system's reading of it. -/
theorem normalizePathBytes_reads (path : Bytes) (h : path.head? = some slash) :
    normalizePathBytes path = systemReading path ∧
    (∀ s ∈ (normalizePathBytes path).splitOn slash, s ≠ [dot] ∧ s ≠ [dot, dot]) ∧
    (∀ s ∈ ((normalizePathBytes path).splitOn slash).tail.dropLast, s ≠ []) ∧
    (∀ front back, path = front ++ slash :: back →
      normalizePathBytes (front ++ slash :: slash :: back) = normalizePathBytes path) ∧
    ∀ input out : Bytes, (dotTurns input.length (input, out)).1 = [] ∧
      removeDotLoop input.length input out = (dotTurns input.length (input, out)).2 := by
  have hreads : ∀ path : Bytes, path.head? = some slash → normalizePathBytes path = systemReading path := by
    intro path h
    obtain ⟨segs, hne, rfl, hsep⟩ := exists_pieces h
    exact normalizePathBytes_eq hne hsep
  obtain ⟨st, hne, hsep, hsettled, hst⟩ := normalizePathBytes_absolute h
  refine ⟨hreads path h, ?_, ?_, ?_, fun input out => ⟨dotTurns_ends (Nat.le_refl _) out, removeDotLoop_eq _ _ _⟩⟩
  · intro s hs
    rw [hst, splitOn_pieces hsep] at hs
    rcases List.mem_cons.mp hs with rfl | hs
    · exact ⟨by decide, by decide⟩
    · exact Settled.not_dot hsettled s hs
  · rw [hst, splitOn_pieces hsep, List.tail_cons]
    exact fun s hs => (hsettled.names_of_mem_dropLast s hs).1
  · rintro front back rfl
    rw [hreads _ h, hreads _ ?_, systemReading_double h]
    cases front with
    | nil => rfl
    | cons b front => exact h

theorem normalizePathBytes_reads_climb :
    (utf8 "/a//../b/..").head? = some slash ∧
      normalizePathBytes (utf8 "/a//../b/..") = systemReading (utf8 "/a//../b/..") :=
  ⟨by decide, (normalizePathBytes_reads (utf8 "/a//../b/..") (by decide)).1⟩

end OvStorage.Address
