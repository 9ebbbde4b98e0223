import OvStorage.Address.SystemPath
import OvStorage.Authz.Scope

/-!
# Spellings of a separator

On a folding host `\` separates like `/`, and the scope of a `file:` address is read off its decoded path. This module
says when that reading does not depend on how the separators are spelled.

The source looks for the drive behind one separator. A path that begins with more of them hides its drive, and `..`
segments that climb past a hidden drive take it along.

## What is proved

* `spelledAlike_iff`: one scope for all spellings, and the drive kept, exactly where no hidden drive is climbed past.
-/

namespace OvStorage.Authz

open Address SegList List

/-! ### Names on a stack -/

/-- The `..` of these segments go below a stack of `depth` names. -/
def climbs : ℕ → List Bytes → Bool
  | _, [] => false
  | depth, s :: segs =>
    if s = [] ∨ s = [dot] then climbs depth segs
    else if s = [dot, dot] then
      match depth with
      | 0 => true
      | depth + 1 => climbs depth segs
    else climbs (depth + 1) segs

/-- A name at the bottom of the stack stays, unless it is climbed past; then it is as if it had never been. -/
theorem readSegments_hold (held : Bytes) (stack segs : List Bytes) :
    readSegments (held :: stack) segs =
      if climbs stack.length segs then readSegments stack segs else held :: readSegments stack segs := by
  induction segs generalizing stack with
  | nil => rfl
  | cons s segs ih =>
    rw [readSegments_cons, readSegments_cons]
    unfold climbs readSegment
    by_cases hskip : s = [] ∨ s = [dot]
    · rw [if_pos hskip, if_pos hskip, if_pos hskip]
      exact ih stack
    · rw [if_neg hskip, if_neg hskip, if_neg hskip]
      by_cases hdots : s = [dot, dot]
      · rw [if_pos hdots, if_pos hdots, if_pos hdots]
        rcases stack.eq_nil_or_concat with rfl | ⟨stack, t, rfl⟩
        · rfl
        · rw [concat_eq_append]
          have hlen : (stack ++ [t]).length = stack.length + 1 := by simp
          have hdrop : (held :: (stack ++ [t])).dropLast = held :: stack := by
            rw [dropLast_cons_of_ne_nil (by simp), dropLast_concat]
          rw [hlen, hdrop, dropLast_concat]
          exact ih stack
      · rw [if_neg hdots, if_neg hdots, if_neg hdots]
        have hlen : stack.length + 1 = (stack ++ [s]).length := by simp
        rw [hlen, ← ih (stack ++ [s])]
        rfl

theorem readSegments_names {stack : List Bytes} (h : ∀ s ∈ stack, Names s) (segs : List Bytes) :
    ∀ s ∈ readSegments stack segs, Names s := by
  induction segs generalizing stack with
  | nil => exact h
  | cons s segs ih =>
    rw [readSegments_cons]
    apply ih
    unfold readSegment
    split_ifs with hskip hdots
    · exact h
    · exact fun t ht => h t (mem_of_mem_dropLast ht)
    · intro t ht
      rcases mem_append.mp ht with ht | ht
      · exact h t ht
      · rw [mem_singleton.mp ht]
        exact ⟨fun he => hskip (.inl he), fun he => hskip (.inr he), hdots⟩

/-- Empty segments name nothing. -/
theorem readSegments_replicate (stack : List Bytes) (n : ℕ) : readSegments stack (List.replicate n []) = stack := by
  induction n with
  | zero => rfl
  | succ n ih => rw [replicate_succ, readSegments_cons]; exact ih

/-- What normalizing leaves, a trailing `/` aside, is what is read. -/
theorem nodeSegs_normalSegs {segs : List Bytes} (h : segs ≠ []) :
    nodeSegs (normalSegs segs) = readSegments [] segs := by
  rw [normalSegs, resolve_collapse h]
  split_ifs
  · exact nodeSegs_concat_nil _
  · exact nodeSegs_of_nonempty fun s hs => (readSegments_names (by simp) segs s hs).1

/-- A folding host reads the segments over a stack of names, above the drive where the first one is a drive. -/
theorem foldedSegs_eq (h : Bytes) (ss : List Bytes) :
    foldedSegs h ss = if isDriveSegment h then h :: readSegments [] ss else readSegments [] (h :: ss) := by
  unfold foldedSegs
  split_ifs with hd hs hs
  · rw [nodeSegs_normalSegs (by simp), hs]
    rfl
  · rw [nodeSegs_normalSegs hs]
  · rw [nodeSegs_normalSegs hs.2, hs.1]
    rfl
  · rw [nodeSegs_normalSegs (by simp)]

theorem foldedSegs_skip (h : Bytes) (ss : List Bytes) (n : ℕ) (tail : List Bytes) :
    foldedSegs h (ss ++ List.replicate n [] ++ tail) = foldedSegs h (ss ++ tail) := by
  have hskip : ∀ stack, readSegments stack (ss ++ List.replicate n [] ++ tail) = readSegments stack (ss ++ tail) := by
    intro stack
    rw [readSegments_append, readSegments_append, readSegments_replicate, ← readSegments_append]
  rw [foldedSegs_eq, foldedSegs_eq, hskip, readSegments_cons, readSegments_cons, hskip]

variable {front s h p run : Bytes}

theorem isDriveSegment_names (h : isDriveSegment s = true) : Names s := by
  obtain ⟨a, -, ha, rfl⟩ := of_decide_eq_true h
  refine ⟨by simp, by simp, ?_⟩
  intro he
  obtain ⟨-, he⟩ := List.cons.inj he
  revert he
  decide

theorem foldedSegs_names (h : Bytes) (ss : List Bytes) : ∀ s ∈ foldedSegs h ss, Names s := by
  rw [foldedSegs_eq]
  split_ifs with hd
  · intro s hs
    rcases mem_cons.mp hs with rfl | hs
    · exact isDriveSegment_names hd
    · exact readSegments_names (by simp) ss s hs
  · exact readSegments_names (by simp) _

/-! ### The decoded path -/

/-- A separator of a folding host. -/
def IsSeparator (b : UInt8) : Prop := b = slash ∨ b = backslash

instance (b : UInt8) : Decidable (IsSeparator b) := inferInstanceAs (Decidable (_ ∨ _))

/-- The path of an address, decoded and joined again. -/
def decodedPath (url : Parts) : Option Bytes :=
  (pathSegments url).map fun segments => [slash].intercalate (segments.map percentDecode)

variable {C : CaseTable} {url : Parts} {path : Bytes}

/-- The scope of a `file:` address on a folding host is read off its decoded path. -/
theorem segments_of_decodedPath (hfile : url.scheme = FILE) (hpath : decodedPath url = some path) (widen : Bool) :
    segmentsWithHostSemanticsWidened C url true widen =
      some ((readScope true path).map fun s => if widen then C.lower s else s) := by
  obtain ⟨segments, hsegments, rfl⟩ := Option.map_eq_some_iff.mp hpath
  have hscope : scopeSegments C true url =
      some (readScope true ([slash].intercalate (segments.map percentDecode))) := by
    unfold scopeSegments segmentsWithHostSemanticsWidened readScope
    simp [hsegments, hfile]
  rw [segments_widen, hscope, hfile]
  simp

/-- Every byte string is the decoded path of some `file:` address. -/
theorem exists_decodedPath (path : Bytes) : ∃ url : Parts, url.scheme = FILE ∧ decodedPath url = some path := by
  obtain ⟨s, ss, rfl, hs, hss⟩ := exists_segments slash path
  let url : Parts := ⟨FILE, true, [], none, none, none, [], none, none⟩
  let written : Parts := { url with path := pieces slash (escapedSegs url (s :: ss)) }
  have hsep : SepFree slash (escapedSegs url (s :: ss)) := escapedSegs_sepFree (sepFree_cons.mpr ⟨hs, hss⟩)
  have hsegments : pathSegments written = some (escapedSegs url (s :: ss)) := by
    rw [pathSegments, if_pos (by rfl)]
    exact congrArg some (pathSegs_pieces hsep)
  refine ⟨written, rfl, ?_⟩
  rw [decodedPath, hsegments, Option.map_some, map_decode_escaped, intercalate_cons]

/-- `\` folded, a path is a run of separators, a first segment and the rest. -/
theorem foldSeparators_lead (path : Bytes) :
    ∃ n h ss, foldSeparators path = List.replicate n slash ++ (h ++ pieces slash ss) ∧
    slash ∉ h ∧ SepFree slash ss ∧ (h = [] → ss = []) := by
  have hlead : (foldSeparators path).takeWhile (· == slash) =
      List.replicate ((foldSeparators path).takeWhile (· == slash)).length slash :=
    eq_replicate_of_mem fun b hb => by simpa using mem_takeWhile_imp hb
  obtain ⟨h, ss, hrest, hh, hss⟩ := exists_segments slash ((foldSeparators path).dropWhile (· == slash))
  refine ⟨((foldSeparators path).takeWhile (· == slash)).length, h, ss, ?_, hh, hss, ?_⟩
  · rw [← hlead, ← hrest, takeWhile_append_dropWhile]
  · rintro rfl
    by_contra hne
    obtain ⟨s, ss, rfl⟩ := exists_cons_of_ne_nil hne
    have hhead := List.head?_dropWhile_not (· == slash) (foldSeparators path)
    rw [hrest] at hhead
    simp at hhead

variable {ss : List Bytes} {n : ℕ}

/-- The scope, by the separators in front: the second one hides a drive. -/
theorem readScope_lead (hpath : foldSeparators path = List.replicate n slash ++ (h ++ pieces slash ss))
    (hh : slash ∉ h) (hss : SepFree slash ss) (hne : h = [] → ss = []) :
    readScope true path = if n ≤ 1 then foldedSegs h ss else readSegments [] (h :: ss) := by
  unfold readScope
  rw [if_pos rfl]
  match n with
  | 0 =>
    have hhead : (h ++ pieces slash ss).head? ≠ some slash := by
      cases h with
      | nil => simp [hne rfl]
      | cons b h => simpa using fun he : b = slash => hh (by simp [he])
    rw [if_pos (by omega)]
    refine foldPath_segs hh hss ?_
    rw [hpath]
    exact stripRoot_of_head hhead
  | 1 =>
    rw [if_pos (by omega)]
    refine foldPath_segs hh hss ?_
    rw [hpath]
    exact stripRoot_slash _
  | n + 2 =>
    have hlead : stripRoot (foldSeparators path) = [] ++ pieces slash (List.replicate n [] ++ h :: ss) := by
      have hrun : List.replicate n slash = pieces slash (List.replicate n []) := by
        simp [pieces, flatMap_replicate]
      rw [hpath, replicate_succ, cons_append, stripRoot_slash, replicate_succ', hrun]
      simp
    have hsep : SepFree slash (List.replicate n [] ++ h :: ss) :=
      sepFree_append.mpr ⟨fun s hs => by simp [eq_of_mem_replicate hs], sepFree_cons.mpr ⟨hh, hss⟩⟩
    rw [if_neg (by omega), foldPath_segs (by simp) hsep hlead, foldedSegs_eq, if_neg (by decide),
      readSegments_cons]
    change readSegments [] (List.replicate n [] ++ h :: ss) = _
    rw [readSegments_append, readSegments_replicate]

/-! ### One reading for all spellings -/

/-- A case table that makes no dot segment of another one. -/
def CaseTable.KeepsDots (C : CaseTable) : Prop := ∀ s, C.lower s = [dot] ∨ C.lower s = [dot, dot] → C.lower s = s

theorem CaseTable.KeepsDots.names (hdots : C.KeepsDots) (h : Names s) : Names (C.lower s) := by
  refine ⟨fun he => h.1 ((C.lower_eq_nil s).mp he), fun he => h.2.1 ?_, fun he => h.2.2 ?_⟩
  · rw [← hdots s (.inl he), he]
  · rw [← hdots s (.inr he), he]

/-- `run` is a whole run of separators, between `front` and `back`. -/
structure WholeRun (front run back : Bytes) : Prop where
  ne_nil : run ≠ []
  separators : ∀ b ∈ run, IsSeparator b
  front : ∀ b ∈ front.getLast?, ¬ IsSeparator b
  back : ∀ b ∈ back.head?, ¬ IsSeparator b

/-- The scope of an address does not depend on how its separators are spelled, has no segment that names nothing, and
keeps a leading drive. -/
structure SpelledAlike (C : CaseTable) (url : Parts) (path : Bytes) : Prop where
  /-- Another address, spelled with a single separator for a run, has the same segments. -/
  run : ∀ front run back separator, path = front ++ run ++ back → WholeRun front run back → IsSeparator separator →
    ∀ other : Parts, other.scheme = FILE → decodedPath other = some (front ++ separator :: back) → ∀ widen,
      segmentsWithHostSemanticsWidened C other true widen = segmentsWithHostSemanticsWidened C url true widen
  names : ∀ widen, ∃ segs, segmentsWithHostSemanticsWidened C url true widen = some segs ∧ ∀ s ∈ segs, Names s
  drive : ∀ lead drive rest, path = lead ++ drive ++ rest → (∀ b ∈ lead, IsSeparator b) → isDriveSegment drive = true →
    (∀ b ∈ rest.head?, IsSeparator b) → ∀ widen, ∃ segs, segmentsWithHostSemanticsWidened C url true widen =
      some ((if widen then C.lower drive else drive) :: segs)
  /-- So a rule covers the one where it covers the other. -/
  covers : ∀ front run back separator, path = front ++ run ++ back → WholeRun front run back → IsSeparator separator →
    ∀ other : Parts, other.scheme = FILE → other.host = url.host → other.port = url.port →
      decodedPath other = some (front ++ separator :: back) → ∀ pre effect,
        scopeCovers C true pre other effect = scopeCovers C true pre url effect ∧
        scopeCovers C true other pre effect = scopeCovers C true url pre effect

/-- Two separators or more lead, a drive follows, and the `..` behind it climb past it. -/
def climbsHiddenDrive (path : Bytes) : Bool :=
  let folded := foldSeparators path
  match (folded.dropWhile (· == slash)).splitOn slash with
  | drive :: segs => 2 ≤ (folded.takeWhile (· == slash)).length && isDriveSegment drive && climbs 0 segs
  | [] => false

theorem climbsHiddenDrive_lead (hpath : foldSeparators path = List.replicate n slash ++ (h ++ pieces slash ss))
    (hh : slash ∉ h) (hss : SepFree slash ss) (hne : h = [] → ss = []) :
    climbsHiddenDrive path = (decide (2 ≤ n) && isDriveSegment h && climbs 0 ss) := by
  have hhead : (h ++ pieces slash ss).head? ≠ some slash := by
    cases h with
    | nil => simp [hne rfl]
    | cons b h => simpa using fun he : b = slash => hh (by simp [he])
  have htake : (h ++ pieces slash ss).takeWhile (· == slash) = [] := by
    cases hrest : h ++ pieces slash ss with
    | nil => rfl
    | cons b rest =>
      rw [hrest] at hhead
      exact takeWhile_cons_of_neg (by simpa using hhead)
  have hdrop : (h ++ pieces slash ss).dropWhile (· == slash) = h ++ pieces slash ss := by
    simpa [htake] using takeWhile_append_dropWhile (p := (· == slash)) (l := h ++ pieces slash ss)
  have hrun : ∀ b ∈ List.replicate n slash, (b == slash) = true := fun b hb => by simp [eq_of_mem_replicate hb]
  unfold climbsHiddenDrive
  rw [hpath]
  simp only [takeWhile_append_of_pos hrun, dropWhile_append_of_pos hrun, htake, hdrop, append_nil,
    length_replicate, splitOn_append_pieces hh hss]

/-- Where no hidden drive is climbed past, the separators in front do not matter. -/
theorem readScope_of_not_climbs (hpath : foldSeparators path = List.replicate n slash ++ (h ++ pieces slash ss))
    (hh : slash ∉ h) (hss : SepFree slash ss) (hne : h = [] → ss = []) (hclimbs : climbsHiddenDrive path = false) :
    readScope true path = foldedSegs h ss := by
  rw [readScope_lead hpath hh hss hne]
  split_ifs with hn
  · rfl
  · rw [foldedSegs_eq]
    split_ifs with hd
    · rw [climbsHiddenDrive_lead hpath hh hss hne, hd, Bool.and_true, decide_eq_true (by omega),
        Bool.true_and] at hclimbs
      have hread : readSegments [] (h :: ss) = readSegments [h] ss := by
        obtain ⟨h1, h2, h3⟩ := isDriveSegment_names hd
        rw [readSegments_cons, readSegment, if_neg (by simp [h1, h2]), if_neg h3]
        rfl
      rw [hread, readSegments_hold h [] ss]
      exact if_neg (by simp [hclimbs])
    · rfl

theorem readScope_names (path : Bytes) : ∀ s ∈ readScope true path, Names s := by
  obtain ⟨n, h, ss, hpath, hh, hss, hne⟩ := foldSeparators_lead path
  rw [readScope_lead hpath hh hss hne]
  split_ifs
  · exact foldedSegs_names h ss
  · exact readSegments_names (by simp) _

theorem foldSeparators_append (p q : Bytes) : foldSeparators (p ++ q) = foldSeparators p ++ foldSeparators q :=
  map_append

theorem foldSeparators_run (h : ∀ b ∈ run, IsSeparator b) : foldSeparators run = List.replicate run.length slash := by
  refine eq_replicate_iff.mpr ⟨by simp [foldSeparators], ?_⟩
  intro b hb
  obtain ⟨a, ha, rfl⟩ := mem_map.mp hb
  rcases h a ha with rfl | rfl
  · rfl
  · rfl

/-- A byte that is no separator stays. -/
theorem foldSeparators_of_not (h : ∀ b ∈ p, ¬ IsSeparator b) : foldSeparators p = p := by
  conv_rhs => rw [← map_id p]
  exact map_congr_left fun b hb => if_neg fun he => h b hb (.inr he)

theorem foldSeparators_head (h : ∀ b ∈ p.head?, ¬ IsSeparator b) : (foldSeparators p).head? ≠ some slash := by
  cases p with
  | nil => simp [foldSeparators]
  | cons b p =>
    have hb := h b rfl
    have hstay : (if b = backslash then slash else b) = b := if_neg fun he => hb (.inr he)
    intro he
    exact hb (.inl (hstay.symm.trans (Option.some.inj he)))

/-- A path that no separator leads. -/
theorem foldSeparators_body (h : ∀ b ∈ p.head?, ¬ IsSeparator b) :
    ∃ t ts, foldSeparators p = t ++ pieces slash ts ∧ slash ∉ t ∧ SepFree slash ts ∧ (t = [] → ts = []) := by
  obtain ⟨t, ts, hp, ht, hts⟩ := exists_segments slash (foldSeparators p)
  refine ⟨t, ts, hp, ht, hts, ?_⟩
  rintro rfl
  have hhead := foldSeparators_head h
  rw [hp] at hhead
  cases ts with
  | nil => rfl
  | cons s ts => simp at hhead

/-- A path that does not end in a separator has a first segment. -/
theorem foldSeparators_front (hne : front ≠ []) (h : ∀ b ∈ front.getLast?, ¬ IsSeparator b) :
    ∃ n t ts, foldSeparators front = List.replicate n slash ++ (t ++ pieces slash ts) ∧ slash ∉ t ∧
    SepFree slash ts ∧ t ≠ [] := by
  obtain ⟨n, t, ts, hfront, ht, hts, hempty⟩ := foldSeparators_lead front
  refine ⟨n, t, ts, hfront, ht, hts, ?_⟩
  rintro rfl
  obtain ⟨init, b, rfl⟩ : ∃ init b, front = init ++ [b] := by simpa [hne] using front.eq_nil_or_concat
  have hb : ¬ IsSeparator b := h b (by simp)
  have hlast : foldSeparators [b] = [b] := foldSeparators_of_not (by simpa using hb)
  rw [hempty rfl, foldSeparators_append, hlast, pieces_nil, append_nil, append_nil] at hfront
  have hmem : b ∈ List.replicate n slash := by simp [← hfront]
  exact hb (.inl (eq_of_mem_replicate hmem))

/-- A run of separators counts as one, unless it hides a drive that is climbed past. -/
theorem readScope_run {back : Bytes} {separator : UInt8} (hrun : WholeRun front run back)
    (hsep : IsSeparator separator) (hclimbs : climbsHiddenDrive (front ++ run ++ back) = false) :
    readScope true (front ++ separator :: back) = readScope true (front ++ run ++ back) := by
  have hone : foldSeparators [separator] = [slash] := @foldSeparators_run [separator] (by simpa using hsep)
  have hmany := foldSeparators_run hrun.separators
  have hpos : 0 < run.length := length_pos_iff.mpr hrun.ne_nil
  obtain ⟨t, ts, hback, ht, hts, hempty⟩ := foldSeparators_body hrun.back
  by_cases hfront : front = []
  · subst hfront
    have hother : foldSeparators ([] ++ separator :: back) = List.replicate 1 slash ++ (t ++ pieces slash ts) := by
      rw [nil_append, ← singleton_append, foldSeparators_append, hone, hback]
      rfl
    have hpath : foldSeparators ([] ++ run ++ back) = List.replicate run.length slash ++ (t ++ pieces slash ts) := by
      rw [nil_append, foldSeparators_append, hmany, hback]
    rw [readScope_lead hother ht hts hempty, if_pos (by omega), readScope_of_not_climbs hpath ht hts hempty hclimbs]
  · obtain ⟨n, h, ss, hlead, hh, hss, hne⟩ := foldSeparators_front hfront hrun.front
    have hother : foldSeparators (front ++ separator :: back) =
        List.replicate n slash ++ (h ++ pieces slash (ss ++ t :: ts)) := by
      rw [← singleton_append, foldSeparators_append, foldSeparators_append, hone, hlead, hback]
      simp
    have hpath : foldSeparators (front ++ run ++ back) =
        List.replicate n slash ++ (h ++ pieces slash (ss ++ List.replicate (run.length - 1) [] ++ t :: ts)) := by
      obtain ⟨m, hm⟩ : ∃ m, run.length = m + 1 := ⟨run.length - 1, by omega⟩
      have hempties : List.replicate m slash = pieces slash (List.replicate m []) := by
        simp [pieces, flatMap_replicate]
      rw [foldSeparators_append, foldSeparators_append, hmany, hlead, hback, hm, replicate_succ', hempties]
      simp
    have hsepFree : SepFree slash (ss ++ t :: ts) := by simp [hss, ht, hts]
    have hsepFree' : SepFree slash (ss ++ List.replicate (run.length - 1) [] ++ t :: ts) :=
      sepFree_append.mpr ⟨sepFree_append.mpr ⟨hss, fun s hs => by simp [eq_of_mem_replicate hs]⟩, by simp [ht, hts]⟩
    rw [readScope_lead hother hh hsepFree (fun he => absurd he hne),
      readScope_lead hpath hh hsepFree' fun he => absurd he hne,
      foldedSegs_skip]
    have hskip : readSegments [] (h :: (ss ++ List.replicate (run.length - 1) [] ++ t :: ts)) =
        readSegments [] (h :: (ss ++ t :: ts)) := by
      rw [readSegments_cons, readSegments_append, readSegments_append, readSegments_replicate, ← readSegments_append]
      rfl
    rw [hskip]

theorem isDriveSegment_not_separator (h : isDriveSegment s = true) : ∀ b ∈ s, ¬ IsSeparator b := by
  obtain ⟨a, -, ha, rfl⟩ := of_decide_eq_true h
  intro b hb
  rcases mem_cons.mp hb with rfl | hb
  · rintro (rfl | rfl)
    · exact absurd ha (by decide)
    · exact absurd ha (by decide)
  · rw [mem_singleton.mp hb]
    decide

/-- A drive in front stays in front, unless it is hidden and climbed past. -/
theorem readScope_drive {lead drive rest : Bytes} (hlead : ∀ b ∈ lead, IsSeparator b)
    (hdrive : isDriveSegment drive = true) (hrest : ∀ b ∈ rest.head?, IsSeparator b)
    (hclimbs : climbsHiddenDrive (lead ++ drive ++ rest) = false) :
    ∃ segs, readScope true (lead ++ drive ++ rest) = drive :: segs := by
  have hstay : foldSeparators drive = drive := foldSeparators_of_not (isDriveSegment_not_separator hdrive)
  have hat : AtSep slash (foldSeparators rest) := by
    cases rest with
    | nil => exact .inl rfl
    | cons b rest =>
      refine .inr ⟨foldSeparators rest, ?_⟩
      rw [← singleton_append, foldSeparators_append, @foldSeparators_run [b] (by simpa using hrest)]
      rfl
  obtain ⟨ss, hss, hsep⟩ := hat.exists_pieces
  have hpath : foldSeparators (lead ++ drive ++ rest) = List.replicate lead.length slash ++
      (drive ++ pieces slash ss) := by
    rw [foldSeparators_append, foldSeparators_append, foldSeparators_run hlead, hstay, hss, append_assoc]
  have hfree : slash ∉ drive := fun hs => isDriveSegment_not_separator hdrive slash hs (.inl rfl)
  rw [readScope_of_not_climbs hpath hfree hsep
    (fun he => absurd he (isDriveSegment_names hdrive).1) hclimbs, foldedSegs_eq,
    if_pos hdrive]
  exact ⟨_, rfl⟩

/-- A hidden drive that is climbed past: a single separator in front gives another scope. -/
theorem readScope_climbs (hclimbs : climbsHiddenDrive path = true) :
    ∃ run back, path = run ++ back ∧ WholeRun [] run back ∧ readScope true (slash :: back) ≠ readScope true path := by
  obtain ⟨n, h, ss, hpath, hh, hss, hempty⟩ := foldSeparators_lead path
  have hhidden := hclimbs
  rw [climbsHiddenDrive_lead hpath hh hss hempty, Bool.and_eq_true, Bool.and_eq_true, decide_eq_true_eq] at hhidden
  obtain ⟨⟨hn, hdrive⟩, hclimb⟩ := hhidden
  obtain ⟨run, back, rfl, hrun, hback⟩ := map_eq_append_iff.mp hpath
  have hlen : run.length = n := by simpa using congrArg List.length hrun
  have hnames := isDriveSegment_names hdrive
  have hback : foldSeparators back = h ++ pieces slash ss := hback
  have hwhole : WholeRun [] run back := by
    refine ⟨fun he => ?_, fun b hb => ?_, by simp, fun b hb hs => ?_⟩
    · rw [he] at hlen
      simp at hlen
      omega
    · have hmem : (if b = backslash then slash else b) ∈ List.replicate n slash := hrun ▸ mem_map_of_mem hb
      have heq := eq_of_mem_replicate hmem
      split_ifs at heq with hbs
      · exact .inr hbs
      · exact .inl heq
    · obtain ⟨rest, rfl⟩ : ∃ rest, back = b :: rest := List.head?_eq_some_iff.mp hb
      obtain ⟨a, h', rfl⟩ := exists_cons_of_ne_nil hnames.1
      have ha : (if b = backslash then slash else b) = a := (List.cons.inj hback).1
      have hslash : (if b = backslash then slash else b) = slash := by
        rcases hs with rfl | rfl <;> rfl
      exact hh (by simp [← ha, hslash])
  refine ⟨run, back, rfl, hwhole, ?_⟩
  have hone : foldSeparators (slash :: back) = List.replicate 1 slash ++ (h ++ pieces slash ss) := by
    rw [← singleton_append, foldSeparators_append, hback]
    rfl
  have hread : readSegments [] (h :: ss) = readSegments [h] ss := by
    rw [readSegments_cons, readSegment, if_neg (by simp [hnames.1, hnames.2.1]), if_neg hnames.2.2]
    rfl
  have hgone := readSegments_hold h [] ss
  rw [length_nil, if_pos hclimb] at hgone
  rw [readScope_lead hone hh hss hempty, if_pos (by omega), foldedSegs_eq, if_pos hdrive,
    readScope_lead hpath hh hss hempty,
    if_neg (by omega), hread, hgone]
  exact fun he => absurd (congrArg List.length he) (by simp)

/-- Two addresses with one list of segments are covered alike. -/
theorem scopeCovers_congr {u v : Parts} (hs : u.scheme = v.scheme) (hh : u.host = v.host) (hp : u.port = v.port)
    (hsegs : ∀ widen, segmentsWithHostSemanticsWidened C u true widen = segmentsWithHostSemanticsWidened C v true widen)
    (pre : Parts) (effect : Effect) : scopeCovers C true pre u effect = scopeCovers C true pre v effect ∧
      scopeCovers C true u pre effect = scopeCovers C true v pre effect := by
  unfold scopeCovers coversWithHostSemantics
  rw [hs, hh, hp, hsegs]
  exact ⟨rfl, rfl⟩

/-- On a folding host the scope of a `file:` address reads its separators alike and keeps its drive, exactly if no `..`
climbs past a drive behind two separators or more. -/
theorem spelledAlike_iff (hdots : C.KeepsDots) (hfile : url.scheme = FILE) (hpath : decodedPath url = some path) :
    SpelledAlike C url path ↔ climbsHiddenDrive path = false := by
  have hsegs := segments_of_decodedPath (C := C) hfile hpath
  constructor
  · intro halike
    by_contra hclimbs
    obtain ⟨run, back, rfl, hrun, hne⟩ := readScope_climbs (by simpa using hclimbs)
    obtain ⟨other, hother, hdecoded⟩ := exists_decodedPath (slash :: back)
    have heq := halike.run [] run back slash rfl hrun (.inl rfl) other hother hdecoded false
    rw [hsegs, segments_of_decodedPath hother hdecoded] at heq
    exact hne (by simpa using heq)
  · intro hclimbs
    have hrun : ∀ front run back separator, path = front ++ run ++ back → WholeRun front run back →
          IsSeparator separator →
        ∀ other : Parts, other.scheme = FILE → decodedPath other = some (front ++ separator :: back) → ∀ widen,
          segmentsWithHostSemanticsWidened C other true widen = segmentsWithHostSemanticsWidened C url true widen := by
      rintro front run back separator rfl hwhole hsep other hother hdecoded widen
      rw [hsegs, segments_of_decodedPath hother hdecoded, readScope_run hwhole hsep hclimbs]
    refine ⟨hrun, fun widen => ⟨_, hsegs widen, ?_⟩, ?_, ?_⟩
    · intro s hs
      obtain ⟨t, ht, rfl⟩ := mem_map.mp hs
      have hnames := readScope_names path t ht
      split_ifs
      · exact hdots.names hnames
      · exact hnames
    · rintro lead drive rest rfl hlead hdrive hrest widen
      obtain ⟨segs, hscope⟩ := readScope_drive hlead hdrive hrest hclimbs
      rw [hsegs, hscope]
      exact ⟨_, rfl⟩
    · intro front run back separator heq hwhole hsep other hother hhost hport hdecoded pre effect
      exact scopeCovers_congr (hother.trans hfile.symm) hhost hport
        (hrun front run back separator heq hwhole hsep other hother hdecoded) pre effect

theorem CaseTable.ascii_keepsDots : CaseTable.ascii.KeepsDots := by
  have hdot : ∀ b : UInt8, toAsciiLowercase b = dot → b = dot := forall_uint8 (by decide +kernel)
  rintro s (h | h)
  · obtain ⟨b, rfl, hb⟩ := map_eq_singleton_iff.mp h
    rw [hdot b hb]
    rfl
  · obtain ⟨b, t, rfl, hb, ht⟩ := map_eq_cons_iff.mp h
    obtain ⟨c, rfl, hc⟩ := map_eq_singleton_iff.mp ht
    rw [hdot b hb, hdot c hc]
    rfl

/-- `file:///data%5C%5C..%5Cx`. -/
def dataBehind : Parts := ⟨FILE, true, [], none, none, none, utf8 "/data%5C%5C..%5Cx", none, none⟩

theorem spelledAlike_iff_data :
    SpelledAlike .ascii dataBehind (utf8 "data\\\\..\\x") ↔ climbsHiddenDrive (utf8 "data\\\\..\\x") = false :=
  spelledAlike_iff CaseTable.ascii_keepsDots rfl (by decide +kernel)

/-! ### A hidden drive -/

/-- `file:///%5C%5Cc:%5C..%5Cx`. -/
def hiddenDrive : Url := ⟨⟨FILE, true, [], none, none, none, utf8 "/%5C%5Cc:%5C..%5Cx", none, none⟩, by decide +kernel⟩

/-- `file:///%5Cc:%5C..%5Cx`. -/
def shownDrive : Url := ⟨⟨FILE, true, [], none, none, none, utf8 "/%5Cc:%5C..%5Cx", none, none⟩, by decide +kernel⟩

/-- `file:///c:/`. -/
def driveRoot : Url := ⟨⟨FILE, true, [], none, none, none, utf8 "/c:/", none, none⟩, by decide +kernel⟩

/-- Both addresses are canonical, their paths differ by a separator more in front, and a deny of the drive covers one of
them. -/
theorem hidden_drive_escapes : Canonical reference hiddenDrive ∧ Canonical reference shownDrive ∧
    decodedPath hiddenDrive.toParts = some (utf8 "\\\\c:\\..\\x") ∧
    decodedPath shownDrive.toParts = some (utf8 "\\c:\\..\\x") ∧
    segmentsWithHostSemanticsWidened .ascii hiddenDrive.toParts true true = some [utf8 "x"] ∧
    segmentsWithHostSemanticsWidened .ascii shownDrive.toParts true true = some [utf8 "c:", utf8 "x"] ∧
    scopeCovers .ascii true driveRoot.toParts shownDrive.toParts .Deny = true ∧
    scopeCovers .ascii true driveRoot.toParts hiddenDrive.toParts .Deny = false ∧
    ¬ SpelledAlike .ascii hiddenDrive.toParts (utf8 "\\\\c:\\..\\x") := by
  have hhidden : segmentsWithHostSemanticsWidened .ascii hiddenDrive.toParts true true = some [utf8 "x"] := by
    decide +kernel
  refine ⟨?_, ?_, by decide +kernel, by decide +kernel, hhidden, by decide +kernel, by decide +kernel,
    by decide +kernel, ?_⟩
  · exact reference_canonical hiddenDrive [utf8 "\\\\c:\\..\\x"] (by decide +kernel) (by decide)
  · exact reference_canonical shownDrive [utf8 "\\c:\\..\\x"] (by decide +kernel) (by decide)
  · intro halike
    obtain ⟨segs, hsegs⟩ := halike.drive (utf8 "\\\\") (utf8 "c:") (utf8 "\\..\\x") (by decide +kernel)
        (by decide +kernel)
      (by decide +kernel) (by decide +kernel) true
    rw [hhidden] at hsegs
    obtain ⟨hhead, -⟩ := List.cons.inj (Option.some.inj hsegs)
    exact absurd hhead (by decide +kernel)

end OvStorage.Authz
