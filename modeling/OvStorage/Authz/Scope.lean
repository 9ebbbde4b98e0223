import OvStorage.Address.Node

/-!
# The scope of a rule

What part of an address an authorization rule is compared on:
`segments_with_host_semantics_widened` of `ovstorage-authz-policy/src/rules.rs`, the
decoded segments of the path, and the coverage test over them. On a host that folds
`file:` paths, `\` separates like `/`, the dot segments this uncovers are resolved no
further than the drive, and a deny compares without regard to letter case.

## The model

The letter case table of the standard library is a parameter (`CaseTable`): the proofs
need that it maps no segment to the empty one but the empty one. Whether the host folds
is a parameter, as in the source.
-/

namespace OvStorage.Authz

open Address SegList List

/-! ### The code -/

/-- `String::from_utf8_lossy(segment).to_lowercase().into_bytes()`. -/
structure CaseTable where
  lower : Bytes → Bytes
  lower_eq_nil : ∀ s, lower s = [] ↔ s = []

/-- The table on ASCII text. -/
def CaseTable.ascii : CaseTable where
  lower s := s.map toAsciiLowercase
  lower_eq_nil s := by simp

/-- The effect of a rule. -/
inductive Effect
  | Allow
  | Deny
deriving DecidableEq, Repr

/-- `is_drive_segment`. -/
def isDriveSegment (segment : Bytes) : Bool := decide (ColonDrive segment)

/-- `Url::path_segments`. -/
def pathSegments (url : Parts) : Option (List Bytes) :=
  if url.path.head? = some slash then some (pathSegs url.path) else none

/-- `\` reads as `/`. -/
def foldSeparators (path : Bytes) : Bytes := path.map fun b => if b = backslash then slash else b

/-- `path.strip_prefix(b"/").unwrap_or(&path)`. -/
def stripRoot (path : Bytes) : Bytes := (path.dropPrefix? [slash]).getD path

/-- The drive in first place, and the rest. -/
def splitDrive (pathFromRoot : Bytes) : Bytes × Bytes :=
  match pathFromRoot.findIdx? (· == slash) with
  | some separator =>
    if isDriveSegment (pathFromRoot.take separator) then pathFromRoot.splitAt separator else ([], pathFromRoot)
  | none => if isDriveSegment pathFromRoot then (pathFromRoot, []) else ([], pathFromRoot)

/-- The path as a folding host resolves it. -/
def foldPath (path : Bytes) : Bytes :=
  let (drive, rest) := splitDrive (stripRoot (foldSeparators path))
  let absolute := if rest.head? = some slash then rest else slash :: rest
  drive ++ normalizePathBytes absolute

/-- `segments_with_host_semantics_widened`. -/
def segmentsWithHostSemanticsWidened (C : CaseTable) (url : Parts) (fold widen : Bool) : Option (List Bytes) :=
  let foldThis := fold && url.scheme == FILE
  match pathSegments url with
  | none => none
  | some segments =>
    let path := [slash].intercalate (segments.map percentDecode)
    let path := stripRoot (if foldThis then foldPath path else path)
    -- `nodeSegs` drops the trailing empty segment
    some (nodeSegs ((path.splitOn slash).map fun s => if foldThis && widen then C.lower s else s))

/-- `scope_segments`. -/
def scopeSegments (C : CaseTable) (fold : Bool) (url : Parts) : Option (List Bytes) :=
  segmentsWithHostSemanticsWidened C url fold false

/-- `covers_with_host_semantics`. -/
def coversWithHostSemantics (C : CaseTable) (pre address : Parts) (fold : Bool) (effect : Effect) : Bool :=
  match segmentsWithHostSemanticsWidened C pre fold (effect == .Deny),
    segmentsWithHostSemanticsWidened C address fold (effect == .Deny) with
  | some scope, some target => scope.length ≤ target.length && (scope.zip target).all fun (a, b) => a == b
  | _, _ => false

/-- `scope_covers`. -/
def scopeCovers (C : CaseTable) (fold : Bool) (pre address : Parts) (effect : Effect) : Bool :=
  if pre.scheme ≠ address.scheme ∨ pre.host ≠ address.host ∨ pre.port ≠ address.port then false
  else coversWithHostSemantics C pre address fold effect

/-! ### Widening -/

variable {C : CaseTable} {fold : Bool}

/-- Widening is the case table on every segment, where the host folds. -/
theorem segments_widen (url : Parts) (widen : Bool) :
    segmentsWithHostSemanticsWidened C url fold widen =
      (scopeSegments C fold url).map
        (List.map fun s => if (fold && url.scheme == FILE) && widen then C.lower s else s) := by
  unfold scopeSegments segmentsWithHostSemanticsWidened
  cases pathSegments url with
  | none => rfl
  | some segments =>
    simp only [Option.map_some, Bool.and_false, Bool.false_eq_true, if_false, map_id']
    rw [nodeSegs_map]
    intro s
    split
    · exact C.lower_eq_nil s
    · rfl

/-- The coverage test is the front test. -/
theorem zip_all_iff (scope target : List Bytes) :
    (scope.length ≤ target.length && (scope.zip target).all fun (a, b) => a == b) = true ↔ scope <+: target := by
  induction scope generalizing target with
  | nil => simp
  | cons a scope ih =>
    cases target with
    | nil => simp
    | cons b target =>
      have hcons := ih target
      simp only [Bool.and_eq_true, decide_eq_true_eq] at hcons
      simp only [length_cons, zip_cons_cons, all_cons, Bool.and_eq_true, decide_eq_true_eq,
        beq_iff_eq, cons_prefix_cons, ← hcons]
      constructor
      · rintro ⟨h1, h2, h3⟩
        exact ⟨h2, by omega, h3⟩
      · rintro ⟨h1, h2, h3⟩
        exact ⟨by omega, h1, h3⟩

/-- What coverage says: one authority, and the scope is a front of the target. -/
theorem scopeCovers_iff {pre address : Parts} {effect : Effect} :
    scopeCovers C fold pre address effect = true ↔
      pre.scheme = address.scheme ∧ pre.host = address.host ∧ pre.port = address.port ∧
        ∃ scope target, segmentsWithHostSemanticsWidened C pre fold (effect == .Deny) = some scope ∧
          segmentsWithHostSemanticsWidened C address fold (effect == .Deny) = some target ∧ scope <+: target := by
  unfold scopeCovers
  by_cases h : pre.scheme ≠ address.scheme ∨ pre.host ≠ address.host ∨ pre.port ≠ address.port
  · rw [if_pos h]
    refine iff_of_false (by simp) ?_
    rintro ⟨h1, h2, h3, -⟩
    rcases h with h | h | h
    · exact h h1
    · exact h h2
    · exact h h3
  · rw [if_neg h]
    simp only [not_or, not_not] at h
    unfold coversWithHostSemantics
    generalize segmentsWithHostSemanticsWidened C pre fold (effect == .Deny) = x
    generalize segmentsWithHostSemanticsWidened C address fold (effect == .Deny) = y
    constructor
    · intro hc
      cases x with
      | none => simp at hc
      | some scope =>
        cases y with
        | none => simp at hc
        | some target => exact ⟨h.1, h.2.1, h.2.2, scope, target, rfl, rfl, (zip_all_iff scope target).1 hc⟩
    · rintro ⟨-, -, -, scope, target, rfl, rfl, hfront⟩
      exact (zip_all_iff scope target).2 hfront

/-! ### Segments of a canonical address -/

variable {ss st : List Bytes}

/-- One more empty segment behind a path: collapsing keeps it, unless the path ends in one. -/
theorem collapseSegs_concat_nil (hne : ss ≠ []) :
    collapseSegs (ss ++ [[]]) = if ss.getLast? = some [] then collapseSegs ss else collapseSegs ss ++ [[]] := by
  induction ss using collapseSegs.induct with
  | case1 => exact absurd rfl hne
  | case2 s =>
    by_cases hs : s = []
    · simp [collapseSegs, hs]
    · simp [collapseSegs, hs]
  | case3 t ss ih =>
    have hcons := ih (by simp)
    simp only [cons_append] at hcons
    simp only [cons_append, collapseSegs, if_true, hcons, List.getLast?_cons_cons]
  | case4 s t ss hs ih =>
    have hcons := ih (by simp)
    simp only [cons_append] at hcons
    simp only [cons_append, collapseSegs, hs, if_false, hcons, List.getLast?_cons_cons]
    split <;> rfl

theorem getLast?_collapseSegs (ss : List Bytes) : (collapseSegs ss).getLast? = ss.getLast? := by
  induction ss using collapseSegs.induct with
  | case1 => rfl
  | case2 s => rfl
  | case3 t ss ih => simp only [collapseSegs, if_true, ih, List.getLast?_cons_cons]
  | case4 s t ss hs ih =>
    simp only [collapseSegs, hs, if_false, List.getLast?_cons_cons]
    rw [List.getLast?_cons_of_ne_nil (mt collapseSegs_eq_nil_iff.1 (by simp)), ih]

/-- A trailing `/` behind a segment does not change what the segments resolve to. -/
theorem resolve_concat_nil (hne : ss ≠ []) (hl : ss.getLast? ≠ some []) (a : Stack) :
    nodeSegs (resolve (ss ++ [[]]) a).segs = nodeSegs (resolve ss a).segs := by
  fun_induction resolve ss a with
  | case1 a => exact absurd rfl hne
  | case2 a => simp [resolve]
  | case3 a => simp [resolve]
  | case4 s a h1 h2 =>
    have hs : s ≠ [] := fun he => hl (by rw [he]; rfl)
    simp only [cons_append, nil_append, resolve, h1, h2, if_false, Stack.push]
    rw [nodeSegs_concat hs]
    exact nodeSegs_concat_nil (a.segs ++ [s])
  | case5 t ss a ih => simpa [resolve] using ih (by simp) (by simpa using hl)
  | case6 t ss a h1 ih => simpa [resolve] using ih (by simp) (by simpa using hl)
  | case7 s t ss a h1 h2 ih => simpa [resolve, h1, h2] using ih (by simp) (by simpa using hl)

theorem nodeSegs_normalSegs_concat_nil (hne : ss ≠ []) :
    nodeSegs (normalSegs (ss ++ [[]])) = nodeSegs (normalSegs ss) := by
  unfold normalSegs
  rw [collapseSegs_concat_nil hne]
  split
  · rfl
  · rename_i hl
    exact resolve_concat_nil (mt collapseSegs_eq_nil_iff.1 hne) (by rwa [getLast?_collapseSegs]) _

variable {path h : Bytes}

theorem splitDrive_append (hh : slash ∉ h) : splitDrive (h ++ pieces slash ss) =
      if isDriveSegment h then (h, pieces slash ss) else ([], h ++ pieces slash ss) := by
  unfold splitDrive
  rw [findIdx?_append_atSep hh (atSep_pieces ss)]
  cases ss with
  | nil => simp
  | cons s ss => simp

theorem stripRoot_slash (t : Bytes) : stripRoot (slash :: t) = t := getD_dropPrefix?_cons t

theorem stripRoot_of_head {p : Bytes} (h : p.head? ≠ some slash) : stripRoot p = p := getD_dropPrefix?_of_head h

/-- The segments of an absolute path, read the way the scope reads them. -/
theorem splitOn_stripRoot_pieces (hne : ss ≠ []) (hss : SepFree slash ss) :
    (stripRoot (pieces slash ss)).splitOn slash = ss := by
  obtain ⟨s, ss, rfl⟩ := exists_cons_of_ne_nil hne
  obtain ⟨hs, hss⟩ := sepFree_cons.1 hss
  rw [pieces_cons, stripRoot_slash]
  exact splitOn_append_pieces hs hss

theorem nodeSegs_cons {s : Bytes} (hne : ss ≠ []) : nodeSegs (s :: ss) = s :: nodeSegs ss := by
  unfold nodeSegs
  rw [List.getLast?_cons_of_ne_nil hne, dropLast_cons_of_ne_nil hne]
  split <;> rfl

/-- What a folding host makes of a path whose segments, the root taken off, are `h :: ss`. -/
def foldedSegs (h : Bytes) (ss : List Bytes) : List Bytes :=
  if isDriveSegment h then h :: nodeSegs (normalSegs (if ss = [] then [[]] else ss))
  else nodeSegs (normalSegs (if h = [] ∧ ss ≠ [] then ss else h :: ss))

theorem foldPath_segs (hh : slash ∉ h) (hss : SepFree slash ss)
    (hp : stripRoot (foldSeparators path) = h ++ pieces slash ss) :
    nodeSegs ((stripRoot (foldPath path)).splitOn slash) = foldedSegs h ss := by
  unfold foldPath foldedSegs
  rw [hp, splitDrive_append hh]
  by_cases hd : isDriveSegment h = true
  · rw [if_pos hd, if_pos hd]
    have habs : (if (pieces slash ss).head? = some slash then pieces slash ss else slash :: pieces slash ss) =
        pieces slash (if ss = [] then [[]] else ss) := by
      cases ss <;> simp
    have hne : (if ss = [] then [[]] else ss) ≠ [] := by split <;> simp_all
    have hsep : SepFree slash (if ss = [] then [[]] else ss) := by split <;> simp_all
    obtain ⟨h1, h2, -⟩ := normalSegs_spec hne hsep
    have hhead : (h ++ pieces slash (normalSegs (if ss = [] then [[]] else ss))).head? ≠ some slash := by
      obtain ⟨a, -, -, he⟩ := of_decide_eq_true hd
      rw [he] at hh ⊢
      simpa using fun hs : a = slash => hh (by simp [hs])
    simp only [habs]
    rw [normalizePathBytes_pieces hsep, stripRoot_of_head hhead, splitOn_append_pieces hh h2, nodeSegs_cons h1]
  · rw [if_neg hd, if_neg hd]
    have habs : (if (h ++ pieces slash ss).head? = some slash then h ++ pieces slash ss
        else slash :: (h ++ pieces slash ss)) = pieces slash (if h = [] ∧ ss ≠ [] then ss else h :: ss) := by
      cases h with
      | nil => cases ss <;> simp
      | cons b h =>
        have hb : b ≠ slash := fun he => hh (by simp [he])
        simp [hb]
    have hne : (if h = [] ∧ ss ≠ [] then ss else h :: ss) ≠ [] := by split <;> simp_all
    have hsep : SepFree slash (if h = [] ∧ ss ≠ [] then ss else h :: ss) := by split <;> simp_all
    obtain ⟨h1, h2, -⟩ := normalSegs_spec hne hsep
    simp only [habs, nil_append]
    rw [normalizePathBytes_pieces hsep, splitOn_stripRoot_pieces h1 h2]

/-- A trailing `/` changes nothing on a folding host. -/
theorem foldedSegs_concat_nil (h : Bytes) (ss : List Bytes) : foldedSegs h (ss ++ [[]]) = foldedSegs h ss := by
  unfold foldedSegs
  by_cases hd : isDriveSegment h = true
  · rw [if_pos hd, if_pos hd, if_neg (by simp)]
    by_cases hs : ss = []
    · simp [hs]
    · rw [if_neg hs, nodeSegs_normalSegs_concat_nil hs]
  · rw [if_neg hd, if_neg hd]
    by_cases hh : h = []
    · by_cases hs : ss = []
      · simp [hh, hs]
      · rw [if_pos ⟨hh, by simp⟩, if_pos ⟨hh, hs⟩, nodeSegs_normalSegs_concat_nil hs]
    · rw [if_neg (by simp [hh]), if_neg (by simp [hh]), ← cons_append, nodeSegs_normalSegs_concat_nil (by simp)]

/-- The segments of a scope, read off a decoded path without its root. -/
def readScope (foldThis : Bool) (path : Bytes) : List Bytes :=
  nodeSegs ((stripRoot (if foldThis then foldPath path else path)).splitOn slash)

theorem stripRoot_foldSeparators_concat (hne : path ≠ []) :
    stripRoot (foldSeparators (path ++ [slash])) = stripRoot (foldSeparators path) ++ [slash] := by
  have happend : foldSeparators (path ++ [slash]) = foldSeparators path ++ [slash] := by simp [foldSeparators]
  have hne' : foldSeparators path ≠ [] := by simpa [foldSeparators] using hne
  obtain ⟨b, t, he⟩ := exists_cons_of_ne_nil hne'
  rw [happend, he]
  by_cases hb : b = slash
  · rw [hb, cons_append, stripRoot_slash, stripRoot_slash]
  · rw [cons_append, stripRoot_of_head (by simpa using hb), stripRoot_of_head (by simpa using hb)]
    rfl

/-- A trailing `/` changes nothing. -/
theorem readScope_concat_nil {foldThis : Bool} {ns : List Bytes} (hne : ns ≠ []) (hsep : SepFree slash ns)
    (hnames : ∀ s ∈ ns, s ≠ []) :
    readScope foldThis ([slash].intercalate (ns ++ [[]])) = readScope foldThis ([slash].intercalate ns) := by
  obtain ⟨s, ss, rfl⟩ := exists_cons_of_ne_nil hne
  obtain ⟨hs, hss⟩ := sepFree_cons.1 hsep
  have hs0 : s ≠ [] := hnames s (by simp)
  have hhead : ∀ rest, (s ++ rest).head? ≠ some slash := by
    intro rest hmem
    rw [List.head?_append_of_ne_nil _ hs0] at hmem
    exact hs (mem_of_head? hmem)
  have happend : [slash].intercalate (s :: ss ++ [[]]) = (s ++ pieces slash ss) ++ [slash] := by
    rw [cons_append, intercalate_cons]
    simp
  unfold readScope
  cases foldThis with
  | true =>
    simp only [if_true]
    obtain ⟨h, ts, he, hh, hts⟩ := exists_segments slash (stripRoot (foldSeparators (s ++ pieces slash ss)))
    have hstrip := stripRoot_foldSeparators_concat (show s ++ pieces slash ss ≠ [] by simp [hs0])
    rw [happend, intercalate_cons, foldPath_segs hh hts he,
      foldPath_segs hh (show SepFree slash (ts ++ [[]]) by simpa using hts) (by rw [hstrip, he]; simp),
      foldedSegs_concat_nil]
  | false =>
    simp only [Bool.false_eq_true, if_false]
    have hsplit : (s ++ pieces slash ss).splitOn slash = s :: ss := splitOn_append_pieces hs hss
    have hsplit' : ((s ++ pieces slash ss) ++ [slash]).splitOn slash = (s :: ss) ++ [[]] := by
      rw [append_assoc, show pieces slash ss ++ [slash] = pieces slash (ss ++ [[]]) by simp,
        splitOn_append_pieces hs (by simpa using hss)]
      rfl
    rw [happend, intercalate_cons, stripRoot_of_head (hhead _), append_assoc, stripRoot_of_head (hhead _),
      ← append_assoc, hsplit, hsplit', nodeSegs_concat_nil, nodeSegs_of_nonempty hnames]

/-- The scope of a canonical address is read off its node segments. -/
theorem scopeSegments_shape {u : Parts} (h : Shape u st) :
    scopeSegments C fold u = some (readScope (fold && u.scheme == FILE) ([slash].intercalate (nodeSegs st))) := by
  have hsegs : pathSegments u = some (escapedSegs u st) := by
    rw [pathSegments, if_pos h.path_head, h.path, pathSegs_pieces (escapedSegs_sepFree h.sepFree)]
  have hread : scopeSegments C fold u = some (readScope (fold && u.scheme == FILE) ([slash].intercalate st)) := by
    unfold scopeSegments segmentsWithHostSemanticsWidened readScope
    simp [hsegs, map_decode_escaped]
  obtain ⟨init, last, rfl, hinit, hlast⟩ := settled_concat h.settled h.ne_nil
  rw [hread]
  by_cases hl : last = []
  · rw [hl, nodeSegs_concat_nil]
    by_cases hi : init = []
    · simp [hi]
    · have hsep : SepFree slash init := fun s hs => h.sepFree s (by simp [hs])
      rw [readScope_concat_nil hi hsep fun s hs => (hinit s hs).1]
  · rw [nodeSegs_concat hl]

/-- Canonical addresses with one scheme, host and `node_path` have one segment list. -/
theorem segments_congr {u v : Parts} {tt : List Bytes} (hu : Shape u st) (hv : Shape v tt)
    (hs : u.scheme = v.scheme) (hh : u.host = v.host) (hp : nodePath u = nodePath v) (widen : Bool) :
    segmentsWithHostSemanticsWidened C u fold widen = segmentsWithHostSemanticsWidened C v fold widen := by
  have hsegs := (hu.nodePath_eq_iff hv hs hh).1 hp
  rw [hu.decodedSegments, hv.decodedSegments] at hsegs
  rw [segments_widen, segments_widen, scopeSegments_shape hu, scopeSegments_shape hv, hsegs, hs]

end OvStorage.Authz
