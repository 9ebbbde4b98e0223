import OvStorage.Listing.Entries

/-!
# Addresses of listed keys

`join_relative_bytes` of `ovstorage-plugin/src/address.rs`: the address that a backend emits for a key below a base.

The key is escaped with the set of the base, so a separator in it stays one and every other byte comes back as it is.
What a path cannot spell, the setter or the normal form of the path would take to another node, and it is refused.
How the refusal spells the key is a parameter.

## What is proved

* `joinRelativeBytes_key`: the address of a key is canonical, is at or below the base, and has that key.
-/

namespace OvStorage.Listing

open Address SegList

/-! ### The code -/

/-- `encode_canonical_path`. -/
def encodeCanonicalPath (base : Parts) (bytes : Bytes) : Bytes := percentEncode (canonicalPathSet base) bytes

/-- `canonicalize_preserves_node`. -/
def canonicalizePreservesNode (url : Parts) : Bool :=
  if url.cannotBeABase then true
  else
    let decoded := percentDecode url.path
    normalizePathBytes decoded == decoded

/-- `base.path().ends_with('/')`: the path that is set. -/
def joinedPath (base : Parts) (encoded : Bytes) : Bytes :=
  if base.path.getLast? = some slash then base.path ++ encoded else base.path ++ slash :: encoded

/-- `join_relative_bytes`. -/
def joinRelativeBytes (U : UrlCrate) (lossyDebug : Bytes → Bytes) (url : Url) (relativePath : Bytes) :
    Except Error Url :=
  if relativePath.head? = some slash then .error ⟨.InvalidArgument, utf8 "relative paths must not start with '/'"⟩
  else if relativePath = [] then .ok url
  else
    let newPath := joinedPath url.toParts (encodeCanonicalPath url.toParts relativePath)
    let base := U.setPath url newPath
    if base.path ≠ newPath ∨ ¬ canonicalizePreservesNode base.toParts then
      .error ⟨.InvalidArgument, utf8 "backend key is not addressable as a URI path: " ++ lossyDebug relativePath⟩
    else .ok base

/-! ### The keys that a path can spell -/

/-- The segments of a key name something, but that the last may be empty. -/
def Addressable (k : Bytes) : Prop :=
  (∀ s ∈ (k.splitOn slash).dropLast, Names s) ∧ ∀ s ∈ (k.splitOn slash).getLast?, s = [] ∨ Names s

instance (k : Bytes) : Decidable (Addressable k) := inferInstanceAs (Decidable (_ ∧ _))

/-- Segments that normalization leaves alone, by their last one. -/
theorem settled_iff {ss : List Bytes} :
    Settled ss ↔ (∀ s ∈ ss.dropLast, Names s) ∧ ∀ s ∈ ss.getLast?, s = [] ∨ Names s := by
  induction ss with
  | nil => simp [Settled]
  | cons s ss ih =>
    cases ss with
    | nil => simp [Settled]
    | cons t ss =>
      rw [List.dropLast_cons_of_ne_nil (by simp), List.getLast?_cons_cons, List.forall_mem_cons, and_assoc]
      exact and_congr_right fun _ => ih

theorem addressable_iff {k : Bytes} : Addressable k ↔ Settled (k.splitOn slash) := settled_iff.symm

/-! ### The path that is set -/

section Joined

variable {base : Parts} {st : List Bytes} {k : Bytes}

/-- The segments of the base and of the key. -/
def joinedSegs (st : List Bytes) (k : Bytes) : List Bytes := nodeSegs st ++ k.splitOn slash

theorem joinedSegs_ne_nil : joinedSegs st k ≠ [] := by
  have hne : k.splitOn slash ≠ [] := List.splitOn_ne_nil slash k
  simp [joinedSegs, hne]

theorem joinedSegs_sepFree (h : Shape base st) : SepFree slash (joinedSegs st k) :=
  sepFree_append.mpr ⟨h.nodeSegs_sepFree, sepFree_splitOn slash k⟩

/-- The joined segments are as they may be just where those of the key are. -/
theorem settled_joinedSegs_iff (h : Shape base st) : Settled (joinedSegs st k) ↔ Addressable k := by
  rw [addressable_iff]
  exact ⟨Settled.of_append, Settled.append (nodeSegs_names h.settled)⟩

/-- The path of a base, up to its trailing separator. -/
theorem path_separated (h : Shape base st) :
    pieces slash st ++ (if base.path.getLast? = some slash then [] else [slash]) =
    pieces slash (nodeSegs st) ++ [slash] := by
  rcases nodeSegs_cases h.ne_nil with hst | hst
  · have hlast : ¬ st.getLast? = some [] := by
      intro hlast
      rw [hst] at hlast
      exact (nodeSegs_names h.settled [] (List.mem_of_getLast? hlast)).1 rfl
    rw [if_neg (mt h.getLast?_slash_iff.mp hlast), ← hst]
  · have hlast : st.getLast? = some [] := by
      rw [hst]
      simp
    rw [if_pos (h.getLast?_slash_iff.mpr hlast), List.append_nil]
    conv_lhs => rw [hst]
    simp

theorem joinedPath_eq (h : Shape base st) :
    joinedPath base (encodeCanonicalPath base k) = pieces slash (escapedSegs base (joinedSegs st k)) := by
  have hslash := (canonicalPathSets_percent (canonicalPathSet_mem base)).2
  have hencode : ∀ ss, pieces slash (escapedSegs base ss) = percentEncode (canonicalPathSet base) (pieces slash ss) :=
    fun ss => (percentEncode_pieces hslash ss).symm
  have hseparator : ∀ bytes, slash :: bytes = percentEncode (canonicalPathSet base) [slash] ++ bytes := by
    intro bytes
    rw [percentEncode_cons, encodeByte_of_not hslash]
    rfl
  have hseparated := path_separated h
  have hsegs : pieces slash (joinedSegs st k) = pieces slash (nodeSegs st) ++ [slash] ++ k := by
    rw [joinedSegs, pieces_append, pieces_splitOn, List.append_assoc]
    rfl
  rw [hencode, hsegs, ← hseparated]
  unfold joinedPath encodeCanonicalPath
  split
  · rw [h.path, hencode, List.append_nil, percentEncode_append]
  · rw [h.path, hencode, hseparator, percentEncode_append, percentEncode_append, List.append_assoc]

/-- Behind the leading separator the key is the path, decoded. -/
theorem cons_key {u : Parts} (h : u.path.head? = some slash) : slash :: key u = percentDecode u.path := by
  obtain ⟨rest, hrest⟩ := List.head?_eq_some_iff.mp h
  rw [key, hrest, withoutLeading_cons, percentDecode_cons (by decide)]

/-- The key of what has the joined segments. -/
theorem key_joined {u : Parts} (h : Shape base st) (hu : Shape u (joinedSegs st k)) :
    key u = key base ++ (if base.path.getLast? = some slash then [] else [slash]) ++ k := by
  have hseparated := path_separated h
  have hcons : slash :: key u = slash :: key base ++
      (if base.path.getLast? = some slash then [] else [slash]) ++ k := by
    rw [cons_key hu.path_head, hu.decoded, cons_key h.path_head, h.decoded, hseparated, joinedSegs,
      pieces_append, pieces_splitOn,
      List.append_assoc]
    rfl
  exact (List.cons.inj hcons).2

end Joined

/-! ### The address of a key -/

section Join

variable {U : UrlCrate} {lossyDebug : Bytes → Bytes} {base u : Url} {st : List Bytes} {k : Bytes}

/-- What can be spelled keeps its node. -/
theorem preservesNode_iff {v : Parts} (hpath : v.path = pieces slash (escapedSegs base.toParts (joinedSegs st k)))
    (h : Shape base.toParts st) : canonicalizePreservesNode v = true ↔ Addressable k := by
  have hsep := joinedSegs_sepFree (k := k) h
  have hne : joinedSegs st k ≠ [] := joinedSegs_ne_nil
  have hdecoded : percentDecode v.path = pieces slash (joinedSegs st k) := by
    have hp := (canonicalPathSets_percent (canonicalPathSet_mem base.toParts)).1
    rw [hpath, percentDecode_pieces, map_decode_escaped]
  have hhead : v.cannotBeABase = false := by
    obtain ⟨s, ss, hss⟩ := List.exists_cons_of_ne_nil hne
    simp [Parts.cannotBeABase, hpath, hss, escapedSegs]
  rw [canonicalizePreservesNode, if_neg (by simp [hhead]), beq_iff_eq, hdecoded, normalizePathBytes_pieces hsep,
    ← settled_joinedSegs_iff h]
  constructor
  · intro heq
    have hspec := normalSegs_spec hne hsep
    rw [← pieces_inj hspec.2.1 hsep heq]
    exact hspec.2.2
  · intro hsettled
    rw [normalSegs_of_settled hsettled]

/-- A key is accepted where its segments can be spelled, and its address is the base with the joined segments. -/
theorem joinRelativeBytes_ok_iff (law : U.Lawful) (h : Shape base.toParts st) (hk : k.head? ≠ some slash)
    (hne : k ≠ []) :
    joinRelativeBytes U lossyDebug base k = .ok u ↔
      Addressable k ∧ u = U.setPath base (joinedPath base.toParts (encodeCanonicalPath base.toParts k)) := by
  have hjoined := joinedPath_eq (k := k) h
  unfold joinRelativeBytes
  rw [if_neg hk, if_neg hne]
  simp only
  constructor
  · intro hok
    split_ifs at hok with hrefused
    rw [not_or, not_not, not_not] at hrefused
    exact ⟨(preservesNode_iff (hrefused.1.trans hjoined) h).mp hrefused.2, (Except.ok.inj hok).symm⟩
  · rintro ⟨haddressable, rfl⟩
    have hfixed :=
      pathFixed_escaped base.toParts joinedSegs_ne_nil (joinedSegs_sepFree (k := k) h)
        ((settled_joinedSegs_iff h).mpr haddressable)
    rw [← hjoined] at hfixed
    have hset := congrArg Parts.path (law.setPath_fixed base _ h.hierarchical hfixed)
    simp only at hset
    have hpreserves := (preservesNode_iff (hset.trans hjoined) h).mpr haddressable
    rw [if_neg]
    rw [not_or, not_not, not_not]
    exact ⟨hset, hpreserves⟩

/-- What the setter makes of a base and an addressable key. -/
theorem setPath_joined (law : U.Lawful) (h : Shape base.toParts st) (haddressable : Addressable k) :
    (U.setPath base (joinedPath base.toParts (encodeCanonicalPath base.toParts k))).toParts =
      { base.toParts with path := pieces slash (escapedSegs base.toParts (joinedSegs st k)) } := by
  rw [joinedPath_eq h]
  exact law.setPath_fixed base _ h.hierarchical
    (pathFixed_escaped base.toParts joinedSegs_ne_nil (joinedSegs_sepFree h)
      ((settled_joinedSegs_iff h).mpr haddressable))

/-- The joined segments begin with those of the base's node. -/
theorem nodeSegs_prefix_joined : nodeSegs st <+: nodeSegs (joinedSegs st k) := by
  have hne : k.splitOn slash ≠ [] := List.splitOn_ne_nil slash k
  rcases nodeSegs_cases (@joinedSegs_ne_nil st k) with hjoined | hjoined
  · exact ⟨k.splitOn slash, by rw [← hjoined]; rfl⟩
  · refine ⟨(k.splitOn slash).dropLast, ?_⟩
    have hdrop := congrArg List.dropLast hjoined
    rwa [List.dropLast_concat, joinedSegs, List.dropLast_append_of_ne_nil hne] at hdrop

/-- The address of a key that does not begin with a separator. It is refused just where a segment is a dot segment or an
empty one that is not the last. Otherwise the address is canonical and at or below the base; its key is that of the
base, a separator if the base ends in none, and the key byte for byte; the address of the empty key is the base. -/
theorem joinRelativeBytes_key (law : U.Lawful) (hbase : Canonical U base) (hk : k.head? ≠ some slash) :
    ((∃ u, joinRelativeBytes U lossyDebug base k = .ok u) ↔ Addressable k) ∧
      ∀ u, joinRelativeBytes U lossyDebug base k = .ok u →
        canonicalize U u = u ∧ isAncestorOrSelf base.toParts u.toParts = true ∧ (k = [] → u = base) ∧
        (k ≠ [] → key u.toParts = key base.toParts ++
          (if base.path.getLast? = some slash then [] else [slash]) ++ k) := by
  obtain ⟨st, h⟩ := hbase.shape law
  by_cases hne : k = []
  · subst hne
    have hok : joinRelativeBytes U lossyDebug base [] = .ok base := rfl
    refine ⟨iff_of_true ⟨base, hok⟩ (by decide), fun u hu => ?_⟩
    cases hok.symm.trans hu
    exact ⟨hbase.fixed, (isAncestorOrSelf_iff law hbase hbase).mpr (Node.Covers.refl _), fun _ => rfl,
      fun hno => absurd rfl hno⟩
  · refine ⟨⟨fun ⟨u, hu⟩ => ((joinRelativeBytes_ok_iff law h hk hne).mp hu).1,
      fun haddressable => ⟨_, (joinRelativeBytes_ok_iff law h hk hne).mpr ⟨haddressable, rfl⟩⟩⟩, fun u hu => ?_⟩
    obtain ⟨haddressable, rfl⟩ := (joinRelativeBytes_ok_iff law h hk hne).mp hu
    have hparts := setPath_joined law h haddressable
    obtain ⟨hcanonical, hdecoded⟩ :=
        canonical_withSegs law hbase (.inr rfl) hparts joinedSegs_ne_nil (joinedSegs_sepFree h)
      ((settled_joinedSegs_iff h).mpr haddressable)
    have hshape : Shape (U.setPath base (joinedPath base.toParts (encodeCanonicalPath base.toParts k))).toParts
        (joinedSegs st k) := by
      refine ⟨?_, joinedSegs_ne_nil, joinedSegs_sepFree h, (settled_joinedSegs_iff h).mpr haddressable, ?_, ?_⟩
      · rw [hparts]
        exact congrArg (pieces slash) (escapedSegs_congr (by rfl) (by rfl) (joinedSegs st k))
      · rw [hparts]
        exact h.lowercase
      · rw [hparts]
        exact h.fragment
    refine ⟨hcanonical.fixed, ?_, fun hno => absurd hno hne, fun _ => key_joined h hshape⟩
    rw [isAncestorOrSelf_iff law hbase hcanonical, h.covers_iff hshape, hparts]
    exact ⟨rfl, rfl, rfl, nodeSegs_prefix_joined, .inr rfl⟩

end Join

/-- `s3://bucket/p`. -/
def bucketPrefix : Url :=
  ⟨⟨utf8 "s3", true, [], none, some (utf8 "bucket"), none, utf8 "/p", none, none⟩, by decide +kernel⟩

/-- The empty key is no key of its own: below a base that ends in no separator its address has the base's key. -/
theorem joinRelativeBytes_empty : Canonical reference bucketPrefix ∧ bucketPrefix.path.getLast? ≠ some slash ∧
    ∃ u, joinRelativeBytes reference id bucketPrefix [] = .ok u ∧
      key u.toParts ≠ key bucketPrefix.toParts ++ [slash] ++ [] :=
  ⟨reference_canonical _ [utf8 "p"] (by decide +kernel) (by simp [bucketPrefix]),
    by decide +kernel, bucketPrefix, rfl, by decide +kernel⟩

theorem joinRelativeBytes_key_percent :
    ∃ u, joinRelativeBytes reference id bucketPrefix (utf8 "dir/a%2Fb") = .ok u ∧
      key u.toParts = key bucketPrefix.toParts ++ (if bucketPrefix.path.getLast? = some slash then [] else [slash]) ++
        utf8 "dir/a%2Fb" := by
  have hbase : Canonical reference bucketPrefix :=
    reference_canonical _ [utf8 "p"] (by decide +kernel) (by simp [bucketPrefix])
  have hjoin :=
    @joinRelativeBytes_key reference id bucketPrefix (utf8 "dir/a%2Fb") reference_lawful hbase (by decide +kernel)
  obtain ⟨u, hu⟩ := hjoin.1.mpr (by decide +kernel)
  exact ⟨u, hu, (hjoin.2 u hu).2.2.2 (by decide +kernel)⟩

end OvStorage.Listing
