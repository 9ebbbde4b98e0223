import OvStorage.Listing.Parity

/-!
# A listing closed over its directories

The whole-set list fold of `ovstorage-plugin/src/routing.rs` on a flat store, read as a reader of the listing does:
which directories there are in it, how often, and where.

## What is proved

* `foldMarkersAndInferSubdirKinds_closed`: the output has every directory above an entry, in front of what is in it.
-/

namespace OvStorage.Listing

open Address SegList List

variable {δ : Type*} {U : UrlCrate} {bare : δ} {P a d : Url}

/-! ### Between the prefix and an entry -/

/-- A directory address strictly between the listed prefix and the address of an entry. -/
structure StrictlyBetween (P a d : Url) : Prop where
  /-- An address of the entry's authority, listed under what the prefix is qualified by. -/
  parts : d.toParts = { a.toParts with path := d.path, query := P.query, fragment := none }
  directory : endsWithSlash d = true
  below : isAncestorOrSelf P.toParts d.toParts = true ∧ nodePath P.toParts ≠ nodePath d.toParts
  above : d.path <+: a.path ∧ nodePath d.toParts ≠ nodePath a.toParts

theorem length_lt_of_pathContains {p q : Bytes} (h : pathContains p q = true) (hne : p ≠ q) : p.length < q.length := by
  rcases pathContains_iff.mp h with rfl | ⟨rest, rfl, -⟩
  · exact absurd rfl hne
  · have hrest : rest ≠ [] := fun he => hne (by simp [he])
    have hpos := length_pos_iff.mpr hrest
    rw [length_append]
    omega

/-- The truncations that `ancestor_addresses` keeps are the directories strictly between. -/
theorem between_iff (hP : isAncestorOrSelf P.toParts d.toParts = true) (ha : Kept a.toParts) {t : Bytes}
    (hd : d.path = t ++ [slash]) (hfront : d.path <+: a.path) :
    Between P.toParts a.toParts d.path ↔ nodePath P.toParts ≠ nodePath d.toParts ∧
    nodePath d.toParts ≠ nodePath a.toParts := by
  have hpos := nodePath_length_pos P.toParts
  have hpath := (isAncestorOrSelf_eq_true.mp hP).2.2.2.1
  have hlast : d.path.getLast? = some slash := by simp [hd]
  constructor
  · intro h
    obtain ⟨t', he, hne, h1, h2, -⟩ := h.closed hlast
    have hnode : nodePath d.toParts = t' := nodePath_closed he hne
    rw [hnode]
    exact ⟨fun he => by rw [he] at h1; omega, fun he => by rw [he] at h2; omega⟩
  · rintro ⟨hne, hna⟩
    have hlt := length_lt_of_pathContains hpath hne
    have ht : t ≠ [] := by
      rintro rfl
      have hroot : nodePath d.toParts = [slash] := by rw [nodePath, hd]; rfl
      rw [hroot, length_singleton] at hlt
      omega
    have hnode : nodePath d.toParts = t := nodePath_closed hd ht
    have hlen : nodeLength d.path = t.length := by
      have htpos := length_pos_iff.mpr ht
      rw [hd, nodeLength, withoutTrailing_concat]
      omega
    rw [hnode] at hlt hna
    refine ⟨by omega, ?_⟩
    rw [hlen]
    rw [hd] at hfront
    have hcap := hfront.length_le
    rw [length_append, length_singleton] at hcap
    rcases nodePath_cases ha.path.1 with he | ⟨-, he⟩
    · rw [he]
      omega
    · rw [he, length_append, length_singleton] at hcap
      refine Nat.lt_of_le_of_ne (by omega) fun heq => hna ?_
      rw [he] at hfront
      exact (prefix_of_prefix_length_le ((prefix_append t [slash]).trans hfront) (prefix_append _ [slash])
        (by omega)).eq_of_length heq

/-- What the folds call the ancestors of an entry. -/
theorem mem_entryAncestors_iff (law : U.Lawful) (hparsed : U.Parsed P) (hP : Kept P.toParts) (ha : Kept a.toParts) :
    d ∈ entryAncestors U P a ↔ isAncestorOrSelf P.toParts a.toParts = true ∧ StrictlyBetween P a d := by
  constructor
  · intro hd
    obtain ⟨hanc, c, hc, hbetween, rfl⟩ := mem_entryAncestors law hP ha hd
    have hparts := ancestorAt_toParts law hparsed ha (isAncestorOrSelf_eq_true.mp hanc).1 hc
    have hpath : (ancestorAt U P a c).path = c := by rw [hparts]
    have hbelow := isAncestorOrSelf_ancestorAt law hparsed ha hanc hc hbetween
    obtain ⟨hfront, hlast⟩ := mem_heads hc
    obtain ⟨t, ht⟩ := List.getLast?_eq_some_iff.mp hlast
    rw [← hpath] at hbetween hfront ht
    obtain ⟨hne, hna⟩ := (between_iff hbelow ha ht hfront).mp hbetween
    refine ⟨hanc, ?_, ?_, ⟨hbelow, hne⟩, hfront, hna⟩
    · rw [hpath]
      exact hparts
    · rw [endsWithSlash, hpath, hlast]
      rfl
  · rintro ⟨hanc, hparts, hdir, ⟨hbelow, hne⟩, hfront, hna⟩
    have hlast : d.path.getLast? = some slash := eq_of_beq hdir
    obtain ⟨t, ht⟩ := List.getLast?_eq_some_iff.mp hlast
    have hc : d.path ∈ heads slash a.path := mem_heads_of_front hfront hlast
    rw [entryAncestors_of_isAncestorOrSelf law hP ha hanc, ancestorAddresses_eq]
    refine mem_map.mpr ⟨d.path, mem_filter.mpr ⟨hc, ?_⟩, ?_⟩
    · exact decide_eq_true ((between_iff hbelow ha ht hfront).mpr ⟨hne, hna⟩)
    · apply Url.ext_parts
      rw [ancestorAt_toParts law hparsed ha (isAncestorOrSelf_eq_true.mp hanc).1 hc]
      exact hparts.symm

/-! ### Files, markers -/

theorem filter_settle {p : ObjectInfo δ → Bool} (hp : ∀ x, p x = true → x.kind = .File) (done : List Bytes)
    (xs : List (ObjectInfo δ)) :
    (settle done xs).filter p = xs.filter p := by
  have hdrop : ∀ x : ObjectInfo δ, x.kind ≠ .File → ¬ p x = true := fun x hx h => hx (hp x h)
  induction xs generalizing done with
  | nil => rfl
  | cons x xs ih =>
    rw [settle]
    split_ifs with hfile hdone
    · rw [filter_cons, filter_cons, ih]
    · rw [filter_cons_of_neg (hdrop x hfile), ih]
    · rw [filter_cons_of_neg (hdrop x hfile)]
      cases hm : lastMarker x.address.asStr (x :: xs) with
      | none => exact (filter_cons_of_neg (hdrop x hfile)).trans (ih _)
      | some marker =>
        have hkind : marker.kind ≠ .File := by
          rw [(lastMarker_eq_some hm).2.2]
          decide
        exact (filter_cons_of_neg (hdrop marker hkind)).trans (ih _)

/-- A file that is no marker. -/
def isPlainFile (item : ObjectInfo δ) : Bool := item.kind == .File && !isFlatMarkerEntry item

theorem filter_prepared (items : List (ObjectInfo δ)) :
    (prepared U items).filter (fun x => x.kind == .File) = items.filter isPlainFile := by
  induction items with
  | nil => rfl
  | cons item items ih =>
    have hcons : prepared U (item :: items) = flatEntry (normalizeDirectoryAddress U item) :: prepared U items := rfl
    rw [hcons]
    by_cases hplain : isPlainFile item = true
    · obtain ⟨hkind, hmarker⟩ := (Bool.and_eq_true _ _).mp hplain
      have hkind : item.kind = .File := eq_of_beq hkind
      have hdir : isDirectoryLike item.kind = false := by rw [hkind]; rfl
      have hsame : normalizeDirectoryAddress U item = item := by
        unfold normalizeDirectoryAddress
        rw [hdir]
        rfl
      have hflat := flatEntry_of_file (by simpa using hmarker) hdir
      rw [hsame, hflat.1, filter_cons_of_pos (by simpa using hkind), filter_cons_of_pos hplain, ih]
    · have hkind : (flatEntry (normalizeDirectoryAddress U item)).kind ≠ .File := by
        intro hfile
        refine hplain ?_
        have hnot : isFlatMarkerEntry (normalizeDirectoryAddress U item) = false := by
          by_contra hm
          rw [flatEntry_of_marker (by simpa using hm)] at hfile
          cases hfile
        have hdir : isDirectoryLike (normalizeDirectoryAddress U item).kind = false := by
          by_contra hd
          rw [(flatEntry_of_directory hnot (by simpa using hd)).2] at hfile
          cases hfile
        have hkind : (normalizeDirectoryAddress U item).kind = item.kind := by
          unfold normalizeDirectoryAddress
          split_ifs <;> rfl
        have hsame : normalizeDirectoryAddress U item = item := by
          rw [hkind] at hdir
          unfold normalizeDirectoryAddress
          rw [hdir]
          rfl
        rw [hsame] at hnot hdir
        rw [isPlainFile, hnot, (flatEntry_of_file hnot hdir).2]
        rfl
      rw [filter_cons_of_neg (by simpa using hkind), filter_cons_of_neg hplain, ih]

/-- No address settles with two markers. -/
theorem countP_markers_le_one (a : Url) (xs : List (ObjectInfo δ)) :
    (settle [] xs).countP (fun x => decide (x.kind = .DirectoryMarker ∧ x.address = a)) ≤ 1 := by
  by_cases h : ∃ m ∈ xs, DirectoryAt a m ∧ m.kind = .DirectoryMarker
  · refine Nat.le_trans (countP_mono_left fun x _ hx => ?_) (countP_settle_le_one h)
    obtain ⟨hk, ha⟩ := of_decide_eq_true hx
    exact decide_eq_true ⟨by rw [hk]; decide, ha⟩
  · refine Nat.le_trans (Nat.le_of_eq (countP_eq_zero.mpr fun x hx hxa => h ?_)) (Nat.zero_le 1)
    obtain ⟨hk, ha⟩ := of_decide_eq_true hxa
    exact ⟨x, (mem_settle hx).1, ⟨by rw [hk]; decide, ha⟩, hk⟩

/-- Behind the last filter no address is both concrete and inferred. -/
theorem concrete_ne_inferred {items : List (ObjectInfo δ)} {x y : ObjectInfo δ}
    (hx : x ∈ foldConcreteOverInferred items) (hy : y ∈ foldConcreteOverInferred items)
    (hconcrete : isConcreteDirectory x.kind = true) (hinferred : y.kind = .DirectoryInferred) :
    x.address ≠ y.address := by
  intro he
  obtain ⟨hx, -⟩ := mem_filter.mp hx
  obtain ⟨-, hy⟩ := mem_filter.mp hy
  have hmem : y.address.asStr ∈ (items.filter fun item => isConcreteDirectory item.kind).map fun item =>
      item.address.asStr :=
    mem_map.mpr ⟨x, mem_filter.mpr ⟨hx, hconcrete⟩, by rw [he]⟩
  simp [hinferred, hmem] at hy

/-! ### The fold -/

/-- An entry under the prefix that a directory is strictly above. -/
def Needs (P : Url) (x : ObjectInfo δ) (d : Url) : Prop :=
  isAncestorOrSelf P.toParts x.address.toParts = true ∧ StrictlyBetween P x.address d

/-- What the recursive fold of a flat store promises of its output. -/
structure Closed (U : UrlCrate) (bare : δ) (P : Url) (items out : List (ObjectInfo δ)) : Prop where
  ancestors : ∀ x ∈ out, ∀ d, Needs P x d → ∃ y ∈ out, y.address = d
  /-- What is at the address of no entry of the input. -/
  synthesized : ∀ x ∈ out, (∀ item ∈ items, (normalizeDirectoryAddress U item).address ≠ x.address) →
    x = inferredDirectoryInfo bare x.address ∧ x.address.query = P.query ∧
      isAncestorOrSelf P.toParts x.address.toParts = true ∧ nodePath P.toParts ≠ nodePath x.address.toParts ∧
      ∃ front back, out = front ++ x :: back ∧ (∀ y ∈ front ++ back, y.address ≠ x.address) ∧
        (∀ y ∈ front, ¬ Needs P y x.address) ∧ ∃ y ∈ back, Needs P y x.address
  concrete : ∀ x ∈ out, ∀ y ∈ out, isConcreteDirectory x.kind = true → y.kind = .DirectoryInferred →
    x.address ≠ y.address
  markers : ∀ a, out.countP (fun x => decide (x.kind = .DirectoryMarker ∧ x.address = a)) ≤ 1
  files : out.filter (fun x => x.kind == .File) = items.filter isPlainFile

/-- For every listed prefix and all entries the output is closed over the directories above its entries, and it neither
loses nor doubles one. -/
theorem foldMarkersAndInferSubdirKinds_closed (law : U.Lawful) (hparsed : U.Parsed P) (hP : Kept P.toParts)
    {items : List (ObjectInfo δ)} (hitems : ∀ item ∈ items, Kept item.address.toParts) :
    Closed U bare P items (foldMarkersAndInferSubdirKinds U bare P items false true) := by
  have hprep : ∀ x ∈ prepared U items, Kept x.address.toParts := by
    intro x hx
    obtain ⟨item, hitem, rfl⟩ := mem_map.mp hx
    rw [flatEntry_address]
    exact normalizeDirectoryAddress_kept law (hitems item hitem)
  have hkept : ∀ y ∈ settle [] (prepared U items), Kept y.address.toParts := fun y hy => hprep y (mem_settle hy).1
  have hlaw := entryAncestors_lawful law hparsed hP
  have hmake : ∀ a : Url, (inferredDirectoryInfo bare a).address = a := fun _ => rfl
  have hknown : ∀ y ∈ settle [] (prepared U items), y.address ∈ (settle [] (prepared U items)).map ObjectInfo.address :=
    fun y hy => mem_map_of_mem hy
  have hout := foldMarkersAndInferSubdirKinds_flat U bare P items
  -- an entry of the output stands at the address of an entry, or above one
  have hkeptOut : ∀ y ∈ foldMarkersAndInferSubdirKinds U bare P items false true, Kept y.address.toParts := by
    intro y hy
    rw [hout] at hy
    by_cases hk : y.address ∈ (settle [] (prepared U items)).map ObjectInfo.address
    · obtain ⟨z, hz, he⟩ := mem_map.mp hk
      exact he ▸ hkept z hz
    · obtain ⟨-, -, -, -, -, -, z, -, hz, hanc⟩ := hlaw.closeKnown_put hmake hkept hknown hy hk
      exact hlaw.valid (hkept z hz) hanc
  have hneeds : ∀ y ∈ foldMarkersAndInferSubdirKinds U bare P items false true, ∀ d,
      d ∈ entryAncestors U P y.address ↔ Needs P y d :=
    fun y hy d => mem_entryAncestors_iff law hparsed hP (hkeptOut y hy)
  refine ⟨?_, ?_, ?_, ?_, ?_⟩
  · intro x hx d hd
    have hanc := (hneeds x hx d).mpr hd
    rw [hout] at hx ⊢
    rcases hlaw.closeKnown_closed hmake hkept hx hanc with hk | hz
    · obtain ⟨z, hz, rfl⟩ := mem_map.mp hk
      exact ⟨z, (Ancestry.sublist_closeKnown _ _).subset hz, rfl⟩
    · exact hz
  · intro x hx hfresh
    have hk : x.address ∉ (settle [] (prepared U items)).map ObjectInfo.address := by
      intro hk
      obtain ⟨z, hz, he⟩ := mem_map.mp hk
      obtain ⟨item, hitem, rfl⟩ := mem_map.mp (mem_settle hz).1
      rw [flatEntry_address] at he
      exact hfresh item hitem he
    have hx' := hx
    rw [hout] at hx'
    obtain ⟨hmade, front, back, hsplit, honce, hbefore, z, hz, -, hanc⟩ := hlaw.closeKnown_put hmake hkept hknown hx' hk
    rw [← hout] at hsplit
    have hzout : z ∈ foldMarkersAndInferSubdirKinds U bare P items false true := by
      rw [hsplit]
      exact mem_append_right _ (mem_cons_of_mem x hz)
    have hzneeds := (hneeds z hzout x.address).mp hanc
    have hquery : x.address.query = P.query := by rw [hzneeds.2.parts]
    refine ⟨hmade, hquery, hzneeds.2.below.1, hzneeds.2.below.2, front, back, hsplit, honce, ?_, z, hz, hzneeds⟩
    intro y hy hneed
    refine hbefore y hy ((hneeds y ?_ x.address).mpr hneed)
    rw [hsplit]
    exact mem_append_left _ hy
  · intro x hx y hy
    exact concrete_ne_inferred hx hy
  · intro a
    rw [hout, Ancestry.countP_closeKnown]
    · exact countP_markers_le_one a _
    · intro b _
      rfl
  · rw [hout, Ancestry.filter_closeKnown (fun _ => rfl), filter_settle (fun x hx => eq_of_beq hx), filter_prepared]

/-- The marker `d/e/` given twice, a file in it and one in a directory without a marker. -/
def deep : List (ObjectInfo Unit) :=
  [⟨inBucket (utf8 "/d/e/x") (by decide +kernel), .File, some 1, ()⟩,
    ⟨inBucket (utf8 "/d/e/") (by decide +kernel), .File, some 0, ()⟩,
    ⟨inBucket (utf8 "/d/e/") (by decide +kernel), .DirectoryMarker, none, ()⟩,
    ⟨inBucket (utf8 "/f/y") (by decide +kernel), .File, some 1, ()⟩]

theorem foldMarkersAndInferSubdirKinds_closed_deep :
    Closed reference () bucket deep (foldMarkersAndInferSubdirKinds reference () bucket deep false true) :=
  foldMarkersAndInferSubdirKinds_closed reference_lawful (reference_parsed_iff.mpr (by decide +kernel))
    (by decide +kernel)
    (by decide +kernel)

end OvStorage.Listing
