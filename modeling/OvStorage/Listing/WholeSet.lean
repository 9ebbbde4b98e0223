import OvStorage.Listing.Entries
import OvStorage.Lib.Table

/-!
# The whole-set list fold

`fold_markers_and_infer_subdir_kinds` of `ovstorage-plugin/src/routing.rs`, which sees all
entries of a listing at once: it folds the markers of a directory into one entry, tags the
other directories as inferred, and closes a recursive listing over its ancestors.

## The model

The hash map of the markers is a `Table`, whose rows stand in no promised order; the sets
of serialized addresses are lists of which only membership is read.
-/

namespace OvStorage.Listing

open Address SegList List

variable {δ : Type*}

/-! ### The code -/

/-- `normalize_directory_addresses`. -/
def normalizeDirectoryAddresses (U : UrlCrate) (items : List (ObjectInfo δ)) : List (ObjectInfo δ) :=
  items.map (normalizeDirectoryAddress U)

/-- `fold_concrete_over_inferred`. -/
def foldConcreteOverInferred (items : List (ObjectInfo δ)) : List (ObjectInfo δ) :=
  let concreteAddresses := (items.filter fun item => isConcreteDirectory item.kind).map fun item => item.address.asStr
  items.filter fun item => item.kind != .DirectoryInferred || !concreteAddresses.contains item.address.asStr

/-- The loop of `synthesize_missing_inferred_ancestors` over the ancestors of one entry. -/
def pushAncestors (bare : δ) : List Bytes → List Url → List Bytes × List (ObjectInfo δ)
  | known, [] => (known, [])
  | known, ancestor :: ancestors =>
    if ancestor.asStr ∈ known then pushAncestors bare known ancestors
    else
      let (known, out) := pushAncestors bare (ancestor.asStr :: known) ancestors
      (known, inferredDirectoryInfo bare ancestor :: out)

/-- The loop of `synthesize_missing_inferred_ancestors` over the entries. -/
def synthesizeFrom (U : UrlCrate) (bare : δ) (listedPrefix : Url) :
    List Bytes → List (ObjectInfo δ) → List (ObjectInfo δ)
  | _, [] => []
  | known, item :: items =>
    let (known, out) := pushAncestors bare known (entryAncestors U listedPrefix item.address)
    out ++ item :: synthesizeFrom U bare listedPrefix known items

/-- `synthesize_missing_inferred_ancestors`. -/
def synthesizeMissingInferredAncestors (U : UrlCrate) (bare : δ) (listedPrefix : Url) (items : List (ObjectInfo δ)) :
    List (ObjectInfo δ) :=
  synthesizeFrom U bare listedPrefix (items.map fun item => item.address.asStr) items

/-- The marker that a marker entry stands for. -/
def asMarker (item : ObjectInfo δ) : ObjectInfo δ := { item with kind := .DirectoryMarker, size := none }

/-- The loop that fills `marker_entries`. -/
def collectMarkers (markerEntries : Table Bytes (ObjectInfo δ)) : List (ObjectInfo δ) → Table Bytes (ObjectInfo δ)
  | [] => markerEntries
  | item :: items =>
    if isFlatMarkerEntry item then collectMarkers (markerEntries.insert item.address.asStr (asMarker item)) items
    else collectMarkers markerEntries items

/-- The loop that fills `out`, and what it leaves in `marker_entries`. -/
def emitEntries : Table Bytes (ObjectInfo δ) → List Bytes → List (ObjectInfo δ) →
    List (ObjectInfo δ) × Table Bytes (ObjectInfo δ)
  | markerEntries, _, [] => ([], markerEntries)
  | markerEntries, emittedMarkers, item :: items =>
    let addressKey := item.address.asStr
    if isFlatMarkerEntry item then
      if addressKey ∈ emittedMarkers then emitEntries markerEntries emittedMarkers items
      else
        match markerEntries.get addressKey with
        | some marker =>
          let (out, left) := emitEntries (markerEntries.erase addressKey) (addressKey :: emittedMarkers) items
          (marker :: out, left)
        | none => emitEntries markerEntries (addressKey :: emittedMarkers) items
    else if isDirectoryLike item.kind then
      if addressKey ∈ emittedMarkers then emitEntries markerEntries emittedMarkers items
      else
        match markerEntries.get addressKey with
        | some marker =>
          let (out, left) := emitEntries (markerEntries.erase addressKey) (addressKey :: emittedMarkers) items
          (marker :: out, left)
        | none =>
          let item := if item.kind == .Directory then { item with kind := .DirectoryInferred } else item
          let (out, left) := emitEntries markerEntries emittedMarkers items
          (item :: out, left)
    else
      let (out, left) := emitEntries markerEntries emittedMarkers items
      (item :: out, left)

/-- `fold_markers_and_infer_subdir_kinds`. -/
def foldMarkersAndInferSubdirKinds (U : UrlCrate) (bare : δ) (listedPrefix : Url) (items : List (ObjectInfo δ))
    (hasRealDirectories recursive : Bool) : List (ObjectInfo δ) :=
  let items := normalizeDirectoryAddresses U items
  if hasRealDirectories then foldConcreteOverInferred items
  else
    let markerEntries := collectMarkers Table.empty items
    let (out, left) := emitEntries markerEntries [] items
    let out := out ++ left.rows.map fun row => { row.2 with kind := .DirectoryMarker }
    let out := if recursive then synthesizeMissingInferredAncestors U bare listedPrefix out else out
    foldConcreteOverInferred out

/-! ### Ancestors -/

theorem mem_map_asStr {known : List Url} {a : Url} : a.asStr ∈ known.map (fun a => a.asStr) ↔ a ∈ known := by
  rw [mem_map]
  constructor
  · rintro ⟨b, hb, he⟩
    rwa [← asStr_inj he]
  · exact fun h => ⟨a, h, rfl⟩

theorem pushAncestors_eq (bare : δ) (known ancestors : List Url) :
    pushAncestors bare (known.map fun a => a.asStr) ancestors =
      ((Ancestry.addFresh known ancestors).1.map (fun a => a.asStr),
        (Ancestry.addFresh known ancestors).2.map (inferredDirectoryInfo bare)) := by
  induction ancestors generalizing known with
  | nil => rfl
  | cons a ancestors ih =>
    rw [pushAncestors, Ancestry.addFresh]
    by_cases h : a ∈ known
    · rw [if_pos (mem_map_asStr.mpr h), if_pos h, ih]
    · have hknown := ih (a :: known)
      rw [map_cons] at hknown
      rw [if_neg (mt mem_map_asStr.mp h), if_neg h, hknown]
      rfl

theorem synthesizeFrom_eq (U : UrlCrate) (bare : δ) (P : Url) (known : List Url) (items : List (ObjectInfo δ)) :
    synthesizeFrom U bare P (known.map fun a => a.asStr) items =
      Ancestry.closeKnown (entryAncestors U P) (inferredDirectoryInfo bare) ObjectInfo.address known items := by
  induction items generalizing known with
  | nil => rfl
  | cons item items ih => simp only [synthesizeFrom, Ancestry.closeKnown, pushAncestors_eq, ih]

/-! ### Markers -/

/-- What an entry of a flat store stands for. -/
def flatEntry (item : ObjectInfo δ) : ObjectInfo δ :=
  if isFlatMarkerEntry item then asMarker item
  else if item.kind = .Directory then { item with kind := .DirectoryInferred }
  else item

@[simp] theorem flatEntry_address (item : ObjectInfo δ) : (flatEntry item).address = item.address := by
  unfold flatEntry
  split_ifs <;> rfl

variable {item x m y : ObjectInfo δ}

theorem flatEntry_of_marker (h : isFlatMarkerEntry item = true) : flatEntry item = asMarker item := if_pos h

theorem flatEntry_of_directory (h : isFlatMarkerEntry item = false) (hd : isDirectoryLike item.kind = true) :
    flatEntry item = (if item.kind == .Directory then { item with kind := .DirectoryInferred } else item) ∧
      (flatEntry item).kind = .DirectoryInferred := by
  unfold flatEntry
  rw [if_neg (by simp [h])]
  cases hk : item.kind with
  | File => simp [hk, isDirectoryLike] at hd
  | Directory => simp
  | DirectoryMarker => simp [isFlatMarkerEntry, hk] at h
  | DirectoryInferred => simp [hk]

theorem flatEntry_of_file (h : isFlatMarkerEntry item = false)
    (hd : isDirectoryLike item.kind = false) : flatEntry item = item ∧ item.kind = .File := by
  unfold flatEntry
  rw [if_neg (by simp [h])]
  cases hk : item.kind with
  | File => simp
  | Directory => simp [hk, isDirectoryLike] at hd
  | DirectoryMarker => simp [hk, isDirectoryLike] at hd
  | DirectoryInferred => simp [hk, isDirectoryLike] at hd

/-- The last marker with a serialized address. -/
def lastMarker (key : Bytes) (xs : List (ObjectInfo δ)) : Option (ObjectInfo δ) :=
  (xs.filter fun x => decide (x.address.asStr = key ∧ x.kind = .DirectoryMarker)).getLast?

theorem lastMarker_cons (key : Bytes) (x : ObjectInfo δ) (xs : List (ObjectInfo δ)) :
    lastMarker key (x :: xs) =
      if x.address.asStr = key ∧ x.kind = .DirectoryMarker then some ((lastMarker key xs).getD x)
      else lastMarker key xs := by
  unfold lastMarker
  rw [filter_cons]
  by_cases h : x.address.asStr = key ∧ x.kind = .DirectoryMarker
  · rw [if_pos (decide_eq_true h), if_pos h, List.getLast?_cons]
  · rw [if_neg (by simpa using h), if_neg h]

variable {key : Bytes}

theorem lastMarker_of_ne (h : x.kind ≠ .DirectoryMarker) (xs : List (ObjectInfo δ)) :
    lastMarker key (x :: xs) = lastMarker key xs := by
  rw [lastMarker_cons, if_neg (fun hx => h hx.2)]

theorem lastMarker_of_ne_key (h : x.address.asStr ≠ key) (xs : List (ObjectInfo δ)) :
    lastMarker key (x :: xs) = lastMarker key xs := by
  rw [lastMarker_cons, if_neg (fun hx => h hx.1)]

variable {xs items : List (ObjectInfo δ)}

theorem lastMarker_eq_some (h : lastMarker key xs = some m) :
    m ∈ xs ∧ m.address.asStr = key ∧ m.kind = .DirectoryMarker := by
  have hm := mem_filter.mp (mem_of_getLast? h)
  exact ⟨hm.1, of_decide_eq_true hm.2⟩

theorem lastMarker_eq_none :
    lastMarker key xs = none ↔ ∀ x ∈ xs, x.address.asStr = key → x.kind ≠ .DirectoryMarker := by
  rw [lastMarker, List.getLast?_eq_none_iff, filter_eq_nil_iff]
  simp only [decide_eq_true_eq, not_and, ne_eq]

/-- One entry for each address with a marker, the last marker; the entries without one as they
are. The addresses in `done` have theirs. -/
def settle : List Bytes → List (ObjectInfo δ) → List (ObjectInfo δ)
  | _, [] => []
  | done, x :: xs =>
    if x.kind = .File then x :: settle done xs
    else if x.address.asStr ∈ done then settle done xs
    else
      match lastMarker x.address.asStr (x :: xs) with
      | some marker => marker :: settle (x.address.asStr :: done) xs
      | none => x :: settle done xs

attribute [local grind =] settle

section Settle

variable {done : List Bytes} {x : ObjectInfo δ} {xs : List (ObjectInfo δ)}

theorem settle_of_file (h : x.kind = .File) : settle done (x :: xs) = x :: settle done xs := by
  rw [settle, if_pos h]

theorem settle_of_done (h : x.kind ≠ .File) (hdone : x.address.asStr ∈ done) :
    settle done (x :: xs) = settle done xs := by
  rw [settle, if_neg h, if_pos hdone]

theorem settle_of_marker (h : x.kind ≠ .File) (hdone : x.address.asStr ∉ done) {marker : ObjectInfo δ}
    (hm : lastMarker x.address.asStr (x :: xs) = some marker) :
    settle done (x :: xs) = marker :: settle (x.address.asStr :: done) xs := by
  rw [settle, if_neg h, if_neg hdone, hm]

theorem settle_of_none (h : x.kind ≠ .File) (hdone : x.address.asStr ∉ done)
    (hm : lastMarker x.address.asStr (x :: xs) = none) : settle done (x :: xs) = x :: settle done xs := by
  rw [settle, if_neg h, if_neg hdone, hm]

end Settle

theorem get_collectMarkers (t : Table Bytes (ObjectInfo δ)) (items : List (ObjectInfo δ)) (key : Bytes) :
    (collectMarkers t items).get key = (lastMarker key (items.map flatEntry)).or (t.get key) := by
  induction items generalizing t with
  | nil => rfl
  | cons item items ih =>
    rw [collectMarkers, map_cons]
    cases hm : isFlatMarkerEntry item with
    | true =>
      rw [if_pos rfl, ih, lastMarker_cons, flatEntry_of_marker hm]
      by_cases hk : item.address.asStr = key
      · subst hk
        rw [Table.get_insert_self, if_pos ⟨rfl, rfl⟩]
        cases lastMarker item.address.asStr (items.map flatEntry) <;> rfl
      · rw [if_neg (fun h => hk h.1), Table.get_insert_of_ne _ _ (Ne.symm hk)]
    | false =>
      have hkind : (flatEntry item).kind ≠ .DirectoryMarker := by
        cases hd : isDirectoryLike item.kind with
        | true => rw [(flatEntry_of_directory hm hd).2]; decide
        | false => rw [(flatEntry_of_file hm hd).1, (flatEntry_of_file hm hd).2]; decide
      rw [if_neg (by simp), ih, lastMarker_of_ne hkind]

variable {done : List Bytes}

/-- The second loop settles the entries and leaves no marker behind. -/
theorem emitEntries_eq {t : Table Bytes (ObjectInfo δ)}
    (ht : ∀ key, t.get key = if key ∈ done then none else lastMarker key (items.map flatEntry)) :
    (emitEntries t done items).1 = settle done (items.map flatEntry) ∧
      ∀ key, (emitEntries t done items).2.get key = none := by
  induction items generalizing t done with
  | nil =>
    refine ⟨rfl, fun key => ?_⟩
    rw [emitEntries, ht]
    split_ifs <;> rfl
  | cons item items ih =>
    have hhere := ht item.address.asStr
    rw [map_cons] at ht hhere ⊢
    -- what is left after the entries at this address are done
    have herase : item.address.asStr ∉ done → ∀ key, (t.erase item.address.asStr).get key =
        if key ∈ item.address.asStr :: done then none else lastMarker key (items.map flatEntry) := by
      intro hdone key
      by_cases hk : key = item.address.asStr
      · rw [hk, Table.get_erase_self, if_pos mem_cons_self]
      · rw [Table.get_erase_of_ne t hk, ht, lastMarker_of_ne_key (by rw [flatEntry_address]; exact Ne.symm hk)]
        simp only [mem_cons, hk, false_or]
    have hskip : ((flatEntry item).kind ≠ .DirectoryMarker ∨ item.address.asStr ∈ done) → ∀ key, t.get key =
        if key ∈ done then none else lastMarker key (items.map flatEntry) := by
      intro h key
      rw [ht]
      by_cases hk : key ∈ done
      · rw [if_pos hk, if_pos hk]
      · rw [if_neg hk, if_neg hk]
        rcases h with h | h
        · exact lastMarker_of_ne h _
        · exact lastMarker_of_ne_key (by rw [flatEntry_address]; exact fun he => hk (he ▸ h)) _
    have haddr : (flatEntry item).address.asStr = item.address.asStr := by rw [flatEntry_address]
    cases hm : isFlatMarkerEntry item with
    | true =>
      have hkind : (flatEntry item).kind = .DirectoryMarker := by rw [flatEntry_of_marker hm]; rfl
      have hfile : (flatEntry item).kind ≠ .File := by rw [hkind]; decide
      by_cases hdone : item.address.asStr ∈ done
      · rw [settle_of_done hfile (haddr ▸ hdone)]
        simp only [emitEntries, hm, hdone, if_true]
        exact ih (hskip (Or.inr hdone))
      · obtain ⟨marker, hmarker⟩ : ∃ marker, lastMarker item.address.asStr (flatEntry item :: items.map flatEntry) =
            some marker := by
          rw [lastMarker_cons, if_pos ⟨haddr, hkind⟩]
          exact ⟨_, rfl⟩
        rw [if_neg hdone, hmarker] at hhere
        rw [settle_of_marker hfile (haddr ▸ hdone) (haddr ▸ hmarker), haddr]
        simp only [emitEntries, hm, hdone, if_true, if_false, hhere]
        obtain ⟨h1, h2⟩ := ih (herase hdone)
        exact ⟨congrArg (marker :: ·) h1, h2⟩
    | false =>
      cases hd : isDirectoryLike item.kind with
      | true =>
        obtain ⟨hflat, hkind⟩ := flatEntry_of_directory hm hd
        have hfile : (flatEntry item).kind ≠ .File := by rw [hkind]; decide
        by_cases hdone : item.address.asStr ∈ done
        · rw [settle_of_done hfile (haddr ▸ hdone)]
          simp only [emitEntries, hm, hd, hdone, Bool.false_eq_true, if_true, if_false]
          exact ih (hskip (Or.inr hdone))
        · rw [if_neg hdone] at hhere
          cases hmarker : lastMarker item.address.asStr (flatEntry item :: items.map flatEntry) with
          | some marker =>
            rw [settle_of_marker hfile (haddr ▸ hdone) (haddr ▸ hmarker), haddr]
            simp only [emitEntries, hm, hd, hdone, Bool.false_eq_true, if_true, if_false, hhere, hmarker]
            obtain ⟨h1, h2⟩ := ih (herase hdone)
            exact ⟨congrArg (marker :: ·) h1, h2⟩
          | none =>
            rw [settle_of_none hfile (haddr ▸ hdone) (haddr ▸ hmarker), hflat]
            simp only [emitEntries, hm, hd, hdone, Bool.false_eq_true, if_true, if_false, hhere, hmarker]
            obtain ⟨h1, h2⟩ := ih (hskip (Or.inl (by rw [hkind]; decide)))
            exact ⟨congrArg (_ :: ·) h1, h2⟩
      | false =>
        obtain ⟨hflat, hkind⟩ := flatEntry_of_file hm hd
        rw [settle_of_file (by rw [hflat, hkind]), hflat]
        simp only [emitEntries, hm, hd, Bool.false_eq_true, if_false]
        obtain ⟨h1, h2⟩ := ih (hskip (Or.inl (by rw [hflat, hkind]; decide)))
        exact ⟨congrArg (_ :: ·) h1, h2⟩

/-! ### Concrete over inferred -/

theorem mem_settle (h : y ∈ settle done xs) : y ∈ xs ∧ (y.kind ≠ .File → y.address.asStr ∉ done) := by
  induction xs generalizing done with
  | nil => cases h
  | cons x xs ih =>
    rw [settle] at h
    split_ifs at h with hfile hdone
    · rcases mem_cons.mp h with rfl | h
      · exact ⟨mem_cons_self, fun hf => absurd hfile hf⟩
      · exact ⟨mem_cons_of_mem x (ih h).1, (ih h).2⟩
    · exact ⟨mem_cons_of_mem x (ih h).1, (ih h).2⟩
    · cases hm : lastMarker x.address.asStr (x :: xs) with
      | some marker =>
        rw [hm] at h
        rcases mem_cons.mp h with rfl | h
        · obtain ⟨hmem, haddr, -⟩ := lastMarker_eq_some hm
          exact ⟨hmem, fun _ => haddr ▸ hdone⟩
        · exact ⟨mem_cons_of_mem x (ih h).1, fun hf hd => (ih h).2 hf (mem_cons_of_mem _ hd)⟩
      | none =>
        rw [hm] at h
        rcases mem_cons.mp h with rfl | h
        · exact ⟨mem_cons_self, fun _ => hdone⟩
        · exact ⟨mem_cons_of_mem x (ih h).1, (ih h).2⟩

/-- A directory that stays inferred has no marker. -/
theorem not_marker_of_inferred (h : y ∈ settle done xs)
    (hy : y.kind = .DirectoryInferred) (hm : m ∈ xs) (hkind : m.kind = .DirectoryMarker) :
    m.address.asStr ≠ y.address.asStr := by
  have hyf : y.kind ≠ .File := by rw [hy]; decide
  induction xs generalizing done with
  | nil => cases h
  | cons x xs ih =>
    have hxm : ∀ {done' : List Bytes}, y ∈ settle done' xs → (m = x → x.address.asStr ∈ done') →
        m.address.asStr ≠ y.address.asStr := by
      intro done' hy' hdone
      rcases mem_cons.mp hm with rfl | hm
      · exact fun he => (mem_settle hy').2 hyf (he ▸ hdone rfl)
      · exact ih hy' hm
    rw [settle] at h
    split_ifs at h with hfile hdone
    · rcases mem_cons.mp h with rfl | h
      · exact absurd hfile hyf
      · refine hxm h fun he => ?_
        rw [← he, hkind] at hfile
        cases hfile
    · exact hxm h fun _ => hdone
    · cases hlast : lastMarker x.address.asStr (x :: xs) with
      | some marker =>
        rw [hlast] at h
        rcases mem_cons.mp h with rfl | h
        · rw [(lastMarker_eq_some hlast).2.2] at hy
          cases hy
        · exact hxm h fun _ => mem_cons_self
      | none =>
        rw [hlast] at h
        rw [lastMarker_eq_none] at hlast
        rcases mem_cons.mp h with rfl | h
        · exact fun he => hlast m hm he hkind
        · refine hxm h fun he => ?_
          exact absurd (he ▸ hkind) (hlast x mem_cons_self rfl)

theorem foldConcreteOverInferred_eq_self
    (h : ∀ x ∈ items, x.kind = .DirectoryInferred → ∀ m ∈ items, isConcreteDirectory m.kind = true →
      m.address.asStr ≠ x.address.asStr) : foldConcreteOverInferred items = items := by
  refine filter_eq_self.mpr fun x hx => ?_
  by_cases hk : x.kind = .DirectoryInferred
  · have hno : x.address.asStr ∉
        (items.filter fun item => isConcreteDirectory item.kind).map fun item => item.address.asStr := by
      intro hm
      obtain ⟨m, hm, he⟩ := mem_map.mp hm
      obtain ⟨hm, hc⟩ := mem_filter.mp hm
      exact h x hx hk m hm hc he
    simp only [Bool.or_eq_true, Bool.not_eq_true', contains_eq_mem, decide_eq_false_iff_not]
    exact Or.inr hno
  · rw [Bool.or_eq_true]
    exact Or.inl (bne_iff_ne.mpr hk)

/-! ### A flat store -/

/-- The entries of a listing as a flat store's fold compares them. -/
def prepared (U : UrlCrate) (items : List (ObjectInfo δ)) : List (ObjectInfo δ) :=
  items.map fun item => flatEntry (normalizeDirectoryAddress U item)

theorem prepared_kind {U : UrlCrate} (h : x ∈ prepared U items) : x.kind ≠ .Directory := by
  obtain ⟨item, -, rfl⟩ := mem_map.mp h
  generalize normalizeDirectoryAddress U item = item
  cases hm : isFlatMarkerEntry item with
  | true => rw [flatEntry_of_marker hm]; exact fun h => nomatch h
  | false =>
    cases hd : isDirectoryLike item.kind with
    | true => rw [(flatEntry_of_directory hm hd).2]; decide
    | false => rw [(flatEntry_of_file hm hd).1, (flatEntry_of_file hm hd).2]; decide

/-- The recursive fold on a flat store: settle the entries, then close them by what is known. -/
theorem foldMarkersAndInferSubdirKinds_flat (U : UrlCrate) (bare : δ) (P : Url) (items : List (ObjectInfo δ)) :
    foldMarkersAndInferSubdirKinds U bare P items false true =
      Ancestry.closeKnown (entryAncestors U P) (inferredDirectoryInfo bare) ObjectInfo.address
        ((settle [] (prepared U items)).map ObjectInfo.address) (settle [] (prepared U items)) := by
  have hprep : (normalizeDirectoryAddresses U items).map flatEntry = prepared U items := map_map
  have hmarkers : ∀ key, (collectMarkers Table.empty (normalizeDirectoryAddresses U items)).get key =
      if key ∈ [] then none else lastMarker key ((normalizeDirectoryAddresses U items).map flatEntry) := by
    intro key
    rw [get_collectMarkers, Table.get_empty, Option.or_none, if_neg (by simp)]
  obtain ⟨hout, hleft⟩ := emitEntries_eq hmarkers
  have hrows : (emitEntries (collectMarkers Table.empty (normalizeDirectoryAddresses U items)) []
      (normalizeDirectoryAddresses U items)).2.rows = [] := by
    rw [eq_nil_iff_forall_not_mem]
    rintro ⟨key, marker⟩ hm
    have hget := hleft key
    rw [Table.mem_rows_iff.mp hm] at hget
    cases hget
  unfold foldMarkersAndInferSubdirKinds
  simp only [Bool.false_eq_true, if_false, if_true, hrows, map_nil, append_nil, hout, hprep]
  have hknown : (settle [] (prepared U items)).map (fun item => item.address.asStr) =
      ((settle [] (prepared U items)).map ObjectInfo.address).map fun a => a.asStr := by
    rw [map_map]
    rfl
  rw [synthesizeMissingInferredAncestors, hknown, synthesizeFrom_eq]
  refine foldConcreteOverInferred_eq_self ?_
  intro x hx hinferred m hm hconcrete he
  have hmem : m ∈ settle [] (prepared U items) := by
    rcases Ancestry.mem_closeKnown hm with hm | ⟨a, -, rfl⟩
    · exact hm
    · cases hconcrete
  have hmarker : m.kind = .DirectoryMarker := by
    have hdir := prepared_kind (mem_settle hmem).1
    cases hk : m.kind with
    | DirectoryMarker => rfl
    | Directory => exact absurd hk hdir
    | File => rw [hk] at hconcrete; cases hconcrete
    | DirectoryInferred => rw [hk] at hconcrete; cases hconcrete
  rcases Ancestry.mem_closeKnown hx with hx | ⟨a, ha, rfl⟩
  · exact not_marker_of_inferred hx hinferred (mem_settle hmem).1 hmarker he
  · refine ha (mem_map.mpr ⟨m, hmem, asStr_inj he⟩)

end OvStorage.Listing
