import OvStorage.Address.Projection
import OvStorage.Layer.Types
import OvStorage.Listing.Join

/-!
# What a subscriber sees

`watcher_accepts` of `ovstorage-plugin/src/subscription.rs`: which events of a connection's feed go to a subscriber of a
prefix. Containment is decided on the components of the addresses, depth on their decoded keys.
-/

namespace OvStorage.Watch

open Address SegList Listing List
open Layer (ChangeEvent ObjectEvent)

/-- `BackendChangeEvent`, which has the fields of a `ChangeEvent`. -/
abbrev BackendChangeEvent := ChangeEvent

/-- `watcher_accepts`. -/
def watcherAccepts (pre : Url) (recursive includeMetadataChanges : Bool) : BackendChangeEvent → Bool
  | .Lapsed _ _ => true
  | .Object event =>
    if event.kind = .MetadataChanged ∧ includeMetadataChanges = false then false
    else if isAncestorOrSelf pre.toParts event.address.toParts = false then false
    else
      let prefixKey := withoutTrailing (key pre.toParts)
      let addressKey := key event.address.toParts
      if withoutTrailing addressKey = prefixKey then false
      else if recursive then true
      else
        let relative := (addressKey.dropPrefix? prefixKey).bind fun rest =>
          if prefixKey = [] then some rest else rest.dropPrefix? [slash]
        match relative with
        | none => false
        | some relative => withoutTrailing relative ≠ [] && slash ∉ withoutTrailing relative

/-- The segments of the address extend those of the prefix, by one where the subscriber is not recursive. -/
def Below (p u : Parts) (recursive : Bool) : Prop :=
  p.scheme = u.scheme ∧ p.host = u.host ∧ p.port = u.port ∧
    ∃ rest, decodedSegments u = decodedSegments p ++ rest ∧ if recursive then rest ≠ [] else rest.length = 1

/-- Equal but for a `/` at the end of the path, for the userinfo and for the query. -/
def SamePath (a b : Parts) : Prop := a.scheme = b.scheme ∧ a.host = b.host ∧ a.port = b.port ∧ nodePath a = nodePath b

instance (a b : Parts) : Decidable (SamePath a b) := inferInstanceAs (Decidable (_ ∧ _))

variable {U : UrlCrate} {p u : Url} {ps us ns : List Bytes} {t : Bytes} {recursive includeMetadataChanges : Bool}
  {event : ObjectEvent}

/-! ### Keys and segments -/

/-- A text of settled segments, without the slash at its end. -/
theorem withoutTrailing_of_pieces (ht : slash :: t = pieces slash us) (hne : us ≠ []) (hsep : SepFree slash us)
    (hus : Settled us) :
    slash :: withoutTrailing t = nodeText (nodeSegs us) := by
  unfold withoutTrailing
  rcases nodeSegs_cases hne with he | he
  · have hlast : (pieces slash us).getLast? ≠ some slash :=
      getLast?_pieces_ne hne hsep (he ▸ fun s hs => (nodeSegs_names hus s hs).1)
    have hno : t.dropSuffix? [slash] = none := by
      rw [Option.eq_none_iff_forall_ne_some]
      intro q hq
      refine hlast ?_
      rw [← ht, dropSuffix?_eq_some.mp hq, ← cons_append, List.getLast?_concat]
    rw [hno, Option.getD_none, ht, ← he, nodeText, if_neg hne]
  · rw [he, pieces_append] at ht
    cases hn : nodeSegs us with
    | nil =>
      rw [hn] at ht
      obtain rfl : t = [] := by simpa using ht
      rfl
    | cons n ns =>
      rw [hn, pieces_cons, cons_append, List.cons.injEq] at ht
      have hdrop : t.dropSuffix? [slash] = some (n ++ pieces slash ns) := dropSuffix?_eq_some.mpr ht.2
      rw [hdrop, nodeText, if_neg (cons_ne_nil _ _)]
      rfl

theorem Shape.withoutTrailing_key {u : Parts} (h : Shape u us) :
    slash :: withoutTrailing (key u) = nodeText (nodeSegs us) :=
  withoutTrailing_of_pieces ((cons_key h.path_head).trans h.decoded) h.ne_nil h.sepFree h.settled

/-- A node's text is one segment where that has no slash in it. -/
theorem single_iff (hns : ∀ s ∈ ns, s ≠ []) (hsep : SepFree slash ns) (ht : slash :: t = nodeText ns) :
    (t ≠ [] ∧ slash ∉ t) ↔ ns.length = 1 := by
  match ns with
  | [] =>
    obtain rfl : t = [] := cons_injective ht
    simp
  | [n] =>
    obtain rfl : t = n := by simpa [nodeText] using ht
    exact iff_of_true ⟨hns t mem_cons_self, hsep t mem_cons_self⟩ rfl
  | n :: m :: ns =>
    obtain rfl : t = n ++ slash :: (m ++ pieces slash ns) := by simpa [nodeText] using ht
    simp

/-- What is left of the key is the text of the segments below. -/
theorem relative_eq {p u : Parts} {below : List Bytes} (hp : Shape p ps) (hu : Shape u us)
    (hus : us = nodeSegs ps ++ below) (hne : below ≠ []) : ∃ relative, slash :: relative = pieces slash below ∧
      ((key u).dropPrefix? (withoutTrailing (key p))).bind (fun rest =>
        if withoutTrailing (key p) = [] then some rest else rest.dropPrefix? [slash]) = some relative := by
  have hpre := Shape.withoutTrailing_key hp
  have hkey := (cons_key hu.path_head).trans hu.decoded
  rw [hus, pieces_append] at hkey
  cases hn : nodeSegs ps with
  | nil =>
    rw [hn] at hpre hkey
    have hnil : withoutTrailing (key p) = [] := cons_injective hpre
    refine ⟨key u, hkey, ?_⟩
    rw [hnil, dropPrefix?_eq_some.mpr (nil_append _).symm]
    rfl
  | cons n ns =>
    rw [hn, nodeText, if_neg (cons_ne_nil n ns)] at hpre
    rw [hn, ← hpre, cons_append] at hkey
    have hname := (nodeSegs_names hp.settled n (hn ▸ mem_cons_self)).1
    have hpos : withoutTrailing (key p) ≠ [] := fun h => by
      rw [h, pieces_cons, List.cons.injEq] at hpre
      exact hname (append_eq_nil_iff.mp hpre.2.symm).1
    obtain ⟨s, ss, rfl⟩ := exists_cons_of_ne_nil hne
    refine ⟨s ++ pieces slash ss, rfl, ?_⟩
    rw [dropPrefix?_eq_some.mpr (cons_injective hkey), Option.bind_some, if_neg hpos, dropPrefix?_eq_some]
    rfl

/-! ### Who is sent an event -/

/-- An object event is accepted where its address is below the prefix. -/
theorem watcherAccepts_iff (law : U.Lawful) (hp : Canonical U p) (hu : Canonical U event.address)
    (hquery : p.query = none) (hkind : ¬ (event.kind = .MetadataChanged ∧ includeMetadataChanges = false)) :
    watcherAccepts p recursive includeMetadataChanges (.Object event) = true ↔
    Below p.toParts event.address.toParts recursive := by
  obtain ⟨ps, hps⟩ := hp.shape law
  obtain ⟨us, hus⟩ := hu.shape law
  have hcovers := hps.isAncestorOrSelf_iff hus
  rw [hps.covers_iff hus] at hcovers
  simp only [watcherAccepts, Below, if_neg hkind, hps.decodedSegments, hus.decodedSegments]
  by_cases hanc : isAncestorOrSelf p.toParts event.address.toParts = true
  · obtain ⟨hscheme, hhost, hport, hsegs, -⟩ := hcovers.mp hanc
    have hbelow := segs_eq_of_covers hsegs
    generalize tailSegs ps us = below at hbelow
    have hnames := nodeSegs_names hps.settled
    have hnode : nodeSegs us = nodeSegs ps ++ nodeSegs below := by rw [hbelow, nodeSegs_append_names hnames]
    have hsettled : Settled below := Settled.of_append (hbelow ▸ hus.settled)
    have hsep : SepFree slash below := fun s hs => hus.sepFree s (hbelow ▸ mem_append_right _ hs)
    have hsame : withoutTrailing (key event.address.toParts) = withoutTrailing (key p.toParts) ↔
        nodeSegs below = [] := by
      rw [← (cons_injective (a := slash)).eq_iff, Shape.withoutTrailing_key hus, Shape.withoutTrailing_key hps]
      constructor
      · intro h
        have heq := nodeText_inj hus.nodeSegs_sepFree hps.nodeSegs_sepFree
            (fun s hs => (nodeSegs_names hus.settled s hs).1)
          (fun s hs => (hnames s hs).1) h
        simpa [hnode] using heq
      · intro h
        rw [hnode, h, append_nil]
    rw [if_neg (by simp [hanc])]
    simp only [hscheme, hhost, hport, hnode, append_cancel_left_eq, true_and, exists_eq_left']
    by_cases hnil : nodeSegs below = []
    · rw [if_pos (hsame.mpr hnil), hnil]
      cases recursive <;> simp
    · rw [if_neg (hsame.not.mpr hnil)]
      cases recursive with
      | true => simpa using hnil
      | false =>
        have hne : below ≠ [] := fun h => hnil (by rw [h]; rfl)
        obtain ⟨relative, hrelative, hfound⟩ := relative_eq hps hus hbelow hne
        have htext := withoutTrailing_of_pieces hrelative hne hsep hsettled
        have hsingle := single_iff (fun s hs => (nodeSegs_names hsettled s hs).1)
          (fun s hs => hsep s ((nodeSegs_sublist below).subset hs)) htext
        rw [hfound]
        simpa using hsingle
  · refine iff_of_false (by simp [hanc]) ?_
    rintro ⟨hscheme, hhost, hport, rest, hrest, -⟩
    exact hanc (hcovers.mpr ⟨hscheme, hhost, hport, ⟨rest, hrest.symm⟩, .inl hquery⟩)

theorem watcherAccepts_excluded (h : event.kind = .MetadataChanged ∧ includeMetadataChanges = false) :
    watcherAccepts p recursive includeMetadataChanges (.Object event) = false := by
  rw [watcherAccepts, if_pos h]

theorem SamePath.decodedSegments {a b : Parts} (h : SamePath a b) : decodedSegments a = decodedSegments b := by
  unfold Address.decodedSegments
  rw [h.2.2.2]

/-- A subscriber sees what is below its prefix and nothing else: trailing slashes play no part, the watched node is
never reported, and what a subscriber that is not recursive sees, a recursive one sees too. -/
theorem sees_subtree (law : U.Lawful) (hp : Canonical U p) (hquery : p.query = none) (hu : Canonical U event.address) :
    (¬ (event.kind = .MetadataChanged ∧ includeMetadataChanges = false) → ∀ recursive,
      (watcherAccepts p recursive includeMetadataChanges (.Object event) = true ↔
        Below p.toParts event.address.toParts recursive)) ∧
    (∀ p' u' recursive, Canonical U p' → p'.query = none → Canonical U u' → SamePath p.toParts p'.toParts →
      SamePath event.address.toParts u'.toParts →
      watcherAccepts p' recursive includeMetadataChanges (.Object { event with address := u' }) =
        watcherAccepts p recursive includeMetadataChanges (.Object event)) ∧
    (SamePath p.toParts event.address.toParts → ∀ recursive,
      watcherAccepts p recursive includeMetadataChanges (.Object event) = false) ∧
    (watcherAccepts p false includeMetadataChanges (.Object event) = true →
      watcherAccepts p true includeMetadataChanges (.Object event) = true) := by
  by_cases hkind : event.kind = .MetadataChanged ∧ includeMetadataChanges = false
  · have hnone : ∀ (q u : Url) recursive,
        watcherAccepts q recursive includeMetadataChanges (.Object { event with address := u }) = false :=
      fun _ _ _ => watcherAccepts_excluded hkind
    refine ⟨fun h => absurd hkind h, fun p' u' recursive _ _ _ _ _ => ?_,
      fun _ recursive => hnone p event.address recursive, fun h => ?_⟩
    · rw [hnone p' u' recursive, ← hnone p event.address recursive]
    · exact absurd ((hnone p event.address false).symm.trans h) Bool.false_ne_true
  have hiff : ∀ recursive, watcherAccepts p recursive includeMetadataChanges (.Object event) = true ↔
      Below p.toParts event.address.toParts recursive := fun _ => watcherAccepts_iff law hp hu hquery hkind
  refine ⟨fun _ => hiff, fun p' u' recursive hp' hquery' hu' hsame hsame' => ?_, fun hsame recursive => ?_, fun h => ?_⟩
  · have hiff' : watcherAccepts p' recursive includeMetadataChanges (.Object { event with address := u' }) = true ↔
        Below p'.toParts u'.toParts recursive := watcherAccepts_iff law hp' hu' hquery' hkind
    rw [Bool.eq_iff_iff, hiff, hiff']
    obtain ⟨hscheme, hhost, hport, -⟩ := id hsame
    obtain ⟨hscheme', hhost', hport', -⟩ := id hsame'
    simp only [Below, hscheme, hhost, hport, hscheme', hhost', hport', hsame.decodedSegments, hsame'.decodedSegments]
  · rw [Bool.eq_false_iff, ne_eq, hiff recursive]
    rintro ⟨-, -, -, rest, hrest, hlength⟩
    rw [hsame.decodedSegments, self_eq_append_right] at hrest
    subst hrest
    cases recursive <;> simp at hlength
  · obtain ⟨hscheme, hhost, hport, rest, hrest, hlength⟩ := (hiff false).mp h
    refine (hiff true).mpr ⟨hscheme, hhost, hport, rest, hrest, ?_⟩
    rintro rfl
    simp at hlength

/-- `s3://bucket/p/x?versionId=1`. -/
def versionBelow : Url :=
  ⟨⟨utf8 "s3", true, [], none, some (utf8 "bucket"), none, utf8 "/p/x", some (utf8 "versionId=1"), none⟩,
    by decide +kernel⟩

def versionModified : ObjectEvent := ⟨versionBelow, .Modified, none, none, none, none, 0, []⟩

theorem sees_subtree_version :
    watcherAccepts bucketPrefix false false (.Object versionModified) = true := by
  have hp : Canonical reference bucketPrefix :=
    reference_canonical _ [utf8 "p"] (by decide +kernel) (by simp [bucketPrefix])
  have hu : Canonical reference versionBelow :=
    reference_canonical _ [utf8 "p", utf8 "x"] (by decide +kernel) (by decide +kernel)
  have hsees := @sees_subtree reference bucketPrefix false versionModified reference_lawful hp rfl hu
  exact (hsees.1 (by decide) false).mpr ⟨rfl, rfl, rfl, [utf8 "x"], by decide +kernel, rfl⟩

end OvStorage.Watch
