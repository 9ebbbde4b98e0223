import OvStorage.Listing.WholeSet

/-!
# The incremental list fold

`IncrementalListFold` of `ovstorage-plugin/src/list_stream.rs`, the adapter that folds a
listing while it streams by: it keeps one entry back, the key it read last and the ancestor
chain of the entry it finished last.

## The model

The inner stream is what it will answer to each poll, and is at its end after that. A turn of
the loop in `poll_next` that neither returns nor polls is joined with the one before it.
-/

namespace OvStorage.Listing

open Address SegList

/-- `Poll`. -/
inductive Poll (α : Type*)
  | Pending
  | Ready (value : α)

/-- An item of a listing stream. -/
abbrev Item (δ : Type*) := Except Error (ObjectInfo δ)

/-- `IncrementalListFold`, but for the inner stream. -/
structure IncrementalListFold (δ : Type*) where
  listedPrefix : Url
  hasRealDirectories : Bool
  recursiveFlat : Bool
  lookbehind : Option (ObjectInfo δ)
  lastInputKey : Option Bytes
  previousAncestorChain : List Url
  ready : List (Item δ)
  innerDone : Bool
  failed : Bool

/-- `SameAddressMerge`. -/
inductive SameAddressMerge (δ : Type*)
  | Keep (item : ObjectInfo δ)
  | EmitThenKeep (current next : ObjectInfo δ)

namespace IncrementalListFold

variable {δ : Type*}

/-! ### The code -/

/-- `IncrementalListFold::new`. -/
def new (listedPrefix : Url) (hasRealDirectories recursive : Bool) : IncrementalListFold δ :=
  { listedPrefix, hasRealDirectories, recursiveFlat := recursive && !hasRealDirectories, lookbehind := none,
    lastInputKey := none, previousAncestorChain := [], ready := [], innerDone := false, failed := false }

/-- `prepare_item`. -/
def prepareItem (U : UrlCrate) (self : IncrementalListFold δ) (item : ObjectInfo δ) : ObjectInfo δ :=
  let item := normalizeDirectoryAddress U item
  if self.hasRealDirectories then item
  else if isFlatMarkerEntry item then { item with kind := .DirectoryMarker, size := none }
  else if item.kind = .Directory then { item with kind := .DirectoryInferred }
  else item

/-- `merge_same_address`. -/
def mergeSameAddress (self : IncrementalListFold δ) (current next : ObjectInfo δ) : SameAddressMerge δ :=
  let currentConcrete := isConcreteDirectory current.kind
  let nextConcrete := isConcreteDirectory next.kind
  if current.kind == .DirectoryInferred && nextConcrete then .Keep next
  else if currentConcrete && next.kind == .DirectoryInferred then .Keep current
  else if !self.hasRealDirectories && current.kind == .DirectoryMarker && next.kind == .DirectoryMarker then .Keep next
  else .EmitThenKeep current next

/-- `finish_item`. -/
def finishItem (U : UrlCrate) (bare : δ) (self : IncrementalListFold δ) (item : ObjectInfo δ) : IncrementalListFold δ :=
  if !self.recursiveFlat then { self with ready := self.ready ++ [.ok item] }
  else
    let ancestors := entryAncestors U self.listedPrefix item.address
    let shared := ((ancestors.zip self.previousAncestorChain).takeWhile fun (left, right) => left == right).length
    let synthesized := (ancestors.drop shared).map fun ancestor => .ok (inferredDirectoryInfo bare ancestor)
    let chain :=
      if endsWithSlash item.address && ancestors.getLast? != some item.address then ancestors ++ [item.address]
      else ancestors
    { self with ready := self.ready ++ synthesized ++ [.ok item], previousAncestorChain := chain }

/-- `finish_lookbehind`. -/
def finishLookbehind (U : UrlCrate) (bare : δ) (self : IncrementalListFold δ) : IncrementalListFold δ :=
  match self.lookbehind with
  | some item => finishItem U bare { self with lookbehind := none } item
  | none => self

/-- Put an error behind what is kept back, and end. -/
def fail (U : UrlCrate) (bare : δ) (self : IncrementalListFold δ) (error : Error) : IncrementalListFold δ :=
  let self := finishLookbehind U bare self
  { self with ready := self.ready ++ [.error error], failed := true }

/-- `reject_order_regression`. -/
def rejectOrderRegression (U : UrlCrate) (bare : δ) (self : IncrementalListFold δ) : IncrementalListFold δ :=
  fail U bare self ⟨.Internal, utf8 "recursive flat listing is not byte-sorted"⟩

/-- What `poll_next` does with an entry of the inner stream. -/
def accept (U : UrlCrate) (bare : δ) (self : IncrementalListFold δ) (item : ObjectInfo δ) : IncrementalListFold δ :=
  let orderingKey := key item.address.toParts
  let item := prepareItem U self item
  if self.recursiveFlat && self.lastInputKey.any fun previous => decide (orderingKey < previous) then
    rejectOrderRegression U bare self
  else
    let current := self.lookbehind
    let self := { self with lastInputKey := some orderingKey, lookbehind := none }
    match current with
    | none => { self with lookbehind := some item }
    | some current =>
      if current.address = item.address then
        match mergeSameAddress self current item with
        | .Keep item => { self with lookbehind := some item }
        | .EmitThenKeep current next => { finishItem U bare self current with lookbehind := some next }
      else { finishItem U bare self current with lookbehind := some item }

/-- Return the front of the queue, and `None` from an empty one. -/
def popReady (self : IncrementalListFold δ) : Poll (Option (Item δ)) × IncrementalListFold δ :=
  match self.ready with
  | item :: ready => (.Ready (some item), { self with ready })
  | [] => (.Ready none, self)

/-- The turns of the loop once the inner stream is at its end. -/
def pollEnded (U : UrlCrate) (bare : δ) (self : IncrementalListFold δ) :
    Poll (Option (Item δ)) × IncrementalListFold δ :=
  popReady (finishLookbehind U bare { self with innerDone := true })

/-- `poll_next`, with what the inner stream will answer. -/
def pollNext (U : UrlCrate) (bare : δ) : List (Poll (Item δ)) → IncrementalListFold δ →
    Poll (Option (Item δ)) × List (Poll (Item δ)) × IncrementalListFold δ
  | [], self =>
    match self.ready with
    | item :: ready => (.Ready (some item), [], { self with ready })
    | [] =>
      if self.failed then (.Ready none, [], self)
      else
        let (poll, self) := pollEnded U bare self
        (poll, [], self)
  | answer :: inner, self =>
    match self.ready with
    | item :: ready => (.Ready (some item), answer :: inner, { self with ready })
    | [] =>
      if self.failed then (.Ready none, answer :: inner, self)
      else if self.innerDone then
        let (poll, self) := pollEnded U bare self
        (poll, answer :: inner, self)
      else
        match answer with
        | .Pending => (.Pending, inner, self)
        | .Ready (.error error) => pollNext U bare inner (fail U bare self error)
        | .Ready (.ok item) => pollNext U bare inner (accept U bare self item)

/-- Polling again and again until the end, `out` is what comes. -/
inductive Yields (U : UrlCrate) (bare : δ) : List (Poll (Item δ)) → IncrementalListFold δ → List (Item δ) → Prop
  | done {inner inner' self self'} (h : pollNext U bare inner self = (.Ready none, inner', self')) :
    Yields U bare inner self []
  | item {inner inner' self self' item out} (h : pollNext U bare inner self = (.Ready (some item), inner', self'))
    (rest : Yields U bare inner' self' out) : Yields U bare inner self (item :: out)
  | pending {inner inner' self self' out} (h : pollNext U bare inner self = (.Pending, inner', self'))
    (rest : Yields U bare inner' self' out) : Yields U bare inner self out

/-! ### A whole run -/

/-- The items that the turns to come put in the queue. -/
def remaining (U : UrlCrate) (bare : δ) : List (Poll (Item δ)) → IncrementalListFold δ → List (Item δ)
  | [], self => if self.failed then [] else (finishLookbehind U bare { self with ready := [] }).ready
  | answer :: inner, self =>
    if self.failed then []
    else if self.innerDone then (finishLookbehind U bare { self with ready := [] }).ready
    else
      match answer with
      | .Pending => remaining U bare inner self
      | .Ready (.error error) => (fail U bare { self with ready := [] } error).ready
      | .Ready (.ok item) =>
        let self := accept U bare { self with ready := [] } item
        self.ready ++ remaining U bare inner self

/-- The queue, and then what is put in it. -/
def total (U : UrlCrate) (bare : δ) (inner : List (Poll (Item δ))) (self : IncrementalListFold δ) : List (Item δ) :=
  self.ready ++ remaining U bare inner self

section Runs

variable {U : UrlCrate} {bare : δ}

theorem remaining_ready (inner : List (Poll (Item δ))) (self : IncrementalListFold δ) (ready : List (Item δ)) :
    remaining U bare inner { self with ready } = remaining U bare inner self := by
  induction inner with
  | nil => rfl
  | cons answer inner ih =>
    rcases answer with - | error | item
    · simp only [remaining, ih]
    · rfl
    · rfl

variable {inner : List (Poll (Item δ))} {self : IncrementalListFold δ}

theorem remaining_of_failed (h : self.failed = true) : remaining U bare inner self = [] := by
  cases inner <;> simp [remaining, h]

theorem finishItem_lookbehind (self : IncrementalListFold δ) (item : ObjectInfo δ) :
    (finishItem U bare self item).lookbehind = self.lookbehind := by
  unfold finishItem
  split_ifs <;> rfl

theorem finishLookbehind_lookbehind (U : UrlCrate) (bare : δ) (self : IncrementalListFold δ) :
    (finishLookbehind U bare self).lookbehind = none := by
  unfold finishLookbehind
  cases h : self.lookbehind with
  | none => exact h
  | some item => exact finishItem_lookbehind _ item

theorem finishLookbehind_innerDone (self : IncrementalListFold δ) (innerDone : Bool) (bare : δ) :
    finishLookbehind U bare { self with innerDone } = { finishLookbehind U bare self with innerDone } := by
  obtain ⟨_, _, recursiveFlat, lookbehind, _, _, _, _, _⟩ := self
  cases lookbehind with
  | none => rfl
  | some item => cases recursiveFlat <;> rfl

theorem total_of_empty (h : self.ready = []) : total U bare inner self = remaining U bare inner self := by
  rw [total, h, List.nil_append]

/-- Nothing comes behind the end. -/
theorem remaining_of_ended (h : self.lookbehind = none)
    (hdone : self.innerDone = true) : remaining U bare inner self = [] := by
  cases inner <;> simp [remaining, finishLookbehind, h, hdone]

/-- What a poll does to what is to come. -/
def Advances (U : UrlCrate) (bare : δ) (inner : List (Poll (Item δ))) (self : IncrementalListFold δ) :
    Poll (Option (Item δ)) × List (Poll (Item δ)) × IncrementalListFold δ → Prop
  | (.Ready none, _, _) => total U bare inner self = []
  | (.Ready (some item), inner', self') =>
    total U bare inner self = item :: total U bare inner' self' ∧ inner'.length ≤ inner.length
  | (.Pending, inner', self') => total U bare inner self = total U bare inner' self' ∧ inner'.length < inner.length

theorem Advances.of_total {inner' : List (Poll (Item δ))} {self' : IncrementalListFold δ}
    {result : Poll (Option (Item δ)) × List (Poll (Item δ)) × IncrementalListFold δ}
    (h : Advances U bare inner' self' result) (htotal : total U bare inner self = total U bare inner' self')
    (hlen : inner'.length ≤ inner.length) : Advances U bare inner self result := by
  obtain ⟨poll, inner'', self''⟩ := result
  rcases poll with - | _ | item
  · exact ⟨htotal.trans h.1, Nat.lt_of_lt_of_le h.2 hlen⟩
  · exact htotal.trans h
  · exact ⟨htotal.trans h.1, Nat.le_trans h.2 hlen⟩

theorem advances_popReady {ended : IncrementalListFold δ}
    (htotal : total U bare inner self = ended.ready) (hended : remaining U bare inner ended = []) :
    Advances U bare inner self ((popReady ended).1, inner, (popReady ended).2) := by
  unfold popReady
  cases hr : ended.ready with
  | nil => exact htotal.trans hr
  | cons item ready =>
    refine ⟨?_, Nat.le_refl _⟩
    rw [htotal, hr, total, remaining_ready, hended, List.append_nil]

theorem advances_pollEnded (hready : self.ready = [])
    (hremaining : remaining U bare inner self = (finishLookbehind U bare { self with ready := [] }).ready) :
    Advances U bare inner self ((pollEnded U bare self).1, inner, (pollEnded U bare self).2) := by
  have hself : { self with ready := [] } = self := by rw [← hready]
  have hdone := finishLookbehind_innerDone (U := U) self true bare
  refine advances_popReady ?_ (remaining_of_ended (finishLookbehind_lookbehind U bare _) (by rw [hdone]))
  rw [total_of_empty hready, hremaining, hself, hdone]

/-- One poll. -/
theorem advances_pollNext (U : UrlCrate) (bare : δ) (inner : List (Poll (Item δ))) (self : IncrementalListFold δ) :
    Advances U bare inner self (pollNext U bare inner self) := by
  induction inner generalizing self with
  | nil =>
    unfold pollNext
    cases hready : self.ready with
    | cons item ready =>
      refine ⟨?_, Nat.le_refl _⟩
      simp only [total, hready, remaining_ready, List.cons_append]
    | nil =>
      cases hfailed : self.failed with
      | true =>
        show total U bare [] self = []
        rw [total, hready, remaining_of_failed hfailed]
        rfl
      | false => exact advances_pollEnded hready (by simp [remaining, hfailed])
  | cons answer inner ih =>
    unfold pollNext
    cases hready : self.ready with
    | cons item ready =>
      refine ⟨?_, Nat.le_refl _⟩
      simp only [total, hready, remaining_ready, List.cons_append]
    | nil =>
      have hself : { self with ready := [] } = self := by rw [← hready]
      cases hfailed : self.failed with
      | true =>
        show total U bare (answer :: inner) self = []
        rw [total, hready, remaining_of_failed hfailed]
        rfl
      | false =>
        cases hdone : self.innerDone with
        | true => exact advances_pollEnded hready (by simp [remaining, hfailed, hdone])
        | false =>
          have hgo : ¬ self.failed = true ∧ ¬ self.innerDone = true := by simp [hfailed, hdone]
          rcases answer with - | error | item
          · refine ⟨?_, Nat.lt_succ_self _⟩
            rw [total, total, remaining, if_neg hgo.1, if_neg hgo.2]
          · refine (ih (fail U bare self error)).of_total ?_ (Nat.le_succ _)
            have hfail : (fail U bare self error).failed = true := rfl
            rw [total_of_empty hready, total, remaining_of_failed hfail, List.append_nil, remaining, if_neg hgo.1,
              if_neg hgo.2, hself]
          · refine (ih (accept U bare self item)).of_total ?_ (Nat.le_succ _)
            rw [total_of_empty hready, total, remaining, if_neg hgo.1, if_neg hgo.2, hself]

/-- Polling until the end gives the queue and then what is put in it. -/
theorem yields_iff {out : List (Item δ)} : Yields U bare inner self out ↔ out = total U bare inner self := by
  constructor
  · intro h
    induction h with
    | @done inner inner' self self' h =>
      have hstep := advances_pollNext U bare inner self
      rw [h] at hstep
      exact hstep.symm
    | @item inner inner' self self' item out h rest ih =>
      have hstep := advances_pollNext U bare inner self
      rw [h] at hstep
      rw [ih, hstep.1]
    | @pending inner inner' self self' out h rest ih =>
      have hstep := advances_pollNext U bare inner self
      rw [h] at hstep
      rw [ih, hstep.1]
  · rintro rfl
    -- each poll takes an answer of the inner stream, or an item that is to come
    induction hn : inner.length + (total U bare inner self).length using Nat.strong_induction_on
      generalizing inner self with
    | _ n ih =>
      have hstep := advances_pollNext U bare inner self
      rcases hpoll : pollNext U bare inner self with ⟨poll, inner', self'⟩
      rw [hpoll] at hstep
      rcases poll with - | _ | item
      · rw [hstep.1]
        refine Yields.pending hpoll (ih _ ?_ rfl)
        rw [← hn, hstep.1]
        have := hstep.2
        omega
      · rw [show total U bare inner self = [] from hstep]
        exact Yields.done hpoll
      · rw [hstep.1]
        refine Yields.item hpoll (ih _ ?_ rfl)
        rw [← hn, hstep.1, List.length_cons]
        have := hstep.2
        omega

end Runs

/-! ### A flat store -/

/-- Two neighbours of which one is kept: directories with one address, one of them a marker. -/
def Fuses (current next : ObjectInfo δ) : Prop :=
  current.address = next.address ∧ current.kind ≠ .File ∧ next.kind ≠ .File ∧
    (current.kind = .DirectoryMarker ∨ next.kind = .DirectoryMarker)

instance (current next : ObjectInfo δ) : Decidable (Fuses current next) := inferInstanceAs (Decidable (_ ∧ _))

/-- The one that is kept: the later marker. -/
def fuse (current next : ObjectInfo δ) : ObjectInfo δ := if next.kind = .DirectoryMarker then next else current

/-- The entries that are finished, behind the one kept back. -/
def mergedFrom : ObjectInfo δ → List (ObjectInfo δ) → List (ObjectInfo δ)
  | current, [] => [current]
  | current, next :: xs =>
    if Fuses current next then mergedFrom (fuse current next) xs else current :: mergedFrom next xs

/-- The entries that are finished. -/
def merged : Option (ObjectInfo δ) → List (ObjectInfo δ) → List (ObjectInfo δ)
  | some current, xs => mergedFrom current xs
  | none, [] => []
  | none, x :: xs => mergedFrom x xs

variable {self : IncrementalListFold δ}

theorem prepareItem_flat {U : UrlCrate} (h : self.hasRealDirectories = false)
    (item : ObjectInfo δ) : prepareItem U self item = flatEntry (normalizeDirectoryAddress U item) := by
  rw [prepareItem, h]
  rfl

/-- The merge of two neighbours on a flat store. -/
theorem mergeSameAddress_flat (h : self.hasRealDirectories = false)
    {current next : ObjectInfo δ} (hc : current.kind ≠ .Directory) (hn : next.kind ≠ .Directory)
    (he : current.address = next.address) :
    mergeSameAddress self current next =
      if Fuses current next then .Keep (fuse current next) else .EmitThenKeep current next := by
  obtain ⟨address, kind, _, _⟩ := current
  obtain ⟨address', kind', _, _⟩ := next
  simp only at hc hn he
  subst he
  cases kind <;> cases kind' <;> simp_all [mergeSameAddress, Fuses, fuse, isConcreteDirectory]

section Flat

variable {U : UrlCrate} {bare : δ} {P : Url}

/-- The closing of the entries that are finished. -/
abbrev closed (U : UrlCrate) (bare : δ) (P : Url) (chain : List Url) (xs : List (ObjectInfo δ)) : List (ObjectInfo δ) :=
  Ancestry.closeChain (entryAncestors U P) endsWithSlash (inferredDirectoryInfo bare) ObjectInfo.address chain xs

variable {self : IncrementalListFold δ} {item : ObjectInfo δ}

theorem finishItem_flat (law : U.Lawful) (hparsed : U.Parsed P) (hP : Kept P.toParts)
    (hflat : self.recursiveFlat = true) (hlisted : self.listedPrefix = P)
    (hitem : Kept item.address.toParts) :
    finishItem U bare self item =
      { self with
        ready := self.ready ++ (closed U bare P self.previousAncestorChain [item]).map .ok
        previousAncestorChain := Ancestry.chainOf (entryAncestors U P) endsWithSlash item.address } := by
  have hself : (entryAncestors U P item.address).getLast? ≠ some item.address :=
    fun h => (entryAncestors_lawful law hparsed hP).irrefl hitem (List.mem_of_getLast? h)
  have hchain : (if endsWithSlash item.address && (entryAncestors U P item.address).getLast? != some item.address then
      entryAncestors U P item.address ++ [item.address] else entryAncestors U P item.address) =
      Ancestry.chainOf (entryAncestors U P) endsWithSlash item.address := by
    rw [bne_iff_ne.mpr hself, Bool.and_true, Ancestry.chainOf]
    split_ifs
    · rfl
    · exact (List.append_nil _).symm
  unfold finishItem
  rw [hflat, hlisted]
  simp only [Bool.not_true, Bool.false_eq_true, if_false, hchain]
  congr 1
  simp only [closed, Ancestry.closeChain, List.map_append, List.map_map, List.append_assoc]
  rfl

theorem closed_cons (chain : List Url) (x : ObjectInfo δ) (xs : List (ObjectInfo δ)) :
    closed U bare P chain (x :: xs) =
      closed U bare P chain [x] ++
        closed U bare P (Ancestry.chainOf (entryAncestors U P) endsWithSlash x.address) xs := by
  simp only [closed, Ancestry.closeChain, List.append_assoc, List.cons_append, List.nil_append]

/-- What a stream of entries answers, with any number of pending polls between them. -/
def Streams (inner : List (Poll (Item δ))) (items : List (ObjectInfo δ)) : Prop :=
  (inner.filterMap fun | .Pending => none | .Ready item => some item) = items.map .ok

/-- An entry in the order of the keys, on a flat store. -/
theorem accept_flat (U : UrlCrate) (bare : δ) (hreal : self.hasRealDirectories = false)
    (horder : ∀ previous ∈ self.lastInputKey, previous ≤ key item.address.toParts)
    (hkind : ∀ current ∈ self.lookbehind, current.kind ≠ .Directory) :
    accept U bare self item =
      let x := flatEntry (normalizeDirectoryAddress U item)
      let self' := { self with lastInputKey := some (key item.address.toParts), lookbehind := none }
      match self.lookbehind with
      | none => { self' with lookbehind := some x }
      | some current =>
        if Fuses current x then { self' with lookbehind := some (fuse current x) }
        else { finishItem U bare self' current with lookbehind := some x } := by
  have hany : (self.lastInputKey.any fun previous => decide (key item.address.toParts < previous)) = false := by
    cases hlast : self.lastInputKey with
    | none => rfl
    | some previous => exact decide_eq_false (List.not_lt.mpr (horder previous hlast))
  have hx : (flatEntry (normalizeDirectoryAddress U item)).kind ≠ .Directory :=
    prepared_kind (U := U) (List.mem_map.mpr ⟨item, List.mem_singleton_self item, rfl⟩)
  unfold accept
  simp only [hany, Bool.and_false, Bool.false_eq_true, if_false, prepareItem_flat hreal]
  cases hlook : self.lookbehind with
  | none => rfl
  | some current =>
    simp only
    by_cases he : current.address = (flatEntry (normalizeDirectoryAddress U item)).address
    · rw [if_pos he, mergeSameAddress_flat (by exact hreal) (hkind current hlook) hx he]
      by_cases hf : Fuses current (flatEntry (normalizeDirectoryAddress U item))
      · rw [if_pos hf, if_pos hf]
      · rw [if_neg hf, if_neg hf]
    · rw [if_neg he, if_neg fun hf => he hf.1]

/-- A flat recursive fold of the prefix, under way. -/
structure Under (P : Url) (fold : IncrementalListFold δ) : Prop where
  flat : fold.recursiveFlat = true
  real : fold.hasRealDirectories = false
  listed : fold.listedPrefix = P
  failed : fold.failed = false
  innerDone : fold.innerDone = false
  kept : ∀ current ∈ fold.lookbehind, Kept current.address.toParts
  kind : ∀ current ∈ fold.lookbehind, current.kind ≠ .Directory

/-- Another entry kept back. -/
theorem Under.keep {fold : IncrementalListFold δ} (h : Under P fold) {x : ObjectInfo δ} (hx : Kept x.address.toParts)
    (hk : x.kind ≠ .Directory) (lastInputKey : Option Bytes) (previousAncestorChain : List Url)
    (ready : List (Item δ)) :
    Under P { fold with lastInputKey, previousAncestorChain, ready, lookbehind := some x } := by
  refine ⟨h.flat, h.real, h.listed, h.failed, h.innerDone, ?_, ?_⟩
  · rintro current ⟨⟩
    exact hx
  · rintro current ⟨⟩
    exact hk

theorem fuse_cases {q : ObjectInfo δ → Prop} {current next : ObjectInfo δ} (hc : q current) (hn : q next) :
    q (fuse current next) := by
  unfold fuse
  split_ifs
  · exact hn
  · exact hc

variable {inner : List (Poll (Item δ))} {items : List (ObjectInfo δ)}

/-- What is put in the queue is the closing of the entries that are finished. -/
theorem remaining_flat (law : U.Lawful) (hparsed : U.Parsed P) (hP : Kept P.toParts)
    (hself : Under P self) (hinner : Streams inner items)
    (hkept : ∀ item ∈ items, Kept item.address.toParts)
    (hsorted : (self.lastInputKey.toList ++ items.map fun item => key item.address.toParts).Pairwise (· ≤ ·)) :
    remaining U bare inner self =
      (closed U bare P self.previousAncestorChain (merged self.lookbehind (prepared U items))).map .ok := by
  induction inner generalizing self items with
  | nil =>
    have hitems : items = [] := List.map_eq_nil_iff.mp hinner.symm
    subst hitems
    rw [remaining, hself.failed, if_neg (by simp), finishLookbehind]
    cases hlook : self.lookbehind with
    | none => rfl
    | some current =>
      simp only
      rw [finishItem_flat law hparsed hP (by exact hself.flat) (by exact hself.listed) (hself.kept current hlook)]
      rfl
  | cons answer inner ih =>
    have hgo : ¬ self.failed = true ∧ ¬ self.innerDone = true := by simp [hself.failed, hself.innerDone]
    rcases answer with - | error | item
    · rw [remaining, if_neg hgo.1, if_neg hgo.2]
      exact ih hself hinner hkept hsorted
    · cases items with
      | nil => cases hinner
      | cons item items => cases (List.cons.inj hinner).1
    · cases items with
      | nil => cases hinner
      | cons item' items =>
        obtain ⟨hitem, htail⟩ := List.cons.inj hinner
        obtain rfl : item = item' := by cases hitem; rfl
        rw [List.map_cons, List.pairwise_append] at hsorted
        obtain ⟨-, hsorted, horder⟩ := hsorted
        have hx : Kept (flatEntry (normalizeDirectoryAddress U item)).address.toParts := by
          rw [flatEntry_address]
          exact normalizeDirectoryAddress_kept law (hkept item List.mem_cons_self)
        have hxkind : (flatEntry (normalizeDirectoryAddress U item)).kind ≠ .Directory :=
          prepared_kind (U := U) (List.mem_map.mpr ⟨item, List.mem_singleton_self item, rfl⟩)
        have hkept' : ∀ item ∈ items, Kept item.address.toParts := fun i hi => hkept i (List.mem_cons_of_mem item hi)
        have hprep : prepared U (item :: items) = flatEntry (normalizeDirectoryAddress U item) :: prepared U items :=
          rfl
        have hready : Under P { self with ready := [] } :=
          ⟨hself.flat, hself.real, hself.listed, hself.failed, hself.innerDone, hself.kept, hself.kind⟩
        have haccept := accept_flat U bare hready.real
          (fun previous hprev => horder previous (Option.mem_toList.mpr hprev) _ List.mem_cons_self) hready.kind
        rw [remaining, if_neg hgo.1, if_neg hgo.2]
        simp only [haccept, hprep]
        generalize flatEntry (normalizeDirectoryAddress U item) = x at hx hxkind
        cases hlook : self.lookbehind with
        | none => exact ih (hready.keep hx hxkind _ _ _) htail hkept' hsorted
        | some current =>
          have hcurrent := hself.kept current hlook
          by_cases hf : Fuses current x
          · simp only [if_pos hf, merged, mergedFrom]
            have hfuse := hready.keep (fuse_cases (q := fun y => Kept y.address.toParts) hcurrent hx)
              (fuse_cases (q := fun y => y.kind ≠ .Directory) (hself.kind current hlook) hxkind)
              (some (key item.address.toParts)) self.previousAncestorChain []
            exact ih hfuse htail hkept' hsorted
          · simp only [if_neg hf, merged, mergedFrom]
            rw [closed_cons, List.map_append]
            rw [finishItem_flat law hparsed hP (by exact hself.flat) (by exact hself.listed) hcurrent]
            simp only [List.nil_append]
            congr 1
            exact ih (hready.keep hx hxkind _ _ _) htail hkept' hsorted

/-- A whole run over entries in the order of their keys. -/
theorem yields_flat (law : U.Lawful) (hparsed : U.Parsed P) (hP : Kept P.toParts) (hinner : Streams inner items)
    (hkept : ∀ item ∈ items, Kept item.address.toParts)
    (hsorted : (items.map fun item => key item.address.toParts).Pairwise (· ≤ ·)) {out : List (Item δ)} :
    Yields U bare inner (new P false true) out ↔
      out = (closed U bare P [] (merged none (prepared U items))).map .ok := by
  have hnew : Under P (new P false true : IncrementalListFold δ) :=
    ⟨rfl, rfl, rfl, rfl, rfl, fun _ h => (nomatch h), fun _ h => (nomatch h)⟩
  rw [yields_iff, total_of_empty rfl, remaining_flat law hparsed hP hnew hinner hkept hsorted]
  rfl

end Flat

end IncrementalListFold

end OvStorage.Listing
