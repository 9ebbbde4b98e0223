import OvStorage.Lib.Transition
import OvStorage.Cache.Metadata

/-!
# Histories of the metadata cache

The cache as a state machine: an `Event` is an operation, the moment it ran at and what
it returned, and a run is a list of events from the empty cache. The order in which
`insert` meets its victims is left to the step, within `VictimOrder`.

## What is proved

* `cache_history`: the contract of the cache, over every run.
-/

namespace OvStorage.Cache

open Address SegList Table

variable {Info : Type}

/-! ### The machine -/

/-- The operations of `MetadataCache`. -/
inductive Op (Info : Type)
  | get (key : MetadataCacheKey) (requested : CostFlags)
  | insert (key : MetadataCacheKey) (payload : MetadataCachePayload Info) (flags : CostFlags)
  | invalidateAddress (address : Url)
  | invalidatePrefix (pre : Url)
  | invalidateListsContaining (address : Url)
  | invalidateAll
  | purgeExpired

/-- What an operation returns. -/
inductive Answer (Info : Type)
  | lookup (result : MetadataLookup Info)
  | retained (stored : Bool)
  | unit

/-- An operation, its moment and its answer. -/
structure Event (Info : Type) where
  now : Nanos
  op : Op Info
  answer : Answer Info

/-- One operation of the cache. -/
inductive Step (U : UrlCrate) (limits : Limits) : CacheState Info → Event Info → CacheState Info → Prop
  | get (state : CacheState Info) (now : Nanos) (key : MetadataCacheKey) (requested : CostFlags) :
    Step U limits state ⟨now, .get key requested, .lookup (state.get now key requested).1⟩
      (state.get now key requested).2
  | insert (state : CacheState Info) (now : Nanos) (key : MetadataCacheKey) (payload : MetadataCachePayload Info)
      (flags : CostFlags) (victims : List (Nanos × MetadataCacheKey)) (order : VictimOrder (state.remove key) victims) :
    Step U limits state
      ⟨now, .insert key payload flags, .retained (state.insert limits now key payload flags victims).1⟩
      (state.insert limits now key payload flags victims).2
  | invalidateAddress (state : CacheState Info) (now : Nanos) (address : Url) :
    Step U limits state ⟨now, .invalidateAddress address, .unit⟩ (state.invalidateAddress U address)
  | invalidatePrefix (state : CacheState Info) (now : Nanos) (pre : Url) :
    Step U limits state ⟨now, .invalidatePrefix pre, .unit⟩ (state.invalidatePrefix pre)
  | invalidateListsContaining (state : CacheState Info) (now : Nanos) (address : Url) :
    Step U limits state ⟨now, .invalidateListsContaining address, .unit⟩ (state.invalidateListsContaining address)
  | invalidateAll (state : CacheState Info) (now : Nanos) :
    Step U limits state ⟨now, .invalidateAll, .unit⟩ state.invalidateAll
  | purgeExpired (state : CacheState Info) (now : Nanos) :
    Step U limits state ⟨now, .purgeExpired, .unit⟩ (state.purgeExpired now)

/-- The runs of a cache. -/
abbrev CacheRun (U : UrlCrate) (limits : Limits) : List (Event Info) → CacheState Info → Prop :=
  Run (· = CacheState.empty) (Step U limits)

/-- The operation is an invalidation that reaches the rows of the key. -/
def Op.removes (U : UrlCrate) (key : MetadataCacheKey) : Op Info → Bool
  | .invalidateAddress address =>
    key.address == (nodeSpellings U address).1 || key.address == (nodeSpellings U address).2
  | .invalidatePrefix pre => isUnderPrefix key.address (nodeAddress pre)
  | .invalidateListsContaining address => key.kind == .List && isUnderPrefix (nodeAddress address) key.address
  | .invalidateAll => true
  | _ => false

/-- The operation stores under the key. -/
def Op.stores (key : MetadataCacheKey) : Op Info → Bool
  | .insert key' _ _ => key' == key
  | _ => false

/-! ### The counter -/

/-- The counter is the sum of the sizes. -/
def Accounted (state : CacheState Info) : Prop := state.currentSize = state.entries.weight Entry.size

variable {state state' : CacheState Info}

theorem Accounted.remove (h : Accounted state) (key : MetadataCacheKey) : Accounted (state.remove key) := by
  unfold Accounted CacheState.remove at *
  split
  · rename_i existing hget
    have := weight_erase Entry.size hget
    dsimp only
    omega
  · exact h

theorem remove_currentSize_le (state : CacheState Info) (key : MetadataCacheKey) :
    (state.remove key).currentSize ≤ state.currentSize := by
  unfold CacheState.remove
  split
  · exact Nat.sub_le _ _
  · exact Nat.le_refl _

theorem Accounted.retainWithSize (h : Accounted state)
    (keep : MetadataCacheKey → Entry Info → Bool) : Accounted (state.retainWithSize keep) := by
  unfold Accounted CacheState.retainWithSize at *
  have := weight_retain_add Entry.size state.entries keep
  dsimp only
  omega

theorem retainWithSize_currentSize_le (state : CacheState Info) (keep : MetadataCacheKey → Entry Info → Bool) :
    (state.retainWithSize keep).currentSize ≤ state.currentSize := Nat.sub_le _ _

/-! ### Eviction -/

/-- The victims the loop takes. -/
def evicted (maxEntries size : ℕ) :
    List (Nanos × MetadataCacheKey) → CacheState Info → List (Nanos × MetadataCacheKey)
  | [], _ => []
  | victim :: victims, state =>
    if state.currentSize + size ≤ maxEntries then []
    else victim :: evicted maxEntries size victims (state.remove victim.2)

/-- Remove the rows of a list of victims. -/
def CacheState.removeAll (state : CacheState Info) (victims : List (Nanos × MetadataCacheKey)) : CacheState Info :=
  victims.foldl (fun state victim => state.remove victim.2) state

section Eviction

variable {maxEntries size : ℕ}

theorem evict_eq_removeAll (victims : List (Nanos × MetadataCacheKey)) (state : CacheState Info) :
    evict maxEntries size victims state = state.removeAll (evicted maxEntries size victims state) := by
  induction victims generalizing state with
  | nil => rfl
  | cons victim victims ih =>
    rw [evict, evicted]
    split_ifs
    · rfl
    · exact ih _

variable (maxEntries size) in
theorem evicted_front (victims : List (Nanos × MetadataCacheKey)) (state : CacheState Info) :
    evicted maxEntries size victims state <+: victims := by
  induction victims generalizing state with
  | nil => exact List.prefix_rfl
  | cons victim victims ih =>
    rw [evicted]
    split_ifs
    · exact List.nil_prefix
    · exact List.cons_prefix_cons.mpr ⟨rfl, ih _⟩

variable {victims : List (Nanos × MetadataCacheKey)} {state : CacheState Info}

/-- A victim is taken only while the new row does not fit. -/
theorem evicted_needed {pre post : List (Nanos × MetadataCacheKey)} {victim : Nanos × MetadataCacheKey}
    (h : evicted maxEntries size victims state = pre ++ victim :: post) :
    maxEntries < (state.removeAll pre).currentSize + size := by
  induction victims generalizing state pre with
  | nil => simp [evicted] at h
  | cons v victims ih =>
    rw [evicted] at h
    split_ifs at h with hfit
    · simp at h
    · cases pre with
      | nil => simpa [CacheState.removeAll] using Nat.lt_of_not_le hfit
      | cons p pre =>
        rw [List.cons_append, List.cons.injEq] at h
        obtain ⟨rfl, h⟩ := h
        show maxEntries < ((state.remove v.2).removeAll pre).currentSize + size
        exact ih h

theorem removeAll_rows {row : MetadataCacheKey × Entry Info} :
    row ∈ (state.removeAll victims).entries.rows ↔ row ∈ state.entries.rows ∧ ∀ v ∈ victims, row.1 ≠ v.2 := by
  induction victims generalizing state with
  | nil => simp [CacheState.removeAll]
  | cons v victims ih =>
    have hcons : state.removeAll (v :: victims) = (state.remove v.2).removeAll victims := rfl
    rw [hcons, ih, remove_entries, mem_erase]
    simp only [List.mem_cons, forall_eq_or_imp]
    tauto

theorem Accounted.removeAll (h : Accounted state)
    (victims : List (Nanos × MetadataCacheKey)) : Accounted (state.removeAll victims) := by
  induction victims generalizing state with
  | nil => exact h
  | cons v victims ih => exact ih (h.remove v.2)

/-- The loop ends with room for a row that the budget has room for at all. -/
theorem evict_fits (h : Accounted state)
    (hall : ∀ row ∈ state.entries.rows, ∃ v ∈ victims, v.2 = row.1) (hsize : size ≤ maxEntries) :
    (evict maxEntries size victims state).currentSize + size ≤ maxEntries := by
  induction victims generalizing state with
  | nil =>
    -- nothing is left to take, so nothing is stored
    have hrows : state.entries.rows = [] := by
      rw [List.eq_nil_iff_forall_not_mem]
      intro row hrow
      simpa using hall row hrow
    have hzero : state.currentSize = 0 := by
      rw [h, Table.weight, hrows]
      rfl
    rw [evict, hzero]
    omega
  | cons v victims ih =>
    rw [evict]
    split_ifs with hfit
    · exact hfit
    · apply ih (h.remove v.2)
      intro row hrow
      rw [remove_entries, mem_erase] at hrow
      obtain ⟨w, hw, he⟩ := hall row hrow.1
      rcases List.mem_cons.mp hw with rfl | hw
      · exact absurd he.symm hrow.2
      · exact ⟨w, hw, he⟩

end Eviction

variable {victims : List (Nanos × MetadataCacheKey)}

theorem VictimOrder.covers
    (h : VictimOrder state victims) : ∀ row ∈ state.entries.rows, (row.2.lastAccessed, row.1) ∈ victims :=
  fun row hrow => h.perm.mem_iff.mpr (List.mem_map.mpr ⟨row, hrow, rfl⟩)

/-- The guard on the loop changes nothing: the loop would stop at once, or had nothing to take. -/
theorem makeRoom_eq_evict (order : VictimOrder state victims) (maxEntries size : ℕ) :
    makeRoom maxEntries size victims state = evict maxEntries size victims state := by
  unfold makeRoom
  split_ifs with hc
  · rfl
  · cases hv : victims with
    | nil => rfl
    | cons v vs =>
      have hne : state.entries.rows ≠ [] := by
        intro he
        have hlen := order.perm.length_eq
        rw [he, hv] at hlen
        exact absurd hlen (by simp)
      have hfit : state.currentSize + size ≤ maxEntries := by
        by_contra hgt
        exact hc ⟨Nat.lt_of_not_le hgt, hne⟩
      rw [evict, if_pos hfit]

/-- What `insert` stores. -/
def newEntry (limits : Limits) (now : Nanos) (payload : MetadataCachePayload Info) (flags : CostFlags) : Entry Info :=
  ⟨payload, now, now, limits.ttl, max (objectInfoCount payload) 1, flags⟩

section Insert

variable {limits : Limits} {state : CacheState Info} {now : Nanos} {key : MetadataCacheKey}
  {payload : MetadataCachePayload Info} {flags : CostFlags} {victims : List (Nanos × MetadataCacheKey)}

/-- An oversized payload drops the prior value and is not stored. -/
theorem insert_oversized (h : limits.maxEntries < max (objectInfoCount payload) 1) :
    state.insert limits now key payload flags victims = (false, state.remove key) := by
  simp only [CacheState.insert, gt_iff_lt, h, if_true]

/-- Otherwise the loop makes room and the row is stored. -/
theorem insert_fitting (h : max (objectInfoCount payload) 1 ≤ limits.maxEntries)
    (order : VictimOrder (state.remove key) victims) :
    state.insert limits now key payload flags victims =
      (true,
        let room := evict limits.maxEntries (max (objectInfoCount payload) 1) victims (state.remove key)
        { entries := room.entries.insert key (newEntry limits now payload flags)
          currentSize := room.currentSize + max (objectInfoCount payload) 1 }) := by
  simp only [CacheState.insert, gt_iff_lt, not_lt.mpr h, if_false, makeRoom_eq_evict order]
  rfl

/-- The room made for a key holds no row of it. -/
theorem get_room_eq_none (maxEntries size : ℕ) :
    (evict maxEntries size victims (state.remove key)).entries.get key = none := by
  rw [get_eq_none_iff]
  intro v hv
  rw [evict_eq_removeAll, removeAll_rows, remove_entries, mem_erase] at hv
  exact hv.1.2 rfl

/-- `insert` says whether the key is stored. -/
theorem insert_retained_iff (order : VictimOrder (state.remove key) victims) :
    (state.insert limits now key payload flags victims).1 = true ↔
      ((state.insert limits now key payload flags victims).2.entries.get key).isSome = true := by
  rcases Nat.lt_or_ge limits.maxEntries (max (objectInfoCount payload) 1) with h | h
  · rw [insert_oversized h]
    simp [remove_entries]
  · rw [insert_fitting h order]
    simp

/-- The eviction of an `insert` that stores: victims go in the order of last use and before
every row that stays, and each only because the new row did not fit yet. -/
theorem insert_evicts (order : VictimOrder (state.remove key) victims)
    (h : (state.insert limits now key payload flags victims).1 = true) :
    ∃ gone : List (Nanos × MetadataCacheKey),
      (state.insert limits now key payload flags victims).2.entries =
        ((state.remove key).removeAll gone).entries.insert key (newEntry limits now payload flags) ∧
      gone.Pairwise (fun a b => a.1 ≤ b.1) ∧
      (∀ v ∈ gone, ∃ row ∈ (state.remove key).entries.rows, v = (row.2.lastAccessed, row.1)) ∧
      (∀ v ∈ gone, ∀ row ∈ ((state.remove key).removeAll gone).entries.rows, v.1 ≤ row.2.lastAccessed) ∧
      (∀ pre victim post, gone = pre ++ victim :: post →
        limits.maxEntries < ((state.remove key).removeAll pre).currentSize + max (objectInfoCount payload) 1) := by
  rcases Nat.lt_or_ge limits.maxEntries (max (objectInfoCount payload) 1) with hlt | hge
  · rw [insert_oversized hlt] at h
    exact absurd h (by simp)
  · refine ⟨evicted limits.maxEntries (max (objectInfoCount payload) 1) victims (state.remove key), ?_, ?_, ?_, ?_, ?_⟩
    · rw [insert_fitting hge order, evict_eq_removeAll]
    · exact order.sorted.sublist (evicted_front _ _ _ _).sublist
    · intro v hv
      obtain ⟨row, hrow, rfl⟩ := List.mem_map.mp (order.perm.mem_iff.mp ((evicted_front _ _ _ _).subset hv))
      exact ⟨row, hrow, rfl⟩
    · -- a row that stays is a candidate behind the victims
      intro v hv row hrow
      obtain ⟨rest, hrest⟩ :=
        evicted_front limits.maxEntries (max (objectInfoCount payload) 1) victims (state.remove key)
      rw [removeAll_rows] at hrow
      have hmem := order.covers row hrow.1
      rw [← hrest] at hmem
      rcases List.mem_append.mp hmem with hin | hin
      · exact absurd rfl (hrow.2 _ hin)
      · have hsorted := order.sorted
        rw [← hrest, List.pairwise_append] at hsorted
        exact hsorted.2.2 v hv _ hin
    · intro pre victim post he
      exact evicted_needed he

end Insert

/-- The counter is right and within the budget. -/
def WithinBudget (limits : Limits) (state : CacheState Info) : Prop :=
  Accounted state ∧ state.currentSize ≤ limits.maxEntries

variable {limits : Limits}

theorem WithinBudget.remove (h : WithinBudget limits state)
    (key : MetadataCacheKey) : WithinBudget limits (state.remove key) :=
  ⟨h.1.remove key, (remove_currentSize_le state key).trans h.2⟩

theorem WithinBudget.retainWithSize (h : WithinBudget limits state)
    (keep : MetadataCacheKey → Entry Info → Bool) : WithinBudget limits (state.retainWithSize keep) :=
  ⟨h.1.retainWithSize keep, (retainWithSize_currentSize_le state keep).trans h.2⟩

theorem WithinBudget.get (h : WithinBudget limits state) (now : Nanos)
    (key : MetadataCacheKey) (requested : CostFlags) : WithinBudget limits (state.get now key requested).2 := by
  unfold CacheState.get
  split
  · exact h
  · split_ifs
    · exact h.remove key
    · exact h
    · refine ⟨?_, h.2⟩
      have hw := weight_modify Entry.size state.entries key
        (f := fun e : Entry Info => { e with lastAccessed := now }) (fun _ => rfl)
      exact h.1.trans hw.symm

theorem WithinBudget.insert (h : WithinBudget limits state) (now : Nanos) (key : MetadataCacheKey)
    (payload : MetadataCachePayload Info) (flags : CostFlags) (order : VictimOrder (state.remove key) victims) :
    WithinBudget limits (state.insert limits now key payload flags victims).2 := by
  rcases Nat.lt_or_ge limits.maxEntries (max (objectInfoCount payload) 1) with hlt | hge
  · rw [insert_oversized hlt]
    exact h.remove key
  · rw [insert_fitting hge order]
    have hacc := h.1.remove key
    have hfits := evict_fits hacc (fun row hrow => ⟨_, order.covers row hrow, rfl⟩) hge
    refine ⟨?_, hfits⟩
    have hroom : Accounted (evict limits.maxEntries (max (objectInfoCount payload) 1) victims (state.remove key)) := by
      rw [evict_eq_removeAll]
      exact hacc.removeAll _
    unfold Accounted at hroom ⊢
    dsimp only
    rw [weight_insert, erase_of_get_none (get_room_eq_none _ _), ← hroom]
    exact Nat.add_comm _ _

variable {U : UrlCrate} {event : Event Info}

/-- Every operation keeps the counter right and within the budget. -/
theorem Step.withinBudget
    (hs : Step U limits state event state') (h : WithinBudget limits state) : WithinBudget limits state' := by
  cases hs with
  | get now key requested => exact h.get now key requested
  | insert now key payload flags victims order => exact h.insert now key payload flags order
  | invalidateAddress now address => exact h.retainWithSize _
  | invalidatePrefix now pre => exact h.retainWithSize _
  | invalidateListsContaining now address => exact h.retainWithSize _
  | invalidateAll now => exact ⟨rfl, Nat.zero_le _⟩
  | purgeExpired now => exact h.retainWithSize _

/-! ### What a step does to a row -/

/-- Two entries are of one insert: they differ at most in when they were last used. -/
def Entry.SameInsert (e e' : Entry Info) : Prop :=
  e.payload = e'.payload ∧ e.insertedAt = e'.insertedAt ∧ e.ttl = e'.ttl ∧ e.flags = e'.flags

variable {key : MetadataCacheKey}

/-- A row after a step was there before, and the step neither stored under its key nor was an
invalidation that reaches it; or the step stored it. -/
theorem step_rows (hs : Step U limits state event state') {entry' : Entry Info}
    (hrow : (key, entry') ∈ state'.entries.rows) :
    (∃ entry, (key, entry) ∈ state.entries.rows ∧ entry.SameInsert entry' ∧ event.op.removes U key = false ∧
      event.op.stores key = false) ∨
    (event = ⟨entry'.insertedAt, .insert key entry'.payload entry'.flags, .retained true⟩ ∧
      entry'.ttl = limits.ttl) := by
  cases hs with
  | get now key' requested =>
    left
    unfold CacheState.get at hrow
    split at hrow
    · exact ⟨entry', hrow, ⟨rfl, rfl, rfl, rfl⟩, rfl, rfl⟩
    · split_ifs at hrow
      · rw [remove_entries, mem_erase] at hrow
        exact ⟨entry', hrow.1, ⟨rfl, rfl, rfl, rfl⟩, rfl, rfl⟩
      · exact ⟨entry', hrow, ⟨rfl, rfl, rfl, rfl⟩, rfl, rfl⟩
      · rcases mem_modify.mp hrow with ⟨e, he, -, rfl⟩ | ⟨he, -⟩
        · exact ⟨e, he, ⟨rfl, rfl, rfl, rfl⟩, rfl, rfl⟩
        · exact ⟨entry', he, ⟨rfl, rfl, rfl, rfl⟩, rfl, rfl⟩
  | insert now key' payload flags victims order =>
    rcases Nat.lt_or_ge limits.maxEntries (max (objectInfoCount payload) 1) with hlt | hge
    · rw [insert_oversized hlt, remove_entries, mem_erase] at hrow
      exact Or.inl ⟨entry', hrow.1, ⟨rfl, rfl, rfl, rfl⟩, rfl, beq_eq_false_iff_ne.mpr (Ne.symm hrow.2)⟩
    · rw [insert_fitting hge order] at hrow ⊢
      rcases mem_insert.mp hrow with he | ⟨hm, hne⟩
      · cases he
        exact Or.inr ⟨rfl, rfl⟩
      · rw [evict_eq_removeAll, removeAll_rows, remove_entries, mem_erase] at hm
        exact Or.inl ⟨entry', hm.1.1, ⟨rfl, rfl, rfl, rfl⟩, rfl, beq_eq_false_iff_ne.mpr (Ne.symm hne)⟩
  | invalidateAddress now address =>
    obtain ⟨hm, hk⟩ := mem_retain.mp hrow
    have hk : (key.address != (nodeSpellings U address).1 && key.address != (nodeSpellings U address).2) = true := hk
    exact Or.inl ⟨entry', hm, ⟨rfl, rfl, rfl, rfl⟩, by simpa [Op.removes] using hk, rfl⟩
  | invalidatePrefix now pre =>
    obtain ⟨hm, hk⟩ := mem_retain.mp hrow
    exact Or.inl ⟨entry', hm, ⟨rfl, rfl, rfl, rfl⟩, by simpa [Op.removes] using hk, rfl⟩
  | invalidateListsContaining now address =>
    obtain ⟨hm, hk⟩ := mem_retain.mp hrow
    exact Or.inl ⟨entry', hm, ⟨rfl, rfl, rfl, rfl⟩, by rw [Op.removes]; exact Bool.not_eq_true' _ ▸ hk, rfl⟩
  | invalidateAll now => exact absurd hrow (by simp [CacheState.invalidateAll, CacheState.empty, Table.empty])
  | purgeExpired now =>
    obtain ⟨hm, -⟩ := mem_retain.mp hrow
    exact Or.inl ⟨entry', hm, ⟨rfl, rfl, rfl, rfl⟩, rfl, rfl⟩

/-! ### Whole runs -/

/-- The row is what the last insert of its key stored, and no invalidation since reaches it. -/
def Served (U : UrlCrate) (limits : Limits) (trace : List (Event Info)) (key : MetadataCacheKey) (entry : Entry Info) :
    Prop :=
  entry.ttl = limits.ttl ∧ ∃ before since,
    trace = before ++ ⟨entry.insertedAt, .insert key entry.payload entry.flags, .retained true⟩ :: since ∧
    ∀ event ∈ since, event.op.stores key = false ∧ event.op.removes U key = false

variable {trace : List (Event Info)}

theorem Served.step {entry entry' : Entry Info} (h : Served U limits trace key entry) (hsame : entry.SameInsert entry')
    (hr : event.op.removes U key = false) (hst : event.op.stores key = false) :
    Served U limits (trace ++ [event]) key entry' := by
  obtain ⟨httl, before, since, rfl, hsince⟩ := h
  obtain ⟨h1, h2, h3, h4⟩ := hsame
  refine ⟨h3 ▸ httl, before, since ++ [event], by rw [h1, h2, h4]; simp, ?_⟩
  intro ev hev
  rcases List.mem_append.mp hev with hev | hev
  · exact hsince ev hev
  · rw [List.mem_singleton.mp hev]; exact ⟨hst, hr⟩

/-- In every run, every row is served by its last insert. -/
theorem CacheRun.served
    (h : CacheRun U limits trace state) : ∀ row ∈ state.entries.rows, Served U limits trace row.1 row.2 := by
  refine h.invariant (I := fun trace state => ∀ row ∈ state.entries.rows, Served U limits trace row.1 row.2) ?_ ?_
  · rintro s rfl row hrow
    exact absurd hrow (by simp [CacheState.empty, Table.empty])
  · rintro trace s event s' - ih hs ⟨key, entry'⟩ hrow
    rcases step_rows hs hrow with ⟨entry, hm, hsame, hr, hst⟩ | ⟨rfl, httl⟩
    · exact (ih (key, entry) hm).step hsame hr hst
    · exact ⟨httl, trace, [], rfl, by simp⟩

theorem CacheRun.withinBudget (h : CacheRun U limits trace state) : WithinBudget limits state :=
  h.stateInvariant (I := WithinBudget limits) (by rintro s rfl; exact ⟨rfl, Nat.zero_le _⟩)
    fun _ _ _ hi hs => hs.withinBudget hi

/-- A hit is a row that has not expired and covers the request. -/
theorem get_hit {now : Nanos} {requested : CostFlags}
    {payload : MetadataCachePayload Info} (h : (state.get now key requested).1 = .Hit payload) :
    ∃ entry, (key, entry) ∈ state.entries.rows ∧ entry.payload = payload ∧ now - entry.insertedAt < entry.ttl ∧
      entry.flags.covers requested = true := by
  unfold CacheState.get at h
  split at h
  · cases h
  · rename_i entry hget
    split_ifs at h with hexp hcov
    refine ⟨entry, mem_rows_iff.mpr hget, MetadataLookup.Hit.inj h, Nat.lt_of_not_le hexp, ?_⟩
    simpa using hcov

/-- The contract of the cache: after every run, and for every operation that may follow it. -/
theorem cache_history {U : UrlCrate} {limits : Limits} {trace : List (Event Info)} {state : CacheState Info}
    (h : CacheRun U limits trace state) :
    -- the counter
    (state.currentSize = state.entries.weight Entry.size ∧ state.currentSize ≤ limits.maxEntries) ∧
    ∀ event state', Step U limits state event state' →
      -- what `insert` returns, and what it evicts
      (∀ key payload flags stored, event.op = .insert key payload flags → event.answer = .retained stored →
        (stored = true ↔ (state'.entries.get key).isSome = true) ∧
        (stored = true → ∃ gone : List (Nanos × MetadataCacheKey),
          state'.entries = ((state.remove key).removeAll gone).entries.insert key
            (newEntry limits event.now payload flags) ∧
          gone.Pairwise (fun a b => a.1 ≤ b.1) ∧
          (∀ v ∈ gone, ∃ row ∈ (state.remove key).entries.rows, v = (row.2.lastAccessed, row.1)) ∧
          (∀ v ∈ gone, ∀ row ∈ ((state.remove key).removeAll gone).entries.rows, v.1 ≤ row.2.lastAccessed) ∧
          (∀ pre victim post, gone = pre ++ victim :: post →
            limits.maxEntries < ((state.remove key).removeAll pre).currentSize + max (objectInfoCount payload) 1))) ∧
      -- where a hit comes from
      (∀ key requested payload, event.op = .get key requested → event.answer = .lookup (.Hit payload) →
        ∃ before since insertedAt flags,
          trace = before ++ ⟨insertedAt, .insert key payload flags, .retained true⟩ :: since ∧
          (∀ e ∈ since, e.op.stores key = false ∧ e.op.removes U key = false) ∧
          event.now - insertedAt < limits.ttl ∧ flags.covers requested = true) := by
  refine ⟨h.withinBudget, fun event state' hs => ⟨?_, ?_⟩⟩
  · intro key payload flags stored hop hans
    cases hs with
    | insert now key' payload' flags' victims order =>
      cases hop
      obtain rfl := Answer.retained.inj hans
      exact ⟨insert_retained_iff order, fun hst => insert_evicts order hst⟩
    | get | invalidateAddress | invalidatePrefix | invalidateListsContaining | invalidateAll | purgeExpired =>
      cases hop
  · intro key requested payload hop hans
    cases hs with
    | get now key' requested' =>
      cases hop
      obtain ⟨entry, hrow, rfl, hexp, hcov⟩ := get_hit (Answer.lookup.inj hans)
      obtain ⟨httl, before, since, he, hsince⟩ := h.served _ hrow
      exact ⟨before, since, entry.insertedAt, entry.flags, he, hsince, httl ▸ hexp, hcov⟩
    | insert | invalidateAddress | invalidatePrefix | invalidateListsContaining | invalidateAll | purgeExpired =>
      cases hop

/-- A `stat` of one principal. -/
def statKey : MetadataCacheKey := ⟨.Stat, some "alice", utf8 "s3://b/x", none⟩

/-- The event that stores it. -/
def storeEvent : Event ℕ := ⟨5, .insert statKey (.Stat 7) ⟨true, false⟩, .retained true⟩

/-- The cache after it. -/
def storedState : CacheState ℕ :=
  (CacheState.empty.insert ⟨1, 10⟩ 5 statKey (.Stat 7) ⟨true, false⟩ []).2

theorem storedState_run : CacheRun reference ⟨1, 10⟩ [storeEvent] storedState := by
  have hstart : CacheRun reference ⟨1, 10⟩ [] (CacheState.empty : CacheState ℕ) := Run.start rfl
  exact hstart.step (Step.insert CacheState.empty 5 statKey (.Stat 7) ⟨true, false⟩ [] ⟨by decide, by simp⟩)

/-- It is served from the event that stored it. -/
theorem cache_history_hit :
    ∃ before since insertedAt flags,
      [storeEvent] = before ++ ⟨insertedAt, .insert statKey (.Stat 7) flags, .retained true⟩ :: since ∧
      (∀ e ∈ since, e.op.stores statKey = false ∧ e.op.removes reference statKey = false) ∧
      9 - insertedAt < 10 ∧ flags.covers ⟨false, false⟩ = true :=
  ((cache_history storedState_run).2 _ _ (Step.get storedState 9 statKey ⟨false, false⟩)).2
    statKey ⟨false, false⟩ (.Stat 7) rfl rfl

end OvStorage.Cache
