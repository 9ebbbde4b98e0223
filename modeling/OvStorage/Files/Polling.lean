import OvStorage.Files.Disk
import OvStorage.Layer.Types
import OvStorage.Lib.Fallible
import OvStorage.Lib.Transition
import OvStorage.Listing.Join
import Mathlib.Data.List.Lex

/-!
# The polling watcher

`FileChangeStream` of `ovstorage/src/file/watch.rs`: a directory is scanned again and again, and what differs from the
scan before is queued as events.

## The model

A round of the loop in `next` is `turn`, and `next` goes on to the next round where a poll has queued nothing. What a
round observes is a parameter: whether the caller has cancelled, what the scan answers, and the clock as each event is
made. The sleep between two polls and the arguments of the scan are left out.

## What is proved

* `polling_replays`: whatever the scans answer, the events emitted replay the snapshots.
* `calls_replay`: the same of what the calls of `next` return.
-/

namespace OvStorage.Files

open Address Listing Layer SegList List Option

/-! ### The code -/

/-- `WatchSnapshotEntry`. -/
structure WatchSnapshotEntry where
  size : ℕ
  mtime : Option SystemTime
deriving DecidableEq

/-- The snapshot of a scan, by the key of the entry. -/
abbrev Snapshot := Table Bytes WatchSnapshotEntry

/-- `FileChangeStream`. -/
structure FileChangeStream where
  baseAddress : Url
  snapshot : Snapshot
  pending : List ChangeEvent

/-- `relative_path`, where `/` separates the components. -/
def relativePath (base path : Path) : Except Address.Error Bytes :=
  match path.dropPrefix? base with
  | some rel => .ok ([slash].intercalate rel)
  | none => .error ⟨.Internal, utf8 "scanned path was not under the watched base path"⟩

/-- What `SystemTime::now` answers as the event of a key is made, for the event and for its cursor. -/
abbrev Clock := Bytes → SystemTime × SystemTime

/-- `synthesize_file_etag`. -/
def synthesizeFileEtag (size : ℕ) (mtime : Option SystemTime) : Bytes :=
  utf8 s!"size:{size},mtime:{(mtime.map sinceEpoch).getD 0}"

/-- `fresh_watch_directory_cursor`. -/
def freshWatchDirectoryCursor (now : SystemTime) : WatchDirectoryCursor := utf8 s!"{sinceEpoch now}"

section Diff

variable (U : UrlCrate) (lossyDebug : Bytes → Bytes) (baseAddress : Url) (clock : Clock)

/-- `change_event`. -/
def changeEvent (relativeKey : Bytes) (kind : ChangeKind) (entry : Option WatchSnapshotEntry) :
    Except Address.Error ChangeEvent := do
  let address ← joinRelativeBytes U lossyDebug baseAddress relativeKey
  let now := clock relativeKey
  return .Object {
    address
    kind
    etag := entry.map fun entry => synthesizeFileEtag entry.size entry.mtime
    version := none
    size := entry.map WatchSnapshotEntry.size
    mtime := entry.bind WatchSnapshotEntry.mtime
    at' := now.1
    cursor := freshWatchDirectoryCursor now.2 }

/-- The keys of both snapshots, in order. -/
def snapshotKeys (old new : Snapshot) : List Bytes :=
  ((old.rows ++ new.rows).map Prod.fst).dedup.mergeSort fun a b => decide (a ≤ b)

/-- What has become of the key. -/
def changeOf (old new : Snapshot) (key : Bytes) : Option (ChangeKind × Option WatchSnapshotEntry) :=
  match old.get key, new.get key with
  | none, some current => some (.Created, some current)
  | some _, none => some (.Deleted, none)
  | some previous, some current =>
    if previous.size ≠ current.size ∨ previous.mtime ≠ current.mtime then some (.Modified, some current) else none
  | none, none => none

/-- The keys that differ, with what has become of them. -/
def changes (old new : Snapshot) : List (Bytes × ChangeKind × Option WatchSnapshotEntry) :=
  (snapshotKeys old new).filterMap fun key => (changeOf old new key).map fun change => (key, change)

/-- `diff_watch_directory_snapshots`. -/
def diffWatchDirectorySnapshots (old new : Snapshot) : Except Address.Error (List ChangeEvent) :=
  (changes old new).mapM fun change => changeEvent U lossyDebug baseAddress clock change.1 change.2.1 change.2.2

end Diff

/-- What a round of the loop observes. -/
structure Observed where
  cancelled : Bool
  cancelledAsleep : Bool
  scanned : Except Address.Error Snapshot
  clock : Clock

/-- What a round of the loop comes to. -/
inductive Turned
  | ended
  | emitted (event : ChangeEvent)
  | failed (error : Address.Error)
  | diffed (next : Snapshot)

namespace FileChangeStream

variable (U : UrlCrate) (lossyDebug : Bytes → Bytes)

/-- `FileChangeStream::new`, with what the initial scan answers. -/
def new (scanned : Except Address.Error Snapshot) (baseAddress : Url) (since : Option WatchDirectoryCursor)
    (now : SystemTime) :
    Except Address.Error FileChangeStream := do
  let snapshot ← scanned
  return {
    baseAddress
    snapshot
    pending := if since.isSome then [.Lapsed none (freshWatchDirectoryCursor now)] else [] }

/-- A round of the loop in `next`. -/
def turn (self : FileChangeStream) (o : Observed) : Turned × FileChangeStream :=
  if o.cancelled then (.ended, self)
  else
    match self.pending with
    | event :: pending => (.emitted event, { self with pending })
    | [] =>
      if o.cancelledAsleep then (.ended, self)
      else
        match o.scanned with
        | .error error => (.failed error, self)
        | .ok next =>
          match diffWatchDirectorySnapshots U lossyDebug self.baseAddress o.clock self.snapshot next with
          | .error error => (.failed error, self)
          | .ok pending => (.diffed next, { self with snapshot := next, pending })

/-- `next`, as far as the observations go: what it returns, and those that are left. -/
def next (self : FileChangeStream) :
    List Observed → Option (Option (Except Address.Error ChangeEvent) × List Observed) × FileChangeStream
  | [] => (none, self)
  | o :: rest =>
    match self.turn U lossyDebug o with
    | (.ended, self) => (some (none, rest), self)
    | (.emitted event, self) => (some (some (.ok event), rest), self)
    | (.failed error, self) => (some (some (.error error), rest), self)
    | (.diffed _, self) => next self rest

end FileChangeStream

/-! ### The addresses of keys -/

section Addresses

variable {U : UrlCrate} {lossyDebug : Bytes → Bytes} {base : Url} {k k' : Bytes} {u : Url}

theorem head_of_join (h : joinRelativeBytes U lossyDebug base k = .ok u) : k.head? ≠ some slash := by
  intro hhead
  rw [joinRelativeBytes, if_pos hhead] at h
  cases h

/-- Distinct keys have distinct addresses. -/
theorem join_injective (law : U.Lawful) (hbase : Canonical U base) (h : joinRelativeBytes U lossyDebug base k = .ok u)
    (h' : joinRelativeBytes U lossyDebug base k' = .ok u) : k = k' := by
  have hkey : ∀ {k}, joinRelativeBytes U lossyDebug base k = .ok u → k ≠ [] →
      key u.toParts = key base.toParts ++ (if base.path.getLast? = some slash then [] else [slash]) ++ k :=
    fun h hne => ((joinRelativeBytes_key law hbase (head_of_join h)).2 u h).2.2.2 hne
  have hbaseKey : ∀ {k}, joinRelativeBytes U lossyDebug base k = .ok u → k ≠ [] → u ≠ base := by
    rintro k h hne rfl
    have hlength := congrArg List.length (hkey h hne)
    simp only [length_append] at hlength
    exact hne (length_eq_zero_iff.mp (by omega))
  have hempty : ∀ {k}, joinRelativeBytes U lossyDebug base k = .ok u → k = [] → u = base :=
    fun h hnil => ((joinRelativeBytes_key law hbase (head_of_join h)).2 u h).2.2.1 hnil
  by_cases hk : k = []
  · by_cases hk' : k' = []
    · rw [hk, hk']
    · exact absurd (hempty h hk) (hbaseKey h' hk')
  · by_cases hk' : k' = []
    · exact absurd (hempty h' hk') (hbaseKey h hk)
    · exact append_cancel_left ((hkey h hk).symm.trans (hkey h' hk'))

/-- The key of an entry that a scan finds below its base. -/
def Scanned (k : Bytes) : Prop :=
  ∃ base names, names ≠ [] ∧ (∀ name ∈ names, Names name ∧ slash ∉ name) ∧ relativePath base (base ++ names) = .ok k

theorem Scanned.addressable (h : Scanned k) : k.head? ≠ some slash ∧ Addressable k := by
  obtain ⟨above, names, hne, hnames, hk⟩ := h
  obtain ⟨name, names, rfl⟩ := exists_cons_of_ne_nil hne
  rw [relativePath, dropPrefix?_eq_some.mpr rfl] at hk
  cases hk
  obtain ⟨⟨hname, hslash⟩, hrest⟩ := forall_mem_cons.mp hnames
  rw [intercalate_cons]
  constructor
  · rw [List.head?_append_of_ne_nil _ hname.1]
    exact fun hhead => hslash (mem_of_head? hhead)
  · rw [addressable_iff, splitOn_append_pieces hslash fun name hmem => (hrest name hmem).2, settled_iff]
    refine ⟨fun s hs => (hnames s (dropLast_subset _ hs)).1, fun s hs => .inr (hnames s (mem_of_getLast? hs)).1⟩

/-- What a scan finds has an address. -/
theorem Scanned.exists_join (law : U.Lawful) (hbase : Canonical U base) (h : Scanned k) :
    ∃ u, joinRelativeBytes U lossyDebug base k = .ok u :=
  (joinRelativeBytes_key law hbase h.addressable.1).1.mpr h.addressable.2

end Addresses

/-! ### Replaying events -/

/-- What an event says of its address. -/
def sets : ChangeEvent → Option (Url × Option WatchSnapshotEntry)
  | .Lapsed _ _ => none
  | .Object event =>
    match event.kind with
    | .Created | .Modified => some (event.address, some ⟨event.size.getD 0, event.mtime⟩)
    | .Deleted => some (event.address, none)
    | .MetadataChanged => none

/-- The entries by their addresses, as the events have it. -/
def replay (entries : Url → Option WatchSnapshotEntry) (events : List ChangeEvent) : Url → Option WatchSnapshotEntry :=
  events.foldl (fun entries event =>
    ((sets event).map fun set => Function.update entries set.1 set.2).getD entries) entries

/-- The snapshot by the addresses of its keys. -/
def shown (U : UrlCrate) (lossyDebug : Bytes → Bytes) (base : Url) (snapshot : Snapshot) (u : Url) :
    Option WatchSnapshotEntry :=
  (snapshot.rows.find? fun row => decide (joinRelativeBytes U lossyDebug base row.1 = .ok u)).map Prod.snd

theorem replay_append (entries : Url → Option WatchSnapshotEntry) (events events' : List ChangeEvent) :
    replay entries (events ++ events') = replay (replay entries events) events' :=
  foldl_append

variable {entries : Url → Option WatchSnapshotEntry} {events : List ChangeEvent}

theorem replay_of_notMem {u : Url}
    (h : ∀ event ∈ events, ∀ set ∈ sets event, set.1 ≠ u) : replay entries events u = entries u := by
  induction events generalizing entries with
  | nil => rfl
  | cons event events ih =>
    obtain ⟨hevent, hevents⟩ := forall_mem_cons.mp h
    refine (ih hevents).trans ?_
    cases hset : sets event with
    | none => simp only [hset, map_none, getD_none]
    | some set =>
      simp only [hset, map_some, getD_some]
      exact Function.update_of_ne (hevent set hset).symm _ _

theorem replay_of_mem {u : Url}
    {entry : Option WatchSnapshotEntry} (hevents : ∃ event ∈ events, sets event = some (u, entry))
    (h : ∀ event ∈ events, ∀ set ∈ sets event, set.1 = u → set.2 = entry) : replay entries events u = entry := by
  induction events using List.reverseRecOn with
  | nil => simp at hevents
  | append_singleton events last ih =>
    rw [replay_append]
    by_cases hlast : ∃ set ∈ sets last, set.1 = u
    · obtain ⟨⟨_, entry'⟩, hset, rfl⟩ := hlast
      have hentry := h last (by simp) _ hset rfl
      simp only [replay, foldl_cons, foldl_nil, mem_def.mp hset, map_some, getD_some,
        Function.update_self]
      exact hentry
    · push Not at hlast
      rw [replay_of_notMem (by simpa using hlast)]
      refine ih ?_ fun event hevent => h event (mem_append_left _ hevent)
      obtain ⟨event, hevent, hset⟩ := hevents
      rcases mem_append.mp hevent with hevent | hevent
      · exact ⟨event, hevent, hset⟩
      · obtain rfl := mem_singleton.mp hevent
        exact absurd rfl (hlast _ hset)

section Diff

variable {U : UrlCrate} {lossyDebug : Bytes → Bytes} {base : Url} {clock : Clock} {old new : Snapshot}
  {k : Bytes} {u : Url}

theorem shown_of_join (law : U.Lawful) (hbase : Canonical U base) (h : joinRelativeBytes U lossyDebug base k = .ok u)
    (snapshot : Snapshot) : shown U lossyDebug base snapshot u = snapshot.get k := by
  cases hfind : snapshot.rows.find? fun row => decide (joinRelativeBytes U lossyDebug base row.1 = .ok u) with
  | none =>
    rw [shown, hfind, map_none, eq_comm, Table.get_eq_none_iff]
    intro v hrow
    simpa [h] using List.find?_eq_none.mp hfind _ hrow
  | some row =>
    rw [shown, hfind, map_some, eq_comm, ← Table.mem_rows_iff]
    have hrow : joinRelativeBytes U lossyDebug base row.1 = .ok u := by simpa using List.find?_some hfind
    rw [join_injective law hbase h hrow]
    exact mem_of_find?_eq_some hfind

theorem shown_of_not_join (h : ∀ k, joinRelativeBytes U lossyDebug base k ≠ .ok u) (snapshot : Snapshot) :
    shown U lossyDebug base snapshot u = none := by
  rw [shown, List.find?_eq_none.mpr fun row _ => by simpa using h row.1]
  rfl

/-! ### The diff of two snapshots -/

theorem changeOf_eq_none_iff : changeOf old new k = none ↔ old.get k = new.get k := by
  unfold changeOf
  cases hold : old.get k with
  | none => cases hnew : new.get k <;> simp
  | some previous =>
    cases hnew : new.get k with
    | none => simp
    | some current =>
      obtain ⟨size, mtime⟩ := previous
      obtain ⟨size', mtime'⟩ := current
      simp

/-- An event of a key says what has become of it. -/
theorem sets_changeEvent {kind : ChangeKind} {entry : Option WatchSnapshotEntry} {event : ChangeEvent}
    (hchange : changeOf old new k = some (kind, entry))
    (h : changeEvent U lossyDebug base clock k kind entry = .ok event) :
    ∃ u, joinRelativeBytes U lossyDebug base k = .ok u ∧ sets event = some (u, new.get k) := by
  cases hjoin : joinRelativeBytes U lossyDebug base k with
  | error error =>
    simp only [changeEvent, hjoin] at h
    cases h
  | ok u =>
    simp only [changeEvent, hjoin] at h
    cases h
    refine ⟨u, rfl, ?_⟩
    unfold changeOf at hchange
    cases hold : old.get k <;> cases hnew : new.get k <;> simp only [hold, hnew] at hchange
    · cases hchange
    · cases hchange
      rfl
    · cases hchange
      rfl
    · split_ifs at hchange
      cases hchange
      rfl

theorem mem_changes {change : ChangeKind × Option WatchSnapshotEntry} :
    (k, change) ∈ changes old new ↔ changeOf old new k = some change := by
  simp only [changes, mem_filterMap, map_eq_some_iff, Prod.mk.injEq]
  constructor
  · rintro ⟨key, -, found, hfound, rfl, rfl⟩
    exact hfound
  · intro h
    refine ⟨k, ?_, change, h, rfl, rfl⟩
    rw [snapshotKeys, mem_mergeSort, mem_dedup]
    by_contra hmem
    have hnone : ∀ t ∈ [old, new], t.get k = none := by
      intro t ht
      rw [Table.get_eq_none_iff]
      intro v hrow
      refine hmem (mem_map.mpr ⟨(k, v), mem_append.mpr ?_, rfl⟩)
      simpa using (mem_pair.mp ht).imp (fun h => h ▸ hrow) fun h => h ▸ hrow
    rw [changeOf_eq_none_iff.mpr ((hnone old (by simp)).trans (hnone new (by simp)).symm)] at h
    cases h

theorem nodup_changes : ((changes old new).map Prod.fst).Nodup := by
  have hkeys : (snapshotKeys old new).Nodup := (mergeSort_perm _ _).nodup_iff.mpr (nodup_dedup _)
  rw [List.Nodup, pairwise_map, changes, pairwise_filterMap]
  refine hkeys.imp fun {key key'} hne change hchange change' hchange' => ?_
  obtain ⟨_, -, rfl⟩ := map_eq_some_iff.mp hchange
  obtain ⟨_, -, rfl⟩ := map_eq_some_iff.mp hchange'
  exact hne

/-- The events tell what has become of each key that differs, once. -/
structure Tells (U : UrlCrate) (lossyDebug : Bytes → Bytes) (base : Url) (old new : Snapshot)
    (events : List ChangeEvent) : Prop where
  sound : ∀ event ∈ events, ∃ k u, joinRelativeBytes U lossyDebug base k = .ok u ∧ old.get k ≠ new.get k ∧
    sets event = some (u, new.get k)
  complete : ∀ k, old.get k ≠ new.get k → ∃ event ∈ events, ∃ u, joinRelativeBytes U lossyDebug base k = .ok u ∧
    sets event = some (u, new.get k)
  once : events.Pairwise fun event event' => ∀ set ∈ sets event, ∀ set' ∈ sets event', set.1 ≠ set'.1

variable {events : List ChangeEvent}

theorem tells_of_diff (law : U.Lawful) (hbase : Canonical U base)
    (h : diffWatchDirectorySnapshots U lossyDebug base clock old new = .ok events) :
    Tells U lossyDebug base old new events := by
  have hsets : ∀ {change event}, change ∈ changes old new →
      changeEvent U lossyDebug base clock change.1 change.2.1 change.2.2 = .ok event →
      ∃ u, joinRelativeBytes U lossyDebug base change.1 = .ok u ∧ sets event = some (u, new.get change.1) :=
    fun hmem => sets_changeEvent (mem_changes.mp hmem)
  refine ⟨fun event hevent => ?_, fun k hk => ?_, ?_⟩
  · obtain ⟨change, hmem, hchange⟩ := Fallible.mem_of_mem_mapM h hevent
    obtain ⟨u, hu, hset⟩ := hsets hmem hchange
    refine ⟨change.1, u, hu, fun heq => ?_, hset⟩
    cases (mem_changes.mp hmem).symm.trans (changeOf_eq_none_iff.mpr heq)
  · obtain ⟨change, hchange⟩ := ne_none_iff_exists'.mp (mt changeOf_eq_none_iff.mp hk)
    obtain ⟨event, hevent, hmade⟩ := Fallible.mem_of_mapM h (mem_changes.mpr hchange)
    exact ⟨event, hevent, hsets (mem_changes.mpr hchange) hmade⟩
  · refine Fallible.pairwise_mapM h (pairwise_map.mp nodup_changes)
      fun change hmem change' hmem' hne event event' hmade hmade' => ?_
    obtain ⟨u, hu, hset⟩ := hsets hmem hmade
    obtain ⟨u', hu', hset'⟩ := hsets hmem' hmade'
    intro set hs set' hs' heq
    rw [hset] at hs
    rw [hset'] at hs'
    cases hs
    cases hs'
    obtain rfl : u = u' := heq
    exact hne (join_injective law hbase hu hu')

/-- Where all keys come from scans, the diff does not fail. -/
theorem exists_diff (law : U.Lawful) (hbase : Canonical U base)
    (hscanned : ∀ row ∈ old.rows ++ new.rows, Scanned row.1) :
    ∃ events, diffWatchDirectorySnapshots U lossyDebug base clock old new = .ok events := by
  refine Fallible.exists_mapM_eq_ok fun change hmem => ?_
  obtain ⟨key, hkey, hchange⟩ := mem_filterMap.mp hmem
  obtain ⟨_, -, rfl⟩ := map_eq_some_iff.mp hchange
  rw [snapshotKeys, mem_mergeSort, mem_dedup] at hkey
  obtain ⟨row, hrow, rfl⟩ := mem_map.mp hkey
  obtain ⟨u, hu⟩ := @Scanned.exists_join U lossyDebug base row.1 law hbase (hscanned row hrow)
  simp only [changeEvent, hu]
  exact ⟨_, rfl⟩

theorem Tells.replay (law : U.Lawful) (hbase : Canonical U base) (h : Tells U lossyDebug base old new events) :
    replay (shown U lossyDebug base old) events = shown U lossyDebug base new := by
  funext u
  by_cases hu : ∃ k, joinRelativeBytes U lossyDebug base k = .ok u
  · obtain ⟨k, hk⟩ := hu
    -- an event of the address is one of the key
    have hevent : ∀ event ∈ events, ∀ set ∈ sets event, set.1 = u → old.get k ≠ new.get k ∧ set.2 = new.get k := by
      rintro event hevent set hset rfl
      obtain ⟨k', u', hk', hne, hset'⟩ := h.sound event hevent
      cases hset.symm.trans hset'
      obtain rfl := join_injective law hbase hk hk'
      exact ⟨hne, rfl⟩
    rw [shown_of_join law hbase hk]
    by_cases hne : old.get k = new.get k
    · rw [replay_of_notMem fun event hmem set hset heq => (hevent event hmem set hset heq).1 hne,
        shown_of_join law hbase hk, hne]
    · refine replay_of_mem ?_ fun event hmem set hset heq => (hevent event hmem set hset heq).2
      obtain ⟨event, hmem, u', hu', hset⟩ := h.complete k hne
      cases hk.symm.trans hu'
      exact ⟨event, hmem, hset⟩
  · push Not at hu
    rw [shown_of_not_join hu, replay_of_notMem, shown_of_not_join hu]
    rintro event hevent set hset rfl
    obtain ⟨k, u, hk, -, hset'⟩ := h.sound event hevent
    cases hset.symm.trans hset'
    exact hu k hk

end Diff

/-! ### The runs of a stream -/

/-- A stream on a base, whose initial scan gave the snapshot. -/
def Opened (base : Url) (initial : Snapshot) (s : FileChangeStream) : Prop :=
  ∃ since now, FileChangeStream.new (.ok initial) base since now = .ok s

/-- A round of the loop, by what it observes and comes to. -/
def Rounds (U : UrlCrate) (lossyDebug : Bytes → Bytes) (s : FileChangeStream) (l : Observed × Turned)
    (s' : FileChangeStream) : Prop :=
  s.turn U lossyDebug l.1 = (l.2, s')

/-- The events that the rounds emit. -/
def emitted (trace : List (Observed × Turned)) : List ChangeEvent :=
  trace.filterMap fun l => match l.2 with | .emitted event => some event | _ => none

/-- The snapshot that a round has diffed. -/
def diffedIn (l : Observed × Turned) : Option Snapshot := match l.2 with | .diffed next => some next | _ => none

/-- The snapshot that was last diffed. -/
def lastDiffed (initial : Snapshot) (trace : List (Observed × Turned)) : Snapshot :=
  (trace.filterMap diffedIn).getLast?.getD initial

section Runs

variable {U : UrlCrate} {lossyDebug : Bytes → Bytes} {base : Url} {initial : Snapshot}
  {trace : List (Observed × Turned)}
  {s s' : FileChangeStream} {l : Observed × Turned}

/-- What a round can do. -/
theorem turn_cases (h : Rounds U lossyDebug s l s') :
    (∃ event rest, l.2 = .emitted event ∧ s.pending = event :: rest ∧ s' = { s with pending := rest }) ∨
    (∃ next events, l.2 = .diffed next ∧ s.pending = [] ∧
      diffWatchDirectorySnapshots U lossyDebug s.baseAddress l.1.clock s.snapshot next = .ok events ∧
      s' = { s with snapshot := next, pending := events }) ∨
    ((l.2 = .ended ∨ ∃ error, l.2 = .failed error) ∧ s' = s) := by
  obtain ⟨o, outcome⟩ := l
  unfold Rounds FileChangeStream.turn at h
  by_cases hcancelled : o.cancelled = true
  · rw [if_pos hcancelled] at h
    cases h
    exact .inr (.inr ⟨.inl rfl, rfl⟩)
  rw [if_neg hcancelled] at h
  cases hpending : s.pending with
  | cons event rest =>
    simp only [hpending] at h
    cases h
    exact .inl ⟨event, rest, rfl, rfl, rfl⟩
  | nil =>
    simp only [hpending] at h
    by_cases hasleep : o.cancelledAsleep = true
    · rw [if_pos hasleep] at h
      cases h
      exact .inr (.inr ⟨.inl rfl, rfl⟩)
    rw [if_neg hasleep] at h
    cases hscanned : o.scanned with
    | error error =>
      simp only [hscanned] at h
      cases h
      exact .inr (.inr ⟨.inr ⟨error, rfl⟩, rfl⟩)
    | ok next =>
      simp only [hscanned] at h
      cases hdiff : diffWatchDirectorySnapshots U lossyDebug s.baseAddress o.clock s.snapshot next with
      | error error =>
        simp only [hdiff] at h
        cases h
        exact .inr (.inr ⟨.inr ⟨error, rfl⟩, rfl⟩)
      | ok events =>
        simp only [hdiff] at h
        cases h
        exact .inr (.inl ⟨next, events, rfl, rfl, hdiff, rfl⟩)

theorem emitted_concat (trace : List (Observed × Turned)) (l : Observed × Turned) :
    emitted (trace ++ [l]) = emitted trace ++ emitted [l] := filterMap_append

theorem lastDiffed_concat_of_none (h : diffedIn l = none) :
    lastDiffed initial (trace ++ [l]) = lastDiffed initial trace := by
  rw [lastDiffed, filterMap_append, filterMap_cons_none h, filterMap_nil, append_nil]
  rfl

theorem lastDiffed_concat_of_some {next : Snapshot} (h : diffedIn l = some next) :
    lastDiffed initial (trace ++ [l]) = next := by
  rw [lastDiffed, filterMap_append, filterMap_cons_some h, filterMap_nil, List.getLast?_concat]
  rfl

/-- What is queued completes the replay, and says nothing of a key twice. -/
structure Replays (U : UrlCrate) (lossyDebug : Bytes → Bytes) (base : Url) (initial : Snapshot)
    (trace : List (Observed × Turned)) (s : FileChangeStream) : Prop where
  baseAddress : s.baseAddress = base
  snapshot : s.snapshot = lastDiffed initial trace
  replay : replay (shown U lossyDebug base initial) (emitted trace ++ s.pending) = shown U lossyDebug base s.snapshot
  /-- Before the first diff there is nothing to tell. -/
  fresh : trace.filterMap diffedIn = [] → ∀ event ∈ emitted trace ++ s.pending, sets event = none
  since : ∀ before l mid next, trace = before ++ l :: mid → diffedIn l = some next → mid.filterMap diffedIn = [] →
    Tells U lossyDebug base (lastDiffed initial before) next (emitted mid ++ s.pending)

theorem Replays.init (h : Opened base initial s) : Replays U lossyDebug base initial [] s := by
  obtain ⟨since, now, hnew⟩ := h
  cases hnew
  have hpending : ∀ event ∈ (if since.isSome then [ChangeEvent.Lapsed none (freshWatchDirectoryCursor now)] else []),
      sets event = none := by
    intro event hevent
    split_ifs at hevent
    · obtain rfl := mem_singleton.mp hevent
      rfl
    · cases hevent
  refine ⟨rfl, rfl, funext fun u => replay_of_notMem fun event hevent set hset => ?_, fun _ => hpending,
    fun before l mid next h => ?_⟩
  · cases (hpending event hevent).symm.trans hset
  · simp at h

/-- A round that diffs nothing passes on what is queued. -/
theorem Replays.quiet (hs : Replays U lossyDebug base initial trace s) (hnone : diffedIn l = none)
    (hsame : s'.baseAddress = s.baseAddress ∧ s'.snapshot = s.snapshot)
    (hqueue : emitted [l] ++ s'.pending = s.pending) :
    Replays U lossyDebug base initial (trace ++ [l]) s' := by
  have hemitted : ∀ trace, emitted (trace ++ [l]) ++ s'.pending = emitted trace ++ s.pending := by
    intro trace
    rw [emitted_concat, append_assoc, hqueue]
  refine ⟨hsame.1.trans hs.baseAddress, ?_, ?_, fun hfresh => ?_, fun before l' mid next hsplit hnext hmid => ?_⟩
  · rw [hsame.2, lastDiffed_concat_of_none hnone, hs.snapshot]
  · rw [hemitted, hsame.2, hs.replay]
  · rw [filterMap_append, append_eq_nil_iff] at hfresh
    rw [hemitted]
    exact hs.fresh hfresh.1
  · induction mid using List.reverseRecOn with
    | nil =>
      obtain ⟨-, hlast⟩ := append_inj' hsplit rfl
      rw [← singleton_inj.mp hlast, hnone] at hnext
      cases hnext
    | append_singleton mid last _ =>
      rw [← cons_append, ← append_assoc] at hsplit
      obtain ⟨rfl, hlast⟩ := append_inj' hsplit rfl
      obtain rfl := singleton_inj.mp hlast
      rw [filterMap_append, append_eq_nil_iff] at hmid
      rw [hemitted]
      exact hs.since before l' mid next rfl hnext hmid.1

theorem Replays.step (law : U.Lawful) (hbase : Canonical U base) (hs : Replays U lossyDebug base initial trace s)
    (h : Rounds U lossyDebug s l s') : Replays U lossyDebug base initial (trace ++ [l]) s' := by
  rcases turn_cases h with ⟨event, rest, hl, hpending, rfl⟩ | ⟨next, events, hl, hpending, hdiff, rfl⟩ | ⟨hl, rfl⟩
  · exact hs.quiet (by simp [diffedIn, hl]) ⟨rfl, rfl⟩ (by simp [emitted, hl, hpending])
  · have hsome : diffedIn l = some next := by simp [diffedIn, hl]
    have hemitted : emitted (trace ++ [l]) = emitted trace := by
      rw [emitted_concat]
      simp [emitted, hl]
    rw [hs.baseAddress] at hdiff
    have htells := tells_of_diff law hbase hdiff
    have hreplay := hs.replay
    rw [hpending, append_nil] at hreplay
    refine ⟨hs.baseAddress, (lastDiffed_concat_of_some hsome).symm, ?_, fun hfresh => ?_,
      fun before l' mid next' hsplit hnext hmid => ?_⟩
    · rw [hemitted, replay_append, hreplay]
      exact htells.replay law hbase
    · simp [filterMap_append, hsome] at hfresh
    · induction mid using List.reverseRecOn with
      | nil =>
        obtain ⟨rfl, hlast⟩ := append_inj' hsplit rfl
        obtain rfl := singleton_inj.mp hlast
        cases hsome.symm.trans hnext
        rw [← hs.snapshot]
        exact htells
      | append_singleton mid last _ =>
        rw [← cons_append, ← append_assoc] at hsplit
        obtain ⟨-, hlast⟩ := append_inj' hsplit rfl
        obtain rfl := singleton_inj.mp hlast
        simp [filterMap_append, hsome] at hmid
  · refine hs.quiet ?_ ⟨rfl, rfl⟩ ?_
    · rcases hl with hl | ⟨error, hl⟩ <;> simp [diffedIn, hl]
    · rcases hl with hl | ⟨error, hl⟩ <;> simp [emitted, hl]

/-- The event that a call of `next` returns. -/
def returned : Option (Option (Except Address.Error ChangeEvent) × List Observed) → List ChangeEvent
  | some (some (.ok event), _) => [event]
  | _ => []

/-- A call of `next` goes through rounds, and emits what it returns. -/
theorem next_runs {init : FileChangeStream → Prop} (hrun : Run init (Rounds U lossyDebug) trace s)
    {observed : List Observed} {answer : Option (Option (Except Address.Error ChangeEvent) × List Observed)}
    (h : s.next U lossyDebug observed = (answer, s')) :
    ∃ rounds, Run init (Rounds U lossyDebug) (trace ++ rounds) s' ∧ emitted rounds = returned answer := by
  induction observed generalizing s trace with
  | nil =>
    cases h
    exact ⟨[], by rwa [append_nil], rfl⟩
  | cons o observed ih =>
    rw [FileChangeStream.next] at h
    cases hturn : s.turn U lossyDebug o with
    | mk outcome next =>
      have hround := hrun.step (show Rounds U lossyDebug s (o, outcome) next from hturn)
      rw [hturn] at h
      cases outcome with
      | ended | emitted | failed =>
        cases h
        exact ⟨_, hround, rfl⟩
      | diffed snapshot =>
        obtain ⟨rounds, hrounds, hemitted⟩ := ih hround h
        refine ⟨(o, .diffed snapshot) :: rounds, by rwa [append_cons], ?_⟩
        rw [← hemitted]
        rfl

end Runs

/-- Whatever the scans answer: the events emitted over the initial snapshot give the one that was last diffed whenever
nothing is queued, a key has an event after a diff exactly if it has changed since the diff before, and then one, a poll
fails with its scan and leaves the stream as it is, and where all keys come from scans it fails for no other reason. -/
theorem polling_replays {U : UrlCrate} {lossyDebug : Bytes → Bytes} {base : Url} {initial : Snapshot}
    {trace : List (Observed × Turned)} {s : FileChangeStream} (law : U.Lawful) (hbase : Canonical U base)
    (hrun : Run (Opened base initial) (Rounds U lossyDebug) trace s) :
    (∀ k k' u, joinRelativeBytes U lossyDebug base k = .ok u →
      joinRelativeBytes U lossyDebug base k' = .ok u → k = k') ∧
    (∀ snapshot k u, joinRelativeBytes U lossyDebug base k = .ok u →
      shown U lossyDebug base snapshot u = snapshot.get k) ∧
    (s.pending = [] → replay (shown U lossyDebug base initial) (emitted trace) =
      shown U lossyDebug base (lastDiffed initial trace)) ∧
    (trace.filterMap diffedIn = [] → ∀ event ∈ emitted trace, sets event = none) ∧
    (∀ before l mid next, trace = before ++ l :: mid → diffedIn l = some next → mid.filterMap diffedIn = [] →
      Tells U lossyDebug base (lastDiffed initial before) next (emitted mid ++ s.pending)) ∧
    ∀ o, o.cancelled = false → o.cancelledAsleep = false → s.pending = [] →
      (∀ error, o.scanned = .error error → s.turn U lossyDebug o = (.failed error, s)) ∧
      ∀ next, o.scanned = .ok next →
        (∃ error, s.turn U lossyDebug o = (.failed error, s)) ∧
            (∃ row ∈ (lastDiffed initial trace).rows ++ next.rows, ¬Scanned row.1) ∨
          ∃ events, Tells U lossyDebug base (lastDiffed initial trace) next events ∧
            s.turn U lossyDebug o = (.diffed next, { s with snapshot := next, pending := events }) := by
  have hs : Replays U lossyDebug base initial trace s :=
    Run.invariant (fun _ h => Replays.init h) (fun _ _ _ _ _ hs h => hs.step law hbase h) hrun
  refine ⟨fun _ _ _ h h' => join_injective law hbase h h', fun snapshot _ _ h => shown_of_join law hbase h snapshot,
    fun hpending => ?_,
    fun hfresh event hevent => hs.fresh hfresh event (mem_append_left _ hevent), hs.since,
    fun o hcancelled hasleep hpending => ?_⟩
  · have hreplay := hs.replay
    rwa [hpending, append_nil, hs.snapshot] at hreplay
  · refine ⟨fun error hscanned => ?_, fun next hscanned => ?_⟩
    · simp [FileChangeStream.turn, hcancelled, hasleep, hpending, hscanned]
    · cases hdiff : diffWatchDirectorySnapshots U lossyDebug s.baseAddress o.clock s.snapshot next with
      | ok events =>
        refine .inr ⟨events, ?_, by simp [FileChangeStream.turn, hcancelled, hasleep, hpending, hscanned, hdiff]⟩
        rw [hs.baseAddress, hs.snapshot] at hdiff
        exact tells_of_diff law hbase hdiff
      | error error =>
        refine .inl ⟨⟨error, by simp [FileChangeStream.turn, hcancelled, hasleep, hpending, hscanned, hdiff]⟩, ?_⟩
        by_contra hall
        push Not at hall
        obtain ⟨events, hevents⟩ :=
          @exists_diff U lossyDebug base o.clock (lastDiffed initial trace) next law hbase hall
        rw [hs.baseAddress, hs.snapshot, hevents] at hdiff
        cases hdiff

def watchedBase : Url := ⟨⟨FILE, true, [], none, none, none, utf8 "/srv/data/", none, none⟩, by decide +kernel⟩

/-- A scan that finds a file whose name is not UTF-8. -/
def foundFile : Observed := ⟨false, false, .ok (Table.empty.insert (utf8 "x" ++ [0xFF]) ⟨3, some 7⟩), fun _ => (9, 9)⟩

/-- The watch begins with an empty directory, and a poll finds the file. -/
def firstPoll : Turned × FileChangeStream := FileChangeStream.turn reference id ⟨watchedBase, Table.empty, []⟩ foundFile

def secondPoll : Turned × FileChangeStream := firstPoll.2.turn reference id foundFile

theorem polling_replays_found :
    emitted [(foundFile, firstPoll.1), (foundFile, secondPoll.1)] ≠ [] ∧
      replay (shown reference id watchedBase Table.empty)
        (emitted [(foundFile, firstPoll.1), (foundFile, secondPoll.1)]) =
        shown reference id watchedBase
          (lastDiffed Table.empty [(foundFile, firstPoll.1), (foundFile, secondPoll.1)]) := by
  have hbase : Canonical reference watchedBase :=
    reference_canonical _ [utf8 "srv", utf8 "data", []] (by decide +kernel) (by simp [watchedBase])
  have hrun : Run (Opened watchedBase Table.empty) (Rounds reference id)
        [(foundFile, firstPoll.1), (foundFile, secondPoll.1)]
      secondPoll.2 := ((Run.start ⟨none, 0, rfl⟩).step rfl).step rfl
  exact ⟨by decide +kernel, (polling_replays reference_lawful hbase hrun).2.2.1 (by decide +kernel)⟩

/-! ### The calls of a consumer -/

/-- A call of `next`: what it observes, and what it answers. -/
abbrev Call := List Observed × Option (Option (Except Address.Error ChangeEvent) × List Observed)

/-- The calls of `next` on a stream. -/
def Calls (U : UrlCrate) (lossyDebug : Bytes → Bytes) (s : FileChangeStream) (call : Call) (s' : FileChangeStream) :
    Prop :=
  s.next U lossyDebug call.1 = (call.2, s')

/-- The events that the calls have returned. -/
def handed (calls : List Call) : List ChangeEvent := calls.flatMap fun call => returned call.2

section Calls

variable {U : UrlCrate} {lossyDebug : Bytes → Bytes} {base : Url} {initial : Snapshot} {calls : List Call}
  {s s' : FileChangeStream}

/-- A round keeps the snapshot or takes that of its scan, and fails only where nothing is queued. -/
theorem turn_leaves {l : Observed × Turned} (h : Rounds U lossyDebug s l s') :
    (s'.snapshot = s.snapshot ∨ l.1.scanned = .ok s'.snapshot) ∧ ∀ error, l.2 = .failed error → s'.pending = [] := by
  unfold Rounds FileChangeStream.turn at h
  grind

/-- So does a call. -/
theorem next_leaves {observed : List Observed}
    {answer : Option (Option (Except Address.Error ChangeEvent) × List Observed)}
    (h : s.next U lossyDebug observed = (answer, s')) :
    (s'.snapshot = s.snapshot ∨ ∃ o ∈ observed, o.scanned = .ok s'.snapshot) ∧
      ∀ error rest, answer = some (some (.error error), rest) → s'.pending = [] := by
  induction observed generalizing s with
  | nil =>
    cases h
    exact ⟨.inl rfl, fun error rest h => by cases h⟩
  | cons o observed ih =>
    rw [FileChangeStream.next] at h
    cases hturn : s.turn U lossyDebug o with
    | mk outcome next =>
      obtain ⟨hsnapshot, hfailed⟩ := turn_leaves (show Rounds U lossyDebug s (o, outcome) next from hturn)
      rw [hturn] at h
      cases outcome with
      | ended | emitted =>
        cases h
        exact ⟨hsnapshot.imp_right fun h => ⟨o, mem_cons_self, h⟩, fun error rest h => by cases h⟩
      | failed error =>
        cases h
        exact ⟨hsnapshot.imp_right fun h => ⟨o, mem_cons_self, h⟩, fun _ _ _ => hfailed error rfl⟩
      | diffed snapshot =>
        obtain ⟨hkept | ⟨o', hmem, hscanned⟩, hpending⟩ := ih h
        · rw [hkept]
          exact ⟨hsnapshot.imp_right fun h => ⟨o, mem_cons_self, h⟩, hpending⟩
        · exact ⟨.inr ⟨o', mem_cons_of_mem _ hmem, hscanned⟩, hpending⟩

/-- The calls go through rounds, and return what these emit. -/
theorem calls_run (h : Run (Opened base initial) (Calls U lossyDebug) calls s) :
    ∃ trace, Run (Opened base initial) (Rounds U lossyDebug) trace s ∧ emitted trace = handed calls := by
  refine Run.invariant (I := fun calls s => ∃ trace, Run (Opened base initial) (Rounds U lossyDebug) trace s ∧
    emitted trace = handed calls) (fun s hs => ⟨[], .start hs, rfl⟩) (fun calls s call s' _ => ?_) h
  rintro ⟨trace, htrace, hemitted⟩ hcall
  obtain ⟨rounds, hrounds, hreturned⟩ := next_runs htrace hcall
  refine ⟨_, hrounds, ?_⟩
  rw [handed, flatMap_append, ← handed, ← hemitted, flatMap_singleton, ← hreturned, emitted, filterMap_append]
  rfl

/-- A watcher that is polled until it is dropped: the snapshot that it compares with next is the initial one or a
scan's; the events that its calls have returned, completed by those that are queued, carry the initial snapshot to it;
and a call that fails has lost nothing, since what was returned before it shows that snapshot already. -/
theorem calls_replay {U : UrlCrate} {lossyDebug : Bytes → Bytes} {base : Url} {initial : Snapshot} {calls : List Call}
    {s : FileChangeStream} (law : U.Lawful) (hbase : Canonical U base)
    (hrun : Run (Opened base initial) (Calls U lossyDebug) calls s) :
    (s.snapshot = initial ∨ ∃ call ∈ calls, ∃ o ∈ call.1, o.scanned = .ok s.snapshot) ∧
    replay (shown U lossyDebug base initial) (handed calls ++ s.pending) = shown U lossyDebug base s.snapshot ∧
    ∀ observed error rest s', s.next U lossyDebug observed = (some (some (.error error), rest), s') →
      replay (shown U lossyDebug base initial) (handed calls) = shown U lossyDebug base s'.snapshot := by
  have hreplays : ∀ {calls s}, Run (Opened base initial) (Calls U lossyDebug) calls s →
      replay (shown U lossyDebug base initial) (handed calls ++ s.pending) = shown U lossyDebug base s.snapshot := by
    intro calls s h
    obtain ⟨trace, htrace, hemitted⟩ := calls_run h
    have hs : Replays U lossyDebug base initial trace s :=
      Run.invariant (fun _ h => Replays.init h) (fun _ _ _ _ _ hs h => hs.step law hbase h) htrace
    exact hemitted ▸ hs.replay
  refine ⟨?_, hreplays hrun, fun observed error rest s' hfails => ?_⟩
  · refine Run.invariant (I := fun calls s => s.snapshot = initial ∨ ∃ call ∈ calls, ∃ o ∈ call.1,
      o.scanned = .ok s.snapshot)
      ?_ ?_ hrun
    · rintro s ⟨since, now, hnew⟩
      cases hnew
      exact .inl rfl
    · intro calls s call s' _ hs hcall
      rcases (next_leaves hcall).1 with hkept | hscanned
      · rw [hkept]
        exact hs.imp_right fun ⟨call, hmem, h⟩ => ⟨call, mem_append_left _ hmem, h⟩
      · exact .inr ⟨call, mem_append_right _ (mem_singleton_self _), hscanned⟩
  · have hafter := hreplays (hrun.step
      (show Calls U lossyDebug s (observed, some (some (.error error), rest)) s' from hfails))
    rw [(next_leaves hfails).2 error rest rfl, append_nil, handed, flatMap_append] at hafter
    exact (congrArg _ (append_nil _)).symm.trans hafter

end Calls

/-- A call that polls, finds the file and returns it. -/
def foundCall : Option (Option (Except Address.Error ChangeEvent) × List Observed) × FileChangeStream :=
  FileChangeStream.next reference id ⟨watchedBase, Table.empty, []⟩ [foundFile, foundFile]

theorem calls_replay_found :
    handed [([foundFile, foundFile], foundCall.1)] ≠ [] ∧
      replay (shown reference id watchedBase Table.empty)
        (handed [([foundFile, foundFile], foundCall.1)] ++ foundCall.2.pending) =
        shown reference id watchedBase foundCall.2.snapshot := by
  have hbase : Canonical reference watchedBase :=
    reference_canonical _ [utf8 "srv", utf8 "data", []] (by decide +kernel) (by simp [watchedBase])
  have hrun : Run (Opened watchedBase Table.empty) (Calls reference id)
      [([foundFile, foundFile], foundCall.1)] foundCall.2 :=
    (Run.start ⟨none, 0, rfl⟩).step rfl
  exact ⟨by decide +kernel, (calls_replay reference_lawful hbase hrun).2.1⟩

end OvStorage.Files
