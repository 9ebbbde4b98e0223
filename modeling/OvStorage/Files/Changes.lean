import OvStorage.Files.Traversal

/-!
# Listing a directory while it changes

`FileBackend::list` and `list_stream` among other requests: between any two of a listing's calls the tree may become any
other tree.

## The model

A `Scene` is the disk and the directories that are open. A call of the listing fails only for what the tree is at that
moment, and a directory stream gives each name that is in the directory from its opening to its end exactly once; of
other names it may give any, any number of times. Nothing else is assumed of the system.

## What is proved

`listing_amid_changes`: both listings give what stands throughout exactly once, or fail for an entry that was gone.
`removed_sibling`: such a failure.
-/

namespace OvStorage.Files

open Address Interleave Routine FileBackend List

/-! ### The system -/

namespace Disk

variable (d : Disk)

/-- There is something where the path leads. -/
def leads (path : Path) : Bool := ((d.follow path).bind d.entry).isSome

def leadsToDirectory (path : Path) : Bool := (d.follow path).any d.isDirectory

end Disk

/-- A directory stream: where its directory is, what the disk has been since it was opened, the names it gave, and
whether it has ended. -/
structure Cursor where
  directory : ReadDir
  place : Path
  moments : List Disk
  returned : List Bytes
  ended : Bool

namespace Cursor

variable (c : Cursor)

/-- The stream may end: each name that has been there all along was given once. -/
def exhausted : Bool :=
  ((c.moments.head?.map fun d => d.children c.place).getD []).all fun name =>
    !(c.moments.all fun d => decide (name ∈ d.children c.place)) || c.returned.count name == 1

def gives : Option Bytes → Bool
  | some _ => !c.ended
  | none => c.exhausted

def after : Option Bytes → Cursor
  | some name => { c with returned := c.returned ++ [name] }
  | none => { c with ended := true }

end Cursor

structure Scene where
  disk : Disk
  cursors : List Cursor

/-- A change of the tree, or a call of the listing. -/
inductive Event
  | turn (disk : Disk)
  | act (a : Look) (r : a.Answer)

namespace Scene

variable (s : Scene)

def turned (disk : Disk) : Scene := ⟨disk, s.cursors.map fun c => { c with moments := disk :: c.moments }⟩

def advanced (directory : ReadDir) (next : Option Bytes) : Scene :=
  { s with cursors := s.cursors.map fun c => if c.directory = directory then c.after next else c }

/-- The directories that are open. -/
def directories : List ReadDir := s.cursors.map Cursor.directory

@[simp] theorem directories_turned (disk : Disk) : (s.turned disk).directories = s.directories := map_map

@[simp] theorem directories_advanced (directory : ReadDir) (next : Option Bytes) :
    (s.advanced directory next).directories = s.directories := by
  simp only [directories, advanced, map_map]
  refine map_congr_left fun c _ => ?_
  cases next <;> simp only [Function.comp] <;> split_ifs <;> rfl

/-- What the calls do, and what they may answer. -/
def step : Event → Option Scene
  | .turn disk => some (s.turned disk)
  | .act (.openDir path) (.ok fd) =>
    match s.disk.follow path with
    | some place =>
      if s.disk.isDirectory place ∧ ∀ c ∈ s.cursors, c.directory.fd ≠ fd then
        some { s with cursors := s.cursors ++ [⟨⟨fd, path⟩, place, [s.disk], [], false⟩] }
      else none
    | none => none
  | .act (.openDir path) (.error _) => if s.disk.leadsToDirectory path then none else some s
  | .act (.nextEntry directory) (.ok next) =>
    if ∃ c ∈ s.cursors, c.directory = directory ∧ c.gives next then some (s.advanced directory next) else none
  | .act (.sys (.metadata path)) (.ok metadata) =>
    if s.disk.describes ((s.disk.follow path).bind s.disk.entry) metadata then some s else none
  | .act (.sys (.metadata path)) (.error _) => if s.disk.leads path then none else some s
  | .act (.sys (.canonicalize path)) (.ok place) =>
    if s.disk.follow path = some place ∧ (s.disk.entry place).isSome then some s else none
  | .act (.sys (.canonicalize path)) (.error _) => if s.disk.leads path then none else some s
  | _ => none

end Scene

/-- The runs in which the listing's directory streams begin with the disk as given. -/
abbrev Amid (d₀ : Disk) (trace : List Event) (s : Scene) : Prop :=
  Run (fun s => s = ⟨d₀, []⟩) (fun s e s' => s.step e = some s') trace s

/-- The calls of the listing. -/
def acts : List Event → History Look.Answer :=
  List.filterMap fun
    | .act a r => some ⟨a, r⟩
    | .turn _ => none

/-- What the disk has been. -/
def disks (d₀ : Disk) (trace : List Event) : List Disk :=
  d₀ :: trace.filterMap fun
    | .act _ _ => none
    | .turn disk => some disk

/-- The disk after a trace. -/
def diskAfter (d₀ : Disk) (trace : List Event) : Disk := (disks d₀ trace).getLast (cons_ne_nil _ _)

/-- The names that a directory stream gave. -/
def fetchesOf (directory : ReadDir) (h : History Look.Answer) : List Bytes :=
  h.filterMap fun
    | ⟨.nextEntry from', .ok (some name)⟩ => if from' = directory then some name else none
    | _ => none

section

variable {d₀ : Disk} {trace trace' : List Event} {h h₁ h₂ : History Look.Answer} {directory : ReadDir}

@[simp] theorem acts_append : acts (trace ++ trace') = acts trace ++ acts trace' := filterMap_append

theorem mem_acts {a : Look} {r : a.Answer} : (⟨a, r⟩ : Sigma Look.Answer) ∈ acts trace ↔ .act a r ∈ trace := by
  rw [acts, mem_filterMap]
  constructor
  · rintro ⟨e, he, heq⟩
    cases e with
    | turn disk => cases heq
    | act a' r' =>
      cases heq
      exact he
  · exact fun he => ⟨_, he, rfl⟩

theorem disks_append : disks d₀ (trace ++ trace') = disks d₀ trace ++ (disks d₀ trace').tail := by
  simp only [disks, filterMap_append]
  rfl

theorem disks_mono {d : Disk} (hd : d ∈ disks d₀ trace) : d ∈ disks d₀ (trace ++ trace') := by
  rw [disks_append]
  exact mem_append_left _ hd

theorem diskAfter_mem : diskAfter d₀ trace ∈ disks d₀ trace := getLast_mem _

@[simp] theorem diskAfter_turn (disk : Disk) : diskAfter d₀ (trace ++ [.turn disk]) = disk := by
  simp [diskAfter, disks]

@[simp] theorem diskAfter_act (a : Look) (r : a.Answer) : diskAfter d₀ (trace ++ [.act a r]) = diskAfter d₀ trace := by
  simp [diskAfter, disks]

@[simp] theorem fetchesOf_append : fetchesOf directory (h₁ ++ h₂) = fetchesOf directory h₁ ++ fetchesOf directory h₂ :=
  filterMap_append

/-- Where only one stream has the root, what was fetched under the root is what the stream gave. -/
theorem count_fetched {name : Bytes}
    (honly : ∀ from' next, (⟨.nextEntry from', .ok next⟩ : Sigma Look.Answer) ∈ h → from'.root = directory.root →
      from' = directory) :
    (fetched h).count (directory.root ++ [name]) = (fetchesOf directory h).count name := by
  induction h with
  | nil => rfl
  | cons x h ih =>
    have hrest := ih fun from' next hx => honly from' next (mem_cons_of_mem _ hx)
    obtain ⟨a, r⟩ := x
    match a, r with
    | .nextEntry from', .ok (some name') =>
      have hfirst := honly from' (some name') mem_cons_self
      have hf : fetched (⟨.nextEntry from', .ok (some name')⟩ :: h) = (from'.root ++ [name']) :: fetched h := rfl
      by_cases hfrom : from' = directory
      · have ho : fetchesOf directory (⟨.nextEntry from', .ok (some name')⟩ :: h) = name' :: fetchesOf directory h := by
          simp [fetchesOf, hfrom]
        rw [hf, ho, hfrom, count_cons, count_cons, hrest]
        simp
      · have ho : fetchesOf directory (⟨.nextEntry from', .ok (some name')⟩ :: h) = fetchesOf directory h := by
          simp [fetchesOf, hfrom]
        have hne : from'.root ++ [name'] ≠ directory.root ++ [name] := by
          intro heq
          exact hfrom (hfirst (append_inj' heq rfl).1)
        rw [hf, ho, count_cons_of_ne hne, hrest]
    | .nextEntry _, .ok none => exact hrest
    | .nextEntry _, .error _ => exact hrest
    | .openDir _, _ => exact hrest
    | .sys _, _ => exact hrest

end

/-! ### What each event does -/

variable {d₀ : Disk} {trace : List Event} {s s' : Scene} {e : Event}

/-- A call that opens nothing and fetches nothing. -/
def Event.Idle : Event → Prop
  | .act (.openDir _) (.error _) | .act (.sys _) _ => True
  | _ => False

theorem Scene.step_cases (h : s.step e = some s') :
    (∃ disk, e = .turn disk ∧ s' = s.turned disk) ∨
      (∃ (path : Path) (fd : ℕ) (place : Path), e = .act (.openDir path) (.ok fd) ∧ s.disk.follow path = some place ∧
        (∀ c ∈ s.cursors, c.directory.fd ≠ fd) ∧
        s' = { s with cursors := s.cursors ++ [⟨⟨fd, path⟩, place, [s.disk], [], false⟩] }) ∨
      (∃ (directory : ReadDir) (next : Option Bytes), e = .act (.nextEntry directory) (.ok next) ∧
        (∃ c ∈ s.cursors, c.directory = directory ∧ c.gives next = true) ∧ s' = s.advanced directory next) ∨
      (e.Idle ∧ s' = s) := by
  cases e with
  | turn disk => exact .inl ⟨disk, rfl, (Option.some.inj h).symm⟩
  | act a r =>
    match a, r with
    | .openDir path, .ok fd =>
      simp only [Scene.step] at h
      split at h
      next place hplace =>
        split_ifs at h with hfresh
        exact .inr (.inl ⟨path, fd, place, rfl, hplace, hfresh.2, (Option.some.inj h).symm⟩)
      next => cases h
    | .openDir path, .error error =>
      simp only [Scene.step] at h
      split_ifs at h
      exact .inr (.inr (.inr ⟨trivial, (Option.some.inj h).symm⟩))
    | .nextEntry directory, .ok next =>
      simp only [Scene.step] at h
      split_ifs at h with hgives
      exact .inr (.inr (.inl ⟨directory, next, rfl, hgives, (Option.some.inj h).symm⟩))
    | .nextEntry directory, .error error => cases h
    | .sys (.metadata path), .ok metadata =>
      simp only [Scene.step] at h
      split_ifs at h
      exact .inr (.inr (.inr ⟨trivial, (Option.some.inj h).symm⟩))
    | .sys (.metadata path), .error error =>
      simp only [Scene.step] at h
      split_ifs at h
      exact .inr (.inr (.inr ⟨trivial, (Option.some.inj h).symm⟩))
    | .sys (.canonicalize path), .ok place =>
      simp only [Scene.step] at h
      split_ifs at h
      exact .inr (.inr (.inr ⟨trivial, (Option.some.inj h).symm⟩))
    | .sys (.canonicalize path), .error error =>
      simp only [Scene.step] at h
      split_ifs at h
      exact .inr (.inr (.inr ⟨trivial, (Option.some.inj h).symm⟩))

/-- What a stream has given so far is what the calls were answered, and it has given what it must. -/
structure Cursor.Recorded (d₀ : Disk) (trace : List Event) (c : Cursor) : Prop where
  begun : c.moments ≠ []
  seen : ∀ d ∈ c.moments, d ∈ disks d₀ trace
  place : ∃ d ∈ disks d₀ trace, d.follow c.directory.root = some c.place
  returned : c.returned = fetchesOf c.directory (acts trace)
  running : c.ended = false → (⟨.nextEntry c.directory, .ok none⟩ : Sigma Look.Answer) ∉ acts trace
  exhausted : c.ended = true → ∀ name, (∀ d ∈ c.moments, name ∈ d.children c.place) → c.returned.count name = 1

structure Recorded (d₀ : Disk) (trace : List Event) (s : Scene) : Prop where
  disk : s.disk = diskAfter d₀ trace
  directories : s.directories = opened (acts trace)
  distinct : s.directories.Nodup
  known : ∀ directory next, (⟨.nextEntry directory, .ok next⟩ : Sigma Look.Answer) ∈ acts trace →
    directory ∈ s.directories
  cursors : ∀ c ∈ s.cursors, c.Recorded d₀ trace

variable {c : Cursor}

/-- An answer that is not of the stream leaves what is recorded of it. -/
theorem Cursor.Recorded.idle (hc : c.Recorded d₀ trace) (hf : fetchesOf c.directory (acts [e]) = [])
    (hn : (⟨.nextEntry c.directory, .ok none⟩ : Sigma Look.Answer) ∉ acts [e]) : c.Recorded d₀ (trace ++ [e]) where
  begun := hc.begun
  seen d hd := disks_mono (hc.seen d hd)
  place := by
    obtain ⟨d, hd, hplace⟩ := hc.place
    exact ⟨d, disks_mono hd, hplace⟩
  returned := by rw [acts_append, fetchesOf_append, hf, append_nil, hc.returned]
  running hended := by
    rw [acts_append, mem_append]
    exact not_or.mpr ⟨hc.running hended, hn⟩
  exhausted := hc.exhausted

theorem Cursor.Recorded.turned (hc : c.Recorded d₀ trace) (disk : Disk) :
    Cursor.Recorded d₀ (trace ++ [.turn disk]) { c with moments := disk :: c.moments } where
  begun := cons_ne_nil _ _
  seen := by
    refine forall_mem_cons.mpr ⟨?_, fun d hd => disks_mono (hc.seen d hd)⟩
    rw [disks_append]
    exact mem_append_right _ (mem_singleton_self _)
  place := by
    obtain ⟨d, hd, hplace⟩ := hc.place
    exact ⟨d, disks_mono hd, hplace⟩
  returned := (hc.idle (e := .turn disk) rfl (not_mem_nil)).returned
  running := (hc.idle (e := .turn disk) rfl (not_mem_nil)).running
  exhausted hended name hname := hc.exhausted hended name fun d hd => hname d (mem_cons_of_mem _ hd)

/-- The stream itself goes on. -/
theorem Cursor.Recorded.after (hc : c.Recorded d₀ trace) {next : Option Bytes} (hgives : c.gives next = true) :
    (c.after next).Recorded d₀ (trace ++ [.act (.nextEntry c.directory) (.ok next)]) := by
  obtain ⟨d, hd, hplace⟩ := hc.place
  cases next with
  | some name =>
    have hrunning : c.ended = false := by simpa [Cursor.gives] using hgives
    refine ⟨hc.begun, fun d hd => disks_mono (hc.seen d hd), ⟨d, disks_mono hd, hplace⟩, ?_,
      fun _ => ?_, fun hended => ?_⟩
    · rw [acts_append, fetchesOf_append]
      simp [Cursor.after, hc.returned, acts, fetchesOf]
    · rw [acts_append, mem_append]
      exact not_or.mpr ⟨hc.running hrunning, by simp [acts, Cursor.after]⟩
    · cases hrunning.symm.trans hended
  | none =>
    refine ⟨hc.begun, fun d hd => disks_mono (hc.seen d hd), ⟨d, disks_mono hd, hplace⟩, ?_, nofun,
      fun _ name hname => ?_⟩
    · rw [acts_append, fetchesOf_append]
      exact hc.returned.trans (append_nil _).symm
    · have hall : (c.moments.all fun d => decide (name ∈ d.children c.place)) = true :=
        all_eq_true.mpr fun d hd => decide_eq_true (hname d hd)
      have hhead : name ∈ (c.moments.head?.map fun d => d.children c.place).getD [] := by
        rw [List.head?_eq_some_head hc.begun]
        exact hname _ (head_mem hc.begun)
      have hone := all_eq_true.mp hgives name hhead
      rw [hall] at hone
      exact beq_iff_eq.mp hone

variable {directory : ReadDir}

theorem fetchesOf_of_unknown {h : History Look.Answer}
    (hunknown : ∀ from' next, (⟨.nextEntry from', .ok next⟩ : Sigma Look.Answer) ∈ h → from' ≠ directory) :
    fetchesOf directory h = [] := by
  refine filterMap_eq_nil_iff.mpr fun x hx => ?_
  obtain ⟨a, r⟩ := x
  match a, r, hx with
  | .nextEntry from', .ok (some name), hx => exact if_neg (hunknown from' (some name) hx)
  | .nextEntry _, .ok none, _ => rfl
  | .nextEntry _, .error _, _ => rfl
  | .openDir _, _, _ => rfl
  | .sys _, _, _ => rfl

/-- A new stream has given nothing. -/
theorem Recorded.opens (hrec : Recorded d₀ trace s) {path place : Path} {fd : ℕ}
    (hplace : s.disk.follow path = some place) (hnew : ⟨fd, path⟩ ∉ s.directories) :
    Cursor.Recorded d₀ (trace ++ [.act (.openDir path) (.ok fd)]) ⟨⟨fd, path⟩, place, [s.disk], [], false⟩ := by
  have hdisk : s.disk ∈ disks d₀ trace := hrec.disk ▸ diskAfter_mem
  have hunknown : ∀ from' next, (⟨.nextEntry from', .ok next⟩ : Sigma Look.Answer) ∈ acts trace →
      from' ≠ ⟨fd, path⟩ := by
    rintro _ next hmem rfl
    exact hnew (hrec.known _ next hmem)
  have hrecorded : Cursor.Recorded d₀ trace ⟨⟨fd, path⟩, place, [s.disk], [], false⟩ := {
    begun := cons_ne_nil _ _
    seen := forall_mem_singleton.mpr hdisk
    place := ⟨s.disk, hdisk, hplace⟩
    returned := (fetchesOf_of_unknown hunknown).symm
    running := fun _ hmem => hunknown _ none hmem rfl
    exhausted := nofun }
  exact hrecorded.idle rfl (by simp [acts])

theorem Recorded.step (hrec : Recorded d₀ trace s) (h : s.step e = some s') : Recorded d₀ (trace ++ [e]) s' := by
  rcases Scene.step_cases h with ⟨disk, rfl, rfl⟩ | ⟨path, fd, place, rfl, hplace, hfresh, rfl⟩ |
    ⟨directory, next, rfl, hgives, rfl⟩ | ⟨hidle, rfl⟩
  · have hacts : acts [Event.turn disk] = [] := rfl
    refine ⟨by simp [Scene.turned], ?_, ?_, ?_, fun c hc => ?_⟩
    · rw [Scene.directories_turned, acts_append, hacts, append_nil, hrec.directories]
    · rw [Scene.directories_turned]
      exact hrec.distinct
    · rw [Scene.directories_turned, acts_append, hacts, append_nil]
      exact hrec.known
    · obtain ⟨c', hc', rfl⟩ := mem_map.mp hc
      exact (hrec.cursors c' hc').turned disk
  · have hacts : acts [Event.act (.openDir path) (.ok fd)] = [⟨.openDir path, .ok fd⟩] := rfl
    have hnew : ⟨fd, path⟩ ∉ s.directories := by
      intro hmem
      obtain ⟨c, hc, hfd⟩ := mem_map.mp hmem
      exact hfresh c hc (congrArg ReadDir.fd hfd)
    have hdirectories : ∀ c, Scene.directories ⟨s.disk, s.cursors ++ [c]⟩ = s.directories ++ [c.directory] :=
        fun c => by
      simp [Scene.directories]
    refine ⟨by simp [hrec.disk], ?_, ?_, fun directory next hmem => ?_, fun c hc => ?_⟩
    · rw [hdirectories, acts_append, hacts, opened_append, hrec.directories]
      rfl
    · rw [hdirectories]
      exact hrec.distinct.append (nodup_singleton _) (disjoint_singleton.mpr hnew)
    · rw [hdirectories]
      rw [acts_append, hacts, mem_append] at hmem
      rcases hmem with hmem | hmem
      · exact mem_append_left _ (hrec.known directory next hmem)
      · simp at hmem
    · rcases mem_append.mp hc with hc | hc
      · exact (hrec.cursors c hc).idle rfl (by simp [acts])
      · obtain rfl := mem_singleton.mp hc
        exact hrec.opens hplace hnew
  · obtain ⟨c₀, hc₀, rfl, hgives⟩ := hgives
    have hacts : acts [Event.act (.nextEntry c₀.directory) (.ok next)] = [⟨.nextEntry c₀.directory, .ok next⟩] := rfl
    refine ⟨by simp [Scene.advanced, hrec.disk], ?_, ?_, fun directory next' hmem => ?_, fun c hc => ?_⟩
    · rw [Scene.directories_advanced, acts_append, hacts, opened_append, hrec.directories]
      exact (append_nil _).symm
    · rw [Scene.directories_advanced]
      exact hrec.distinct
    · rw [Scene.directories_advanced]
      rw [acts_append, hacts, mem_append] at hmem
      rcases hmem with hmem | hmem
      · exact hrec.known directory next' hmem
      · cases mem_singleton.mp hmem
        exact mem_map_of_mem hc₀
    · obtain ⟨c', hc', rfl⟩ := mem_map.mp hc
      split_ifs with hdirectory
      · obtain rfl : c' = c₀ := inj_on_of_nodup_map hrec.distinct hc' hc₀ hdirectory
        exact (hrec.cursors c' hc').after hgives
      · refine (hrec.cursors c' hc').idle (fetchesOf_of_unknown fun from' next' hmem => ?_) fun hmem => ?_
        · rw [hacts] at hmem
          cases mem_singleton.mp hmem
          exact Ne.symm hdirectory
        · rw [hacts] at hmem
          exact hdirectory (Look.nextEntry.inj (congrArg Sigma.fst (mem_singleton.mp hmem)))
  · have hquiet : opened (acts [e]) = [] ∧ diskAfter d₀ (trace ++ [e]) = diskAfter d₀ trace ∧
        ∀ from' next, (⟨.nextEntry from', .ok next⟩ : Sigma Look.Answer) ∉ acts [e] := by
      match e, hidle with
      | .act (.openDir path) (.error error), _ => exact ⟨rfl, diskAfter_act _ _, by simp [acts]⟩
      | .act (.sys a) r, _ => exact ⟨rfl, diskAfter_act _ _, by simp [acts]⟩
    refine ⟨hrec.disk.trans hquiet.2.1.symm, ?_, hrec.distinct, fun directory next hmem => ?_, fun c hc => ?_⟩
    · rw [acts_append, opened_append, hquiet.1, append_nil, hrec.directories]
    · rw [acts_append, mem_append] at hmem
      rcases hmem with hmem | hmem
      · exact hrec.known directory next hmem
      · exact absurd hmem (hquiet.2.2 directory next)
    · refine (hrec.cursors c hc).idle (fetchesOf_of_unknown fun from' next hmem => ?_) (hquiet.2.2 _ _)
      exact absurd hmem (hquiet.2.2 from' next)

theorem Amid.recorded (hrun : Amid d₀ trace s) : Recorded d₀ trace s := by
  refine Run.invariant (I := Recorded d₀) ?_ (fun _ _ _ _ _ hrec hstep => hrec.step hstep) hrun
  rintro _ rfl
  exact ⟨rfl, rfl, nodup_nil, by simp [acts], forall_mem_nil _⟩

/-- What a stream gave that has ended, of a name that was in its directory throughout. -/
theorem Amid.once (hrun : Amid d₀ trace s) {place : Path} {name : Bytes}
    (hended : (⟨.nextEntry directory, .ok none⟩ : Sigma Look.Answer) ∈ acts trace)
    (hname : ∀ d ∈ disks d₀ trace, d.follow directory.root = some place ∧ name ∈ d.children place) :
    (fetchesOf directory (acts trace)).count name = 1 := by
  have hrec := hrun.recorded
  obtain ⟨c, hc, rfl⟩ := mem_map.mp (hrec.known directory none hended)
  have hcursor := hrec.cursors c hc
  obtain ⟨d, hd, hplace⟩ := hcursor.place
  obtain rfl : place = c.place := Option.some.inj ((hname d hd).1.symm.trans hplace)
  rw [← hcursor.returned]
  refine hcursor.exhausted ?_ name fun d hd => (hname d (hcursor.seen d hd)).2
  cases hrunning : c.ended with
  | true => rfl
  | false => exact absurd hended (hcursor.running hrunning)

/-- What the system was when it gave an answer. -/
theorem Amid.answered (hrun : Amid d₀ trace s) {pre post : History Look.Answer} {a : Look} {r : a.Answer}
    (hsplit : acts trace = pre ++ ⟨a, r⟩ :: post) :
    ∃ (before rest : List Event) (s₀ s₁ : Scene), trace = before ++ .act a r :: rest ∧ acts before = pre ∧
      s₀.disk = diskAfter d₀ before ∧ s₀.step (.act a r) = some s₁ := by
  obtain ⟨first, rest, rfl, rfl, hrest⟩ := filterMap_eq_append_iff.mp hsplit
  obtain ⟨skipped, e, after, rfl, hskipped, he, rfl⟩ := filterMap_eq_cons_iff.mp hrest
  obtain rfl : e = .act a r := by
    cases e with
    | turn disk => cases he
    | act a' r' =>
      cases he
      rfl
  rw [← append_assoc] at hrun
  obtain ⟨s₀, s₁, hbefore, hstep⟩ := Run.split hrun
  refine ⟨first ++ skipped, after, s₀, s₁, (append_assoc _ _ _).symm, ?_, (Amid.recorded hbefore).disk, hstep⟩
  rw [acts_append]
  exact (congrArg _ (filterMap_eq_nil_iff.mpr hskipped)).trans (append_nil _)

theorem Amid.answered_of_mem (hrun : Amid d₀ trace s) {a : Look} {r : a.Answer}
    (hmem : (⟨a, r⟩ : Sigma Look.Answer) ∈ acts trace) :
    ∃ s₀ s₁ : Scene, s₀.disk ∈ disks d₀ trace ∧ s₀.step (.act a r) = some s₁ := by
  obtain ⟨pre, post, hsplit⟩ := append_of_mem hmem
  obtain ⟨before, rest, s₀, s₁, rfl, -, hdisk, hstep⟩ := hrun.answered hsplit
  refine ⟨s₀, s₁, ?_, hstep⟩
  rw [hdisk, disks_append]
  exact mem_append_left _ diskAfter_mem

/-! ### What stands throughout -/

/-- The name stays in its directory, which stays in its place; it is none of the backend's own, and its path leads
somewhere, inside the jail. -/
structure Stays (ds : List Disk) (confineRoot : Option Path) (directory : Path) (name : Bytes) : Prop where
  named : isAtomicWriteTempSibling (directory ++ [name]) = false
  place : ∃ place, ∀ d ∈ ds, d.follow directory = some place ∧ d.isDirectory place = true ∧ name ∈ d.children place
  leads : ∀ d ∈ ds, ∃ place, d.follow (directory ++ [name]) = some place ∧ (d.entry place).isSome = true ∧
    ∀ canonicalRoot ∈ confineRoot, canonicalRoot <+: place

/-- Each name of the way down stays. -/
def Stands (ds : List Disk) (confineRoot : Option Path) (directory : Path) (names : List Bytes) : Prop :=
  ∀ front name rest, names = front ++ name :: rest → Stays ds confineRoot (directory ++ front) name

/-- The path leads to one directory throughout. -/
def StandsAsDirectory (ds : List Disk) (path : Path) : Prop :=
  ∃ place, ∀ d ∈ ds, d.follow path = some place ∧ d.isDirectory place = true

/-- The listing failed for an entry that it had fetched: its path led nowhere when it was described, or, having led to
a directory, to none when it was opened. -/
inductive Gone (d₀ : Disk) (trace : List Event) (e : Error) : Prop
  | stat {before rest path} {error : IoError} : trace = before ++ .act (.sys (.metadata path)) (.error error) :: rest →
      path ∈ fetched (acts before) → (diskAfter d₀ before).leads path = false → e = mapIo error → Gone d₀ trace e
  | openDir {before rest path} {error : IoError} {metadata : Metadata} :
      trace = before ++ .act (.openDir path) (.error error) :: rest → path ∈ fetched (acts before) →
      .act (.sys (.metadata path)) (.ok metadata) ∈ before → metadata.fileType = .directory →
      (diskAfter d₀ before).leadsToDirectory path = false → e = mapIo error → Gone d₀ trace e

/-- What a listing may have given when it ends. -/
structure Answers (d₀ : Disk) (trace : List Event) (recursive : Bool) (confineRoot : Option Path) (turns : ℕ)
    (prefixPath : Path) (items : List Item) (x : Except Stop Unit) : Prop where
  /-- Each item was there at some moment, as it is described. -/
  sound : ∀ item ∈ items, (∃ name names, item.path = prefixPath ++ name :: names ∧ (recursive = false → names = [])) ∧
    ∃ d ∈ disks d₀ trace, ∃ metadata, d.describes ((d.follow item.path).bind d.entry) metadata = true ∧
      item.info = statPathWithMeta metadata
  complete : x = .ok () → ∀ name names, (recursive = true ∨ names = []) →
    Stands (disks d₀ trace) confineRoot prefixPath (name :: names) →
    (items.map Item.path).count (prefixPath ++ name :: names) = 1
  failed : ∀ e, x = .error (.error e) → Gone d₀ trace e
  outOfTurns : x = .error .outOfTurns → turns ≤ reads (acts trace)

section

variable {confineRoot : Option Path} {recursive : Bool} {path : Path}

theorem Amid.isDirectory (hrun : Amid d₀ trace s) (hpath : StandsAsDirectory (disks d₀ trace) path) :
    IsDirectory (acts trace) path := by
  intro metadata hmem
  obtain ⟨s₀, s₁, hdisk, hstep⟩ := hrun.answered_of_mem hmem
  obtain ⟨place, hplace⟩ := hpath
  obtain ⟨hfollow, hdirectory⟩ := hplace s₀.disk hdisk
  simp only [Scene.step, hfollow, Option.bind_some] at hstep
  split_ifs at hstep with hdescribes
  rw [eq_of_beq hdirectory] at hdescribes
  exact eq_of_beq hdescribes

theorem Amid.admitted (hrun : Amid d₀ trace s) {directory : Path} {name : Bytes}
    (hstays : Stays (disks d₀ trace) confineRoot directory name) :
    Admitted confineRoot (acts trace) (directory ++ [name]) := by
  refine ⟨hstays.named, fun canonicalRoot hroot r hmem => ?_⟩
  obtain ⟨s₀, s₁, hdisk, hstep⟩ := hrun.answered_of_mem hmem
  obtain ⟨place, hfollow, hentry, hinside⟩ := hstays.leads s₀.disk hdisk
  cases r with
  | ok place' =>
    simp only [Scene.step] at hstep
    split_ifs at hstep with hplace
    obtain rfl : place = place' := Option.some.inj (hfollow.symm.trans hplace.1)
    exact ⟨place, rfl, hinside canonicalRoot hroot⟩
  | error error =>
    simp [Scene.step, Disk.leads, hfollow, hentry] at hstep

/-- A directory that stands can be opened. -/
theorem Amid.opens (hrun : Amid d₀ trace s) (hpath : StandsAsDirectory (disks d₀ trace) path) (error : IoError) :
    (⟨.openDir path, .error error⟩ : Sigma Look.Answer) ∉ acts trace := by
  intro hmem
  obtain ⟨s₀, s₁, hdisk, hstep⟩ := hrun.answered_of_mem hmem
  obtain ⟨place, hplace⟩ := hpath
  obtain ⟨hfollow, hdirectory⟩ := hplace s₀.disk hdisk
  simp [Scene.step, Disk.leadsToDirectory, hfollow, hdirectory] at hstep

theorem Amid.gone (hrun : Amid d₀ trace s) {e : Error} (hb : Blamed (acts trace) e) : Gone d₀ trace e := by
  cases hb with
  | stat hsplit hfetched he =>
    obtain ⟨before, rest, s₀, s₁, htrace, rfl, hdisk, hstep⟩ := hrun.answered hsplit
    refine .stat htrace hfetched ?_ he
    simp only [Scene.step] at hstep
    split_ifs at hstep with hleads
    rw [← hdisk]
    exact Bool.eq_false_iff.mpr hleads
  | openDir hsplit hfetched hmem hdirectory he =>
    obtain ⟨before, rest, s₀, s₁, htrace, rfl, hdisk, hstep⟩ := hrun.answered hsplit
    refine .openDir htrace hfetched (mem_acts.mp hmem) hdirectory ?_ he
    simp only [Scene.step] at hstep
    split_ifs at hstep with hleads
    rw [← hdisk]
    exact Bool.eq_false_iff.mpr hleads
  | nextEntry hmem he =>
    obtain ⟨s₀, s₁, -, hstep⟩ := hrun.answered_of_mem hmem
    cases hstep

private theorem eq_of_count_map {directories : List ReadDir} {first second : ReadDir}
    (hone : (directories.map ReadDir.root).count second.root = 1) (hfirst : first ∈ directories)
    (hsecond : second ∈ directories) (hroot : first.root = second.root) : first = second := by
  rw [List.count, countP_map, countP_eq_length_filter] at hone
  obtain ⟨only, honly⟩ := length_eq_one_iff.mp hone
  have hmem : ∀ directory ∈ directories, directory.root = second.root → directory = only := by
    intro directory hd heq
    refine mem_singleton.mp ?_
    rw [← honly]
    exact mem_filter.mpr ⟨hd, by simp [heq]⟩
  exact (hmem first hfirst hroot).trans (hmem second hsecond rfl).symm

variable {prefixPath : Path} {items : List Item}

/-- A walk that came to its end: from its prefix, each name of a way that stands is listed once. -/
theorem Amid.complete (hrun : Amid d₀ trace s) {fd : ℕ} {before h : History Look.Answer}
    (hacts : acts trace = before ++ ⟨.openDir prefixPath, .ok fd⟩ :: h) (hbefore : ∀ y ∈ before, y.1.Plain)
    (htop : StandsAsDirectory (disks d₀ trace) prefixPath) (htally : Tally recursive confineRoot h items)
    (hreached : Reached recursive [⟨fd, prefixPath⟩] items) (hends : Ends [⟨fd, prefixPath⟩] h) {name : Bytes}
    {names : List Bytes} (hdeep : recursive = true ∨ names = [])
    (hstands : Stands (disks d₀ trace) confineRoot prefixPath (name :: names)) :
    (items.map Item.path).count (prefixPath ++ name :: names) = 1 := by
  have hsub : ∀ x ∈ h, x ∈ acts trace := fun x hx => by
    rw [hacts]
    exact mem_append_right _ (mem_cons_of_mem _ hx)
  have hopened : opened (acts trace) = ⟨fd, prefixPath⟩ :: opened h := by
    rw [hacts, opened_append, opened_of_plain hbefore]
    rfl
  have hfetched : fetched (acts trace) = fetched h := by
    rw [hacts, fetched_append, fetched_of_plain hbefore]
    rfl
  have hended : ∀ directory ∈ opened (acts trace),
      (⟨.nextEntry directory, .ok none⟩ : Sigma Look.Answer) ∈ acts trace :=
    fun directory hd => hsub _ (hends directory (by rwa [hopened] at hd))
  have hnotTop : prefixPath ∉ items.map Item.path := by
    intro hmem
    obtain ⟨item, hitem, hpath⟩ := mem_map.mp hmem
    obtain ⟨directory, hd, name', names', hbelow, -⟩ := hreached item hitem
    obtain rfl := mem_singleton.mp hd
    simp [hpath] at hbelow
  -- Each directory that is opened once has its lasting names listed once.
  have hlisted : ∀ directory name, ((opened (acts trace)).map ReadDir.root).count directory = 1 →
      Stays (disks d₀ trace) confineRoot directory name → (items.map Item.path).count (directory ++ [name]) = 1 := by
    intro path name hone hstays
    obtain ⟨directory, hd, rfl⟩ := mem_map.mp (count_pos_iff.mp (hone ▸ Nat.one_pos))
    obtain ⟨place, hplace⟩ := hstays.place
    have honly : ∀ from' next, (⟨.nextEntry from', .ok next⟩ : Sigma Look.Answer) ∈ acts trace →
          from'.root = directory.root →
        from' = directory := by
      intro from' next hmem hroot
      have hfrom : from' ∈ opened (acts trace) := hrun.recorded.directories ▸ hrun.recorded.known from' next hmem
      exact eq_of_count_map hone hfrom hd hroot
    rw [htally.listed _ ((hrun.admitted hstays).mono hsub), ← hfetched, count_fetched honly]
    exact hrun.once (hended directory hd) fun d hd => ⟨(hplace d hd).1, (hplace d hd).2.2⟩
  -- Down the way, each directory is opened once.
  have hdown : ∀ front name' rest, name :: names = front ++ name' :: rest →
      ((opened (acts trace)).map ReadDir.root).count (prefixPath ++ front) = 1 := by
    intro front
    induction front using List.reverseRecOn with
    | nil =>
      intro _ _ _
      have hnone : ((opened h).map ReadDir.root).count prefixPath = 0 := by
        cases recursive with
        | false => rw [htally.flat rfl]; rfl
        | true =>
          rw [htally.entered rfl prefixPath fun metadata hmem => hrun.isDirectory htop metadata (hsub _ hmem)]
          exact count_eq_zero.mpr hnotTop
      rw [hopened, append_nil, map_cons, count_cons_self, hnone]
    | append_singleton front last ih =>
      intro name' rest hsplit
      have hsplit' : name :: names = front ++ last :: name' :: rest := by simpa using hsplit
      have hrec : recursive = true := by
        refine hdeep.resolve_right fun hnil => ?_
        have hlength := congrArg List.length hsplit'
        simp only [hnil, length_append, length_cons, length_nil] at hlength
        omega
      have hplace : StandsAsDirectory (disks d₀ trace) (prefixPath ++ front ++ [last]) := by
        obtain ⟨place, hplace⟩ := (hstands (front ++ [last]) name' rest hsplit).place
        rw [← append_assoc] at hplace
        exact ⟨place, fun d hd => ⟨(hplace d hd).1, (hplace d hd).2.1⟩⟩
      have hone :=
        hlisted (prefixPath ++ front) last (ih last (name' :: rest) hsplit')
          (hstands front last (name' :: rest) hsplit')
      have hentered := htally.entered hrec (prefixPath ++ front ++ [last]) fun metadata hmem =>
        hrun.isDirectory hplace metadata (hsub _ hmem)
      have hne : prefixPath ≠ prefixPath ++ (front ++ [last]) := fun heq => by simpa using congrArg List.length heq
      rw [hopened, map_cons, count_cons_of_ne hne, ← append_assoc, hentered, hone]
  obtain ⟨front, last, hsplit⟩ : ∃ front last, name :: names = front ++ [last] :=
    ⟨_, _, (dropLast_append_getLast (cons_ne_nil name names)).symm⟩
  rw [hsplit, ← append_assoc]
  exact hlisted (prefixPath ++ front) last (hdown front last [] hsplit) (hstands front last [] hsplit)

/-- What both walks list was there, as it is described. -/
theorem Amid.sound (hrun : Amid d₀ trace s) {fd : ℕ} {h : History Look.Answer} (hsub : ∀ x ∈ h, x ∈ acts trace)
    (hstated : Stated h items) (hreached : Reached recursive [⟨fd, prefixPath⟩] items) :
    ∀ item ∈ items, (∃ name names, item.path = prefixPath ++ name :: names ∧ (recursive = false → names = [])) ∧
      ∃ d ∈ disks d₀ trace, ∃ metadata, d.describes ((d.follow item.path).bind d.entry) metadata = true ∧
        item.info = statPathWithMeta metadata := by
  intro item hitem
  obtain ⟨directory, hd, hbelow⟩ := hreached item hitem
  obtain rfl := mem_singleton.mp hd
  obtain ⟨metadata, hmem, hinfo, -⟩ := hstated item hitem
  obtain ⟨s₀, s₁, hdisk, hstep⟩ := hrun.answered_of_mem (hsub _ hmem)
  simp only [Scene.step] at hstep
  split_ifs at hstep with hdescribes
  exact ⟨hbelow, s₀.disk, hdisk, metadata, hdescribes, hinfo⟩

end

/-! ### The listings -/

/-- Of a directory that is there throughout, each listing gives what stands throughout once and only what was there, or
it fails for an entry that was gone; `before` are the calls of the scope check. -/
theorem listing_amid_changes (hrun : Amid d₀ trace s) {before h : History Look.Answer}
    (hacts : acts trace = before ++ h) (hbefore : ∀ y ∈ before, y.1.Plain) {prefixPath : Path}
    (htop : StandsAsDirectory (disks d₀ trace) prefixPath) (recursive : Bool) (confineRoot : Option Path)
    (address : Path → Bytes) (turns : ℕ) :
    (∀ x, (listScope recursive confineRoot address turns prefixPath).run.Gives h x →
      Answers d₀ trace recursive confineRoot turns prefixPath (x.toOption.getD []) (x.map fun _ => ())) ∧
    ∀ yielded x, (listStreamScope recursive confineRoot turns prefixPath).Gives h (yielded, x) →
      Answers d₀ trace recursive confineRoot turns prefixPath yielded x := by
  have hreads : ∀ {x h'}, acts trace = before ++ x :: h' → reads h' ≤ reads (acts trace) := by
    intro x h' hsplit
    rw [hsplit]
    exact List.Sublist.countP_le ((sublist_cons_self x h').trans (sublist_append_right before _))
  have hblamed : ∀ {x h' e}, acts trace = before ++ x :: h' → Blamed h' e → Gone d₀ trace e := by
    intro x h' e hsplit hb
    refine hrun.gone ?_
    rw [hsplit, append_cons]
    exact hb.append_left _
  constructor
  · intro x hx
    rcases listScope_gives hx with ⟨error, h', rfl⟩ | ⟨fd, h', rfl, hlisted⟩
    · refine absurd ?_ (hrun.opens htop error)
      rw [hacts]
      exact mem_append_right _ mem_cons_self
    have hsub : ∀ y ∈ h', y ∈ acts trace := fun y hy => by
      rw [hacts]
      exact mem_append_right _ (mem_cons_of_mem _ hy)
    match x, hlisted with
    | .ok items, ⟨_, hperm, items', hitems, htally, hstated, hreached, hends⟩ =>
      rw [hitems, nil_append] at hperm
      refine ⟨fun item hitem => ?_, fun _ name names hdeep hstands => ?_, nofun, nofun⟩
      · exact hrun.sound hsub hstated hreached item (hperm.mem_iff.mp hitem)
      · rw [← hrun.complete hacts hbefore htop htally hreached hends hdeep hstands]
        exact (hperm.map Item.path).count_eq _
    | .error .outOfTurns, hturns => exact ⟨forall_mem_nil _, nofun, nofun, fun _ => Nat.le_trans hturns (hreads hacts)⟩
    | .error (.error e), ⟨h₁, r, e', hprobe, hb, he⟩ =>
      refine ⟨forall_mem_nil _, nofun, fun e₁ heq => ?_, nofun⟩
      cases heq
      refine hblamed hacts ?_
      rcases he with rfl | ⟨metadata, rfl, hfile⟩
      · rw [hprobe]
        exact hb.append_right _
      · have hprobed := hrun.isDirectory htop metadata (hsub _ (hprobe ▸ mem_append_right _ (mem_singleton_self _)))
        cases hprobed.symm.trans hfile
  · intro yielded x hx
    rcases listStreamScope_gives hx with ⟨error, h', rfl⟩ | ⟨fd, h', rfl, hstreamed⟩
    · refine absurd ?_ (hrun.opens htop error)
      rw [hacts]
      exact mem_append_right _ mem_cons_self
    have hsub : ∀ y ∈ h', y ∈ acts trace := fun y hy => by
      rw [hacts]
      exact mem_append_right _ (mem_cons_of_mem _ hy)
    obtain ⟨items, rfl, hstated, hreached, hended⟩ := hstreamed.items
    refine ⟨hrun.sound hsub hstated hreached, fun hok name names hdeep hstands => ?_, fun e he => ?_, fun hturns => ?_⟩
    · obtain ⟨htally, hends⟩ := hended () hok
      exact hrun.complete hacts hbefore htop htally hreached hends hdeep hstands
    · exact hblamed hacts (hstreamed.error e he)
    · exact Nat.le_trans (hstreamed.outOfTurns hturns) (hreads hacts)

/-! ### A small tree -/

/-- `/s/a`, `/s/b` and a staging temp beside them. -/
def smallTree : Disk where
  entries := ⟨[([utf8 "s"], .directory), ([utf8 "s", utf8 "a"], .file 0), ([utf8 "s", utf8 "b"], .file 1),
    ([utf8 "s", utf8 ".c.1.2.3.tmp"], .file 2)], by decide⟩
  inodes := ⟨[(0, ⟨⟨[], []⟩, 5, false⟩), (1, ⟨⟨[], []⟩, 6, false⟩), (2, ⟨⟨[], []⟩, 7, false⟩)], by decide⟩

/-- The same without `/s/a`. -/
def thinnedTree : Disk := { smallTree with entries := smallTree.entries.erase [utf8 "s", utf8 "a"] }

/-- Another request removes `/s/a` between the fetching and the description of its entry. -/
def removing : List Event :=
  [.act (.openDir [utf8 "s"]) (.ok 0), .act (.nextEntry ⟨0, [utf8 "s"]⟩) (.ok (some (utf8 "a"))), .turn thinnedTree,
    .act (.sys (.metadata [utf8 "s", utf8 "a"])) (.error ⟨.NotFound, utf8 "No such file or directory"⟩)]

/-- `list` goes on to probe its prefix. -/
def probing : List Event := removing ++ [.act (.sys (.metadata [utf8 "s"])) (.ok ⟨.directory, 0, 0, false⟩)]

/-- `/s/a` is removed before its entry is fetched. -/
def thinning : List Event :=
  [.act (.openDir [utf8 "s"]) (.ok 0), .turn thinnedTree, .act (.nextEntry ⟨0, [utf8 "s"]⟩) (.ok (some (utf8 "b"))),
    .act (.sys (.metadata [utf8 "s", utf8 "b"])) (.ok ⟨.file, 0, 6, false⟩),
    .act (.nextEntry ⟨0, [utf8 "s"]⟩) (.ok (some (utf8 ".c.1.2.3.tmp"))), .act (.nextEntry ⟨0, [utf8 "s"]⟩) (.ok none)]

theorem amid_of_foldlM (h : (trace.foldlM Scene.step ⟨smallTree, []⟩).isSome = true) : ∃ s, Amid smallTree trace s := by
  obtain ⟨s, hrun, -⟩ := @Run.of_any Scene Event (fun s => s = ⟨smallTree, []⟩)
      (fun s e s' => s.step e = some s') Scene.step
    (fun _ _ _ hstep => hstep) _ rfl trace (fun _ => true) (by rwa [Option.any_true])
  exact ⟨s, hrun⟩

theorem amid_thinning :
    ∃ s, Amid smallTree thinning s ∧
      Answers smallTree thinning true none 9 [utf8 "s"]
        [⟨[utf8 "s", utf8 "b"], ⟨false, utf8 "size:0,mtime:6", some 0, 6, false⟩⟩] (.ok ()) := by
  obtain ⟨s, hrun⟩ := @amid_of_foldlM thinning (by decide +kernel)
  refine ⟨s, hrun, (@listing_amid_changes _ _ _ hrun [] _ rfl (forall_mem_nil _) [utf8 "s"]
    ⟨[utf8 "s"], by decide +kernel⟩ true none List.flatten 9).2 _ _ (gives_of_replay (by decide +kernel))⟩

/-- Both listings fail for `/s/a`, which was removed, though `/s/b` stands throughout; and a staging temp that stands
throughout is not listed. -/
theorem removed_sibling :
    ((∃ s, Amid smallTree removing s) ∧ (∃ s, Amid smallTree probing s) ∧
      StandsAsDirectory (disks smallTree probing) [utf8 "s"] ∧
      Stands (disks smallTree probing) none [utf8 "s"] [utf8 "b"] ∧
      (listScope true none List.flatten 9 [utf8 "s"]).run.Gives (acts probing)
        (.error (.error ⟨.NotFound, utf8 "No such file or directory"⟩)) ∧
      (listStreamScope true none 9 [utf8 "s"]).Gives (acts removing)
        ([], .error (.error ⟨.NotFound, utf8 "No such file or directory"⟩))) ∧
    (∃ s, Amid smallTree thinning s) ∧
      (∀ d ∈ disks smallTree thinning, utf8 ".c.1.2.3.tmp" ∈ d.children [utf8 "s"] ∧
        d.leads [utf8 "s", utf8 ".c.1.2.3.tmp"] = true) ∧
      ∃ items, (listStreamScope true none 9 [utf8 "s"]).Gives (acts thinning) (items, .ok ()) ∧
        [utf8 "s", utf8 ".c.1.2.3.tmp"] ∉ items.map Item.path := by
  have hleads : ∀ d ∈ disks smallTree probing, d.follow [utf8 "s", utf8 "b"] = some [utf8 "s", utf8 "b"] ∧
      (d.entry [utf8 "s", utf8 "b"]).isSome = true := by decide +kernel
  have hstays : Stays (disks smallTree probing) none [utf8 "s"] (utf8 "b") := {
    named := by decide +kernel
    place := ⟨[utf8 "s"], by decide +kernel⟩
    leads := fun d hd => ⟨[utf8 "s", utf8 "b"], (hleads d hd).1, (hleads d hd).2, nofun⟩ }
  refine ⟨⟨amid_of_foldlM (by decide +kernel), amid_of_foldlM (by decide +kernel), ⟨[utf8 "s"], by decide +kernel⟩, ?_,
    gives_of_replay (by decide +kernel), gives_of_replay (by decide +kernel)⟩, amid_of_foldlM (by decide +kernel),
    by decide +kernel, [⟨[utf8 "s", utf8 "b"], ⟨false, utf8 "size:0,mtime:6", some 0, 6, false⟩⟩],
    gives_of_replay (by decide +kernel), by decide +kernel⟩
  rintro (_ | ⟨first, front⟩) name rest hsplit
  · cases hsplit
    rw [append_nil]
    exact hstays
  · simp at hsplit

end OvStorage.Files
