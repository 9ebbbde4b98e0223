import OvStorage.Files.Backend
import OvStorage.Lib.Record

/-!
# Listing a directory

`FileBackend::list` and `list_stream` of `ovstorage/src/file/mod.rs` behind their scope check: two walks over the
entries below a directory, one that recurs and collects (`collect_file_list`) and one that keeps a stack of open
directories and yields (`next_file_list_path`). Each entry is fetched, described and opened by calls of their own.

## The model

A walk is a `Routine` over the calls of `Look`. Its `turns` bound the entries it fetches; a directory that never ends
is a walk without end. Cancellation, owners and pages are left out, and `address` is `path_to_file_url`.
-/

namespace OvStorage.Files

open Address Interleave Routine FileBackend List

/-! ### The calls -/

/-- `ReadDir`. -/
structure ReadDir where
  fd : ℕ
  root : Path
deriving DecidableEq

inductive Look
  | openDir (path : Path)
  | nextEntry (directory : ReadDir)
  | sys (a : Sys)
deriving DecidableEq

abbrev Look.Answer : Look → Type
  | .openDir _ => Except IoError ℕ
  | .nextEntry _ => Except IoError (Option Bytes)
  | .sys a => a.Answer

/-- Why a walk stops short of its end. -/
inductive Stop
  | error (error : Error)
  | outOfTurns
deriving DecidableEq

/-- A part of a walk. -/
abbrev Walk (α : Type) := ExceptT Stop (Routine Look.Answer) α

/-- One call. -/
def ask (a : Look) : Routine Look.Answer a.Answer := perform a

/-- The calls of a part of a verb. -/
def calls {α : Type} (p : FileCall α) : Routine Look.Answer (Except Error α) :=
  Routine.handle (fun a : Sys => (ask (.sys a) : Routine Look.Answer a.Answer)) p.run

def below {α : Type} (p : FileCall α) : Walk α := ExceptT.mk do return (← calls p).mapError .error

/-- A call whose error is the walk's: `.map_err(map_io)?`. -/
def look {α : Type} (p : Routine Look.Answer (Except IoError α)) : Walk α :=
  ExceptT.mk do return (← p).mapError fun error => .error (mapIo error)

/-- `tokio::fs::read_dir`. -/
def readDir (path : Path) : Walk ReadDir := return ⟨← look (ask (.openDir path)), path⟩

/-- `ReadDir::next_entry`. -/
def nextEntry (directory : ReadDir) : Walk (Option Bytes) := look (ask (.nextEntry directory))

/-! ### The walks -/

/-- What a listing says of an entry; the address is that of the path. -/
structure Item where
  path : Path
  info : Info
deriving DecidableEq

namespace FileBackend

variable (recursive : Bool) (confineRoot : Option Path)

/-- What both walks pass over: a staging temp, and in confine mode what resolves outside the root. -/
def passesOver (entryPath : Path) : Walk Bool :=
  if isAtomicWriteTempSibling entryPath then return true
  else
    match confineRoot with
    | none => return false
    | some canonicalRoot => do
      match ← ExceptT.lift (calls (ensurePathWithinRoot entryPath canonicalRoot)) with
      | .ok _ => return false
      | .error _ => return true

/-- The loop of `collect_file_list`. -/
def collectEntries : (turns : ℕ) → (entries : ReadDir) → (out : List Item) → Walk (List Item)
  | 0, _, _ => throw .outOfTurns
  | turns + 1, entries, out => do
    match ← nextEntry entries with
    | none => return out
    | some name =>
      let entryPath := entries.root ++ [name]
      if ← passesOver confineRoot entryPath then collectEntries turns entries out
      else
        let info ← below (statPath entryPath)
        let out := out ++ [⟨entryPath, info⟩]
        if recursive && info.directory then
          let out ← collectEntries turns (← readDir entryPath) out
          collectEntries turns entries out
        else collectEntries turns entries out

/-- `collect_file_list`. -/
def collectFileList (turns : ℕ) (path : Path) (out : List Item) : Walk (List Item) := do
  collectEntries recursive confineRoot turns (← readDir path) out

/-- What `list` and `list_stream` say of a prefix that is a file. -/
def notADirectory : Bytes := utf8 "list prefix is a file, not a directory"

/-- `list`, behind its scope check. -/
def listScope (address : Path → Bytes) (turns : ℕ) (prefixPath : Path) : Walk (List Item) := do
  match ← ExceptT.lift (collectFileList recursive confineRoot turns prefixPath []).run with
  | .ok items => return items.mergeSort fun left right => decide (address left.path ≤ address right.path)
  | .error .outOfTurns => throw .outOfTurns
  | .error (.error err) => below (throwMismatch prefixPath true notADirectory err)

/-- `next_file_list_path`, on the stack of open directories: the path, and the stack it leaves. -/
def nextFileListPath : (turns : ℕ) → (directories : List ReadDir) → Walk (Option (Path × List ReadDir))
  | _, [] => return none
  | 0, _ :: _ => throw .outOfTurns
  | turns + 1, directory :: directories => do
    match ← nextEntry directory with
    | none => nextFileListPath turns directories
    | some name =>
      let entryPath := directory.root ++ [name]
      if ← passesOver confineRoot entryPath then nextFileListPath turns (directory :: directories)
      else return some (entryPath, directory :: directories)

/-- One round of the loop of `list_stream`, up to its `yield`. -/
def nextItem (turns : ℕ) (directories : List ReadDir) : Walk (Option (Item × List ReadDir)) := do
  match ← nextFileListPath confineRoot turns directories with
  | none => return none
  | some (entryPath, directories) => return some (⟨entryPath, ← below (statPath entryPath)⟩, directories)

/-- What is pushed behind the `yield`. -/
def descend (item : Item) (directories : List ReadDir) : Walk (List ReadDir) :=
  if recursive && item.info.directory then return (← readDir item.path) :: directories else return directories

/-- The loop of `list_stream`: what it yields, and how it ends. -/
def streamEntries : (turns : ℕ) → (directories : List ReadDir) → (yielded : List Item) →
    Routine Look.Answer (List Item × Except Stop Unit)
  | 0, _, yielded => return (yielded, .error .outOfTurns)
  | turns + 1, directories, yielded => do
    match ← (nextItem confineRoot (turns + 1) directories).run with
    | .error stop => return (yielded, .error stop)
    | .ok none => return (yielded, .ok ())
    | .ok (some (item, directories)) =>
      match ← (descend recursive item directories).run with
      | .error stop => return (yielded ++ [item], .error stop)
      | .ok directories => streamEntries turns directories (yielded ++ [item])

/-- `list_stream`, behind its scope check. -/
def listStreamScope (turns : ℕ) (prefixPath : Path) : Routine Look.Answer (List Item × Except Stop Unit) := do
  match ← ask (.openDir prefixPath) with
  | .ok fd => streamEntries recursive confineRoot turns [⟨fd, prefixPath⟩] []
  | .error err => return ([], ← (below (throwMismatch prefixPath true notADirectory (mapIo err))).run)

end FileBackend

/-! ### What a history says -/

/-- The paths of the entries that were fetched. -/
def fetched (h : History Look.Answer) : List Path :=
  h.filterMap fun
    | ⟨.nextEntry directory, .ok (some name)⟩ => some (directory.root ++ [name])
    | _ => none

/-- The directories that were opened. -/
def opened (h : History Look.Answer) : List ReadDir :=
  h.filterMap fun
    | ⟨.openDir path, .ok fd⟩ => some ⟨fd, path⟩
    | _ => none

def Look.Reads : Look → Bool
  | .nextEntry _ => true
  | _ => false

/-- How often a directory was asked for its next entry. -/
def reads (h : History Look.Answer) : ℕ := h.countP fun x => x.1.Reads

section

variable {h h₁ h₂ : History Look.Answer}

@[simp] theorem fetched_append : fetched (h₁ ++ h₂) = fetched h₁ ++ fetched h₂ := filterMap_append

@[simp] theorem opened_append : opened (h₁ ++ h₂) = opened h₁ ++ opened h₂ := filterMap_append

@[simp] theorem reads_append : reads (h₁ ++ h₂) = reads h₁ + reads h₂ := countP_append

/-- A call that neither fetches nor opens. -/
def Look.Plain : Look → Prop
  | .sys _ => True
  | _ => False

theorem fetched_of_plain (hplain : ∀ x ∈ h, x.1.Plain) : fetched h = [] := by
  refine filterMap_eq_nil_iff.mpr fun x hx => ?_
  have hxp := hplain x hx
  obtain ⟨a, r⟩ := x
  cases a with
  | sys a => rfl
  | _ => exact hxp.elim

theorem opened_of_plain (hplain : ∀ x ∈ h, x.1.Plain) : opened h = [] := by
  refine filterMap_eq_nil_iff.mpr fun x hx => ?_
  have hxp := hplain x hx
  obtain ⟨a, r⟩ := x
  cases a with
  | sys a => rfl
  | _ => exact hxp.elim

end

variable {confineRoot : Option Path} {recursive : Bool} {h h₁ h₂ : History Look.Answer}

/-- Nothing in the history has a listing pass over the path. -/
structure Admitted (confineRoot : Option Path) (h : History Look.Answer) (path : Path) : Prop where
  named : isAtomicWriteTempSibling path = false
  inside : ∀ canonicalRoot ∈ confineRoot, ∀ r : Except IoError Path, ⟨.sys (.canonicalize path), r⟩ ∈ h →
    ∃ place, r = .ok place ∧ canonicalRoot <+: place

/-- Wherever the history describes the path, it is a directory. -/
def IsDirectory (h : History Look.Answer) (path : Path) : Prop :=
  ∀ metadata : Metadata, (⟨.sys (.metadata path), .ok metadata⟩ : Sigma Look.Answer) ∈ h →
    metadata.fileType = .directory

/-- The items are what the history fetched, as the history describes them; a recursive walk opened the directories
among them. -/
structure Tally (recursive : Bool) (confineRoot : Option Path) (h : History Look.Answer) (items : List Item) :
    Prop where
  listed : ∀ path, Admitted confineRoot h path → (items.map Item.path).count path = (fetched h).count path
  entered : recursive = true → ∀ path, IsDirectory h path →
    ((opened h).map ReadDir.root).count path = (items.map Item.path).count path
  flat : recursive = false → opened h = []

/-- The history describes each of the items. -/
def Stated (h : History Look.Answer) (items : List Item) : Prop :=
  ∀ item ∈ items, ∃ metadata : Metadata, (⟨.sys (.metadata item.path), .ok metadata⟩ : Sigma Look.Answer) ∈ h ∧
    item.info = statPathWithMeta metadata ∧ item.path ∈ fetched h

/-- The items are below the directories, and in one of them where the walk is not recursive. -/
def Reached (recursive : Bool) (directories : List ReadDir) (items : List Item) : Prop :=
  ∀ item ∈ items, ∃ directory ∈ directories, ∃ name names, item.path = directory.root ++ name :: names ∧
    (recursive = false → names = [])

/-- The directories, and those that the history opens, are read to their ends. -/
def Ends (directories : List ReadDir) (h : History Look.Answer) : Prop :=
  ∀ directory ∈ directories ++ opened h, (⟨.nextEntry directory, .ok none⟩ : Sigma Look.Answer) ∈ h

/-- The error is that of one call: the description of a fetched entry, the opening of an entry described as a
directory, or the fetching of an entry. -/
inductive Blamed (h : History Look.Answer) (e : Error) : Prop
  | stat {pre post path} {error : IoError} : h = pre ++ ⟨.sys (.metadata path), .error error⟩ :: post →
      path ∈ fetched pre → e = mapIo error → Blamed h e
  | openDir {pre post path} {error : IoError} {metadata : Metadata} : h = pre ++ ⟨.openDir path, .error error⟩ :: post →
      path ∈ fetched pre → (⟨.sys (.metadata path), .ok metadata⟩ : Sigma Look.Answer) ∈ pre →
        metadata.fileType = .directory →
      e = mapIo error → Blamed h e
  | nextEntry {directory} {error : IoError} : (⟨.nextEntry directory, .error error⟩ : Sigma Look.Answer) ∈ h →
      e = mapIo error → Blamed h e

variable {path prefixPath : Path}

theorem Admitted.mono (hp : Admitted confineRoot h path) (hsub : ∀ x ∈ h₁, x ∈ h) : Admitted confineRoot h₁ path :=
  ⟨hp.named, fun canonicalRoot hroot r hr => hp.inside canonicalRoot hroot r (hsub _ hr)⟩

theorem Tally.idle (hf : fetched h = []) (ho : opened h = []) : Tally recursive confineRoot h [] where
  listed _ _ := by rw [hf]; rfl
  entered _ _ _ := by rw [ho]; rfl
  flat _ := ho

variable {items out yielded items₁ items₂ : List Item}

theorem Tally.append (h₁t : Tally recursive confineRoot h₁ items₁)
    (h₂t : Tally recursive confineRoot h₂ items₂) : Tally recursive confineRoot (h₁ ++ h₂) (items₁ ++ items₂) where
  listed path hp := by
    have hp₁ := h₁t.listed path (hp.mono fun x hx => mem_append_left h₂ hx)
    have hp₂ := h₂t.listed path (hp.mono fun x hx => mem_append_right h₁ hx)
    simp [hp₁, hp₂]
  entered hrec path hp := by
    have hp₁ := h₁t.entered hrec path fun metadata hm => hp metadata (mem_append_left h₂ hm)
    have hp₂ := h₂t.entered hrec path fun metadata hm => hp metadata (mem_append_right h₁ hm)
    simp [hp₁, hp₂]
  flat hrec := by rw [opened_append, h₁t.flat hrec, h₂t.flat hrec]; rfl

theorem Stated.mono (hs : Stated h₁ items) (hsub : h₁ <:+: h) : Stated h items := by
  intro item hitem
  obtain ⟨metadata, hm, hinfo, hf⟩ := hs item hitem
  exact ⟨metadata, hsub.subset hm, hinfo, (hsub.filterMap _).subset hf⟩

theorem Stated.append (hs₁ : Stated h items₁) (hs₂ : Stated h items₂) : Stated h (items₁ ++ items₂) := by
  intro item hitem
  rcases mem_append.mp hitem with hitem | hitem
  · exact hs₁ item hitem
  · exact hs₂ item hitem

section

variable {directory : ReadDir} {directories directories' : List ReadDir} {name : Bytes} {items : List Item}

theorem Reached.mono (hr : Reached recursive directories items) (hsub : ∀ d ∈ directories, d ∈ directories') :
    Reached recursive directories' items := by
  intro item hitem
  obtain ⟨d, hd, hbelow⟩ := hr item hitem
  exact ⟨d, hsub d hd, hbelow⟩

theorem Reached.cons (hr : Reached recursive directories items) (hd : directory ∈ directories) (info : Info) :
    Reached recursive directories (⟨directory.root ++ [name], info⟩ :: items) :=
  forall_mem_cons.mpr ⟨⟨directory, hd, name, [], rfl, fun _ => rfl⟩, hr⟩

/-- What is below an entry is below its directory. -/
theorem Reached.through {fd : ℕ} (hr : Reached recursive (⟨fd, directory.root ++ [name]⟩ :: directories) items)
    (hrec : recursive = true) (hd : directory ∈ directories') (hsub : ∀ d ∈ directories, d ∈ directories') :
    Reached recursive directories' items := by
  intro item hitem
  obtain ⟨d, hmem, name', names, hpath, hflat⟩ := hr item hitem
  rcases mem_cons.mp hmem with rfl | hmem
  · refine ⟨directory, hd, name, name' :: names, by simpa using hpath, fun hfalse => ?_⟩
    cases hrec.symm.trans hfalse
  · exact ⟨d, hsub d hmem, name', names, hpath, hflat⟩

end

theorem Ends.append {ds₁ ds₂ : List ReadDir} (he₁ : Ends ds₁ h₁) (he₂ : Ends ds₂ h₂) :
    Ends (ds₁ ++ ds₂) (h₁ ++ h₂) := by
  intro directory hd
  simp only [opened_append, mem_append] at hd
  rcases hd with (hd | hd) | (hd | hd)
  · exact mem_append_left _ (he₁ directory (mem_append_left _ hd))
  · exact mem_append_right _ (he₂ directory (mem_append_left _ hd))
  · exact mem_append_left _ (he₁ directory (mem_append_right _ hd))
  · exact mem_append_right _ (he₂ directory (mem_append_right _ hd))

theorem Blamed.append_left {e : Error} (hb : Blamed h e) (h₁ : History Look.Answer) : Blamed (h₁ ++ h) e := by
  cases hb with
  | stat hsplit hf he =>
    exact .stat (by rw [hsplit, append_assoc]) (by simp [hf]) he
  | openDir hsplit hf hm hd he =>
    exact .openDir (by rw [hsplit, append_assoc]) (by simp [hf]) (mem_append_right h₁ hm) hd he
  | nextEntry hmem he => exact .nextEntry (mem_append_right h₁ hmem) he

theorem Blamed.append_right {e : Error} (hb : Blamed h e) (h₂ : History Look.Answer) : Blamed (h ++ h₂) e := by
  cases hb with
  | stat hsplit hf he => exact .stat (by rw [hsplit, append_assoc]; rfl) hf he
  | openDir hsplit hf hm hd he => exact .openDir (by rw [hsplit, append_assoc]; rfl) hf hm hd he
  | nextEntry hmem he => exact .nextEntry (mem_append_left h₂ hmem) he

/-! ### What each call leaves in the history -/

/-- A call of a verb among those of a walk. -/
def ofSys (x : Sigma Sys.Answer) : Sigma Look.Answer := ⟨.sys x.1, x.2⟩

variable {α β : Type}

theorem gives_calls {p : FileCall α} {x : Except Error α} :
    (calls p).Gives h x ↔ ∃ h₀, h = h₀.map ofSys ∧ p.run.Gives h₀ x := by
  rw [calls]
  generalize p.run = p
  induction p generalizing h with
  | done value =>
    constructor
    · rintro ⟨rfl, rfl⟩
      exact ⟨[], rfl, rfl, rfl⟩
    · rintro ⟨_, rfl, rfl, rfl⟩
      exact ⟨rfl, rfl⟩
  | act a k ih =>
    constructor
    · rintro ⟨r, h', rfl, hk⟩
      obtain ⟨h₀, rfl, hx⟩ := (ih r).mp hk
      exact ⟨⟨a, r⟩ :: h₀, rfl, r, h₀, rfl, hx⟩
    · rintro ⟨_, rfl, r, h₀, rfl, hx⟩
      exact ⟨r, h₀.map ofSys, rfl, (ih r).mpr ⟨h₀, rfl, hx⟩⟩

theorem plain_of_calls {p : FileCall α} {x : Except Error α} (hx : (calls p).Gives h x) : ∀ y ∈ h, y.1.Plain := by
  obtain ⟨h₀, rfl, -⟩ := gives_calls.mp hx
  intro y hy
  obtain ⟨z, -, rfl⟩ := mem_map.mp hy
  trivial

theorem gives_below {p : FileCall α} {x : Except Stop α} :
    (below p).run.Gives h x ↔ ∃ y, x = y.mapError .error ∧ (calls p).Gives h y :=
  gives_bind_pure (p := calls p) (f := fun y => y.mapError Stop.error)

variable {p : Routine Look.Answer (Except IoError α)}

theorem gives_look {x : Except Stop α} :
    (look p).run.Gives h x ↔ ∃ r, x = r.mapError (fun error => Stop.error (mapIo error)) ∧ p.Gives h r :=
  gives_bind_pure (p := p) (f := fun r => r.mapError fun error => Stop.error (mapIo error))

/-- Behind a call a walk goes on with the answer, or it ends with the call's error. -/
theorem gives_look_bind {f : α → Walk β} {x : Except Stop β} (hx : (look p >>= f).run.Gives h x) :
    (∃ error, p.Gives h (.error error) ∧ x = .error (.error (mapIo error))) ∨
      ∃ h₁ h₂ value, h = h₁ ++ h₂ ∧ p.Gives h₁ (.ok value) ∧ (f value).run.Gives h₂ x := by
  rcases gives_bindT.mp hx with ⟨stop, hstop, rfl⟩ | ⟨h₁, h₂, value, rfl, hvalue, hrest⟩
  · obtain ⟨r, hr, hp⟩ := gives_look.mp hstop
    cases r with
    | ok value => cases hr
    | error error =>
      cases hr
      exact .inl ⟨error, hp, rfl⟩
  · obtain ⟨r, hr, hp⟩ := gives_look.mp hvalue
    cases r with
    | error error => cases hr
    | ok value' =>
      cases hr
      exact .inr ⟨h₁, h₂, value, rfl, hp, hrest⟩

section

variable {β : Type} {x : Except Stop β}

theorem nextEntry_bind {directory : ReadDir} {f : Option Bytes → Walk β}
    (hx : (nextEntry directory >>= f).run.Gives h x) :
    (∃ error : IoError, h = [⟨.nextEntry directory, .error error⟩] ∧ x = .error (.error (mapIo error))) ∨
      ∃ (next : Option Bytes) (h' : History Look.Answer), h = ⟨.nextEntry directory, .ok next⟩ :: h' ∧
      (f next).run.Gives h' x := by
  rcases gives_look_bind hx with ⟨error, hp, rfl⟩ | ⟨h₁, h₂, next, rfl, hp, hrest⟩
  · exact .inl ⟨error, gives_perform.mp hp, rfl⟩
  · obtain rfl := gives_perform.mp hp
    exact .inr ⟨next, h₂, rfl, hrest⟩

theorem readDir_bind {f : ReadDir → Walk β} (hx : (readDir path >>= f).run.Gives h x) :
    (∃ error : IoError, h = [⟨.openDir path, .error error⟩] ∧ x = .error (.error (mapIo error))) ∨
      ∃ (fd : ℕ) (h' : History Look.Answer), h = ⟨.openDir path, .ok fd⟩ :: h' ∧ (f ⟨fd, path⟩).run.Gives h' x := by
  rcases gives_bindT.mp hx with ⟨stop, hstop, rfl⟩ | ⟨h₁, h₂, directory, rfl, hd, hrest⟩
  · rcases gives_look_bind hstop with ⟨error, hp, heq⟩ | ⟨h₁, h₂, fd, rfl, hp, hpure⟩
    · cases heq
      exact .inl ⟨error, gives_perform.mp hp, rfl⟩
    · cases (gives_pureT.mp hpure).2
  · rcases gives_look_bind hd with ⟨error, hp, heq⟩ | ⟨h₃, h₄, fd, rfl, hp, hpure⟩
    · cases heq
    · obtain rfl := gives_perform.mp hp
      obtain ⟨rfl, heq⟩ := gives_pureT.mp hpure
      cases heq
      exact .inr ⟨fd, h₂, rfl, hrest⟩

/-- A call of a verb whose error is the verb's. -/
theorem gives_io {p : Routine Sys.Answer (Except IoError α)} {h₀ : History Sys.Answer} {x : Except Error α} :
    (io p).run.Gives h₀ x ↔ ∃ r, x = r.mapError mapIo ∧ p.Gives h₀ r :=
  gives_bind_pure (p := p) (f := fun r => r.mapError mapIo)

theorem statPath_bind {f : Info → Walk β} (hx : (below (statPath path) >>= f).run.Gives h x) :
    (∃ error : IoError, h = [⟨.sys (.metadata path), .error error⟩] ∧ x = .error (.error (mapIo error))) ∨
      ∃ (metadata : Metadata) (h' : History Look.Answer), h = ⟨.sys (.metadata path), .ok metadata⟩ :: h' ∧
        (f (statPathWithMeta metadata)).run.Gives h' x := by
  have hstat : ∀ {h : History Look.Answer} {y : Except Error Info}, (calls (statPath path)).Gives h y →
      ∃ r : Except IoError Metadata, h = [⟨.sys (.metadata path), r⟩] ∧
        y = (r.map statPathWithMeta).mapError mapIo := by
    intro h y hy
    obtain ⟨h₀, rfl, hrun⟩ := gives_calls.mp hy
    rcases gives_bindT.mp hrun with ⟨e, he, rfl⟩ | ⟨h₁, h₂, metadata, rfl, hm, rfl, rfl⟩
    · obtain ⟨r, hr, hp⟩ := gives_io.mp he
      obtain rfl := gives_perform.mp hp
      cases r with
      | ok metadata => cases hr
      | error error =>
        cases hr
        exact ⟨.error error, rfl, rfl⟩
    · obtain ⟨r, hr, hp⟩ := gives_io.mp hm
      obtain rfl := gives_perform.mp hp
      cases r with
      | error error => cases hr
      | ok metadata' =>
        cases hr
        exact ⟨.ok metadata, rfl, rfl⟩
  rcases gives_bindT.mp hx with ⟨stop, hstop, rfl⟩ | ⟨h₁, h₂, info, rfl, hinfo, hrest⟩
  · obtain ⟨y, hy, hcalls⟩ := gives_below.mp hstop
    obtain ⟨r, rfl, rfl⟩ := hstat hcalls
    cases r with
    | ok metadata => cases hy
    | error error =>
      cases hy
      exact .inl ⟨error, rfl, rfl⟩
  · obtain ⟨y, hy, hcalls⟩ := gives_below.mp hinfo
    obtain ⟨r, rfl, rfl⟩ := hstat hcalls
    cases r with
    | error error => cases hy
    | ok metadata =>
      cases hy
      exact .inr ⟨metadata, h₂, rfl, hrest⟩

end

/-- The jail is judged by where the path leads, if it leads anywhere. -/
theorem ensurePathWithinRoot_gives {canonicalRoot : Path} {h₀ : History Sys.Answer} {x : Except Error Unit}
    (hx : (ensurePathWithinRoot path canonicalRoot).run.Gives h₀ x)
    (hinside : ∀ r : Except IoError Path, (⟨.canonicalize path, r⟩ : Sigma Sys.Answer) ∈ h₀ →
      ∃ place, r = .ok place ∧ canonicalRoot <+: place) : x = .ok () := by
  have hanchor : ∀ h₁ anchor, (canonicalExistingAnchor path.reverse).run.Gives h₁ anchor →
      ∃ r : Except IoError Path, (⟨.canonicalize path, r⟩ : Sigma Sys.Answer) ∈ h₁ ∧ ∀ place, r = .ok place →
        anchor = .ok place := by
    intro h₁ anchor hanchor
    cases hrev : path.reverse with
    | nil =>
      obtain rfl : path = [] := reverse_eq_nil_iff.mp hrev
      obtain ⟨r, rfl, hr⟩ := gives_io.mp hanchor
      obtain rfl := gives_perform.mp hr
      exact ⟨r, mem_singleton_self _, fun place hplace => hplace ▸ rfl⟩
    | cons name above =>
      obtain rfl : path = (name :: above).reverse := by rw [← hrev, reverse_reverse]
      rw [hrev] at hanchor
      rcases gives_bindT.mp hanchor with ⟨e, he, rfl⟩ | ⟨h₂, h₃, r, rfl, hr, hrest⟩
      · obtain ⟨v, hv, -⟩ := gives_lift.mp he
        cases hv
      · obtain ⟨_, ⟨⟩, hr⟩ := gives_lift.mp hr
        obtain rfl := gives_perform.mp hr
        refine ⟨r, mem_append_left _ (mem_singleton_self _), fun place hplace => ?_⟩
        subst hplace
        exact (gives_pureT.mp hrest).2
  rcases gives_bindT.mp hx with ⟨e, he, rfl⟩ | ⟨h₁, h₂, anchor, rfl, ha, hrest⟩
  · obtain ⟨r, hr, hok⟩ := hanchor h₀ _ he
    obtain ⟨place, rfl, -⟩ := hinside r hr
    cases hok place rfl
  · obtain ⟨r, hr, hok⟩ := hanchor h₁ _ ha
    obtain ⟨place, rfl, hplace⟩ := hinside r (mem_append_left _ hr)
    cases hok place rfl
    rw [if_neg (not_not_intro hplace)] at hrest
    exact (gives_pureT.mp hrest).2

theorem passesOver_gives {x : Except Stop Bool} (hx : (passesOver confineRoot path).run.Gives h x) :
    ∃ passed, x = .ok passed ∧ (∀ y ∈ h, y.1.Plain) ∧ (Admitted confineRoot h path → passed = false) := by
  unfold passesOver at hx
  split at hx
  next htemp =>
    obtain ⟨rfl, rfl⟩ := gives_pureT.mp hx
    exact ⟨true, rfl, fun y hy => (nomatch hy), fun hp => absurd htemp (by simp [hp.named])⟩
  next htemp =>
    cases confineRoot with
    | none =>
      obtain ⟨rfl, rfl⟩ := gives_pureT.mp hx
      exact ⟨false, rfl, fun y hy => (nomatch hy), fun _ => rfl⟩
    | some canonicalRoot =>
      rcases gives_bindT.mp hx with ⟨e, he, rfl⟩ | ⟨h₁, h₂, y, rfl, hy, hx⟩
      · obtain ⟨v, hv, -⟩ := gives_lift.mp he
        cases hv
      · obtain ⟨_, ⟨⟩, hcalls⟩ := gives_lift.mp hy
        cases y with
        | ok u =>
          obtain ⟨rfl, rfl⟩ := gives_pureT.mp hx
          rw [append_nil]
          exact ⟨false, rfl, plain_of_calls hcalls, fun _ => rfl⟩
        | error e =>
          obtain ⟨rfl, rfl⟩ := gives_pureT.mp hx
          rw [append_nil]
          refine ⟨true, rfl, plain_of_calls hcalls, fun hp => ?_⟩
          obtain ⟨h₀, rfl, hrefused⟩ := gives_calls.mp hcalls
          have hok := ensurePathWithinRoot_gives hrefused fun r hr =>
            hp.inside canonicalRoot rfl r (mem_map_of_mem hr)
          cases hok

theorem passesOver_bind {f : Bool → Walk β} {x : Except Stop β}
    (hx : (passesOver confineRoot path >>= f).run.Gives h x) :
    ∃ h₁ h₂ passed, h = h₁ ++ h₂ ∧ (∀ y ∈ h₁, y.1.Plain) ∧ (Admitted confineRoot h₁ path → passed = false) ∧
      (f passed).run.Gives h₂ x := by
  rcases gives_bindT.mp hx with ⟨stop, hstop, rfl⟩ | ⟨h₁, h₂, passed, rfl, hpassed, hrest⟩
  · obtain ⟨_, heq, -⟩ := passesOver_gives hstop
    cases heq
  · obtain ⟨_, heq, hplain, hadmitted⟩ := passesOver_gives hpassed
    cases heq
    exact ⟨h₁, h₂, passed, rfl, hplain, hadmitted, hrest⟩

/-! ### One entry -/

section

variable {directory : ReadDir} {name : Bytes}

/-- An entry was fetched, and what came next neither fetched nor opened anything. -/
def Fetch (directory : ReadDir) (name : Bytes) (h : History Look.Answer) : Prop :=
  ∃ rest, h = ⟨.nextEntry directory, .ok (some name)⟩ :: rest ∧ ∀ x ∈ rest, x.1.Plain

theorem Fetch.fetched (hf : Fetch directory name h) : fetched h = [directory.root ++ [name]] := by
  obtain ⟨rest, rfl, hrest⟩ := hf
  exact congrArg (_ :: ·) (fetched_of_plain hrest)

theorem Fetch.opened (hf : Fetch directory name h) : opened h = [] := by
  obtain ⟨rest, rfl, hrest⟩ := hf
  have hnone := opened_of_plain hrest
  exact hnone

theorem Fetch.reads (hf : Fetch directory name h) : 1 ≤ reads h := by
  obtain ⟨rest, rfl, -⟩ := hf
  exact countP_pos_iff.mpr ⟨_, mem_cons_self, rfl⟩

theorem Fetch.described (hf : Fetch directory name h) (r : Except IoError Metadata) :
    Fetch directory name (h ++ [⟨.sys (.metadata (directory.root ++ [name])), r⟩]) := by
  obtain ⟨rest, rfl, hrest⟩ := hf
  refine ⟨rest ++ [⟨.sys (.metadata (directory.root ++ [name])), r⟩], rfl, forall_mem_append.mpr ⟨hrest, ?_⟩⟩
  exact forall_mem_singleton.mpr (show (Look.sys _).Plain from trivial)

/-- An entry that is passed over. -/
theorem Fetch.passed (hf : Fetch directory name h) (hpassed : ¬Admitted confineRoot h (directory.root ++ [name])) :
    Tally recursive confineRoot h [] where
  listed path hp := by
    rw [hf.fetched]
    by_cases hpath : directory.root ++ [name] = path
    · exact absurd (hpath ▸ hp) hpassed
    · simp [hpath]
  entered _ path _ := by simp [hf.opened]
  flat _ := hf.opened

variable {metadata : Metadata}

/-- An entry that is listed, and not entered. -/
theorem Fetch.listed (hf : Fetch directory name h)
    (hm : (⟨.sys (.metadata (directory.root ++ [name])), .ok metadata⟩ : Sigma Look.Answer) ∈ h)
    (hentry : ¬(recursive && (statPathWithMeta metadata).directory) = true) :
    Tally recursive confineRoot h [⟨directory.root ++ [name], statPathWithMeta metadata⟩] where
  listed path _ := by rw [hf.fetched]; rfl
  entered hrec path hp := by
    rw [hf.opened]
    by_cases hpath : directory.root ++ [name] = path
    · subst hpath
      refine absurd ?_ hentry
      simp [hrec, statPathWithMeta, hp metadata hm]
    · simp [hpath]
  flat _ := hf.opened

/-- A directory that is listed and entered. -/
theorem Fetch.entered (hf : Fetch directory name h) {info : Info} {fd : ℕ} (hrec : recursive = true) :
    Tally recursive confineRoot (h ++ [⟨.openDir (directory.root ++ [name]), .ok fd⟩])
      [⟨directory.root ++ [name], info⟩] where
  listed path _ := by
    have hnone : OvStorage.Files.fetched [⟨.openDir (directory.root ++ [name]), .ok fd⟩] = [] := rfl
    rw [fetched_append, hf.fetched, hnone]
    rfl
  entered _ path _ := by
    rw [opened_append, hf.opened]
    rfl
  flat hflat := by cases hrec.symm.trans hflat

theorem Fetch.stated (hf : Fetch directory name h)
    (hm : (⟨.sys (.metadata (directory.root ++ [name])), .ok metadata⟩ : Sigma Look.Answer) ∈ h) :
    Stated h [⟨directory.root ++ [name], statPathWithMeta metadata⟩] := by
  refine forall_mem_singleton.mpr ⟨metadata, hm, rfl, ?_⟩
  rw [hf.fetched]
  exact mem_singleton_self _

end

variable {directories directories₀ ds : List ReadDir}

/-- What comes before opens some of the directories that are read to their ends behind it. -/
theorem Ends.behind (he : Ends (opened h₁ ++ ds) h) : Ends ds (h₁ ++ h) := by
  intro directory hd
  rw [opened_append] at hd
  refine mem_append_right _ (he directory ?_)
  simp only [mem_append] at hd ⊢
  tauto

theorem Ends.pop {directory : ReadDir} (he : Ends ds h) :
    Ends (directory :: ds) (⟨.nextEntry directory, .ok none⟩ :: h) := by
  intro d hd
  rcases mem_cons.mp hd with rfl | hd
  · exact mem_cons_self
  · exact mem_cons_of_mem _ (he d hd)

/-! ### The walk that recurs -/

/-- What a walk that collects has done when it ends. -/
def Collected (recursive : Bool) (confineRoot : Option Path) (turns : ℕ) (entries : ReadDir) (out : List Item)
    (h : History Look.Answer) : Except Stop (List Item) → Prop
  | .ok out' => ∃ items, out' = out ++ items ∧ Tally recursive confineRoot h items ∧ Stated h items ∧
      Reached recursive [entries] items ∧ Ends [entries] h
  | .error .outOfTurns => turns ≤ reads h
  | .error (.error e) => Blamed h e

variable {turns : ℕ} {entries : ReadDir}

/-- What a part of the walk fails with, the walk fails with. -/
theorem Collected.failed {child : ReadDir} {out' : List Item} {stop : Stop}
    (hc : Collected recursive confineRoot turns child out' h (.error stop)) (hr : 1 ≤ reads h₁) :
    Collected recursive confineRoot (turns + 1) entries out (h₁ ++ h) (.error stop) := by
  cases stop with
  | error e => exact Blamed.append_left hc h₁
  | outOfTurns =>
    have hsum : turns ≤ reads h := hc
    have htotal : reads (h₁ ++ h) = reads h₁ + reads h := reads_append
    exact show turns + 1 ≤ reads (h₁ ++ h) by omega

/-- What comes before the rest of the walk. -/
theorem Collected.after {x : Except Stop (List Item)}
    (hc : Collected recursive confineRoot turns entries (out ++ items) h x) (ht : Tally recursive confineRoot h₁ items)
    (hs : Stated h₁ items)
    (hb : ∀ items', Reached recursive [entries] items' → Reached recursive [entries] (items ++ items'))
    (he : Ends [entries] h → Ends [entries] (h₁ ++ h)) (hr : 1 ≤ reads h₁) :
    Collected recursive confineRoot (turns + 1) entries out (h₁ ++ h) x := by
  match x, hc with
  | .ok out', ⟨items', hout, ht', hs', hb', he'⟩ =>
    refine ⟨items ++ items', by rw [hout, append_assoc], ht.append ht', ?_, hb items' hb', he he'⟩
    exact (hs.mono (prefix_append h₁ h).isInfix).append (hs'.mono (suffix_append h₁ h).isInfix)
  | .error stop, hc => exact Collected.failed hc hr

theorem collectEntries_gives {x : Except Stop (List Item)}
    (hx : (collectEntries recursive confineRoot turns entries out).run.Gives h x) :
    Collected recursive confineRoot turns entries out h x := by
  induction turns generalizing entries out h x with
  | zero =>
    obtain ⟨rfl, rfl⟩ := gives_throw.mp hx
    exact Nat.zero_le _
  | succ turns ih =>
    rcases nextEntry_bind hx with ⟨error, rfl, rfl⟩ | ⟨next, h', rfl, hnext⟩
    · exact .nextEntry (mem_singleton_self _) rfl
    cases next with
    | none =>
      obtain ⟨rfl, rfl⟩ := gives_pureT.mp hnext
      refine ⟨[], (append_nil out).symm, Tally.idle rfl rfl, forall_mem_nil _, forall_mem_nil _, ?_⟩
      exact Ends.pop (forall_mem_nil _)
    | some name =>
      obtain ⟨hc, h₂, passed, rfl, hplain, hadmitted, hpassed⟩ := passesOver_bind hnext
      have hfetch : Fetch entries name (⟨.nextEntry entries, .ok (some name)⟩ :: hc) := ⟨hc, rfl, hplain⟩
      cases passed with
      | true =>
        refine Collected.after ((append_nil out).symm ▸ ih hpassed) (hfetch.passed fun hp => ?_)
          (forall_mem_nil _) (fun _ hb => hb) (fun he => Ends.behind (by rwa [hfetch.opened])) hfetch.reads
        cases hadmitted (hp.mono fun y hy => mem_cons_of_mem _ hy)
      | false =>
        rw [if_neg Bool.false_ne_true] at hpassed
        rcases statPath_bind hpassed with ⟨error, rfl, rfl⟩ | ⟨metadata, h₃, rfl, hstat⟩
        · exact @Blamed.stat _ _ (⟨.nextEntry entries, .ok (some name)⟩ :: hc) _ _ _ rfl
            (by rw [hfetch.fetched]; exact mem_singleton_self _) rfl
        obtain ⟨hv, hsplit, hvisit, hmem⟩ : ∃ hv, (⟨.nextEntry entries, .ok (some name)⟩ :: hc) ++
            ⟨.sys (.metadata (entries.root ++ [name])), .ok metadata⟩ :: h₃ = hv ++ h₃ ∧ Fetch entries name hv ∧
              (⟨.sys (.metadata (entries.root ++ [name])), .ok metadata⟩ : Sigma Look.Answer) ∈ hv :=
          ⟨_, (append_cons _ _ _), hfetch.described _,
            mem_append_right _ (mem_singleton_self _)⟩
        rw [← cons_append, hsplit]
        by_cases henter : (recursive && (statPathWithMeta metadata).directory) = true
        · simp only [henter, if_true] at hstat
          rcases readDir_bind hstat with ⟨error, rfl, rfl⟩ | ⟨fd, h₄, rfl, hopen⟩
          · refine .openDir rfl (by rw [hvisit.fetched]; exact mem_singleton_self _) hmem ?_ rfl
            simpa [statPathWithMeta] using (Bool.and_eq_true_iff.mp henter).2
          have hreads : 1 ≤ reads (hv ++ [⟨.openDir (entries.root ++ [name]), .ok fd⟩]) := by
            rw [reads_append]
            exact Nat.le_add_right_of_le hvisit.reads
          have hopened : opened (hv ++ [⟨.openDir (entries.root ++ [name]), .ok fd⟩]) =
              [⟨fd, entries.root ++ [name]⟩] := by
            rw [opened_append, hvisit.opened]
            rfl
          rw [append_cons]
          rcases gives_bindT.mp hopen with ⟨stop, hstop, rfl⟩ | ⟨h₅, h₆, out', rfl, hchild, hback⟩
          · exact (ih hstop).failed hreads
          obtain ⟨items, rfl, htally, hstated, hreached, hends⟩ := ih hchild
          rw [append_assoc] at hback
          rw [← append_assoc]
          have hrec : recursive = true := (Bool.and_eq_true_iff.mp henter).1
          refine (ih hback).after ((hvisit.entered hrec).append htally) ?_ (fun items' hb => ?_) (fun he => ?_) ?_
          · exact ((hvisit.stated hmem).mono ((prefix_append hv _).trans (prefix_append _ h₅)).isInfix).append
              (hstated.mono (suffix_append _ h₅).isInfix)
          · refine Reached.cons (forall_mem_append.mpr ⟨?_, hb⟩) (mem_singleton_self _) _
            exact hreached.through hrec (mem_singleton_self _) (forall_mem_nil _)
          · rw [append_assoc]
            exact Ends.behind (by rw [hopened]; exact hends.append he)
          · rw [reads_append]
            exact Nat.le_add_right_of_le hreads
        · simp only [henter] at hstat
          exact (ih hstat).after (hvisit.listed hmem henter) (hvisit.stated hmem)
            (fun items' hb => hb.cons (mem_singleton_self _) _)
              (fun he => Ends.behind (by rwa [hvisit.opened])) hvisit.reads

/-! ### The walk that yields -/

/-- What a fetch for the stream has done: it has passed over entries and left directories that had ended. -/
def Advanced (recursive : Bool) (confineRoot : Option Path) (turns : ℕ) (directories : List ReadDir)
    (h : History Look.Answer) : Except Stop (Option (Path × List ReadDir)) → Prop
  | .ok none => Tally recursive confineRoot h [] ∧ Ends directories h
  | .ok (some (path, directories')) => ∃ h₁ h₂ directory name, h = h₁ ++ h₂ ∧ path = directory.root ++ [name] ∧
      Tally recursive confineRoot h₁ [] ∧ Fetch directory name h₂ ∧ opened h₁ = [] ∧ directory ∈ directories ∧
      (∀ d ∈ directories', d ∈ directories) ∧ ∀ h', Ends directories' h' → Ends directories (h ++ h')
  | .error .outOfTurns => turns ≤ reads h
  | .error (.error e) => Blamed h e

/-- What comes before the rest of a fetch, and lists nothing. -/
theorem Advanced.after {x : Except Stop (Option (Path × List ReadDir))}
    (ha : Advanced recursive confineRoot turns directories h x) (ht : Tally recursive confineRoot h₁ [])
    (ho : opened h₁ = []) (hd : ∀ d ∈ directories, d ∈ directories₀)
    (he : ∀ h', Ends directories h' → Ends directories₀ (h₁ ++ h')) (hr : 1 ≤ reads h₁) :
    Advanced recursive confineRoot (turns + 1) directories₀ (h₁ ++ h) x := by
  match x, ha with
  | .ok none, ⟨ht', he'⟩ => exact ⟨ht.append ht', he h he'⟩
  | .ok (some (path, directories')), ⟨h₂, h₃, directory, name, hsplit, hpath, ht', hfetch, ho', hmem, hsub, he'⟩ =>
    refine ⟨h₁ ++ h₂, h₃, directory, name, by rw [hsplit, append_assoc], hpath, ht.append ht', hfetch, ?_, hd _ hmem,
      fun d hd' => hd d (hsub d hd'), fun h' hh' => ?_⟩
    · rw [opened_append, ho, ho', append_nil]
    · rw [append_assoc]
      exact he _ (he' h' hh')
  | .error .outOfTurns, hturns =>
    have hsum : turns ≤ reads h := hturns
    have htotal : reads (h₁ ++ h) = reads h₁ + reads h := reads_append
    exact show turns + 1 ≤ reads (h₁ ++ h) by omega
  | .error (.error e), hb => exact Blamed.append_left hb h₁

theorem nextFileListPath_gives {x : Except Stop (Option (Path × List ReadDir))}
    (hx : (nextFileListPath confineRoot turns directories).run.Gives h x) :
    Advanced recursive confineRoot turns directories h x := by
  induction turns generalizing directories h x with
  | zero =>
    cases directories with
    | nil =>
      obtain ⟨rfl, rfl⟩ := gives_pureT.mp hx
      exact ⟨Tally.idle rfl rfl, forall_mem_nil _⟩
    | cons directory directories =>
      obtain ⟨rfl, rfl⟩ := gives_throw.mp hx
      exact Nat.zero_le _
  | succ turns ih =>
    cases directories with
    | nil =>
      obtain ⟨rfl, rfl⟩ := gives_pureT.mp hx
      exact ⟨Tally.idle rfl rfl, forall_mem_nil _⟩
    | cons directory directories =>
      rcases nextEntry_bind hx with ⟨error, rfl, rfl⟩ | ⟨next, h', rfl, hnext⟩
      · exact .nextEntry (mem_singleton_self _) rfl
      cases next with
      | none =>
        have hidle : Tally recursive confineRoot [⟨.nextEntry directory, .ok none⟩] [] := Tally.idle rfl rfl
        exact (ih hnext).after hidle rfl (fun _ hd => mem_cons_of_mem _ hd) (fun _ he => Ends.pop he) le_rfl
      | some name =>
        obtain ⟨hc, h₂, passed, rfl, hplain, hadmitted, hpassed⟩ := passesOver_bind hnext
        have hfetch : Fetch directory name (⟨.nextEntry directory, .ok (some name)⟩ :: hc) := ⟨hc, rfl, hplain⟩
        cases passed with
        | true =>
          refine (ih hpassed).after (hfetch.passed fun hp => ?_) hfetch.opened (fun _ hd => hd)
            (fun _ he => Ends.behind (by rwa [hfetch.opened])) hfetch.reads
          cases hadmitted (hp.mono fun y hy => mem_cons_of_mem _ hy)
        | false =>
          obtain ⟨rfl, rfl⟩ := gives_pureT.mp hpassed
          refine ⟨[], _, directory, name, rfl, rfl, Tally.idle rfl rfl, by rwa [append_nil], rfl, mem_cons_self,
            fun _ hd => hd, fun h' he => ?_⟩
          rw [append_nil]
          exact Ends.behind (by rwa [hfetch.opened])

/-- What the stream has done when it ends: what it yielded is described, whatever it ends with. -/
structure Streamed (recursive : Bool) (confineRoot : Option Path) (turns : ℕ) (directories : List ReadDir)
    (yielded : List Item) (h : History Look.Answer) (x : List Item × Except Stop Unit) : Prop where
  items : ∃ items, x.1 = yielded ++ items ∧ Stated h items ∧ Reached recursive directories items ∧
    ∀ u, x.2 = .ok u → Tally recursive confineRoot h items ∧ Ends directories h
  outOfTurns : x.2 = .error .outOfTurns → turns ≤ reads h
  error : ∀ e, x.2 = .error (.error e) → Blamed h e

theorem Streamed.stopped {stop : Stop}
    (hout : out = yielded ++ items) (hs : Stated h items) (hb : Reached recursive directories items)
    (hstop : match stop with | .outOfTurns => turns ≤ reads h | .error e => Blamed h e) :
    Streamed recursive confineRoot turns directories yielded h (out, .error stop) where
  items := ⟨items, hout, hs, hb, fun u hu => nomatch hu⟩
  outOfTurns heq := by
    cases heq
    exact hstop
  error e heq := by
    cases heq
    exact hstop

variable {x : List Item × Except Stop Unit}

theorem Streamed.after (hx : Streamed recursive confineRoot turns directories (yielded ++ items) h x)
    (ht : Tally recursive confineRoot h₁ items) (hs : Stated h₁ items)
    (hb : ∀ items', Reached recursive directories items' → Reached recursive directories₀ (items ++ items'))
    (he : ∀ h', Ends directories h' → Ends directories₀ (h₁ ++ h')) (hr : 1 ≤ reads h₁) :
    Streamed recursive confineRoot (turns + 1) directories₀ yielded (h₁ ++ h) x where
  items := by
    obtain ⟨items', hitems, hs', hb', hok⟩ := hx.items
    refine ⟨items ++ items', by rw [hitems, append_assoc], ?_, hb items' hb', fun u hu => ?_⟩
    · exact (hs.mono (prefix_append h₁ h).isInfix).append (hs'.mono (suffix_append h₁ h).isInfix)
    · exact ⟨ht.append (hok u hu).1, he h (hok u hu).2⟩
  outOfTurns heq := by
    have hsum := hx.outOfTurns heq
    rw [reads_append]
    omega
  error e heq := (hx.error e heq).append_left h₁

theorem streamEntries_gives (hx : (streamEntries recursive confineRoot turns directories yielded).Gives h x) :
    Streamed recursive confineRoot turns directories yielded h x := by
  induction turns generalizing directories yielded h x with
  | zero =>
    obtain ⟨rfl, rfl⟩ := gives_pure.mp hx
    exact Streamed.stopped (append_nil _).symm (forall_mem_nil _) (forall_mem_nil _) (Nat.zero_le _)
  | succ turns ih =>
    obtain ⟨h₁, h₂, u, rfl, hu, hrest⟩ := gives_bind.mp hx
    rcases gives_bindT.mp hu with ⟨stop, hstop, rfl⟩ | ⟨h₃, h₄, next, rfl, hnext, hitem⟩
    · obtain ⟨rfl, rfl⟩ := gives_pure.mp hrest
      have hadvanced : Advanced recursive confineRoot (turns + 1) directories h₁ (.error stop) :=
        nextFileListPath_gives hstop
      rw [append_nil]
      refine Streamed.stopped (append_nil _).symm (forall_mem_nil _) (forall_mem_nil _) ?_
      cases stop with
      | error e => exact hadvanced
      | outOfTurns => exact hadvanced
    have hadvanced : Advanced recursive confineRoot (turns + 1) directories h₃ (.ok next) :=
      nextFileListPath_gives hnext
    cases next with
    | none =>
      obtain ⟨rfl, rfl⟩ := gives_pureT.mp hitem
      obtain ⟨rfl, rfl⟩ := gives_pure.mp hrest
      simp only [append_nil]
      exact ⟨⟨[], (append_nil _).symm, forall_mem_nil _, forall_mem_nil _, fun _ _ => hadvanced⟩, nofun, nofun⟩
    | some found =>
      obtain ⟨path, directories'⟩ := found
      obtain ⟨h₅, h₆, directory, name, rfl, rfl, htally, hfetch, hopened, hdirectory, hsub, hends⟩ := hadvanced
      have hfound : directory.root ++ [name] ∈ fetched (h₅ ++ h₆) := by simp [hfetch.fetched]
      rcases statPath_bind hitem with ⟨error, rfl, rfl⟩ | ⟨metadata, h₇, rfl, hstat⟩
      · obtain ⟨rfl, rfl⟩ := gives_pure.mp hrest
        rw [append_nil]
        exact Streamed.stopped (append_nil _).symm (forall_mem_nil _) (forall_mem_nil _) (.stat rfl hfound rfl)
      · obtain ⟨rfl, rfl⟩ := gives_pureT.mp hstat
        obtain ⟨h₈, h₉, d, rfl, hd, hback⟩ := gives_bind.mp hrest
        obtain ⟨hv, hsplit, hvisit, hmem⟩ :
              ∃ hv, h₅ ++ h₆ ++ [⟨.sys (.metadata (directory.root ++ [name])), .ok metadata⟩] = h₅ ++ hv ∧
            Fetch directory name hv ∧ (⟨.sys (.metadata (directory.root ++ [name])), .ok metadata⟩ : Sigma
              Look.Answer) ∈ hv :=
          ⟨h₆ ++ [⟨.sys (.metadata (directory.root ++ [name])), .ok metadata⟩], append_assoc _ _ _,
            hfetch.described _, mem_append_right _ (mem_singleton_self _)⟩
        have hstated : Stated (h₅ ++ hv) [⟨directory.root ++ [name], statPathWithMeta metadata⟩] :=
          (hvisit.stated hmem).mono (suffix_append h₅ hv).isInfix
        have hbefore : ∀ h', Ends directories' h' → Ends directories (h₅ ++ hv ++ h') := by
          intro h' he
          rw [← hsplit, append_assoc]
          exact hends _ (@Ends.behind _ [⟨.sys (.metadata (directory.root ++ [name])), .ok metadata⟩] _ he)
        rw [hsplit]
        by_cases henter : (recursive && (statPathWithMeta metadata).directory) = true
        · simp only [descend, henter, if_true] at hd
          rcases readDir_bind hd with ⟨error, rfl, rfl⟩ | ⟨fd, h', rfl, hopen⟩
          · obtain ⟨rfl, rfl⟩ := gives_pure.mp hback
            rw [append_nil]
            refine Streamed.stopped rfl (hstated.mono (prefix_append _ _).isInfix)
              (Reached.cons (forall_mem_nil _) hdirectory _) (.openDir rfl ?_ (mem_append_right h₅ hmem) ?_ rfl)
            · simp [hvisit.fetched]
            · simpa [statPathWithMeta] using (Bool.and_eq_true_iff.mp henter).2
          · obtain ⟨rfl, rfl⟩ := gives_pureT.mp hopen
            rw [← append_assoc]
            refine (ih hback).after ?_ (hstated.mono (prefix_append _ _).isInfix) (fun items' hb => ?_)
              (fun h' he => ?_) ?_
            · rw [append_assoc]
              exact htally.append (hvisit.entered (Bool.and_eq_true_iff.mp henter).1)
            · exact (hb.through (Bool.and_eq_true_iff.mp henter).1 hdirectory hsub).cons hdirectory _
            · rw [append_assoc]
              exact hbefore _ (Ends.behind he)
            · have hone := hvisit.reads
              simp only [reads_append]
              omega
        · simp only [descend, henter] at hd
          obtain ⟨rfl, rfl⟩ := gives_pureT.mp hd
          refine (ih hback).after (htally.append (hvisit.listed hmem henter)) hstated
            (fun items' hb => (hb.mono hsub).cons hdirectory _) hbefore ?_
          rw [reads_append]
          exact Nat.le_add_left_of_le hvisit.reads

/-! ### Both walks from the prefix -/

theorem throwMismatch_gives {guidance : Bytes} {error : Error} {x : Except Stop α}
    (hx : (below (throwMismatch (α := α) path true guidance error)).run.Gives h x) :
    ∃ (r : Except IoError Metadata) (e : Error), h = [⟨.sys (.metadata path), r⟩] ∧ x = .error (.error e) ∧
      (e = error ∨ ∃ metadata, r = .ok metadata ∧ metadata.fileType = .file) := by
  obtain ⟨y, rfl, hcalls⟩ := gives_below.mp hx
  obtain ⟨h₀, rfl, hy⟩ := gives_calls.mp hcalls
  rcases gives_bindT.mp hy with ⟨e, he, -⟩ | ⟨h₁, h₂, r, rfl, hr, hthrow⟩
  · obtain ⟨_, heq, -⟩ := gives_lift.mp he
    cases heq
  obtain ⟨_, ⟨⟩, hr⟩ := gives_lift.mp hr
  obtain rfl := gives_perform.mp hr
  cases r with
  | error probe =>
    obtain ⟨rfl, rfl⟩ := gives_throw.mp hthrow
    exact ⟨.error probe, error, rfl, rfl, .inl rfl⟩
  | ok metadata =>
    obtain ⟨rfl, rfl⟩ := gives_throw.mp hthrow
    refine ⟨.ok metadata, _, rfl, rfl, ?_⟩
    by_cases hfile : metadata.fileType = .file
    · exact .inr ⟨metadata, rfl, hfile⟩
    · exact .inl (if_neg (by simpa using hfile))

/-- What `list` has done behind the opening of its directory: it is the walk that collects, and a failing one probes
the prefix. -/
def Listed (recursive : Bool) (confineRoot : Option Path) (turns : ℕ) (directory : ReadDir) (h : History Look.Answer) :
    Except Stop (List Item) → Prop
  | .ok items => ∃ items', items.Perm items' ∧ Collected recursive confineRoot turns directory [] h (.ok items')
  | .error .outOfTurns => turns ≤ reads h
  | .error (.error e) => ∃ (h₁ : History Look.Answer) (r : Except IoError Metadata) (e' : Error),
      h = h₁ ++ [⟨.sys (.metadata directory.root), r⟩] ∧ Blamed h₁ e' ∧
        (e = e' ∨ ∃ metadata, r = .ok metadata ∧ metadata.fileType = .file)

theorem listScope_gives {address : Path → Bytes} {x : Except Stop (List Item)}
    (hx : (listScope recursive confineRoot address turns prefixPath).run.Gives h x) :
    (∃ (error : IoError) (h' : History Look.Answer), h = ⟨.openDir prefixPath, .error error⟩ :: h') ∨
      ∃ (fd : ℕ) (h' : History Look.Answer), h = ⟨.openDir prefixPath, .ok fd⟩ :: h' ∧
        Listed recursive confineRoot turns ⟨fd, prefixPath⟩ h' x := by
  rcases gives_bindT.mp hx with ⟨stop, hstop, -⟩ | ⟨h₁, h₂, y, rfl, hy, hrest⟩
  · obtain ⟨_, heq, -⟩ := gives_lift.mp hstop
    cases heq
  obtain ⟨_, ⟨⟩, hcollect⟩ := gives_lift.mp hy
  rcases readDir_bind hcollect with ⟨error, rfl, -⟩ | ⟨fd, h', rfl, hentries⟩
  · exact .inl ⟨error, h₂, rfl⟩
  refine .inr ⟨fd, h' ++ h₂, rfl, ?_⟩
  have hcollected := collectEntries_gives hentries
  match y, hcollected, hrest with
  | .ok items, hcollected, hrest =>
    obtain ⟨rfl, rfl⟩ := gives_pureT.mp hrest
    rw [append_nil]
    exact ⟨items, mergeSort_perm _ _, hcollected⟩
  | .error .outOfTurns, hcollected, hrest =>
    obtain ⟨rfl, rfl⟩ := gives_throw.mp hrest
    rwa [append_nil]
  | .error (.error err), hcollected, hrest =>
    obtain ⟨r, e, rfl, rfl, he⟩ := throwMismatch_gives hrest
    exact ⟨h', r, err, rfl, hcollected, he⟩

theorem listStreamScope_gives (hx : (listStreamScope recursive confineRoot turns prefixPath).Gives h x) :
    (∃ (error : IoError) (h' : History Look.Answer), h = ⟨.openDir prefixPath, .error error⟩ :: h') ∨
      ∃ (fd : ℕ) (h' : History Look.Answer), h = ⟨.openDir prefixPath, .ok fd⟩ :: h' ∧
        Streamed recursive confineRoot turns [⟨fd, prefixPath⟩] [] h' x := by
  obtain ⟨h₁, h₂, r, rfl, hr, hrest⟩ := gives_bind.mp hx
  obtain rfl := gives_perform.mp hr
  cases r with
  | error error => exact .inl ⟨error, h₂, rfl⟩
  | ok fd => exact .inr ⟨fd, h₂, rfl, streamEntries_gives hrest⟩

end OvStorage.Files
