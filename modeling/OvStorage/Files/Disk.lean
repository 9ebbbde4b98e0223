import OvStorage.Address.Canonical
import OvStorage.Lib.Table

/-!
# The file system below

What the file backend of `ovstorage/src/file/mod.rs` asks of the kernel, on a POSIX system: entries
by path, inodes behind the files, and the walk along a path with its symbolic links. Each call is an
atomic action, and any of them may also fail and leave everything as it is.

Each content carries the paths at which it was stored when the run began; no code reads them.
-/

namespace OvStorage.Files

open Address

/-- The names from the root. -/
abbrev Path := List Bytes

/-- What a file holds, and where that was stored when the run began. -/
structure Content where
  bytes : Bytes
  origins : List Path
deriving DecidableEq

structure Inode where
  content : Content
  /-- In nanoseconds since the epoch. -/
  mtime : ℕ
  readonly : Bool
deriving DecidableEq

/-- What a name stands for. -/
inductive Entry
  | file (inode : ℕ)
  | directory
  | symlink (absolute : Bool) (target : Path)
  | special
deriving DecidableEq

/-- `FileType`. -/
inductive FileType
  | file
  | directory
  | symlink
  | special
deriving DecidableEq

/-- `std::fs::Metadata`. -/
structure Metadata where
  fileType : FileType
  len : ℕ
  modified : ℕ
  readonly : Bool
deriving DecidableEq

structure Disk where
  entries : Table Path Entry
  inodes : Table ℕ Inode

namespace Disk

variable (d : Disk)

def entry (path : Path) : Option Entry := if path = [] then some .directory else d.entries.get path

/-- The kernel's walk from a place; what is left of `steps` bounds the names and links to come. -/
def walk : (steps : ℕ) → (place rest : Path) → Option Path
  | 0, _, _ => none
  | _ + 1, place, [] => some place
  | steps + 1, place, name :: rest =>
    if name = [dot, dot] then walk steps place.dropLast rest
    else
      match d.entry (place ++ [name]) with
      | some (.symlink true target) => walk steps [] (target ++ rest)
      | some (.symlink false target) => walk steps place (target ++ rest)
      | _ => walk steps (place ++ [name]) rest

/-- `PATH_MAX`. -/
def maxSteps : ℕ := 4096

/-- Where a path leads. -/
def follow (path : Path) : Option Path := d.walk maxSteps [] path

/-- Where a path's own entry is: a link in last place is not followed. -/
def locate (path : Path) : Option Path :=
  match path.getLast? with
  | none => some []
  | some name => (d.follow path.dropLast).map (· ++ [name])

def isDirectory (place : Path) : Bool := d.entry place == some .directory

/-- The names in a directory. -/
def children (place : Path) : List Bytes :=
  d.entries.rows.filterMap fun row => if row.1.dropLast = place then row.1.getLast? else none

/-- The inode of the file that a path leads to. -/
def inodeAt (path : Path) : Option ℕ :=
  match (d.follow path).bind d.entry with
  | some (.file inode) => some inode
  | _ => none

/-- What `open` and reading to the end give. -/
def contentAt (path : Path) : Option Content :=
  ((d.inodeAt path).bind d.inodes.get).map fun inode => inode.content

/-- The kernel may describe what is at a place so. -/
def describes (entry : Option Entry) (metadata : Metadata) : Bool :=
  match entry with
  | some (.file inode) =>
    d.inodes.get inode |>.any fun node =>
      metadata == ⟨.file, node.content.bytes.length, node.mtime, node.readonly⟩
  | some .directory => metadata.fileType == .directory
  | some (.symlink _ _) => metadata.fileType == .symlink
  | some .special => metadata.fileType == .special
  | none => false

/-- `mkdir`. -/
def createDir (path : Path) : Option Disk :=
  (d.locate path).bind fun place =>
    if d.isDirectory place.dropLast && (d.entry place).isNone then
      some { d with entries := d.entries.insert place .directory }
    else none

/-- `open` with `O_CREAT | O_EXCL`: the new file has a new inode. -/
def createNew (path : Path) (inode : ℕ) : Option Disk :=
  (d.locate path).bind fun place =>
    if d.isDirectory place.dropLast && (d.entry place).isNone && (d.inodes.get inode).isNone then
      some ⟨d.entries.insert place (.file inode), d.inodes.insert inode ⟨⟨[], []⟩, 0, false⟩⟩
    else none

/-- Filling a file through its handle. -/
def fill (inode : ℕ) (content : Content) (mtime : ℕ) : Disk :=
  { d with inodes := d.inodes.modify inode fun node => { node with content, mtime } }

def setReadonly (inode : ℕ) (readonly : Bool) : Disk :=
  { d with inodes := d.inodes.modify inode fun node => { node with readonly } }

/-- `unlink`. -/
def removeFile (path : Path) : Option Disk :=
  (d.locate path).bind fun place =>
    match d.entry place with
    | none | some .directory => none
    | some _ => some { d with entries := d.entries.erase place }

/-- `rmdir`. -/
def removeDir (path : Path) : Option Disk :=
  (d.locate path).bind fun place =>
    if place ≠ [] ∧ d.entry place = some .directory ∧ d.children place = [] then
      some { d with entries := d.entries.erase place }
    else none

/-- Everything at and under one place goes to another, in place of the entry there. -/
def move (source target : Path) : Disk :=
  { d with
    entries := (d.entries.rows.filter fun row => decide (source <+: row.1)).foldl
      (fun entries row => entries.insert (target ++ row.1.drop source.length) row.2)
      (d.entries.retain fun path _ => decide (path ≠ target ∧ ¬source <+: path)) }

/-- `rename`, from and to the places where the two entries are. -/
def renameAt (source target : Path) : Option Disk :=
  if source = [] ∨ target = [] ∨ d.isDirectory target.dropLast = false then none
  else
    match d.entry source, d.entry target with
    | none, _ => none
    | some moved, replaced =>
      if source = target then some d
      else if source <+: target then none
      else
        match moved, replaced with
        | .file inode, some (.file inode') => some (if inode = inode' then d else d.move source target)
        | .directory, some .directory => if d.children target = [] then some (d.move source target) else none
        | .directory, some _ => none
        | _, some .directory => none
        | _, _ => some (d.move source target)

/-- `rename`. -/
def rename (source target : Path) : Option Disk :=
  (d.locate source).bind fun source => (d.locate target).bind fun target => d.renameAt source target

/-! ### What a rename moves -/

variable {d}

theorem mem_foldl_insert {rows : List (Path × Entry)} {place : Path × Entry → Path} {entries : Table Path Entry}
    {row : Path × Entry} (h : row ∈ (rows.foldl (fun entries row => entries.insert (place row) row.2) entries).rows) :
    row ∈ entries.rows ∨ ∃ old ∈ rows, row = (place old, old.2) := by
  induction rows generalizing entries with
  | nil => exact .inl h
  | cons old rows ih =>
    rcases ih h with hrow | ⟨old', hold', rfl⟩
    · rcases Table.mem_insert.mp hrow with rfl | ⟨hrow, -⟩
      · exact .inr ⟨old, List.mem_cons_self, rfl⟩
      · exact .inl hrow
    · exact .inr ⟨old', List.mem_cons_of_mem _ hold', rfl⟩

/-- Each entry stays where it was, or comes from under the source. -/
theorem origin_of_move {source target place : Path} {entry : Entry}
    (h : (place, entry) ∈ (d.move source target).entries.rows) :
    (place, entry) ∈ d.entries.rows ∨
      ∃ rest, (source ++ rest, entry) ∈ d.entries.rows ∧ place = target ++ rest := by
  rcases mem_foldl_insert h with hrow | ⟨⟨old, entry'⟩, hold, heq⟩
  · exact .inl (Table.mem_retain.mp hrow).1
  · obtain ⟨hold, hsource⟩ := List.mem_filter.mp hold
    obtain ⟨rest, rfl⟩ := of_decide_eq_true hsource
    rw [List.drop_left] at heq
    cases heq
    exact .inr ⟨rest, hold, rfl⟩

/-- A rename moves from its source to its target, or changes nothing. -/
theorem renameAt_cases {source target : Path} {d' : Disk} (h : d.renameAt source target = some d') :
    d' = d ∨ d' = d.move source target := by
  simp only [renameAt] at h
  grind

end Disk

/-- What was stored under the path when the run began. -/
def Content.StoredUnder (top : Path) (content : Content) : Prop := ∃ place ∈ content.origins, top <+: place

/-- What was stored under the path when the run began is nowhere else. -/
def Disk.Confined (top : Path) (d : Disk) : Prop :=
  ∀ place inode node, (place, .file inode) ∈ d.entries.rows → d.inodes.get inode = some node →
    node.content.StoredUnder top → top <+: place

namespace Disk.Confined

variable {top : Path} {d d' : Disk} (h : d.Confined top)

include h

/-- Dropping entries. -/
theorem of_subset (hrows : ∀ row ∈ d'.entries.rows, row ∈ d.entries.rows) (hinodes : d'.inodes = d.inodes) :
    d'.Confined top :=
  fun place inode node hrow hnode => h place inode node (hrows _ hrow) (hinodes ▸ hnode)

variable {path : Path}

theorem createDir (hd : d.createDir path = some d') : d'.Confined top := by
  obtain ⟨at', -, hd⟩ := Option.bind_eq_some_iff.mp hd
  split_ifs at hd
  cases hd
  intro place inode node hrow hnode
  rcases Table.mem_insert.mp hrow with heq | ⟨hrow, -⟩
  · cases heq
  · exact h place inode node hrow hnode

/-- A new file holds nothing. -/
theorem createNew {new : ℕ} (hd : d.createNew path new = some d') : d'.Confined top := by
  obtain ⟨at', -, hd⟩ := Option.bind_eq_some_iff.mp hd
  split_ifs at hd
  cases hd
  intro place inode node hrow hnode hstored
  by_cases hi : inode = new
  · subst hi
    cases (Table.get_insert_self _ _ _).symm.trans hnode
    obtain ⟨_, hnone, -⟩ := hstored
    cases hnone
  · rcases Table.mem_insert.mp hrow with heq | ⟨hrow, -⟩
    · cases heq
      exact absurd rfl hi
    · exact h place inode node hrow ((Table.get_insert_of_ne _ _ hi).symm.trans hnode) hstored

variable {content : Content}

/-- Filling a file with something else. -/
theorem fill {filled : ℕ} {mtime : ℕ} (hcontent : ¬content.StoredUnder top) :
    (d.fill filled content mtime).Confined top := by
  intro place inode node hrow hnode hstored
  by_cases hi : inode = filled
  · subst hi
    obtain ⟨old, -, rfl⟩ := Option.map_eq_some_iff.mp ((Table.get_modify_self _ _ _).symm.trans hnode)
    exact absurd hstored hcontent
  · exact h place inode node hrow ((Table.get_modify_of_ne _ _ hi).symm.trans hnode) hstored

theorem setReadonly {changed : ℕ} {readonly : Bool} : (d.setReadonly changed readonly).Confined top := by
  intro place inode node hrow hnode hstored
  by_cases hi : inode = changed
  · subst hi
    obtain ⟨old, hold, rfl⟩ := Option.map_eq_some_iff.mp ((Table.get_modify_self _ _ _).symm.trans hnode)
    exact h place inode old hrow hold hstored
  · exact h place inode node hrow ((Table.get_modify_of_ne _ _ hi).symm.trans hnode) hstored

theorem erase {place : Path} : ({ d with entries := d.entries.erase place } : Disk).Confined top :=
  h.of_subset (fun _ hrow => (Table.mem_erase.mp hrow).1) rfl

theorem removeFile (hd : d.removeFile path = some d') : d'.Confined top := by
  obtain ⟨place, -, hd⟩ := Option.bind_eq_some_iff.mp hd
  split at hd
  · cases hd
  · cases hd
  · cases hd
    exact h.erase

theorem removeDir (hd : d.removeDir path = some d') : d'.Confined top := by
  obtain ⟨place, -, hd⟩ := Option.bind_eq_some_iff.mp hd
  split_ifs at hd
  cases hd
  exact h.erase

/-- A rename whose source is not above the path, and leads out of it only from outside. -/
theorem renameAt {source target : Path} (habove : ¬source <+: top) (hout : top <+: source → top <+: target)
    (hd : d.renameAt source target = some d') : d'.Confined top := by
  rcases renameAt_cases hd with rfl | rfl
  · exact h
  · intro place inode node hrow hnode hstored
    rcases origin_of_move hrow with hkept | ⟨rest, hmoved, rfl⟩
    · exact h place inode node hkept hnode hstored
    · have hunder := h _ inode node hmoved hnode hstored
      have hsource : top <+: source := by
        rcases List.prefix_or_prefix_of_prefix hunder (List.prefix_append source rest) with hsource | hsource
        · exact hsource
        · exact absurd hsource habove
      exact (hout hsource).trans (List.prefix_append target rest)

/-- What is read at a path that does not lead under `top` was not stored there. -/
theorem contentAt (hpath : ∀ place, d.follow path = some place → ¬top <+: place)
    (hcontent : d.contentAt path = some content) : ¬content.StoredUnder top := by
  obtain ⟨node, hnode, rfl⟩ := Option.map_eq_some_iff.mp hcontent
  obtain ⟨inode, hinode, hnode⟩ := Option.bind_eq_some_iff.mp hnode
  simp only [inodeAt] at hinode
  split at hinode
  next found hfound =>
    obtain rfl := Option.some.inj hinode
    obtain ⟨place, hplace, hentry⟩ := Option.bind_eq_some_iff.mp hfound
    intro hstored
    have hrow : (place, .file found) ∈ d.entries.rows := by
      simp only [entry] at hentry
      split_ifs at hentry
      · cases hentry
      · exact Table.mem_rows_iff.mpr hentry
    exact hpath place hplace (h place found node hrow hnode hstored)
  next => cases hinode

end Disk.Confined

end OvStorage.Files
