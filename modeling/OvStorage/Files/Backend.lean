import OvStorage.Authz.Gate
import OvStorage.Files.Disk
import OvStorage.Lib.Uphold

/-!
# The file backend

`FileBackend` of `ovstorage/src/file/mod.rs` and its staging names (`file/temp.rs`), on a POSIX host: how
each verb finds the native path of an address, and what it asks of the kernel.

## The model

A verb is a `Routine` over the calls of `Sys`: the kernel's, the mutexes of `target_locks`, the clock
behind a staging name, and the caller's cancellation token. A failing call leaves the disk as it is. What
`list`, `list_stream` and `watch_directory` enumerate behind the scope check names entries and no content;
it is one call that answers anything, like the probe of a staging temp. `message` annotations, owners and
metrics are left out, and connections come with the roots of the backend.
-/

namespace OvStorage.Files

open Address Interleave Authz

/-! ### Errors -/

/-- `io::ErrorKind`, with the errnos that `map_io` tells apart. -/
inductive IoErrorKind
  | NotFound
  | NotADirectory
  | IsADirectory
  | AlreadyExists
  | DirectoryNotEmpty
  | PermissionDenied
  | BrokenPipe
  | InvalidInput
  | InvalidPath
  | StorageFull
  | ReadOnlyFilesystem
  | Other
deriving DecidableEq

/-- `io::Error`. -/
structure IoError where
  kind : IoErrorKind
  text : Bytes
deriving DecidableEq

/-- `map_io`. -/
def mapIo (error : IoError) : Error :=
  let code := match error.kind with
    | .NotFound | .NotADirectory | .IsADirectory => .NotFound
    | .AlreadyExists => .AlreadyExists
    | .DirectoryNotEmpty => .DirectoryNotEmpty
    | .PermissionDenied => .PermissionDenied
    | .BrokenPipe => .Cancelled
    | .InvalidInput => .InvalidArgument
    | .InvalidPath => .InvalidArgument
    | .StorageFull => .ResourceExhausted
    | .ReadOnlyFilesystem => .PermissionDenied
    | .Other => .Transient
  ⟨code, error.text⟩

/-! ### What requests and answers carry -/

structure ByteRange where
  start : ℕ
  endInclusive : Option ℕ
deriving DecidableEq

/-- `IfDestExists`. -/
inductive IfDestExists
  | Overwrite
  | Fail
  | MatchEtag (expected : Bytes)
deriving DecidableEq

/-- `Body`. -/
inductive Body
  | Bytes (bytes : Bytes)
  | LocalFile (path : Path)
  | Stream (chunks : List (Except Error Bytes))
deriving DecidableEq

/-- The options of the verbs; each reads its own. -/
structure Options where
  ifMatch : Option Bytes
  range : Option ByteRange
  ifSource : Option Bytes
  ifDest : IfDestExists
  userMetadata : List (Bytes × Bytes)
  recursive : Bool
deriving DecidableEq

/-- What `ObjectInfo` says besides the address. -/
structure Info where
  directory : Bool
  etag : Bytes
  size : Option ℕ
  mtime : ℕ
  readonly : Bool
deriving DecidableEq

/-- What a request carries to the backend, and what an answer carries back: `ReadResult::Stream` has the
bytes, a `LocalDelegate` the path that the host opens. -/
inductive Payload
  | request (options : Options) (body : Body)
  | info (info : Info)
  | stream (content : Content) (info : Info)
  | delegate (path : Path) (info : Info)
  | done
deriving DecidableEq

def Payload.options : Payload → Options
  | .request options _ => options
  | _ => ⟨none, none, none, .Overwrite, [], false⟩

def Payload.body : Payload → Body
  | .request _ body => body
  | _ => .Bytes []

/-! ### Calls of the system -/

/-- `StagingLock`. -/
inductive StagingLock
  | Held
  | Busy
  | Unsupported
deriving DecidableEq

/-- `StagingProbe`. -/
inductive StagingProbe
  | Gone
  | Live
  | Orphan
  | Unclassifiable (what : Bytes)
deriving DecidableEq

/-- The stamp, the process and the counter of a staging name. -/
structure Stamp where
  stamp : ℕ
  pid : ℕ
  counter : ℕ
deriving DecidableEq

inductive Sys
  | lock (path : Path)
  | unlock (path : Path)
  | stamp
  | cancelled
  | metadata (path : Path)
  | symlinkMetadata (path : Path)
  | canonicalize (path : Path)
  | read (path : Path)
  | createDir (path : Path)
  | createNew (path : Path)
  | lockStaging (inode : ℕ)
  | probeStaging (path : Path)
  | fill (inode : ℕ) (content : Content)
  | setPermissions (path : Path) (readonly : Bool)
  | rename (source destination : Path)
  | removeFile (path : Path)
  | removeDir (path : Path)
  | readDir (path : Path)
  | sync (path : Path)
  | enumerate (path : Path) (recursive : Bool)
  | observe (path : Path)
  /-- The host hands what it has read to the caller. -/
  | receive (principal : String) (content : Content)
deriving DecidableEq

abbrev Sys.Answer : Sys → Type
  | .stamp => Stamp
  | .cancelled => Bool
  | .metadata _ | .symlinkMetadata _ => Except IoError Metadata
  | .canonicalize _ => Except IoError Path
  | .read _ => Except IoError Content
  | .createNew _ => Except IoError ℕ
  | .lockStaging _ => Except IoError StagingLock
  | .probeStaging _ => Except Error StagingProbe
  | .fill _ _ => Except IoError ℕ
  | .readDir _ => Except IoError (List Bytes)
  | .enumerate _ _ => Except Error (List (ObjectInfo Payload))
  | .observe _ => Except Error (Yielded (ChangeEvent Payload))
  | .createDir _ | .setPermissions _ _ | .rename _ _ | .removeFile _ | .removeDir _ | .sync _ => Except IoError Unit
  | .lock _ | .unlock _ | .receive _ _ => Unit

/-- The disk, the mutexes that are held, and what each principal has received. -/
structure World where
  disk : Disk
  locks : List Path
  received : List (String × Content)

/-- What the calls do to the world, and what they may answer. -/
def exec {ι : Type} (_ : ι) : (a : Sys) → a.Answer → World → Option World
  | .lock path, _, w => if path ∈ w.locks then none else some { w with locks := path :: w.locks }
  | .unlock path, _, w => some { w with locks := w.locks.erase path }
  | .metadata path, .ok metadata, w =>
    if w.disk.describes ((w.disk.follow path).bind w.disk.entry) metadata then some w else none
  | .symlinkMetadata path, .ok metadata, w =>
    if w.disk.describes ((w.disk.locate path).bind w.disk.entry) metadata then some w else none
  | .canonicalize path, .ok place, w =>
    if w.disk.follow path = some place ∧ (w.disk.entry place).isSome then some w else none
  | .read path, .ok content, w => if w.disk.contentAt path = some content then some w else none
  | .createDir path, .ok _, w => (w.disk.createDir path).map fun disk => { w with disk }
  | .createNew path, .ok inode, w => (w.disk.createNew path inode).map fun disk => { w with disk }
  | .fill inode content, .ok mtime, w => some { w with disk := w.disk.fill inode content mtime }
  | .setPermissions path readonly, .ok _, w =>
    (w.disk.inodeAt path).map fun inode => { w with disk := w.disk.setReadonly inode readonly }
  | .rename source destination, .ok _, w => (w.disk.rename source destination).map fun disk => { w with disk }
  | .removeFile path, .ok _, w => (w.disk.removeFile path).map fun disk => { w with disk }
  | .removeDir path, .ok _, w => (w.disk.removeDir path).map fun disk => { w with disk }
  | .readDir path, .ok names, w =>
    match w.disk.follow path with
    | some place => if w.disk.isDirectory place && names.isPerm (w.disk.children place) then some w else none
    | none => none
  | .receive principal content, _, w => some { w with received := w.received ++ [(principal, content)] }
  | _, _, w => some w

/-- A part of a verb. -/
abbrev FileCall (α : Type) := ExceptT Error (Routine Sys.Answer) α

/-- One call. -/
def sys (a : Sys) : Routine Sys.Answer a.Answer := Routine.perform a

/-- One call, its answer whatever it is. -/
def attempt (a : Sys) : FileCall a.Answer := ExceptT.lift (sys a)

/-- A call whose error is the verb's: `.map_err(map_io)?`. -/
def io {α : Type} (p : Routine Sys.Answer (Except IoError α)) : FileCall α :=
  ExceptT.mk do return (← p).mapError mapIo

/-! ### Native paths -/

/-- `normalize_path`, on the names of a path. -/
def normalizePath (names : List Bytes) : Path :=
  names.foldl (fun path name =>
    if name = [] ∨ name = [dot] then path else if name = [dot, dot] then path.dropLast else path ++ [name]) []

/-- `file_path`, with `Url::to_file_path`, and `normalize_path` behind it. -/
def filePath (url : Url) : Except Error Path :=
  let host := url.host.getD []
  if host ≠ [] ∧ host.map toAsciiLowercase ≠ utf8 "localhost" then
    .error ⟨.InvalidArgument, utf8 "file:// URL must have an empty or 'localhost' authority, got '" ++ host ++
      utf8 "' (UNC paths and remote shares are not supported)"⟩
  else if url.host.any fun host => host ≠ utf8 "localhost" then
    .error ⟨.InvalidArgument, utf8 "URL is not a valid file path"⟩
  else
    match pathSegments url.toParts with
    | none => .error ⟨.InvalidArgument, utf8 "URL is not a valid file path"⟩
    | some segments => .ok (normalizePath (segments.flatMap fun segment => (percentDecode segment).splitOn slash))

def isDigits (group : Bytes) : Bool := group ≠ [] && group.all fun b => decide (0x30 ≤ b ∧ b ≤ 0x39)

/-- What is between the dot and the `.tmp` of a staging name, split at the dots. -/
def stagingGroups (path : Path) : Option (List Bytes) :=
  (path.getLast?.bind fun name =>
      if (String.fromUTF8? ⟨name.toArray⟩).isSome then name.dropPrefix? [dot] else none).bind fun name =>
    (name.dropSuffix? (utf8 ".tmp")).map fun inner => inner.splitOn dot

/-- `is_atomic_write_temp_sibling`. -/
def isAtomicWriteTempSibling (path : Path) : Bool :=
  (stagingGroups path).any fun groups => 3 ≤ (groups.reverse.takeWhile isDigits).length

/-- `is_clearable_staging_temp`. -/
def isClearableStagingTemp (path : Path) : Bool :=
  (stagingGroups path).any fun groups =>
    let last := groups.reverse.take 3
    last.length = 3 && last.all isDigits && ([dot].intercalate (groups.reverse.drop 3).reverse) ≠ []

/-- `RootScope`. -/
structure RootScope where
  url : Url
  confineToRoot : Bool

/-- `FileBackend`; `lossy` is `to_string_lossy` on a name. -/
structure FileBackend where
  roots : List RootScope
  lossy : Bytes → Bytes

/-- `temp_sibling`. -/
def FileBackend.tempSibling (B : FileBackend) (path : Path) (stamp : Stamp) : Path :=
  let name := (path.getLast?.map B.lossy).getD (utf8 "object")
  path.dropLast ++ [utf8 "." ++ name ++ utf8 s!".{stamp.stamp}.{stamp.pid}.{stamp.counter}.tmp"]

/-- `canonicalize_scope_root`. -/
def canonicalizeScopeRoot (root : Path) : FileCall Path := do
  match ← attempt (.canonicalize root) with
  | .ok place => return place
  | .error error =>
    throw ⟨.InvalidArgument, utf8 "configured file root (" ++ nodeText root ++
      utf8 ") is not accessible: " ++ error.text⟩

/-- `canonical_existing_anchor`, from the last name up. -/
def canonicalExistingAnchor : (reversed : List Bytes) → FileCall Path
  | [] => io (sys (.canonicalize []))
  | name :: above => do
    match ← attempt (.canonicalize (name :: above).reverse) with
    | .ok place => return place
    | .error error => if error.kind = .NotFound then canonicalExistingAnchor above else throw (mapIo error)

/-- `ensure_path_within_root`. -/
def ensurePathWithinRoot (path canonicalRoot : Path) : FileCall Unit := do
  let anchor ← canonicalExistingAnchor path.reverse
  if ¬canonicalRoot <+: anchor then
    throw ⟨.PermissionDenied, utf8 "file address resolves outside the configured root"⟩

/-- The jail of one root: it must hold the path, and the tightest is kept. -/
def tighten (path rootPath : Path) (scope : RootScope) (tightest : Option Path) : FileCall (Option Path) :=
  if scope.confineToRoot then do
    let canonicalRoot ← canonicalizeScopeRoot rootPath
    ensurePathWithinRoot path canonicalRoot
    return if tightest.all fun existing => existing.length < canonicalRoot.length then some canonicalRoot else tightest
  else return tightest

/-- `scopes_for_path`: the longest root above the path, and the tightest jail. -/
def scopesForPath (path : Path) : List RootScope → Option (RootScope × Path) → Option Path →
    FileCall (Option (RootScope × Path) × Option Path)
  | [], selected, tightest => return (selected, tightest)
  | scope :: scopes, selected, tightest =>
    match filePath scope.url with
    | .error _ => scopesForPath path scopes selected tightest
    | .ok rootPath =>
      if rootPath <+: path then do
        let tightest ← tighten path rootPath scope tightest
        let isLonger := selected.all fun (existing, existingRoot) =>
          decide (existingRoot.length < rootPath.length) ||
            (rootPath.length == existingRoot.length && scope.confineToRoot && !existing.confineToRoot)
        scopesForPath path scopes (if isLonger then some (scope, rootPath) else selected) tightest
      else scopesForPath path scopes selected tightest

namespace FileBackend

variable (B : FileBackend)

/-- `checked_scope_for_root`. -/
def checkedScopeForRoot (url : Url) : FileCall (Path × Option Path × Option Url) := do
  let path ← ofExcept (filePath url)
  if isAtomicWriteTempSibling path then
    throw ⟨.InvalidArgument, utf8 "file URL addresses backend-internal storage"⟩
  else if B.roots.isEmpty then return (path, none, none)
  else
    match ← scopesForPath path B.roots none none with
    | (none, _) => throw ⟨.InvalidArgument, utf8 "file URL is outside the configured roots"⟩
    | (some (scope, _), confineRoot) => return (path, confineRoot, some scope.url)

/-- `checked_path_for`. -/
def checkedPathFor (url : Url) : FileCall Path := return (← B.checkedScopeForRoot url).1

/-! ### Parts of the verbs -/

/-- `file_etag`. -/
def fileEtag (metadata : Metadata) : Bytes := utf8 s!"size:{metadata.len},mtime:{metadata.modified}"

/-- `stat_path_with_meta`. -/
def statPathWithMeta (metadata : Metadata) : Info where
  directory := metadata.fileType == .directory
  etag := fileEtag metadata
  size := if metadata.fileType == .directory then none else some metadata.len
  mtime := metadata.modified
  readonly := metadata.readonly

/-- `stat_path`. -/
def statPath (path : Path) : FileCall Info := return statPathWithMeta (← io (sys (.metadata path)))

/-- `reject_special_file`. -/
def rejectSpecialFile (metadata : Metadata) : FileCall Unit :=
  if metadata.fileType = .special then throw ⟨.Unsupported, utf8 "cannot read special filesystem objects"⟩ else pure ()

/-- `reject_directory_target`. -/
def rejectDirectoryTarget (metadata : Metadata) (guidance : Bytes) : FileCall Unit :=
  if metadata.fileType = .directory then throw ⟨.InvalidArgument, guidance⟩ else pure ()

/-- `leaf_type_mismatch`, and the error to give where there is none. -/
def throwMismatch {α : Type} (path : Path) (wantsDirectory : Bool) (guidance : Bytes) (error : Error) : FileCall α := do
  match ← attempt (.metadata path) with
  | .ok metadata =>
    let mismatched := metadata.fileType == (if wantsDirectory then .file else .directory)
    throw (if mismatched then ⟨.InvalidArgument, guidance⟩ else error)
  | .error _ => throw error

/-- `try_exists`. -/
def tryExists (path : Path) : FileCall Bool := do
  match ← attempt (.metadata path) with
  | .ok _ => return true
  | .error error => if error.kind = .NotFound then return false else throw (mapIo error)

/-- `apply_destination_precondition`. -/
def applyDestinationPrecondition (path : Path) : IfDestExists → FileCall Unit
  | .Overwrite => return
  | .Fail => do
    if ← tryExists path then throw ⟨.AlreadyExists, utf8 "destination exists"⟩
  | .MatchEtag expected => do
    let info ← statPath path
    if info.etag ≠ expected then throw ⟨.PreconditionFailed, utf8 "etag mismatch"⟩

/-- `create_dir_all`: each directory above that is missing. -/
def createDirAll : (dirs : List Path) → FileCall Unit
  | [] => return
  | dir :: dirs => do
    match ← attempt (.createDir dir) with
    | .ok _ => createDirAll dirs
    | .error error =>
      match ← attempt (.metadata dir) with
      | .ok metadata => if metadata.fileType = .directory then createDirAll dirs else throw (mapIo error)
      | .error _ => throw (mapIo error)

/-- `create_dir_all(path.parent())`. -/
def createParents (path : Path) : FileCall Unit := createDirAll (path.dropLast.inits.tail)

/-- The mutex of a path, held over a part of a verb. -/
def locked {α : Type} (path : Path) (body : FileCall α) : FileCall α := do
  attempt (.lock path)
  let result ← ExceptT.lift body.run
  attempt (.unlock path)
  ofExcept result

/-- `lock_source_and_destination`. -/
def lockSourceAndDestination {α : Type} (source destination : Path) (body : FileCall α) : FileCall α :=
  if source = destination then locked source body
  else if source < destination then locked source (locked destination body)
  else locked destination (locked source body)

/-- A staging file is removed where what follows fails: `TempFileGuard`. -/
def guarded {α : Type} (temp : Path) (body : FileCall α) : FileCall α := do
  match ← ExceptT.lift body.run with
  | .ok value => return value
  | .error error =>
    let _ ← attempt (.removeFile temp)
    throw error

/-- What follows a staging file under the mutex of its path: where the commit fails, the mutex is released
first, and then the file is removed. -/
def lockedCommit {α : Type} (path temp : Path) (commit : FileCall Unit) (after : FileCall α) : FileCall α := do
  attempt (.lock path)
  match ← ExceptT.lift commit.run with
  | .ok _ =>
    let result ← ExceptT.lift after.run
    attempt (.unlock path)
    ofExcept result
  | .error error =>
    attempt (.unlock path)
    let _ ← attempt (.removeFile temp)
    throw error

/-- `create_new_temp_sibling`: the attempts that are left, and the last error. -/
def createNewTempSibling (path : Path) : ℕ → IoError → FileCall (Path × ℕ)
  | 0, lastError => throw (mapIo lastError)
  | attempts + 1, _ => do
    let candidate := B.tempSibling path (← attempt .stamp)
    match ← attempt (.createNew candidate) with
    | .error error =>
      if error.kind = .AlreadyExists then createNewTempSibling path attempts error else throw (mapIo error)
    | .ok inode =>
      match ← guarded candidate (io (sys (.lockStaging inode))) with
      | .Unsupported => return (candidate, inode)
      | .Busy =>
        let _ ← attempt (.removeFile candidate)
        createNewTempSibling path attempts
          ⟨.AlreadyExists, utf8 "temp sibling is being cleared by a directory removal"⟩
      | .Held =>
        match ← attempt (.symlinkMetadata candidate) with
        | .ok _ => return (candidate, inode)
        | .error error =>
          let _ ← attempt (.removeFile candidate)
          if error.kind = .NotFound then createNewTempSibling path attempts error else throw (mapIo error)

/-- The sixteen attempts. -/
def createTemp (path : Path) : FileCall (Path × ℕ) :=
  B.createNewTempSibling path 16 ⟨.AlreadyExists, utf8 "could not allocate a unique temp sibling"⟩

/-- The chunks of a stream, up to an error. -/
def collectChunks : List (Except Error Bytes) → Except Error Bytes
  | [] => .ok []
  | chunk :: chunks => do return (← chunk) ++ (← collectChunks chunks)

/-- What a body holds. -/
def bodyContent : Body → FileCall Content
  | .Bytes bytes => return ⟨bytes, []⟩
  | .LocalFile source => io (sys (.read source))
  | .Stream chunks => return ⟨← ofExcept (collectChunks chunks), []⟩

/-- `write_body`, with its `sync_all`. -/
def writeBody (inode : ℕ) (body : Body) : FileCall Unit := do
  let content ← bodyContent body
  let _ ← io (sys (.fill inode content))

/-- `reject_user_metadata`. -/
def rejectUserMetadata (options : Options) : FileCall Unit :=
  if options.userMetadata ≠ [] then
    throw ⟨.Unsupported,
      utf8 "file write: backend stores no user metadata; drop user_metadata or target a backend that supports it"⟩
  else pure ()

/-- `open_ranged_stream`: the bytes that the stream will give. -/
def openRangedStream (path : Path) (len : ℕ) (range : ByteRange) : FileCall Content := do
  if len = 0 ∨ len ≤ range.start then throw ⟨.InvalidArgument, utf8 "byte range is outside the object"⟩
  else if range.endInclusive.any fun last => last < range.start then
    throw ⟨.InvalidArgument, utf8 "byte range end precedes start"⟩
  else
    let last := min (range.endInclusive.getD (len - 1)) (len - 1)
    let content ← io (sys (.read path))
    return { content with bytes := (content.bytes.drop range.start).take (last - range.start + 1) }

/-! ### The verbs -/

def stat (address : Url) : FileCall Payload := do
  let path ← B.checkedPathFor address
  return .info (← statPath path)

def read (address : Url) (options : Options) : FileCall Payload := do
  let path ← B.checkedPathFor address
  let metadata ← io (sys (.metadata path))
  rejectSpecialFile metadata
  rejectDirectoryTarget metadata (utf8 "read target is a directory; use list()")
  let info := statPathWithMeta metadata
  if options.ifMatch.any fun expected => expected ≠ info.etag then throw ⟨.ObjectModified, utf8 "etag mismatch"⟩
  else
    match options.range with
    | some range => return .stream (← openRangedStream path metadata.len range) info
    | none => return .delegate path info

def materialize (address : Url) : FileCall Payload := do
  let path ← B.checkedPathFor address
  let metadata ← io (sys (.metadata path))
  rejectSpecialFile metadata
  rejectDirectoryTarget metadata (utf8 "materialize target is a directory; use list()")
  return .delegate path (statPathWithMeta metadata)

/-- `write_atomic`. -/
def writeAtomic (path : Path) (options : Options) (body : Body) : FileCall Payload := do
  rejectUserMetadata options
  createParents path
  applyDestinationPrecondition path options.ifDest
  let (temp, inode) ← B.createTemp path
  guarded temp (writeBody inode body)
  lockedCommit path temp
    (do
      applyDestinationPrecondition path options.ifDest
      io (sys (.rename temp path)))
    do
      io (sys (.sync path.dropLast))
      return .info (← statPath path)

/-- `write`, and `write_stream`. -/
def write (address : Url) (options : Options) (body : Body) : FileCall Payload := do
  let path ← B.checkedPathFor address
  B.writeAtomic path options body

/-- `if_match` of a delete, and whether its target is missing. -/
def targetMissing (path : Path) (ifMatch : Option Bytes) : FileCall Bool :=
  match ifMatch with
  | none => return false
  | some expected => do
    match ← attempt (.metadata path) with
    | .ok _ =>
      let info ← statPath path
      if info.etag = expected then return false else throw ⟨.PreconditionFailed, utf8 "etag mismatch"⟩
    | .error error => if error.kind = .NotFound then return true else throw (mapIo error)

def delete (address : Url) (options : Options) : FileCall Payload := do
  let path ← B.checkedPathFor address
  locked path do
    if ← targetMissing path options.ifMatch then return .done
    match ← attempt (.removeFile path) with
    | .ok _ => return .done
    | .error error =>
      if error.kind = .NotFound then return .done
      else throwMismatch path false (utf8 "delete target is a directory; use delete_directory()") (mapIo error)

/-- What `list`, `list_stream` and `watch_directory` check first. -/
def checkedScopeFor (url : Url) : FileCall Path := B.checkedPathFor url

def list (address : Url) (options : Options) : FileCall (ListPage Payload) := do
  let path ← B.checkedScopeFor address
  let items ← ExceptT.mk (sys (.enumerate path options.recursive))
  return ⟨items, none⟩

def listStream (address : Url) (options : Options) : FileCall (Yielded (ObjectInfo Payload)) := do
  let path ← B.checkedScopeFor address
  let items ← ExceptT.mk (sys (.enumerate path options.recursive))
  return items.map .ok

def watchDirectory (address : Url) : FileCall (Yielded (ChangeEvent Payload)) := do
  let path ← B.checkedScopeFor address
  ExceptT.mk (sys (.observe path))

/-- `get_latest_version`. -/
def getLatestVersion (address : Url) : FileCall Payload := do
  let path ← B.checkedPathFor address
  return .info (← statPath path)

def createDirectory (address : Url) : FileCall Payload := do
  let path ← B.checkedPathFor address
  locked path do
    createDirAll path.inits.tail
    return .info (← statPath path)

/-- What a probe refuses the removal for. -/
def refuseUnlessOrphan (probe : StagingProbe) : FileCall Unit :=
  match probe with
  | .Orphan => pure ()
  | .Gone => throw ⟨.DirectoryNotEmpty, utf8 "directory changed while it was being removed"⟩
  | .Live => throw ⟨.DirectoryNotEmpty, utf8 "directory holds an in-flight write"⟩
  | .Unclassifiable what => throw ⟨.DirectoryNotEmpty, utf8 "directory holds " ++ what⟩

/-- The first pass of `clear_orphaned_staging_temps`. -/
def probeTemps : (temps : List Path) → FileCall Unit
  | [] => return
  | temp :: temps => do
    refuseUnlessOrphan (← ExceptT.mk (sys (.probeStaging temp)))
    probeTemps temps

/-- The second pass. -/
def removeTemps : (temps : List Path) → FileCall Unit
  | [] => return
  | temp :: temps => do
    refuseUnlessOrphan (← ExceptT.mk (sys (.probeStaging temp)))
    match ← attempt (.removeFile temp) with
    | .ok _ => removeTemps temps
    | .error error =>
      if error.kind = .NotFound then throw ⟨.DirectoryNotEmpty, utf8 "directory changed while it was being removed"⟩
      else throw (mapIo error)

/-- A link is not removed. -/
def rejectLink (path : Path) : FileCall Unit := do
  match ← attempt (.symlinkMetadata path) with
  | .ok metadata =>
    if metadata.fileType = .symlink then
      throw ⟨.InvalidArgument, utf8
        ("delete_directory target is a symlink; the entry is operator-configured on disk and " ++
          "delete_directory will not remove or follow it")⟩
  | .error _ => return

/-- The names in the directory to be removed. -/
def scanDirectory (path : Path) : FileCall (List Bytes) := do
  match ← attempt (.readDir path) with
  | .ok names => return names
  | .error error => throwMismatch path true (utf8 "delete_directory target is a file; use delete()") (mapIo error)

def deleteDirectory (address : Url) : FileCall Payload := do
  let path ← B.checkedPathFor address
  locked path do
    rejectLink path
    let entries := (← scanDirectory path).map fun name => path ++ [name]
    if !entries.all isClearableStagingTemp then throw ⟨.DirectoryNotEmpty, utf8 "directory is not empty"⟩
    else
      probeTemps entries
      removeTemps entries
      io (sys (.removeDir path))
      return .done

/-- The checks of `if_source`. -/
def checkSource (path : Path) (ifSource : Option Bytes) (refusal : Error) : FileCall Unit :=
  match ifSource with
  | none => pure ()
  | some expected => do
    let info ← statPath path
    if info.etag ≠ expected then throw refusal

def copy (sourceUrl destinationUrl : Url) (options : Options) : FileCall Payload := do
  let source ← B.checkedPathFor sourceUrl
  let destination ← B.checkedPathFor destinationUrl
  lockSourceAndDestination source destination do
    checkSource source options.ifSource ⟨.PreconditionFailed, utf8 "etag mismatch"⟩
    applyDestinationPrecondition destination options.ifDest
    let metadata ← io (sys (.metadata source))
    rejectSpecialFile metadata
    createParents destination
    let (temp, inode) ← B.createTemp destination
    guarded temp do
      if ← attempt .cancelled then throw ⟨.Cancelled, utf8 "copy cancelled by caller"⟩
      else
        writeBody inode (.LocalFile source)
        checkSource source options.ifSource ⟨.ObjectModified, utf8 "source modified during copy"⟩
        io (sys (.setPermissions temp metadata.readonly))
        io (sys (.rename temp destination))
    io (sys (.sync destination.dropLast))
    return .info (← statPath destination)

def rename (sourceUrl destinationUrl : Url) (options : Options) : FileCall Payload := do
  let source ← B.checkedPathFor sourceUrl
  let destination ← B.checkedPathFor destinationUrl
  lockSourceAndDestination source destination do
    checkSource source options.ifSource ⟨.PreconditionFailed, utf8 "etag mismatch"⟩
    applyDestinationPrecondition destination options.ifDest
    createParents destination
    io (sys (.rename source destination))
    return .done

def updateMetadata (address : Url) : FileCall Payload := do
  let _ ← B.checkedPathFor address
  throw ⟨.Unsupported, utf8 "file update_metadata: backend stores no user metadata; target a backend that supports it"⟩

/-- Whether the directory above is read-only. -/
def parentReadonly (path : Path) : FileCall Bool :=
  if path = [] then return false else return (← io (sys (.metadata path.dropLast))).readonly

def checkAccess (address : Url) (operations : AccessOps) : FileCall AccessDecision := do
  let path ← B.checkedPathFor address
  if !(← tryExists path) then throw ⟨.NotFound, utf8 "file does not exist"⟩
  else
    let readonly := (← io (sys (.metadata path))).readonly
    let parentReadonly ← parentReadonly path
    let denied : AccessOps :=
      ⟨false, operations.write && readonly, operations.delete && (readonly || parentReadonly),
        operations.updateMetadata && readonly⟩
    let allowed := denied == ⟨false, false, false, false⟩
    return ⟨allowed, denied,
      if allowed then none else some (utf8 "filesystem metadata denies at least one requested operation")⟩

def rootInfoFor (url : Url) : FileCall (RootInfo Payload) := do
  match ← B.checkedScopeForRoot url with
  | (_, _, some root) => return ⟨root, .done⟩
  | (_, _, none) => throw ⟨.NoRoute, utf8 "no file root matches address"⟩

/-- The trait's answer for a slot that the backend has not. -/
def unsupported (slot : String) : Error := ⟨.Unsupported, utf8 ("layer does not support " ++ slot)⟩

/-- The backend's answer to a data verb. -/
def serveData : (call : DataCall Payload) → FileCall call.Answer
  | .addressed verb request =>
    let address := request.input.address
    let options := request.input.rest.options
    match verb with
    | .stat => B.stat address
    | .read => B.read address options
    | .materialize => B.materialize address
    | .write | .writeStream => B.write address options request.input.rest.body
    | .writeRedirect => throw (unsupported "write_redirect")
    | .continueWrite => throw (unsupported "continue_write")
    | .delete => B.delete address options
    | .updateMetadata => B.updateMetadata address
    | .list => B.list address options
    | .listStream => B.listStream address options
    | .listVersions => throw (unsupported "list_versions")
    | .getLatestVersion => B.getLatestVersion address
    | .createDirectory => B.createDirectory address
    | .deleteDirectory => B.deleteDirectory address
    | .watchDirectory => B.watchDirectory address
  | .checkAccess request => B.checkAccess request.input.address request.input.operations
  | .copy request => B.copy request.input.source request.input.destination request.input.rest.options
  | .rename request => B.rename request.input.source request.input.destination request.input.rest.options
  | .rootInfoFor url _ => B.rootInfoFor url

/-- The backend's answer to a call. -/
def serve : (call : Call Payload) → FileCall call.Answer
  | .data call => B.serveData call
  | .listAddressRoots _ => return (⟨B.roots.map fun scope => ⟨scope.url, .done⟩, false⟩, none)
  | .listConnections _ => return .done
  | .updateConnectionCredentials _ => throw (unsupported "update_connection_credentials")
  | .authenticateConnection _ => throw (unsupported "authenticate_connection")

end FileBackend

end OvStorage.Files
