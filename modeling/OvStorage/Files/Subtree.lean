import OvStorage.Address.Containment
import OvStorage.Files.Backend

/-!
# A subtree behind the authorization layer

`BuiltinAuthLayer` over `FileBackend`: what a principal whom the policy denies reading under an address can
still come to read. The gate judges the addresses that a request names; the backend moves a directory with
all that is in it.

## The model

Any number of threads serve requests, of any principals, through one layer and one policy; between two
calls of the system anything may happen. The host opens the path of a `LocalDelegate` when it gets to it.

## What is proved

`denied_subtree_unreachable`, in every run in which nothing moves what is above the subtree and no other name leads into
it. `read_moved_away`: a rename of the directory above is allowed, and then the reading is, too.
-/

namespace OvStorage.Files

open Address Interleave Authz Routine SegList Upkeep BuiltinAuthLayer List

/-! ### Calls that see no content -/

/-- The call reads no content, writes none, and moves nothing. -/
def Sys.Blind : Sys → Prop
  | .read _ | .fill _ _ | .rename _ _ | .receive _ _ => False
  | _ => True

theorem blind_attempt {a : Sys} (h : a.Blind) : (attempt a).run.Only Sys.Blind := ⟨h, fun _ => trivial⟩

theorem blind_io {α : Type} {p : Routine Sys.Answer (Except IoError α)} (h : p.Only Sys.Blind) :
    (io p).run.Only Sys.Blind :=
  h.bind fun _ => trivial

theorem blind_sys {a : Sys} (h : a.Blind) : (sys a).Only Sys.Blind := ⟨h, fun _ => trivial⟩

theorem blind_canonicalExistingAnchor (reversed : List Bytes) :
    (canonicalExistingAnchor reversed).run.Only Sys.Blind := by
  induction reversed with
  | nil => exact blind_io (blind_sys trivial)
  | cons name above ih =>
    refine Only.bindT (blind_attempt trivial) fun place => ?_
    split
    · trivial
    · split
      · exact ih
      · trivial

theorem blind_tighten (path rootPath : Path) (scope : RootScope) (tightest : Option Path) :
    (tighten path rootPath scope tightest).run.Only Sys.Blind := by
  unfold tighten
  split
  · refine Only.bindT (Only.bindT (blind_attempt trivial) fun place => ?_) fun root => Only.bindT ?_ fun _ => trivial
    · split <;> trivial
    · refine Only.bindT (blind_canonicalExistingAnchor _) fun anchor => ?_
      split <;> trivial
  · trivial

theorem blind_scopesForPath (path : Path) (scopes : List RootScope) (selected : Option (RootScope × Path))
    (tightest : Option Path) : (scopesForPath path scopes selected tightest).run.Only Sys.Blind := by
  induction scopes generalizing selected tightest with
  | nil => trivial
  | cons scope scopes ih =>
    unfold scopesForPath
    split
    · exact ih _ _
    · split
      · exact Only.bindT (blind_tighten _ _ _ _) fun _ => ih _ _
      · exact ih _ _

namespace FileBackend

theorem blind_statPath (path : Path) : (statPath path).run.Only Sys.Blind :=
  Only.bindT (blind_io (blind_sys trivial)) fun _ => trivial

theorem blind_rejectSpecialFile (metadata : Metadata) : (rejectSpecialFile metadata).run.Only Sys.Blind := by
  unfold rejectSpecialFile
  split <;> trivial

theorem blind_rejectDirectoryTarget (metadata : Metadata) (guidance : Bytes) :
    (rejectDirectoryTarget metadata guidance).run.Only Sys.Blind := by
  unfold rejectDirectoryTarget
  split <;> trivial

theorem blind_rejectUserMetadata (options : Options) : (rejectUserMetadata options).run.Only Sys.Blind := by
  unfold rejectUserMetadata
  split <;> trivial

variable {α : Type}

theorem blind_throwMismatch (path : Path) (wantsDirectory : Bool) (guidance : Bytes) (error : Error) :
    (throwMismatch (α := α) path wantsDirectory guidance error).run.Only Sys.Blind := by
  refine Only.bindT (blind_attempt trivial) fun metadata => ?_
  split <;> trivial

theorem blind_tryExists (path : Path) : (tryExists path).run.Only Sys.Blind := by
  refine Only.bindT (blind_attempt trivial) fun metadata => ?_
  split
  · trivial
  · split <;> trivial

theorem blind_applyDestinationPrecondition (path : Path) (ifDest : IfDestExists) :
    (applyDestinationPrecondition path ifDest).run.Only Sys.Blind := by
  cases ifDest with
  | Overwrite => trivial
  | Fail =>
    refine Only.bindT (blind_tryExists path) fun present => ?_
    split <;> trivial
  | MatchEtag expected =>
    refine Only.bindT (blind_statPath path) fun info => ?_
    split <;> trivial

theorem blind_checkSource (path : Path) (ifSource : Option Bytes) (refusal : Error) :
    (checkSource path ifSource refusal).run.Only Sys.Blind := by
  cases ifSource with
  | none => trivial
  | some expected =>
    refine Only.bindT (blind_statPath path) fun info => ?_
    split <;> trivial

theorem blind_createDirAll (dirs : List Path) : (createDirAll dirs).run.Only Sys.Blind := by
  induction dirs with
  | nil => trivial
  | cons dir dirs ih =>
    refine Only.bindT (blind_attempt trivial) fun made => ?_
    split
    · exact ih
    · refine Only.bindT (blind_attempt trivial) fun metadata => ?_
      split
      · split
        · exact ih
        · trivial
      · trivial

variable {body : FileCall α}

theorem blind_locked (path : Path) (h : body.run.Only Sys.Blind) : (locked path body).run.Only Sys.Blind :=
  Only.bindT (blind_attempt trivial) fun _ => Only.bindT (Only.bind h fun _ => trivial) fun _ =>
    Only.bindT (blind_attempt trivial) fun _ => only_ofExcept

theorem blind_guarded (temp : Path) (h : body.run.Only Sys.Blind) : (guarded temp body).run.Only Sys.Blind := by
  refine Only.bindT (Only.bind h fun _ => trivial) fun result => ?_
  split
  · trivial
  · exact Only.bindT (blind_attempt trivial) fun _ => trivial

variable (B : FileBackend)

theorem blind_checkedScopeForRoot (url : Url) : (B.checkedScopeForRoot url).run.Only Sys.Blind := by
  refine Only.bindT only_ofExcept fun path => ?_
  split
  · trivial
  · split
    · trivial
    · refine Only.bindT (blind_scopesForPath _ _ _ _) fun scopes => ?_
      split <;> trivial

theorem blind_checkedPathFor (url : Url) : (B.checkedPathFor url).run.Only Sys.Blind :=
  Only.bindT (B.blind_checkedScopeForRoot url) fun _ => trivial

theorem blind_delete (address : Url) (options : Options) : (B.delete address options).run.Only Sys.Blind := by
  refine Only.bindT (B.blind_checkedPathFor address) fun path => blind_locked _ (Only.bindT ?_ fun missing => ?_)
  · unfold targetMissing
    split
    · trivial
    · refine Only.bindT (blind_attempt trivial) fun metadata => ?_
      split
      · refine Only.bindT (blind_statPath path) fun info => ?_
        split <;> trivial
      · split <;> trivial
  · split
    · trivial
    · refine Only.bindT (blind_attempt trivial) fun removed => ?_
      split
      · trivial
      · split
        · trivial
        · exact blind_throwMismatch _ _ _ _

theorem blind_createDirectory (address : Url) : (B.createDirectory address).run.Only Sys.Blind :=
  Only.bindT (B.blind_checkedPathFor address) fun path => blind_locked path <|
    Only.bindT (blind_createDirAll _) fun _ => Only.bindT (blind_statPath path) fun _ => trivial

theorem blind_refuseUnlessOrphan (probe : StagingProbe) : (refuseUnlessOrphan probe).run.Only Sys.Blind := by
  cases probe <;> trivial

theorem blind_probeTemps (temps : List Path) : (probeTemps temps).run.Only Sys.Blind := by
  induction temps with
  | nil => trivial
  | cons temp temps ih =>
    exact Only.bindT (blind_sys trivial) fun probe => Only.bindT (blind_refuseUnlessOrphan probe) fun _ => ih

theorem blind_removeTemps (temps : List Path) : (removeTemps temps).run.Only Sys.Blind := by
  induction temps with
  | nil => trivial
  | cons temp temps ih =>
    refine Only.bindT (blind_sys trivial) fun probe => Only.bindT (blind_refuseUnlessOrphan probe) fun _ =>
      Only.bindT (blind_attempt trivial) fun removed => ?_
    split
    · exact ih
    · split <;> trivial

theorem blind_deleteDirectory (address : Url) : (B.deleteDirectory address).run.Only Sys.Blind := by
  refine Only.bindT (B.blind_checkedPathFor address) fun path => blind_locked path <|
    Only.bindT ?_ fun _ => Only.bindT ?_ fun names => ?_
  · refine Only.bindT (blind_attempt trivial) fun metadata => ?_
    split
    · split <;> trivial
    · trivial
  · refine Only.bindT (blind_attempt trivial) fun names => ?_
    split
    · trivial
    · exact blind_throwMismatch _ _ _ _
  · dsimp only
    split
    · trivial
    · exact Only.bindT (blind_probeTemps _) fun _ => Only.bindT (blind_removeTemps _) fun _ =>
        Only.bindT (blind_io (blind_sys trivial)) fun _ => trivial

theorem blind_checkAccess (address : Url) (operations : AccessOps) :
    (B.checkAccess address operations).run.Only Sys.Blind := by
  refine Only.bindT (B.blind_checkedPathFor address) fun path => Only.bindT (blind_tryExists path) fun present => ?_
  split
  · trivial
  · refine Only.bindT (blind_io (blind_sys trivial)) fun metadata => Only.bindT ?_ fun _ => trivial
    unfold parentReadonly
    split
    · trivial
    · exact Only.bindT (blind_io (blind_sys trivial)) fun _ => trivial

end FileBackend

/-! ### What the calls uphold -/

section Upkeep

variable {ι : Type} {top : Path} {t : ι} {w : World}

/-- The call moves neither `top` nor what is above it, and goes through no symbolic link from outside `top`
into it, unless to rename an entry in its directory. -/
def Sys.Direct (top : Path) (w : World) : Sys → Prop
  | .read path => ∀ place ∈ w.disk.follow path, top <+: place → top <+: path
  | .rename source destination => ∀ place ∈ w.disk.locate source,
      ¬place <+: top ∧ (top <+: place → top <+: source ∨ source.dropLast = destination.dropLast)
  | _ => True

instance (a : Sys) : Decidable (a.Direct top w) :=
  match a with
  | .read path => inferInstanceAs (Decidable (∀ place ∈ w.disk.follow path, top <+: place → top <+: path))
  | .rename source destination => inferInstanceAs (Decidable (∀ place ∈ w.disk.locate source,
      ¬place <+: top ∧ (top <+: place → top <+: source ∨ source.dropLast = destination.dropLast)))
  | .lock _ | .unlock _ | .stamp | .cancelled | .metadata _ | .symlinkMetadata _ | .canonicalize _ | .createDir _
  | .createNew _ | .lockStaging _ | .probeStaging _ | .fill _ _ | .setPermissions _ _ | .removeFile _ | .removeDir _
  | .readDir _ | .sync _ | .enumerate _ _ | .observe _ | .receive _ _ => isTrue trivial

/-- What was stored under `top` is nowhere else, and nobody has received any of it. -/
structure Withheld (top : Path) (w : World) : Prop where
  confined : w.disk.Confined top
  received : ∀ row ∈ w.received, ¬row.2.StoredUnder top

theorem Withheld.of_disk {disk : Disk} (h : Withheld top w) (hdisk : disk.Confined top) :
    Withheld top { w with disk } := ⟨hdisk, h.received⟩

/-- A call that sees no content keeps what was stored under `top` where it is. -/
theorem Withheld.blind {a : Sys} {r : a.Answer} {w' : World} (h : Withheld top w) (ha : a.Blind)
    (hexec : exec t a r w = some w') : Withheld top w' := by
  cases a with
  | lock path =>
    simp only [exec] at hexec
    split_ifs at hexec
    cases hexec
    exact ⟨h.confined, h.received⟩
  | unlock path =>
    cases hexec
    exact ⟨h.confined, h.received⟩
  | metadata path | symlinkMetadata path | canonicalize path =>
    cases r with
    | error error =>
      cases hexec
      exact h
    | ok answer =>
      simp only [exec] at hexec
      split_ifs at hexec
      cases hexec
      exact h
  | readDir path =>
    cases r with
    | error error =>
      cases hexec
      exact h
    | ok names =>
      simp only [exec] at hexec
      split at hexec
      · split_ifs at hexec
        cases hexec
        exact h
      · cases hexec
  | createDir path =>
    cases r with
    | error error =>
      cases hexec
      exact h
    | ok _ =>
      obtain ⟨disk, hdisk, rfl⟩ := Option.map_eq_some_iff.mp hexec
      exact h.of_disk (h.confined.createDir hdisk)
  | createNew path =>
    cases r with
    | error error =>
      cases hexec
      exact h
    | ok inode =>
      obtain ⟨disk, hdisk, rfl⟩ := Option.map_eq_some_iff.mp hexec
      exact h.of_disk (h.confined.createNew hdisk)
  | setPermissions path readonly =>
    cases r with
    | error error =>
      cases hexec
      exact h
    | ok _ =>
      obtain ⟨inode, -, rfl⟩ := Option.map_eq_some_iff.mp hexec
      exact h.of_disk h.confined.setReadonly
  | removeFile path =>
    cases r with
    | error error =>
      cases hexec
      exact h
    | ok _ =>
      obtain ⟨disk, hdisk, rfl⟩ := Option.map_eq_some_iff.mp hexec
      exact h.of_disk (h.confined.removeFile hdisk)
  | removeDir path =>
    cases r with
    | error error =>
      cases hexec
      exact h
    | ok _ =>
      obtain ⟨disk, hdisk, rfl⟩ := Option.map_eq_some_iff.mp hexec
      exact h.of_disk (h.confined.removeDir hdisk)
  | read _ | fill _ _ | rename _ _ | receive _ _ => exact ha.elim
  | stamp | cancelled | lockStaging _ | probeStaging _ | sync _ | enumerate _ _ | observe _ =>
    cases hexec
    exact h

variable (ι top) in
/-- The runs of direct calls, and what they keep. -/
def upkeep : Upkeep (exec (ι := ι)) where
  allowed _ a _ w := a.Direct top w
  inv := Withheld top

variable {α : Type} {Q : α → Prop}

variable {body p : FileCall α}

/-- A part of a verb that sees no content. -/
theorem upholds_of_blind (h : p.run.Only Sys.Blind) : (upkeep ι top).UpholdsT t (fun _ => True) p :=
  Upholds.mono (upholds_of_only (fun _ ha _ _ _ hw _ hexec => ⟨Withheld.blind hw ha hexec, trivial⟩) h)
    fun _ _ _ _ => trivial

/-- What comes after a part that sees no content. -/
theorem upholds_after {β : Type} {Q : β → Prop} {f : α → FileCall β} (hp : p.run.Only Sys.Blind)
    (hf : ∀ value, (upkeep ι top).UpholdsT t Q (f value)) : (upkeep ι top).UpholdsT t Q (p >>= f) :=
  (upholds_of_blind hp).bind fun value _ => hf value

/-- The error of a call is the verb's. -/
theorem upholds_io {p : Routine Sys.Answer (Except IoError α)}
    (h : (upkeep ι top).Upholds t (fun r => ∀ value, r = .ok value → Q value) p) :
    (upkeep ι top).UpholdsT t Q (io p) := by
  refine Upholds.bind h fun r hr => ?_
  cases r with
  | error error => exact fun _ h => nomatch h
  | ok value =>
    rintro _ ⟨⟩
    exact hr value rfl

variable {destination path source temp : Path}

/-- What is read outside was not stored under `top`. -/
theorem upholds_sysRead (hpath : ¬top <+: path) :
    (upkeep ι top).Upholds t (fun r => ∀ content, r = .ok content → ¬content.StoredUnder top) (sys (.read path)) := by
  refine upholds_perform fun w r w' hw hdirect hexec => ?_
  cases r with
  | error error =>
    cases hexec
    exact ⟨hw, fun _ h => nomatch h⟩
  | ok content =>
    simp only [exec] at hexec
    split_ifs at hexec with hcontent
    cases hexec
    refine ⟨hw, ?_⟩
    rintro _ ⟨⟩
    exact hw.confined.contentAt (fun place hplace hunder => hpath (hdirect place hplace hunder)) hcontent

theorem upholds_read (hpath : ¬top <+: path) :
    (upkeep ι top).UpholdsT t (fun content => ¬content.StoredUnder top) (io (sys (.read path))) :=
  upholds_io (upholds_sysRead hpath)

variable {content : Content}

theorem upholds_fill {inode : ℕ} (hcontent : ¬content.StoredUnder top) :
    (upkeep ι top).UpholdsT t (fun _ => True) (io (sys (.fill inode content))) := by
  refine upholds_io (upholds_perform fun w r w' hw _ hexec => ?_)
  cases r with
  | error error =>
    cases hexec
    exact ⟨hw, fun _ _ => trivial⟩
  | ok mtime =>
    cases hexec
    exact ⟨hw.of_disk (hw.confined.fill hcontent), fun _ _ => trivial⟩

/-- Entries of one directory are in one directory. -/
theorem locate_sibling {d : Disk} {from' to' : Path} (hsame : source.dropLast = destination.dropLast)
    (hfrom : d.locate source = some from') (hto : d.locate destination = some to') (habove : ¬from' <+: top)
    (hunder : top <+: from') : top <+: to' := by
  cases hsource : source.getLast? with
  | none =>
    rw [Disk.locate, hsource] at hfrom
    cases hfrom
    exact absurd List.nil_prefix habove
  | some name =>
    rw [Disk.locate, hsource] at hfrom
    obtain ⟨dir, hdir, rfl⟩ := Option.map_eq_some_iff.mp hfrom
    have hdirUnder : top <+: dir := by
      rcases prefix_concat_iff.mp hunder with heq | hdirUnder
      · exact absurd (heq ▸ prefix_rfl) habove
      · exact hdirUnder
    cases hdestination : destination.getLast? with
    | none =>
      have hnil : destination = [] := List.getLast?_eq_none_iff.mp hdestination
      rw [hsame, hnil] at hdir
      rw [Disk.locate, hdestination] at hto
      cases hto
      have hroot : dir = [] := (Option.some.inj hdir).symm
      rwa [hroot] at hdirUnder
    | some name' =>
      rw [Disk.locate, hdestination, ← hsame, hdir] at hto
      cases hto
      exact hdirUnder.trans (prefix_append dir [name'])

/-- A rename from outside, or within one directory. -/
theorem upholds_rename (h : ¬top <+: source ∨ source.dropLast = destination.dropLast) :
    (upkeep ι top).UpholdsT t (fun _ => True) (io (sys (.rename source destination))) := by
  refine upholds_io (upholds_perform fun w r w' hw hdirect hexec => ?_)
  cases r with
  | error error =>
    cases hexec
    exact ⟨hw, fun _ _ => trivial⟩
  | ok _ =>
    obtain ⟨disk, hdisk, rfl⟩ := Option.map_eq_some_iff.mp hexec
    obtain ⟨from', hfrom, hdisk⟩ := Option.bind_eq_some_iff.mp hdisk
    obtain ⟨to', hto, hdisk⟩ := Option.bind_eq_some_iff.mp hdisk
    obtain ⟨habove, hlink⟩ := hdirect from' hfrom
    refine ⟨hw.of_disk (hw.confined.renameAt habove (fun hunder => ?_) hdisk), fun _ _ => trivial⟩
    rcases hlink hunder with hsource | hsame
    · rcases h with hout | hsame
      · exact absurd hsource hout
      · exact locate_sibling hsame hfrom hto habove hunder
    · exact locate_sibling hsame hfrom hto habove hunder

variable {principal : String}

theorem upholds_receive (hcontent : ¬content.StoredUnder top) :
    (upkeep ι top).Upholds t (fun _ => True) (sys (.receive principal content)) := by
  refine upholds_perform fun w r w' hw _ hexec => ?_
  cases hexec
  refine ⟨⟨hw.confined, fun row hrow => ?_⟩, trivial⟩
  rcases mem_append.mp hrow with hrow | hrow
  · exact hw.received row hrow
  · obtain rfl := mem_singleton.mp hrow
    exact hcontent

/-! ### The verbs that see content -/

theorem upholds_locked (h : (upkeep ι top).UpholdsT t Q body) :
    (upkeep ι top).UpholdsT t Q (FileBackend.locked path body) :=
  upholds_after (blind_attempt trivial) fun _ => (upholdsT_lift h).bind fun _ hresult =>
    upholds_after (blind_attempt trivial) fun _ => upholdsT_ofExcept hresult

theorem upholds_lockSourceAndDestination (h : (upkeep ι top).UpholdsT t Q body) :
    (upkeep ι top).UpholdsT t Q (FileBackend.lockSourceAndDestination source destination body) := by
  unfold FileBackend.lockSourceAndDestination
  split
  · exact upholds_locked h
  · split
    · exact upholds_locked (upholds_locked h)
    · exact upholds_locked (upholds_locked h)

theorem upholds_guarded (h : (upkeep ι top).UpholdsT t Q body) :
    (upkeep ι top).UpholdsT t Q (FileBackend.guarded temp body) := by
  refine (upholdsT_lift h).bind fun result hresult => ?_
  split
  · exact upholdsT_pure (hresult _ rfl)
  · exact upholds_after (blind_attempt trivial) fun _ => upholdsT_throw

theorem upholds_lockedCommit {commit : FileCall Unit} {after : FileCall α}
    (hcommit : (upkeep ι top).UpholdsT t (fun _ => True) commit) (hafter : (upkeep ι top).UpholdsT t Q after) :
    (upkeep ι top).UpholdsT t Q (FileBackend.lockedCommit path temp commit after) := by
  refine upholds_after (blind_attempt trivial) fun _ => (upholdsT_lift hcommit).bind fun result _ => ?_
  split
  · exact (upholdsT_lift hafter).bind fun _ hresult =>
      upholds_after (blind_attempt trivial) fun _ => upholdsT_ofExcept hresult
  · exact upholds_after (blind_attempt trivial) fun _ =>
      upholds_after (blind_attempt trivial) fun _ => upholdsT_throw

namespace FileBackend

variable (B : FileBackend)

/-- A staging file stands beside the file that it becomes. -/
theorem dropLast_tempSibling (path : Path) (stamp : Stamp) : (B.tempSibling path stamp).dropLast = path.dropLast :=
  dropLast_concat

theorem upholds_createNewTempSibling (path : Path) (attempts : ℕ) (lastError : IoError) :
    (upkeep ι top).UpholdsT t (fun temp => temp.1.dropLast = path.dropLast)
      (B.createNewTempSibling path attempts lastError) := by
  induction attempts generalizing lastError with
  | zero => exact upholdsT_throw
  | succ attempts ih =>
    refine upholds_after (blind_attempt trivial) fun stamp => ?_
    refine upholds_after (blind_attempt trivial) fun made => ?_
    split
    · split
      · exact ih _
      · exact upholdsT_throw
    · refine upholds_after (blind_guarded _ (blind_io (blind_sys trivial))) fun lock => ?_
      split
      · exact upholdsT_pure (B.dropLast_tempSibling path stamp)
      · exact upholds_after (blind_attempt trivial) fun _ => ih _
      · refine upholds_after (blind_attempt trivial) fun metadata => ?_
        split
        · exact upholdsT_pure (B.dropLast_tempSibling path stamp)
        · refine upholds_after (blind_attempt trivial) fun _ => ?_
          split
          · exact ih _
          · exact upholdsT_throw

/-- The path of a verb is that of its address. -/
theorem upholds_checkedPathFor (url : Url) :
    (upkeep ι top).UpholdsT t (fun path => filePath url = .ok path) (B.checkedPathFor url) := by
  refine UpholdsT.bind (Q := fun scope => filePath url = .ok scope.1) ?_ fun scope hscope =>
    upholdsT_pure hscope
  refine (upholdsT_ofExcept fun path hpath => hpath).bind fun path hpath => ?_
  split
  · exact upholdsT_throw
  · split
    · exact upholdsT_pure hpath
    · refine upholds_after (blind_scopesForPath _ _ _ _) fun scopes => ?_
      split
      · exact upholdsT_throw
      · exact upholdsT_pure hpath

theorem upholds_writeBody {inode : ℕ} {body : Body} (hbody : ∀ path, body = .LocalFile path → ¬top <+: path) :
    (upkeep ι top).UpholdsT t (fun _ => True) (writeBody inode body) := by
  have hown : ∀ bytes, ¬(⟨bytes, []⟩ : Content).StoredUnder top := by
    rintro bytes ⟨_, hnone, -⟩
    cases hnone
  refine UpholdsT.bind (Q := fun content => ¬content.StoredUnder top) ?_ fun content hcontent =>
    (upholds_fill hcontent).bind fun _ _ => upholdsT_pure trivial
  cases body with
  | Bytes bytes => exact upholdsT_pure (hown bytes)
  | LocalFile path => exact upholds_read (hbody path rfl)
  | Stream chunks =>
    exact (upholdsT_ofExcept fun _ _ => trivial).bind fun bytes (_ : True) => upholdsT_pure (hown bytes)

theorem upholds_write {address : Url} {options : Options} {body : Body}
    (hbody : ∀ path, body = .LocalFile path → ¬top <+: path) :
    (upkeep ι top).UpholdsT t (fun _ => True) (B.write address options body) := by
  refine (B.upholds_checkedPathFor address).bind fun path _ => ?_
  refine upholds_after (blind_rejectUserMetadata _) fun _ => ?_
  refine upholds_after (blind_createDirAll _) fun _ => ?_
  refine upholds_after (blind_applyDestinationPrecondition _ _) fun _ => ?_
  refine (B.upholds_createNewTempSibling path _ _).bind fun temp htemp => ?_
  refine (upholds_guarded (upholds_writeBody hbody)).bind fun _ _ => upholds_lockedCommit ?_ ?_
  · exact upholds_after (blind_applyDestinationPrecondition _ _) fun _ => upholds_rename (.inr htemp)
  · exact upholds_after (blind_io (blind_sys trivial)) fun _ =>
      upholds_after (blind_statPath path) fun _ => upholdsT_pure trivial

variable {source destination : Url} {options : Options}
  (hsource : ∀ path, filePath source = .ok path → ¬top <+: path)

include hsource

theorem upholds_copy : (upkeep ι top).UpholdsT t (fun _ => True) (B.copy source destination options) := by
  refine (B.upholds_checkedPathFor source).bind fun from' hfrom => ?_
  refine (B.upholds_checkedPathFor destination).bind fun to' _ => upholds_lockSourceAndDestination ?_
  refine upholds_after (blind_checkSource _ _ _) fun _ => ?_
  refine upholds_after (blind_applyDestinationPrecondition _ _) fun _ => ?_
  refine upholds_after (blind_io (blind_sys trivial)) fun metadata => ?_
  refine upholds_after (blind_rejectSpecialFile _) fun _ => ?_
  refine upholds_after (blind_createDirAll _) fun _ => ?_
  refine (B.upholds_createNewTempSibling to' _ _).bind fun temp htemp => ?_
  refine UpholdsT.bind (Q := fun _ => True) (upholds_guarded ?_) fun _ _ => ?_
  · refine upholds_after (blind_attempt trivial) fun cancelled => ?_
    split
    · exact upholdsT_throw
    · refine UpholdsT.bind (Q := fun _ => True) (upholds_writeBody ?_) fun _ _ => ?_
      · rintro _ ⟨⟩
        exact hsource from' hfrom
      · exact upholds_after (blind_checkSource _ _ _) fun _ =>
          upholds_after (blind_io (blind_sys trivial)) fun _ => upholds_rename (.inr htemp)
  · exact upholds_after (blind_io (blind_sys trivial)) fun _ =>
      upholds_after (blind_statPath to') fun _ => upholdsT_pure trivial

theorem upholds_renameVerb : (upkeep ι top).UpholdsT t (fun _ => True) (B.rename source destination options) := by
  refine (B.upholds_checkedPathFor source).bind fun from' hfrom => ?_
  refine (B.upholds_checkedPathFor destination).bind fun to' _ => upholds_lockSourceAndDestination ?_
  refine upholds_after (blind_checkSource _ _ _) fun _ => ?_
  refine upholds_after (blind_applyDestinationPrecondition _ _) fun _ => ?_
  refine upholds_after (blind_createDirAll _) fun _ => ?_
  exact (upholds_rename (.inl (hsource from' hfrom))).bind fun _ _ => upholdsT_pure trivial

end FileBackend

/-- What is handed back was not stored under `top`: the bytes, or what is at the path now. -/
def Payload.Harmless (top : Path) : Payload → Prop
  | .stream content _ => ¬content.StoredUnder top
  | .delegate path _ => ¬top <+: path
  | _ => True

namespace FileBackend

variable (B : FileBackend) {address : Url} {options : Options}
  (haddress : ∀ path, filePath address = .ok path → ¬top <+: path)

include haddress

theorem upholds_materialize : (upkeep ι top).UpholdsT t (Payload.Harmless top) (B.materialize address) := by
  refine (B.upholds_checkedPathFor address).bind fun path hpath => ?_
  refine upholds_after (blind_io (blind_sys trivial)) fun metadata => ?_
  refine upholds_after (blind_rejectSpecialFile _) fun _ => ?_
  exact upholds_after (blind_rejectDirectoryTarget _ _) fun _ => upholdsT_pure (haddress path hpath)

theorem upholds_readVerb : (upkeep ι top).UpholdsT t (Payload.Harmless top) (B.read address options) := by
  refine (B.upholds_checkedPathFor address).bind fun path hpath => ?_
  refine upholds_after (blind_io (blind_sys trivial)) fun metadata => ?_
  refine upholds_after (blind_rejectSpecialFile _) fun _ => ?_
  refine upholds_after (blind_rejectDirectoryTarget _ _) fun _ => ?_
  dsimp only
  split
  · exact upholdsT_throw
  split
  · refine UpholdsT.bind (Q := fun content : Content => ¬content.StoredUnder top) ?_ fun content hcontent =>
      upholdsT_pure hcontent
    unfold openRangedStream
    split
    · exact upholdsT_throw
    split
    · exact upholdsT_throw
    · exact (upholds_read (haddress path hpath)).bind fun content hcontent => upholdsT_pure hcontent
  · exact upholdsT_pure (haddress path hpath)

end FileBackend

/-! ### The backend behind the layer -/

/-- The addresses that a call reads or moves. -/
def sources : Call Payload → List Url
  | .data (.addressed .read request) => [request.input.address]
  | .data (.addressed .materialize request) => [request.input.address]
  | .data (.copy request) => [request.input.source]
  | .data (.rename request) => [request.input.source]
  | _ => []

/-- The body of a write. -/
def bodyOf : Call Payload → Option Body
  | .data (.addressed .write request) => some request.input.rest.body
  | .data (.addressed .writeStream request) => some request.input.rest.body
  | _ => none

/-- What a call of `read` or `materialize` hands back. -/
def handedBack : (call : Call Payload) → call.Answer → Option Payload
  | .data (.addressed .read _), payload => some payload
  | .data (.addressed .materialize _), payload => some payload
  | _, _ => none

/-- The call reads and moves nothing under `top`, and takes no body from there. -/
structure Outside (top : Path) (call : Call Payload) : Prop where
  source : ∀ address ∈ sources call, ∀ path, filePath address = .ok path → ¬top <+: path
  body : ∀ path, bodyOf call = some (.LocalFile path) → ¬top <+: path

theorem upholds_serve (B : FileBackend) {call : Call Payload} (h : Outside top call) :
    (upkeep ι top).UpholdsT t (fun answer => ∀ payload ∈ handedBack call answer, payload.Harmless top)
      (B.serve call) := by
  have hnothing : ∀ {p : FileCall call.Answer}, (∀ answer, handedBack call answer = none) →
      (upkeep ι top).UpholdsT t (fun _ => True) p →
      (upkeep ι top).UpholdsT t (fun answer => ∀ payload ∈ handedBack call answer, payload.Harmless top) p := by
    intro p hnone hp
    refine Upholds.mono hp fun x _ value _ payload hpayload => ?_
    rw [hnone value] at hpayload
    cases hpayload
  cases call with
  | data call =>
    cases call with
    | addressed verb request =>
      cases verb with
      | read =>
        refine Upholds.mono (B.upholds_readVerb (h.source _ (mem_singleton_self _))) ?_
        rintro x hx value rfl _ ⟨⟩
        exact hx value rfl
      | materialize =>
        refine Upholds.mono (B.upholds_materialize (h.source _ (mem_singleton_self _))) ?_
        rintro x hx value rfl _ ⟨⟩
        exact hx value rfl
      | write =>
        exact hnothing (fun _ => rfl) (B.upholds_write fun path hpath => h.body path (congrArg some hpath))
      | writeStream =>
        exact hnothing (fun _ => rfl) (B.upholds_write fun path hpath => h.body path (congrArg some hpath))
      | delete => exact hnothing (fun _ => rfl) (upholds_of_blind (B.blind_delete _ _))
      | createDirectory => exact hnothing (fun _ => rfl) (upholds_of_blind (B.blind_createDirectory _))
      | deleteDirectory => exact hnothing (fun _ => rfl) (upholds_of_blind (B.blind_deleteDirectory _))
      | stat | getLatestVersion =>
        exact hnothing (fun _ => rfl) (upholds_after (B.blind_checkedPathFor _) fun path =>
          upholds_after (FileBackend.blind_statPath path) fun _ => upholdsT_pure trivial)
      | list | listStream =>
        exact hnothing (fun _ => rfl) (upholds_after (B.blind_checkedPathFor _) fun path =>
          upholds_after (blind_sys trivial) fun _ => upholdsT_pure trivial)
      | watchDirectory =>
        exact hnothing (fun _ => rfl) (upholds_after (B.blind_checkedPathFor _) fun path =>
          upholds_of_blind (blind_sys trivial))
      | updateMetadata =>
        exact hnothing (fun _ => rfl) (upholds_after (B.blind_checkedPathFor _) fun path => upholdsT_throw)
      | writeRedirect | continueWrite | listVersions => exact upholdsT_throw
    | checkAccess request => exact hnothing (fun _ => rfl) (upholds_of_blind (B.blind_checkAccess _ _))
    | copy request =>
      exact hnothing (fun _ => rfl) (B.upholds_copy (h.source _ (mem_singleton_self _)))
    | rename request =>
      exact hnothing (fun _ => rfl) (B.upholds_renameVerb (h.source _ (mem_singleton_self _)))
    | rootInfoFor url cx =>
      refine hnothing (fun _ => rfl) (upholds_after (B.blind_checkedScopeForRoot _) fun scope => ?_)
      split
      · exact upholdsT_pure trivial
      · exact upholdsT_throw
  | listAddressRoots cx => exact hnothing (fun _ => rfl) (upholdsT_pure trivial)
  | listConnections cx => exact hnothing (fun _ => rfl) (upholdsT_pure trivial)
  | updateConnectionCredentials request => exact upholdsT_throw
  | authenticateConnection request => exact upholdsT_throw

/-- The host gets to what was handed back. -/
def host (principal : String) : Payload → Routine Sys.Answer Unit
  | .stream content _ => sys (.receive principal content)
  | .delegate path _ => do
    match ← sys (.read path) with
    | .ok content => sys (.receive principal content)
    | .error _ => pure ()
  | _ => pure ()

theorem upholds_host {payload : Payload} (h : payload.Harmless top) :
    (upkeep ι top).Upholds t (fun _ => True) (host principal payload) := by
  cases payload with
  | stream content info => exact upholds_receive h
  | delegate path info =>
    refine (upholds_sysRead h).bind fun r hr => ?_
    split
    · exact upholds_receive (hr _ rfl)
    · exact upholds_pure trivial
  | request _ _ | info _ | done => exact upholds_pure trivial

end Upkeep

/-! ### Requests -/

variable (L : BuiltinAuthLayer) (B : FileBackend) (policy : Policy)

/-- What is beneath the layer: one policy, and the backend. -/
def beneath : (a : Act Payload) → Routine Sys.Answer a.Answer
  | .load => pure policy
  | .call inner => (B.serve inner).run
  | .reload => pure none

/-- A request of the layer, and what the host then does for whoever made it. -/
def request (call : Call Payload) : Routine Sys.Answer Unit := do
  match ← (L.serve call).run.handle (beneath B policy) with
  | .ok answer =>
    match handedBack call answer, L.resolvePrincipal call.extensions with
    | some payload, .ok principal => host principal.id payload
    | _, _ => pure ()
  | .error _ => pure ()

variable {L B policy}

theorem sources_rewrite (f : Url → Url) (g : Extensions → Extensions) (call : DataCall Payload) :
    sources (.data (call.rewrite f g)) = (sources (.data call)).map f := by
  cases call with
  | addressed verb request => cases verb <;> rfl
  | _ => rfl

/-- What is read or moved is read. -/
theorem read_of_sources {call : DataCall Payload} {address : Url} (h : address ∈ sources (.data call)) :
    ([Operation.Read], address) ∈ call.demands := by
  cases call with
  | addressed verb request =>
    cases verb with
    | read | materialize =>
      obtain rfl := mem_singleton.mp h
      exact mem_singleton_self _
    | _ => cases h
  | copy request | rename request =>
    obtain rfl := mem_singleton.mp h
    exact mem_cons_self
  | checkAccess request => cases h
  | rootInfoFor url cx => cases h

variable {call inner : Call Payload} {principal : ResolvedPrincipal}

/-- The layer lets a call pass only if the policy lets the principal read what it reads or moves. -/
theorem allowed_of_sources {policy : Policy}
    (h : L.Passes policy principal call inner) {address : Url} (haddress : address ∈ sources inner) :
    (∃ outer ∈ sources call, L.canonicalizeDelegated outer = address) ∧
      L.isAllowed policy principal.id .Read (some address) = true := by
  cases call with
  | data request =>
    obtain ⟨rfl, hadmits⟩ := h
    obtain ⟨operation, hoperation, hallowed⟩ := hadmits _ (read_of_sources haddress)
    obtain rfl := mem_singleton.mp hoperation
    rw [delegated, sources_rewrite] at haddress
    exact ⟨mem_map.mp haddress, hallowed⟩
  | _ =>
    obtain ⟨rfl, -⟩ := h
    cases haddress

/-- The layer passes a body on as it came. -/
theorem body_of_passes {policy : Policy} (h : L.Passes policy principal call inner) : bodyOf inner = bodyOf call := by
  cases call with
  | data request =>
    obtain ⟨rfl, -⟩ := h
    cases request with
    | addressed verb request => cases verb <;> rfl
    | _ => rfl
  | _ =>
    obtain ⟨rfl, -⟩ := h
    rfl

/-- What the layer hands back is what the inner layer has handed back to it. -/
theorem keeps_handedBack (call : Call Payload) :
    (L.serve call).run.Keeps (L.Permits (.request call)) (fun h value => ∀ answer, value = .ok answer →
      ∀ payload ∈ handedBack call answer, ∃ inner answer',
        (⟨.call inner, .ok answer'⟩ : Sigma (Act.Answer (δ := Payload))) ∈ h ∧
          payload ∈ handedBack inner answer') [] := by
  cases call with
  | data call =>
    cases call with
    | addressed verb request =>
      cases verb with
      | read | materialize =>
        refine (keeps_addressed_answer _ request).imp fun h value hvalue => ?_
        rintro answer rfl payload ⟨⟩
        obtain ⟨inner, answer', principal, policy, hmem, heq⟩ := hvalue answer rfl
        exact ⟨_, answer', hmem, congrArg some heq.symm⟩
      | _ =>
        refine (keeps_serve _).imp fun _ _ _ => ?_
        rintro _ - _ ⟨⟩
    | _ =>
      refine (keeps_serve _).imp fun _ _ _ => ?_
      rintro _ - _ ⟨⟩
  | _ =>
    refine (keeps_serve _).imp fun _ _ _ => ?_
    rintro _ - _ ⟨⟩

/-! ### The denied subtree -/

/-- An address, and the native path that it names. -/
structure Subtree where
  address : Url
  path : Path
  named : filePath address = .ok path

/-- The address is at or under that of the subtree, as a rule of the policy would have it. -/
def Subtree.Covers (T : Subtree) (L : BuiltinAuthLayer) (address : Url) : Prop :=
  scopeCovers L.cases L.foldsFilePaths T.address.toParts address.toParts .Deny = true

/-- The address names a path in the subtree. -/
def Subtree.Names (T : Subtree) (address : Url) : Prop := ∃ path, filePath address = .ok path ∧ T.path <+: path

/-- The policy lets the principal read at no address of the subtree. -/
def Denies (L : BuiltinAuthLayer) (policy : Policy) (principal : String) (T : Subtree) : Prop :=
  ∀ address, T.Covers L (L.canonicalizeDelegated address) →
    L.isAllowed policy principal .Read (some (L.canonicalizeDelegated address)) = false

/-- A request whose addresses name paths in the subtree only as addresses of the subtree, and whose body is
not a local file there; one of another principal reads and moves nothing in the subtree at all. -/
structure Asks (L : BuiltinAuthLayer) (policy : Policy) (principal : String) (T : Subtree) (call : Call Payload) :
    Prop where
  own : ∀ asking, L.resolvePrincipal call.extensions = .ok asking → asking.id = principal →
    ∀ address ∈ sources call, T.Names (L.canonicalizeDelegated address) → T.Covers L (L.canonicalizeDelegated address)
  others : ∀ asking, L.resolvePrincipal call.extensions = .ok asking → asking.id ≠ principal →
    ∀ address ∈ sources call, T.Names (L.canonicalizeDelegated address) →
      L.isAllowed policy asking.id .Read (some (L.canonicalizeDelegated address)) = false
  body : ∀ path, bodyOf call = some (.LocalFile path) → ¬T.path <+: path

/-- What the layer passes on stays outside a subtree that the principal may not read. -/
theorem Asks.outside {principal : String} {T : Subtree} (hdenied : Denies L policy principal T)
    (h : Asks L policy principal T call) {asking : ResolvedPrincipal}
    (hasking : L.resolvePrincipal call.extensions = .ok asking) (hpasses : L.Passes policy asking call inner) :
    Outside T.path inner where
  source := by
    intro address haddress path hpath hunder
    obtain ⟨⟨outer, houter, rfl⟩, hallowed⟩ := allowed_of_sources hpasses haddress
    have hnames : T.Names (L.canonicalizeDelegated outer) := ⟨path, hpath, hunder⟩
    by_cases hown : asking.id = principal
    · have hno := hdenied outer (h.own asking hasking hown outer houter hnames)
      rw [← hown, hallowed] at hno
      cases hno
    · have hno := h.others asking hasking hown outer houter hnames
      rw [hallowed] at hno
      cases hno
  body path hpath := h.body path (body_of_passes hpasses ▸ hpath)

/-- What the host and the layers do for such a request keeps the subtree to itself. -/
theorem upholds_request {ι : Type} {t : ι} {principal : String} {T : Subtree} (hdenied : Denies L policy principal T)
    (h : Asks L policy principal T call) :
    (upkeep ι T.path).Upholds t (fun _ => True) (request L B policy call) := by
  let good : (a : Act Payload) → a.Answer → Prop
    | .load, loaded => loaded = policy
    | .call inner, r => ∀ answer, r = .ok answer → ∀ payload ∈ handedBack inner answer, payload.Harmless T.path
    | .reload, _ => True
  have hbeneath : ∀ (history : History (Act.Answer (δ := Payload))) (a : Act Payload), (∀ x ∈ history, good x.1 x.2) →
      L.Permits (.request call) history a → (upkeep ι T.path).Upholds t (good a) (beneath B policy a) := by
    intro history a hgood hpermits
    cases a with
    | load => rfl
    | reload => exact hpermits.elim
    | call inner =>
      obtain ⟨loaded, asking, rfl, hasking, hpasses⟩ := hpermits
      obtain rfl : loaded = policy := hgood _ (mem_singleton_self _)
      exact upholds_serve B (h.outside hdenied hasking hpasses)
  refine (upholds_handle hbeneath (keeps_handedBack call) (fun _ hx => nomatch hx)).bind fun value hvalue => ?_
  obtain ⟨history, hgood, hpost⟩ := hvalue
  cases value with
  | error error => exact upholds_pure trivial
  | ok answer =>
    dsimp only
    split
    next payload asking hpayload _ =>
      obtain ⟨inner, answer', hmem, hinner⟩ := hpost answer rfl payload hpayload
      exact upholds_host (hgood _ hmem answer' rfl payload hinner)
    · exact upholds_pure trivial

section Runs

variable {ι : Type} [DecidableEq ι]

/-- Nobody is in a request, and each file is marked with the paths at which it is stored. -/
structure Starts (s : Threads ι World Sys.Answer) : Prop where
  idle : ∀ t, s.progs t = .ret
  received : s.shared.received = []
  marked : ∀ place inode node, (place, .file inode) ∈ s.shared.disk.entries.rows →
    s.shared.disk.inodes.get inode = some node → place ∈ node.content.origins

/-- No file of the subtree has another name outside it. -/
structure StartsApart (T : Subtree) (s : Threads ι World Sys.Answer) : Prop extends Starts s where
  apart : s.shared.disk.Confined T.path

variable (L B policy) in
/-- One step: a request starts, or a call of the system is answered. -/
def step (s : Threads ι World Sys.Answer) (l : Event ι (Call Payload) Sys.Answer) :
    Option (Threads ι World Sys.Answer) :=
  s.step exec (fun call => (request L B policy call).thread) l

variable (L policy) in
/-- The step calls the system directly, or starts such a request. -/
def Meets (principal : String) (T : Subtree) (s : Threads ι World Sys.Answer) (l : Event ι (Call Payload) Sys.Answer) :
    Prop :=
  (upkeep ι T.path).discipline.Allows s l ∧ l.Asks (Asks L policy principal T)

/-- Where nothing moves what is above the subtree, no link leads into it and no request gets at it by another
name, a principal whom the policy denies reading there receives nothing of what was stored there. -/
theorem denied_subtree_unreachable {principal : String} {T : Subtree} (hdenied : Denies L policy principal T)
    {trace : List (Event ι (Call Payload) Sys.Answer)} {s : Threads ι World Sys.Answer}
    (h : Run (StartsApart T) (fun s l s' => step L B policy s l = some s' ∧ Meets L policy principal T s l) trace s) :
    ∀ content, (principal, content) ∈ s.shared.received → ¬content.StoredUnder T.path := by
  have hinv : Withheld T.path s.shared :=
    run (K := upkeep ι T.path) (fun t call hcall => upholds_request hdenied hcall)
      (fun s hs => ⟨⟨hs.apart, by simp [hs.received]⟩, hs.idle⟩) h
  exact fun content hcontent => hinv.received _ hcontent

end Runs

/-! ### A directory moved away -/

/-- A `file:` address. -/
def fileAddress (path : String) (h : (⟨FILE, true, [], none, none, none, utf8 path, none, none⟩ : Parts).WellFormed) :
    Url :=
  ⟨⟨FILE, true, [], none, none, none, utf8 path, none, none⟩, h⟩

/-- `file:///data/private`, which nobody may read. -/
def privateTree : Subtree := ⟨fileAddress "/data/private" (by decide), [utf8 "data", utf8 "private"], by decide +kernel⟩

/-- Everything is allowed but to read there. -/
def hiddenPolicy : Policy :=
  ⟨[⟨utf8 "open", .Allow, [star], none, none, none, 0⟩,
    ⟨utf8 "private", .Deny, [star], some [.Read], some privateTree.address, some (utf8 "file:///data/private"), 1⟩],
    none⟩

/-- The rule with the prefix outranks the one without. -/
theorem denies_private : Denies anonymousLayer hiddenPolicy "anonymous" privateTree := by
  intro address hcovers
  generalize hcanonical : anonymousLayer.canonicalizeDelegated address = u at hcovers
  have hfixed : canonicalize reference u = u := hcanonical ▸ canonicalize_idem reference_lawful address
  have hboth : hiddenPolicy.rules.filter (fun rule => rule.matches .ascii false (utf8 "anonymous") .Read (some u)) =
      hiddenPolicy.rules := by
    refine filter_eq_self.mpr fun rule hrule => matches_iff.mpr ?_
    rcases mem_cons.mp hrule with rfl | hrule
    · exact ⟨by decide, nofun, .inl rfl⟩
    · obtain rfl := mem_singleton.mp hrule
      refine ⟨by decide, ?_, .inr ⟨_, _, rfl, rfl, hcovers⟩⟩
      rintro _ ⟨⟩
      decide
  have hdeny : hiddenPolicy.matchingRule .ascii false reference (utf8 "anonymous") .Read (some u) =
      hiddenPolicy.rules.getLast? := by
    simp only [Policy.matchingRule, Option.map_some, hfixed, hboth]
    decide +kernel
  change (hiddenPolicy.evaluate .ascii false reference (utf8 "anonymous") .Read (some u)).allow = false
  rw [Policy.evaluate, hdeny]
  rfl

/-- `/data/private/x` and `/data/y`. -/
def smallDisk : Disk where
  entries := ⟨[([utf8 "data"], .directory), ([utf8 "data", utf8 "private"], .directory),
    ([utf8 "data", utf8 "private", utf8 "x"], .file 0), ([utf8 "data", utf8 "y"], .file 1)], by decide⟩
  inodes := ⟨[(0, ⟨⟨utf8 "secret", [[utf8 "data", utf8 "private", utf8 "x"]]⟩, 1, false⟩),
    (1, ⟨⟨utf8 "plain", [[utf8 "data", utf8 "y"]]⟩, 1, false⟩)], by decide⟩

/-- A `rename` without conditions. -/
def renameOf (source destination : Url) : Call Payload :=
  .data (.rename ⟨.empty, source, destination, .request ⟨none, none, none, .Overwrite, [], false⟩ (.Bytes [])⟩)

/-- A `read` of the whole object. -/
def readOf (address : Url) : Call Payload :=
  .data (.addressed .read ⟨.empty, address, .request ⟨none, none, none, .Overwrite, [], false⟩ (.Bytes [])⟩)

/-- The calls of the system for a `read` of a file, and for what the host does with it. -/
def reading (path : Path) (content : Content) : List (Event Unit (Call Payload) Sys.Answer) :=
  [.act () (.metadata path) (.ok ⟨.file, content.bytes.length, 1, false⟩), .act () (.read path) (.ok content),
    .act () (.receive "anonymous" content) ()]

/-- `/data` becomes `/moved`, and then `/moved/private/x` is read. -/
def movingAway : List (Event Unit (Call Payload) Sys.Answer) :=
  [.call () (renameOf (fileAddress "/data" (by decide)) (fileAddress "/moved" (by decide))),
    .act () (.lock [utf8 "data"]) (), .act () (.lock [utf8 "moved"]) (),
    .act () (.rename [utf8 "data"] [utf8 "moved"]) (.ok ()),
    .act () (.unlock [utf8 "moved"]) (), .act () (.unlock [utf8 "data"]) (),
    .call () (readOf (fileAddress "/moved/private/x" (by decide)))] ++
  reading [utf8 "moved", utf8 "private", utf8 "x"] ⟨utf8 "secret", [[utf8 "data", utf8 "private", utf8 "x"]]⟩

def smallStart : Threads Unit World Sys.Answer := .idle ⟨smallDisk, [], []⟩

theorem starts_small : StartsApart privateTree smallStart := by
  have hrows : ∀ place inode, (place, .file inode) ∈ smallDisk.entries.rows →
      (place, inode) = ([utf8 "data", utf8 "private", utf8 "x"], 0) ∨
        (place, inode) = ([utf8 "data", utf8 "y"], 1) := by
    intro place inode hrow
    simpa [smallDisk] using hrow
  refine ⟨⟨fun _ => rfl, rfl, fun place inode node hrow hnode => ?_⟩, fun place inode node hrow hnode hstored => ?_⟩
  · rcases hrows place inode hrow with heq | heq
    · cases heq
      obtain rfl : (⟨⟨utf8 "secret", [[utf8 "data", utf8 "private", utf8 "x"]]⟩, 1, false⟩ : Inode) = node :=
        Option.some.inj hnode
      exact mem_singleton_self _
    · cases heq
      obtain rfl : (⟨⟨utf8 "plain", [[utf8 "data", utf8 "y"]]⟩, 1, false⟩ : Inode) = node := Option.some.inj hnode
      exact mem_singleton_self _
  · rcases hrows place inode hrow with heq | heq
    · cases heq
      exact ⟨[utf8 "x"], rfl⟩
    · cases heq
      obtain rfl : (⟨⟨utf8 "plain", [[utf8 "data", utf8 "y"]]⟩, 1, false⟩ : Inode) = node := Option.some.inj hnode
      obtain ⟨_, hplace, hunder⟩ := hstored
      obtain rfl := mem_singleton.mp hplace
      exact absurd hunder (by decide)

/-- A principal who may not read in `file:///data/private` renames the directory above, and reads what was
stored there under its new name. Each request is allowed. -/
theorem read_moved_away :
    Denies anonymousLayer hiddenPolicy "anonymous" privateTree ∧
      ∃ s, Run (StartsApart privateTree)
        (fun s l s' => step anonymousLayer ⟨[], id⟩ hiddenPolicy s l = some s') movingAway s ∧
        ∃ content, ("anonymous", content) ∈ s.shared.received ∧ content.StoredUnder privateTree.path := by
  refine ⟨denies_private, ?_⟩
  obtain ⟨s, hrun, hreceived⟩ : ∃ s, Run (StartsApart privateTree)
      (fun s l s' => step anonymousLayer ⟨[], id⟩ hiddenPolicy s l = some s') movingAway s ∧
      decide (s.shared.received = [("anonymous", ⟨utf8 "secret", [[utf8 "data", utf8 "private", utf8 "x"]]⟩)]) = true :=
    Run.of_any (fun _ _ _ hstep => hstep) starts_small (by decide +kernel)
  refine ⟨s, hrun, _, of_decide_eq_true hreceived ▸ mem_singleton_self _, _, mem_singleton_self _, by decide⟩

/-- `/data/y` is read. -/
def readingOutside : List (Event Unit (Call Payload) Sys.Answer) :=
  .call () (readOf (fileAddress "/data/y" (by decide))) :: reading [utf8 "data", utf8 "y"]
    ⟨utf8 "plain", [[utf8 "data", utf8 "y"]]⟩

theorem asks_outside : Asks anonymousLayer hiddenPolicy "anonymous" privateTree
    (readOf (fileAddress "/data/y" (by decide))) := by
  have hnot : ¬privateTree.Names (anonymousLayer.canonicalizeDelegated (fileAddress "/data/y" (by decide))) := by
    rintro ⟨path, hpath, hunder⟩
    have hy : filePath (anonymousLayer.canonicalizeDelegated (fileAddress "/data/y" (by decide))) =
        .ok [utf8 "data", utf8 "y"] := by decide +kernel
    cases hy.symm.trans hpath
    exact absurd hunder (by decide)
  refine ⟨fun _ _ _ address haddress hnames => ?_, fun _ _ _ address haddress hnames => ?_,
    fun _ hbody => nomatch hbody⟩
  · obtain rfl := mem_singleton.mp haddress
    exact absurd hnames hnot
  · obtain rfl := mem_singleton.mp haddress
    exact absurd hnames hnot

/-- The event acts directly, if it acts. -/
def actsDirectly (w : World) : Event Unit (Call Payload) Sys.Answer → Bool
  | .act _ a _ => decide (a.Direct privateTree.path w)
  | _ => true

/-- Beside the subtree, the principal reads what is there. -/
theorem denied_subtree_unreachable_outside :
    ∃ s : Threads Unit World Sys.Answer, ("anonymous", ⟨utf8 "plain", [[utf8 "data", utf8 "y"]]⟩) ∈ s.shared.received ∧
      ∀ content, ("anonymous", content) ∈ s.shared.received → ¬content.StoredUnder privateTree.path := by
  obtain ⟨s, hrun, hreceived⟩ : ∃ s, Run (StartsApart privateTree)
      (fun s l s' => step anonymousLayer ⟨[], id⟩ hiddenPolicy s l = some s' ∧
        (upkeep Unit privateTree.path).discipline.Allows s l) readingOutside s ∧
      decide (("anonymous", ⟨utf8 "plain", [[utf8 "data", utf8 "y"]]⟩) ∈ s.shared.received) = true := by
    refine Run.of_any (f := fun s l =>
      if actsDirectly s.shared l then
        step anonymousLayer ⟨[], id⟩ hiddenPolicy s l else none) (fun s l s' hstep => ?_) starts_small
      (by decide +kernel)
    split_ifs at hstep with hdirect
    refine ⟨hstep, ?_⟩
    cases l with
    | act t a r => exact (of_decide_eq_true hdirect : a.Direct privateTree.path s.shared)
    | _ => trivial
  have hmeets : Run (StartsApart privateTree) (fun s l s' =>
      step anonymousLayer ⟨[], id⟩ hiddenPolicy s l = some s' ∧
        Meets anonymousLayer hiddenPolicy "anonymous" privateTree s l) readingOutside s := by
    refine hrun.imp fun _ l _ hl hstep => ⟨hstep.1, hstep.2, ?_⟩
    rcases mem_cons.mp hl with rfl | hl
    · exact asks_outside
    · simp only [reading, mem_cons, not_mem_nil, or_false] at hl
      rcases hl with rfl | rfl | rfl <;> trivial
  exact ⟨s, of_decide_eq_true hreceived, denied_subtree_unreachable denies_private hmeets⟩

end OvStorage.Files
