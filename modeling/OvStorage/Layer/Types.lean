import OvStorage.Address.Canonical
import OvStorage.Layer.Text
import OvStorage.Lib.Table

/-!
# The values that layers exchange

What `ovstorage-layer/src/types.rs` says of an object, of a change to it and of a redirected transfer.
-/

namespace OvStorage.Layer

open Address

/-! ### Times -/

/-- `SystemTime`, in nanoseconds since the epoch. -/
abbrev SystemTime := ℤ

/-- `duration_since(UNIX_EPOCH)`, or nothing for a time before it. -/
def sinceEpoch (time : SystemTime) : ℕ := time.toNat

/-! ### Checksums -/

/-! ### Objects -/

/-! ### Changes -/

/-- `ChangeKind`. -/
inductive ChangeKind
  | Created
  | Modified
  | Deleted
  | MetadataChanged
deriving DecidableEq

/-- `WatchDirectoryCursor`. -/
abbrev WatchDirectoryCursor := Bytes

/-- `ChangeEvent::Object`. -/
structure ObjectEvent where
  address : Url
  kind : ChangeKind
  etag : Option Bytes
  version : Option Bytes
  size : Option ℕ
  mtime : Option SystemTime
  at' : SystemTime
  cursor : WatchDirectoryCursor
deriving DecidableEq

/-- `ChangeEvent`. -/
inductive ChangeEvent
  | Object (event : ObjectEvent)
  | Lapsed (since : Option SystemTime) (cursor : WatchDirectoryCursor)
deriving DecidableEq

/-! ### Redirects -/

/-! ### Entity tags -/

end OvStorage.Layer
