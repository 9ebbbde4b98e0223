/-!
# The errors of the layers

`ErrorCode` with the buckets that say which of the codes may be retried, and `Error` with its code
and its text, before `Error::new` redacts it.
-/

namespace OvStorage.Layer

/-- `ErrorCode`. -/
inductive ErrorCode where
  | NotFound
  | AlreadyExists
  | PermissionDenied
  | PreconditionFailed
  | Conflict
  | DirectoryNotEmpty
  | Unsupported
  | InvalidArgument
  | IncompatibleType
  | Locked
  | Cancelled
  | DeadlineExceeded
  | Transient
  | ResourceExhausted
  | IntegrityFailure
  | Internal
  | BrokerUnavailable
  | BrokerRequired
  | RedirectExpired
  | PolicyEpochStale
  | AuthorizationLeaseExpired
  | CacheCorrupt
  | StagingExpired
  | CommitAmbiguous
  | CacheLockContention
  | StateRootUnavailable
  | NetworkFilesystemRefused
  | ObjectModified
  | NoRoute
  | RouteConflict
  | NotConfigured
  | AliasChainTooLong
  | CredentialExpired
  | CredentialUnavailable
  | AuthRequired
  | AuthCancelled
  | AuthExpired
  | ContentMismatch
  | ContentChecksumMismatch
  | PluginRejected
  | PartialCompletion
deriving DecidableEq

/-- `ErrorBucket`. -/
inductive ErrorBucket where
  | NotFound
  | Permission
  | Precondition
  | Invalid
  | Unsupported
  | Transient
  | ResourceExhausted
  | Cancelled
  | Internal
deriving DecidableEq

/-- `bucket`. -/
def ErrorCode.bucket : ErrorCode → ErrorBucket
  | .NotFound | .NoRoute | .NotConfigured => .NotFound
  | .PermissionDenied | .PluginRejected | .CredentialExpired | .CredentialUnavailable | .AuthRequired
  | .AuthCancelled | .AuthExpired => .Permission
  | .PreconditionFailed | .ObjectModified | .AlreadyExists | .Conflict | .DirectoryNotEmpty | .IncompatibleType
  | .Locked | .RouteConflict | .PolicyEpochStale | .RedirectExpired | .StagingExpired | .BrokerRequired
  | .StateRootUnavailable | .ContentMismatch | .ContentChecksumMismatch => .Precondition
  | .InvalidArgument | .AliasChainTooLong => .Invalid
  | .Unsupported => .Unsupported
  | .Transient | .BrokerUnavailable | .DeadlineExceeded | .CacheLockContention | .AuthorizationLeaseExpired =>
    .Transient
  | .ResourceExhausted => .ResourceExhausted
  | .Cancelled => .Cancelled
  | .Internal | .IntegrityFailure | .CacheCorrupt | .CommitAmbiguous | .PartialCompletion | .NetworkFilesystemRefused =>
    .Internal

/-- `ErrorBucket::retryable`. -/
def ErrorBucket.retryable : ErrorBucket → Bool
  | .Transient | .ResourceExhausted => true
  | _ => false

/-- `ErrorCode::retryable`. -/
def ErrorCode.retryable (code : ErrorCode) : Bool := code.bucket.retryable

/-- `Error`, with its code and its message. -/
structure Error where
  code : ErrorCode
  message : String
deriving DecidableEq

/-- The name that `{:?}` gives a code. -/
def ErrorCode.debug : ErrorCode → String
  | .NotFound => "NotFound"
  | .AlreadyExists => "AlreadyExists"
  | .PermissionDenied => "PermissionDenied"
  | .PreconditionFailed => "PreconditionFailed"
  | .Conflict => "Conflict"
  | .DirectoryNotEmpty => "DirectoryNotEmpty"
  | .Unsupported => "Unsupported"
  | .InvalidArgument => "InvalidArgument"
  | .IncompatibleType => "IncompatibleType"
  | .Locked => "Locked"
  | .Cancelled => "Cancelled"
  | .DeadlineExceeded => "DeadlineExceeded"
  | .Transient => "Transient"
  | .ResourceExhausted => "ResourceExhausted"
  | .IntegrityFailure => "IntegrityFailure"
  | .Internal => "Internal"
  | .BrokerUnavailable => "BrokerUnavailable"
  | .BrokerRequired => "BrokerRequired"
  | .RedirectExpired => "RedirectExpired"
  | .PolicyEpochStale => "PolicyEpochStale"
  | .AuthorizationLeaseExpired => "AuthorizationLeaseExpired"
  | .CacheCorrupt => "CacheCorrupt"
  | .StagingExpired => "StagingExpired"
  | .CommitAmbiguous => "CommitAmbiguous"
  | .CacheLockContention => "CacheLockContention"
  | .StateRootUnavailable => "StateRootUnavailable"
  | .NetworkFilesystemRefused => "NetworkFilesystemRefused"
  | .ObjectModified => "ObjectModified"
  | .NoRoute => "NoRoute"
  | .RouteConflict => "RouteConflict"
  | .NotConfigured => "NotConfigured"
  | .AliasChainTooLong => "AliasChainTooLong"
  | .CredentialExpired => "CredentialExpired"
  | .CredentialUnavailable => "CredentialUnavailable"
  | .AuthRequired => "AuthRequired"
  | .AuthCancelled => "AuthCancelled"
  | .AuthExpired => "AuthExpired"
  | .ContentMismatch => "ContentMismatch"
  | .ContentChecksumMismatch => "ContentChecksumMismatch"
  | .PluginRejected => "PluginRejected"
  | .PartialCompletion => "PartialCompletion"

/-- `Display for Error`. -/
def Error.display (error : Error) : String := error.code.debug ++ ": " ++ error.message

end OvStorage.Layer
