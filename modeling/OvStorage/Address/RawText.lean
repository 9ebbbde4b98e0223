import OvStorage.Address.Canonical

/-!
# Addresses as written

The parser rewrites what it reads, and some of what it rewrites moves the address to
another node. The predicates of `ovstorage-layer/src/address.rs` that find this out read
the text before the parse: `parsing_preserves_authority` and `parsing_preserves_node`,
over the raw scans `raw_authority` and `raw_path`.
-/

namespace OvStorage.Address

open SegList

/-- `scheme_folds_backslash`: the special schemes, in any letter case. -/
def schemeFoldsBackslash (scheme : Bytes) : Bool := SPECIAL.any fun special => scheme.map toAsciiLowercase == special

/-- What the parser deletes: a tab, a line feed or a carriage return anywhere, a control or a
space at either end. -/
def trimmedByParser (raw : Bytes) : Bool :=
  raw.any (fun b => b == 0x09 || b == 0x0A || b == 0x0D) || raw.head?.any (· ≤ 0x20) || raw.getLast?.any (· ≤ 0x20)

/-- The bytes that end an authority: `/`, `?` and `#`. -/
def endsAuthority (b : UInt8) : Bool := b == slash || b == question || b == hash

/-- `raw_authority`, in `address.rs` and, the same text, in `rules.rs`. -/
def rawAuthority (raw : Bytes) : Option Bytes := do
  let (_, rest) ← splitOnce colon raw
  let afterSlashes ← rest.dropPrefix? [slash, slash]
  some (afterSlashes.takeWhile fun b => !endsAuthority b)

/-- `authority.rsplit_once('@').map_or(authority, |(_, host_port)| host_port)`. -/
def hostPortRegion (authority : Bytes) : Bytes := (authority.reverse.takeWhile (· != atSign)).reverse

/-- What `raw_path` could make of a raw text. -/
inductive RawPath
  | Path (path : Bytes)
  | Empty
  | Unlocatable
deriving DecidableEq

/-- `path.split(['?', '#']).next()`. -/
def beforeQuery (raw : Bytes) : Bytes := raw.takeWhile fun b => !(b == question || b == hash)

/-- `raw_path`. -/
def rawPath (raw : Bytes) : RawPath :=
  match splitOnce colon raw with
  | none => .Unlocatable
  | some (_, rest) =>
    match rest.dropPrefix? [slash, slash] with
    | none => .Unlocatable
    | some afterSlashes =>
      let path := afterSlashes.dropWhile fun b => !endsAuthority b
      if path.head? = some slash then .Path (beforeQuery path) else .Empty

/-- `backslash_decides_authority`. -/
def backslashDecidesAuthority : Bytes → Bool
  | first :: second :: afterSeparators =>
    let isSeparator := fun b : UInt8 => b == slash || b == backslash
    if !isSeparator first || !isSeparator second then false
    else if first = backslash ∨ second = backslash then true
    else (afterSeparators.dropWhile fun b => !(endsAuthority b || b == backslash)).head? = some backslash
  | _ => false

section Predicates

variable (U : UrlCrate)

/-- `parsing_preserves_authority`. -/
def parsingPreservesAuthority (raw : Bytes) : Bool :=
  if trimmedByParser raw then false
  else if (splitOnce colon raw).any fun (scheme, rest) => schemeFoldsBackslash scheme && backslashDecidesAuthority rest
  then false
  else
    match rawAuthority raw, U.parse raw with
    | none, .ok parsed => parsed.host.isNone
    | none, .error _ => true
    | some _, .error _ => true
    | some authority, .ok parsed =>
      if authority = [] then parsed.host.isNone
      else if parsed.host.isSome then true
      else (percentDecode authority).map toAsciiLowercase == utf8 "localhost"

/-- `parsing_preserves_node`. -/
def parsingPreservesNode (raw : Bytes) : Bool :=
  if trimmedByParser raw then false
  else if (splitOnce colon raw).any fun (scheme, _) =>
      schemeFoldsBackslash scheme && (beforeQuery raw).contains backslash
  then false
  else if (rawAuthority raw).any fun authority => (hostPortRegion authority).contains backslash then false
  else if !parsingPreservesAuthority U raw then false
  else
    match rawPath raw with
    | .Path path => !(path.splitOn slash).any fun segment =>
        percentDecode segment == [dot] || percentDecode segment == [dot, dot]
    | .Empty => true
    | .Unlocatable =>
      match U.parse raw with
      | .ok url => url.asStr == raw
      | .error _ => false

end Predicates

end OvStorage.Address
