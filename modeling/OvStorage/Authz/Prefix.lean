import OvStorage.Address.Node
import OvStorage.Address.RawText
import OvStorage.Authz.Glob
import OvStorage.Lib.Validate

/-!
# Policy prefixes

`parse_prefix` of `ovstorage-authz-policy/src/rules.rs`: the guards a prefix of the policy
document has to pass before it becomes the scope of a rule. They read the prefix as
written, because the parser has resolved what they look for.
-/

namespace OvStorage.Authz

open Address SegList Validate

/-! ### The code -/

/-- A URL component that a configuration address may not carry. -/
inductive ConfigComponent
  | Query
  | Fragment
deriving DecidableEq

/-- `refused_config_component`: whichever of `?` and `#` comes first. -/
def refusedConfigComponent (text : Bytes) : Option ConfigComponent :=
  text.findSome? fun byte =>
    if byte = question then some .Query else if byte = hash then some .Fragment else none

/-- `raw_prefix_path`. -/
def rawPrefixPath (pre : Bytes) : Option Bytes :=
  match splitOnce colon pre with
  | none => none
  | some (_, rest) =>
    match rest.dropPrefix? [slash, slash] with
    | some afterSlashes =>
      let path := afterSlashes.dropWhile fun b => !endsAuthority b
      if path.head? = some slash then some (beforeQuery path) else none
    | none => some (beforeQuery rest)

/-- The segments `resolving_prefix_segment` looks at: decoded as a whole, then split. -/
def writtenSegments (scheme path : Bytes) : List Bytes :=
  let decoded := percentDecode path
  let decoded := if scheme.map toAsciiLowercase = FILE
    then decoded.map fun b => if b = backslash then slash else b else decoded
  decoded.splitOn slash

/-- The loop of `resolving_prefix_segment`; `first` at the first segment. -/
def resolvingSegment : Bool → List Bytes → Option String
  | _, [] => none
  | first, segment :: segments =>
    if segment = [dot] then some "."
    else if segment = [dot, dot] then some ".."
    else if segment = [] ∧ first = false ∧ segments ≠ [] then some "empty"
    else resolvingSegment false segments

/-- `resolving_prefix_segment`. -/
def resolvingPrefixSegment (pre : Bytes) : Option String :=
  match splitOnce colon pre, rawPrefixPath pre with
  | some (scheme, _), some path => resolvingSegment true (writtenSegments scheme path)
  | _, _ => none

/-- The escaped separators of the scheme. -/
def escapedSeparators (scheme : Bytes) : List Bytes :=
  if scheme.map toAsciiLowercase = FILE then [utf8 "%2f", utf8 "%5c"] else [utf8 "%2f"]

/-- A refusal of the rule. -/
def refusal (id : Bytes) (text : String) : Error :=
  ⟨.InvalidArgument, utf8 "authz policy rule '" ++ id ++ utf8 "'" ++ utf8 text⟩

/-- `parse_prefix`. -/
def parsePrefix (U : UrlCrate) (id pre : Bytes) : Except Error (Option Url) :=
  if pre = [star] then .ok none
  else do
    refuseIf (pre == []) (refusal id " prefix must not be empty")
    refuseIf (trimmedByParser pre) (refusal id
      (" has leading or trailing whitespace in its prefix, " ++
       "or a tab, newline or carriage return inside it; the URL parser removes those " ++
       "before reading the scheme and the path, so the scope it covers is not the one " ++
       "it spells. Write the prefix without them"))
    let url ← (addressParse U pre).mapError fun error =>
      { refusal id " has an invalid prefix: " with
        message := (refusal id " has an invalid prefix: ").message ++ error.message }
    refuseSome (refusedConfigComponent pre) fun
      | .Query => refusal id
        (" has a prefix carrying a query; authorization is " ++
         "decided on scheme, authority and path, so a rule on a path already covers " ++
         "every version of it")
      | .Fragment => refusal id
        (" has a prefix carrying a fragment; a fragment is " ++
         "never sent to a server, so the rule would silently widen to the whole " ++
         "subtree")
    refuseIf (schemeFoldsBackslash url.scheme && pre.contains backslash) (refusal id
      (" has a prefix using `\\` as a path separator; " ++
       "write it with `/`, which is the only form the scope checks can read"))
    refuseIf ((rawAuthority pre).any fun authority => (hostPortRegion authority).contains backslash) (refusal id
      (" has a `\\` between its scheme and the start of its " ++
       "path; the URL parser ends the authority there while the scope checks do not, " ++
       "so the host and path it resolves to are not the ones it spells. Write the " ++
       "authority and the path separated by `/`"))
    refuseIf ((U.parse pre).toOption.any fun unresolved =>
        (rawPrefixPath pre).isNone && unresolved.path.any (· != slash)) (refusal id
      (" separates its authority from its path with a " ++
       "character other than '/', so the scope it covers cannot be read from the " ++
       "rule as written; a '\\' directly after the host or port does this. Write " ++
       "the authority and the path separated by '/'"))
    refuseSome (resolvingPrefixSegment pre) fun segment => refusal id
      (" has a prefix containing a '" ++ segment ++ ("' path " ++
       "segment, so the scope it covers is not the one it spells; write the " ++
       "resolved scope"))
    refuseSome ((escapedSeparators url.scheme).find? fun needle =>
        (find needle (((rawPrefixPath pre).getD []).map toAsciiLowercase)).isSome) fun found =>
      { refusal id " has a prefix containing an escaped separator ('" with
        message := (refusal id " has a prefix containing an escaped separator ('").message ++
          (if found = utf8 "%2f" then utf8 "%2F" else utf8 "%5C") ++
          utf8 ("'), so the scope it covers is not the one it spells — the matcher " ++
            "decodes it into a real path separator; write the resolved scope") }
    .ok (some url)

/-! ### What acceptance means -/

/-- The guards a prefix passes on its way to the scope `url`. -/
structure Accepts (U : UrlCrate) (pre : Bytes) (url : Url) : Prop where
  ne_star : pre ≠ [star]
  ne_nil : pre ≠ []
  untrimmed : trimmedByParser pre = false
  parsed : addressParse U pre = .ok url
  plain : refusedConfigComponent pre = none
  folded : (schemeFoldsBackslash url.scheme && pre.contains backslash) = false
  authority : ((rawAuthority pre).any fun authority => (hostPortRegion authority).contains backslash) = false
  located : ((U.parse pre).toOption.any fun unresolved =>
    (rawPrefixPath pre).isNone && unresolved.path.any (· != slash)) = false
  resolved : resolvingPrefixSegment pre = none
  unescaped : ((escapedSeparators url.scheme).find? fun needle =>
    (find needle (((rawPrefixPath pre).getD []).map toAsciiLowercase)).isSome) = none

variable {U : UrlCrate} {pre id : Bytes}

theorem parsePrefix_eq_none : parsePrefix U id pre = .ok none ↔ pre = [star] := by
  unfold parsePrefix
  by_cases h : pre = [star]
  · rw [if_pos h]
    exact iff_of_true rfl h
  · rw [if_neg h]
    refine iff_of_false ?_ h
    simp only [bind_eq_ok, not_exists, not_and]
    intros
    simp

theorem parsePrefix_eq_some {url : Url} : parsePrefix U id pre = .ok (some url) ↔ Accepts U pre url := by
  unfold parsePrefix
  by_cases h : pre = [star]
  · rw [if_pos h]
    refine iff_of_false (by simp) fun ha => ha.ne_star h
  · rw [if_neg h]
    simp only [bind_eq_ok, refuseIf_eq_ok, refuseSome_eq_ok, mapError_eq_ok]
    constructor
    · rintro ⟨-, h1, -, h2, u, h3, -, h4, -, h5, -, h6, -, h7, -, h8, -, h9, hu⟩
      obtain rfl : u = url := Option.some.inj (Except.ok.inj hu)
      exact ⟨h, by simpa using h1, h2, h3, h4, h5, h6, h7, h8, h9⟩
    · rintro ⟨-, h1, h2, h3, h4, h5, h6, h7, h8, h9⟩
      exact ⟨(), by simpa using h1, (), h2, url, h3, (), h4, (), h5, (), h6, (), h7, (), h8, (), h9, rfl⟩

/-- The id only words the refusal. -/
theorem parsePrefix_id {o : Option Url} (h : parsePrefix U id pre = .ok o)
    (id' : Bytes) : parsePrefix U id' pre = .ok o := by
  cases o with
  | none => exact parsePrefix_eq_none.2 (parsePrefix_eq_none.1 h)
  | some url => exact parsePrefix_eq_some.2 (parsePrefix_eq_some.1 h)

end OvStorage.Authz
