import OvStorage.Authz.Prefix
import OvStorage.Authz.Rules

/-!
# Loading a policy

`Policy::from_config` of `ovstorage-authz-policy/src/rules.rs`: each rule of the document
is validated on its own, then the document as a whole, first for prefixes whose meaning
an upgrade moved and then for pairs of rules that declaration order would decide between.

## What is proved

* `declaration_order_inert`: what declaration order can and cannot decide.
-/

namespace OvStorage.Authz

open Address SegList Select Validate List

/-! ### The document -/

/-- `TomlPolicyEffect`. -/
inductive TomlPolicyEffect
  | Allow
  | Deny
deriving DecidableEq, Repr

/-- `TomlPolicyRule`. -/
structure TomlPolicyRule where
  id : Option Bytes
  effect : TomlPolicyEffect
  principal : Bytes
  operations : List Bytes
  prefixText : Bytes
deriving DecidableEq

/-- `TomlPolicyConfig`. -/
structure TomlPolicyConfig where
  plugin : Bytes
  decisionTtlMaxSeconds : Option ℕ
  prefixEscapesAreDecoded : Bool
  policy : List TomlPolicyRule

/-- `AUTHZ_POLICY_KIND_TOML`. -/
def AUTHZ_POLICY_KIND_TOML : Bytes := utf8 "ovstorage-authz-toml"

/-! ### One rule -/

/-- The names `operation_from_name` knows. -/
def operationNames : List (String × Operation) :=
  [("stat", .Stat), ("read", .Read), ("write", .Write), ("delete", .Delete), ("list", .List),
    ("list_versions", .ListVersions), ("watch_directory", .WatchDirectory), ("create_directory", .CreateDirectory),
    ("delete_directory", .DeleteDirectory), ("update_metadata", .UpdateMetadata), ("check_access", .CheckAccess),
    ("list_address_roots", .ListAddressRoots), ("list_backend_kinds", .ListBackendKinds),
    ("add_connection", .AddConnection), ("remove_connection", .RemoveConnection),
    ("update_connection_credentials", .UpdateConnectionCredentials), ("list_connections", .ListConnections),
    ("add_alias", .AddAlias), ("remove_alias", .RemoveAlias), ("list_aliases", .ListAliases),
    ("set_address_visibility", .SetAddressVisibility)]

/-- `operation_from_name`. -/
def operationFromName (name : Bytes) : Option Operation :=
  (operationNames.find? fun entry => utf8 entry.1 == name).map Prod.snd

/-- The loop of `parse_operations`. -/
def parseEach (id : Bytes) : List Bytes → Except Error (List Operation)
  | [] => .ok []
  | operation :: operations =>
    match operationFromName operation with
    | none => .error ⟨.InvalidArgument, (refusal id " uses unknown operation '").message ++ operation ++ utf8 "'"⟩
    | some parsed => do
      let rest ← parseEach id operations
      .ok (parsed :: rest)

/-- `parse_operations`: `*` alone stands for every operation. -/
def parseOperations (id : Bytes) (operations : List Bytes) : Except Error (Option (List Operation)) :=
  if operations.contains [star] then
    if operations.length ≠ 1 then .error (refusal id " must use '*' as its only operation") else .ok none
  else do
    let parsed ← parseEach id operations
    .ok (some parsed)

/-- `id.trim().is_empty()`: nothing but `White_Space`, in UTF-8. -/
def isBlank : Bytes → Bool
  | [] => true
  | a :: rest =>
    if 0x09 ≤ a ∧ a ≤ 0x0D ∨ a = 0x20 then isBlank rest
    else
      match rest with
      | b :: rest =>
        if a = 0xC2 ∧ (b = 0x85 ∨ b = 0xA0) then isBlank rest
        else
          match rest with
          | c :: rest =>
            if a = 0xE1 ∧ b = 0x9A ∧ c = 0x80 ∨ a = 0xE2 ∧ b = 0x80 ∧ (0x80 ≤ c ∧ c ≤ 0x8A) ∨
              a = 0xE2 ∧ b = 0x80 ∧ (c = 0xA8 ∨ c = 0xA9 ∨ c = 0xAF) ∨ a = 0xE2 ∧ b = 0x81 ∧ c = 0x9F ∨
              a = 0xE3 ∧ b = 0x80 ∧ c = 0x80 then isBlank rest
            else false
          | [] => false
      | [] => false

/-- The id of a rule; one without an id is named by its place. -/
def ruleId (index : ℕ) (policy : TomlPolicyRule) : Bytes :=
  policy.id.getD (utf8 "rule-" ++ utf8 (Nat.repr (index + 1)))

/-- `!url.username().is_empty() || url.password().is_some()`. -/
def carriesCredentials (url : Url) : Bool := url.username != [] || url.password.isSome

/-- `match policy.effect`. -/
def TomlPolicyEffect.effect : TomlPolicyEffect → Effect
  | .Allow => .Allow
  | .Deny => .Deny

/-- The body of the loop of `from_config`. -/
def loadRule (U : UrlCrate) (index : ℕ) (policy : TomlPolicyRule) : Except Error Rule := do
  let id := ruleId index policy
  refuseIf (isBlank id) ⟨.InvalidArgument, utf8 "authz policy rule id must not be empty"⟩
  refuseIf (policy.principal == []) (refusal id " principal must not be empty")
  refuseIf (policy.operations == []) (refusal id " operations must not be empty")
  let operations ← parseOperations id policy.operations
  let prefixUrl ← parsePrefix U id policy.prefixText
  let effect := policy.effect.effect
  refuseIf (effect == .Allow && prefixUrl.any carriesCredentials) (refusal id
    (" is an allow whose prefix carries credentials. " ++
     "Userinfo is not part of a scope, so this rule covers its path for " ++
     "EVERY credential rather than the one written — on 0.2.0 the matcher " ++
     "compared the credential too, so this is a widening of a live rule. " ++
     "Write the prefix without the credentials to accept that scope, or " ++
     "narrow the rule by path or principal instead"))
  .ok
    { id, effect, principal := policy.principal, operations, prefixUrl
      prefixWritten := if prefixUrl.isSome then some policy.prefixText else none, order := index }

/-! ### The document as a whole -/

/-- `contains_percent_escape`. -/
def containsPercentEscape : Bytes → Bool
  | a :: h :: l :: rest =>
    a == percent && (hexDigit h).isSome && (hexDigit l).isSome || containsPercentEscape (h :: l :: rest)
  | _ => false

/-- `std::ascii::escape_default`. -/
def escapeDefault (byte : UInt8) : Bytes :=
  let lowerHex := fun n : ℕ => UInt8.ofNat (if n < 10 then 0x30 + n else 0x57 + n)
  if byte = 0x09 then utf8 "\\t"
  else if byte = 0x0D then utf8 "\\r"
  else if byte = 0x0A then utf8 "\\n"
  else if byte = 0x27 ∨ byte = 0x22 ∨ byte = backslash then [backslash, byte]
  else if 0x20 ≤ byte ∧ byte < 0x7F then [byte]
  else utf8 "\\x" ++ [lowerHex (byte.toNat / 16), lowerHex (byte.toNat % 16)]

/-- `reject_unacknowledged_escaped_prefixes`. -/
def rejectUnacknowledgedEscapedPrefixes (U : UrlCrate) (C : CaseTable) (fold : Bool) (rules : List (Bytes × Bytes))
    (acknowledged : Bool) : Except Error Unit :=
  if acknowledged then .ok ()
  else
    let affected := rules.filterMap fun (id, pre) =>
      match U.parse pre with
      | .error _ => none
      | .ok plain =>
        if !containsPercentEscape plain.path then none
        else
          let resolved := match addressParse U pre with
            | .error _ => utf8 "<unparseable>"
            | .ok url =>
              match scopeSegments C fold url.toParts with
              | none => utf8 "<unscoped>"
              | some segments => [slash].intercalate (segments.map fun segment => segment.flatMap escapeDefault)
          some (utf8 "'" ++ id ++ utf8 "' now scopes " ++ resolved)
    refuseIf (affected != []) ⟨.InvalidArgument,
      utf8 "authz policy prefixes now scope a different object than they did before: " ++
      (utf8 "; ").intercalate affected ++ utf8
        (". Authorization used to compare the SERIALIZED address and now compares DECODED " ++
         "path components — so any prefix whose serialized form carries a percent-escape " ++
         "has moved, including ones written with no escape at all (`s3://b/pub x` " ++
         "serializes to `s3://b/pub%20x`, so it scoped `pub%20x` and now scopes " ++
         "`pub x`). **A deny written this way has stopped protecting the object it was " ++
         "written for**, and a broader allow above it may now reach that object, so this " ++
         "is refused rather than applied. Compare each rule above against the scope it " ++
         "now resolves to, then set `prefix_escapes_are_decoded = true` at the top of the " ++
         "policy document to accept the new meaning. Rewriting the prefix does NOT avoid " ++
         "this — every spelling of one scope moved together")⟩

/-- `operations_intersect`. -/
def operationsIntersect : Option (List Operation) → Option (List Operation) → Bool
  | some a, some b => a.any b.contains
  | _, _ => true

/-- `same_spelling`: both are there and equal. -/
def sameSpelling : Option Bytes → Option Bytes → Bool
  | some written, some otherWritten => written == otherWritten
  | _, _ => false

section Conflicts

variable (C : CaseTable) (fold : Bool)

/-- What `reject_co_matching_equal_scopes` refuses in a pair of rules: one scope written in
two ways, and a principal and an operation that both may match. -/
def conflicts (rule other : Rule) : Bool :=
  match rule.prefixUrl, other.prefixUrl with
  | some pre, some otherPre =>
    let widen := rule.effect == .Deny || other.effect == .Deny
    !sameSpelling rule.prefixWritten other.prefixWritten && principalsIntersect rule.principal other.principal &&
      operationsIntersect rule.operations other.operations &&
      match segmentsWithHostSemanticsWidened C pre.toParts fold widen,
        segmentsWithHostSemanticsWidened C otherPre.toParts fold widen with
      | some scope, some otherScope =>
        scope == otherScope && pre.scheme == otherPre.scheme && pre.host == otherPre.host && pre.port == otherPre.port
      | _, _ => false
  | _, _ => false

/-- The refusal of a pair. -/
def conflictError (rule other : Rule) : Error :=
  let eitherCarriesCredentials := rule.prefixUrl.any carriesCredentials || other.prefixUrl.any carriesCredentials
  let principalsAssumed := rule.principal != other.principal && !globMatch rule.principal other.principal &&
    !globMatch other.principal rule.principal
  let principalNote := if principalsAssumed then
      utf8 " Their principal patterns '" ++ rule.principal ++ utf8 "' and '" ++ other.principal ++ utf8
        ("' both carry a wildcard, so they are " ++
         "treated as possibly overlapping rather than shown to; if they cannot in " ++
         "fact both match one principal, that assumption is what brings these two " ++
         "rules together.")
    else []
  let note := if eitherCarriesCredentials then
      utf8 (" At least one carries credentials, which are never part of a scope, so a " ++
        "credential is not what separates them.")
    else []
  ⟨.InvalidArgument,
    utf8 "authz policy rules '" ++ rule.id ++ utf8 "' and '" ++ other.id ++ utf8
      ("' are written differently but resolve to " ++
       "the same scope ('") ++ (rule.prefixUrl.map redactedUrl).getD [] ++ utf8
      ("'), and can decide the same request; ranking cannot " ++
       "tell them apart, so which one wins would depend on declaration order. " ++
       "Compare their two `prefix` values: they differ only in spelling that " ++
       "nothing downstream preserves — a host's case, a default port, a " ++
       "percent-escape, an IPv6 or IDNA form, which the URL parser normalizes; " ++
       "or a trailing slash, userinfo, or letter case in a `file:` deny, which " ++
       "this matcher itself does not distinguish.") ++ note ++ utf8
      (" Delete one, give them " ++
       "genuinely different scopes, or — if a later rule is meant to supersede an " ++
       "earlier one — write both prefixes identically, which is how a deliberate " ++
       "override is expressed") ++ principalNote⟩

/-- `reject_co_matching_equal_scopes`. -/
def rejectCoMatchingEqualScopes : List Rule → Except Error Unit
  | [] => .ok ()
  | rule :: rest => do
    checkAll (fun other => refuseIf (conflicts C fold rule other) (conflictError rule other)) rest
    rejectCoMatchingEqualScopes rest

/-- `Policy::from_config`. -/
def fromConfig (U : UrlCrate) (config : TomlPolicyConfig) : Except Error Policy := do
  refuseIf (config.plugin != AUTHZ_POLICY_KIND_TOML) ⟨.Unsupported,
    utf8 "unsupported authz policy '" ++ config.plugin ++ utf8 "'; expected '" ++ AUTHZ_POLICY_KIND_TOML ++ utf8 "'"⟩
  let escapeGate := config.policy.mapIdx fun index policy => (ruleId index policy, policy.prefixText)
  let rules ← loadAll (loadRule U) 0 config.policy
  rejectUnacknowledgedEscapedPrefixes U C fold escapeGate config.prefixEscapesAreDecoded
  rejectCoMatchingEqualScopes C fold rules
  .ok ⟨rules, config.decisionTtlMaxSeconds⟩

end Conflicts

/-! ### Conflicts -/

variable {U : UrlCrate} {C : CaseTable} {fold : Bool}

variable {rules : List Rule}

/-- An accepted policy has no two rules in conflict. -/
theorem rejectCoMatchingEqualScopes_eq_ok : rejectCoMatchingEqualScopes C fold rules = .ok () ↔
      rules.Pairwise fun rule other => conflicts C fold rule other = false := by
  induction rules with
  | nil => simp [rejectCoMatchingEqualScopes]
  | cons rule rest ih =>
    rw [rejectCoMatchingEqualScopes, bind_eq_ok, pairwise_cons, ← ih]
    constructor
    · rintro ⟨⟨⟩, hrest, h2⟩
      exact ⟨fun other ho => refuseIf_eq_ok.1 (checkAll_eq_ok.1 hrest other ho), h2⟩
    · rintro ⟨h1, h2⟩
      exact ⟨(), checkAll_eq_ok.2 fun other ho => refuseIf_eq_ok.2 (h1 other ho), h2⟩

theorem operationsIntersect_comm (a b : Option (List Operation)) :
    operationsIntersect a b = operationsIntersect b a := by
  cases a with
  | none => cases b <;> rfl
  | some a =>
    cases b with
    | none => rfl
    | some b =>
      rw [Bool.eq_iff_iff]
      simp only [operationsIntersect, any_eq_true, contains_iff_mem]
      exact ⟨fun ⟨x, ha, hb⟩ => ⟨x, hb, ha⟩, fun ⟨x, hb, ha⟩ => ⟨x, ha, hb⟩⟩

variable {rule other : Rule}

/-- When a pair conflicts. -/
theorem conflicts_iff : conflicts C fold rule other = true ↔
      ∃ pre otherPre scope, rule.prefixUrl = some pre ∧ other.prefixUrl = some otherPre ∧
        sameSpelling rule.prefixWritten other.prefixWritten = false ∧
        principalsIntersect rule.principal other.principal = true ∧
        operationsIntersect rule.operations other.operations = true ∧
        segmentsWithHostSemanticsWidened C pre.toParts fold (rule.effect == .Deny || other.effect == .Deny) =
          some scope ∧
        segmentsWithHostSemanticsWidened C otherPre.toParts fold (rule.effect == .Deny || other.effect == .Deny) =
          some scope ∧
        pre.scheme = otherPre.scheme ∧ pre.host = otherPre.host ∧ pre.port = otherPre.port := by
  unfold conflicts
  cases hp : rule.prefixUrl with
  | none => simp
  | some pre =>
    cases ho : other.prefixUrl with
    | none => simp
    | some otherPre =>
      dsimp only
      generalize hx : segmentsWithHostSemanticsWidened C pre.toParts fold
        (rule.effect == .Deny || other.effect == .Deny) = x
      generalize hy : segmentsWithHostSemanticsWidened C otherPre.toParts fold
        (rule.effect == .Deny || other.effect == .Deny) = y
      constructor
      · intro h
        cases x with
        | none => simp at h
        | some scope =>
          cases y with
          | none => simp at h
          | some otherScope =>
            simp only [Bool.and_eq_true, Bool.not_eq_true', beq_iff_eq] at h
            obtain ⟨⟨⟨h1, h2⟩, h3⟩, ⟨⟨h4, h5⟩, h6⟩, h7⟩ := h
            exact ⟨pre, otherPre, scope, rfl, rfl, h1, h2, h3, hx, h4 ▸ hy, h5, h6, h7⟩
      · rintro ⟨_, _, scope, ⟨⟩, ⟨⟩, h1, h2, h3, hs, ht, h5, h6, h7⟩
        rw [← hx, ← hy, hs, ht]
        simp [h1, h2, h3, h5, h6, h7]

/-- The test does not depend on the order of the pair. -/
theorem conflicts_comm (rule other : Rule) : conflicts C fold rule other = conflicts C fold other rule := by
  have hspell : ∀ a b : Option Bytes, sameSpelling a b = sameSpelling b a := by
    intro a b
    cases a <;> cases b <;> simp [sameSpelling, Bool.beq_comm]
  have key : ∀ rule other : Rule, conflicts C fold rule other = true → conflicts C fold other rule = true := by
    intro rule other h
    obtain ⟨pre, otherPre, scope, h1, h2, h3, h4, h5, h6, h7, h8, h9, h10⟩ := conflicts_iff.1 h
    refine conflicts_iff.2 ⟨otherPre, pre, scope, h2, h1, (hspell _ _).trans h3, ?_, ?_, ?_, ?_, h8.symm,
      h9.symm, h10.symm⟩
    · rw [principalsIntersect_comm, h4]
    · rw [operationsIntersect_comm, h5]
    · rw [Bool.or_comm, h7]
    · rw [Bool.or_comm, h6]
  exact Bool.eq_iff_iff.2 ⟨key rule other, key other rule⟩

/-! ### Ties -/

/-- What a rule covers, it covers under a wider comparison. -/
theorem widened_front {pre address : Parts} {effect : Effect} (h : scopeCovers C fold pre address effect = true)
    {widen : Bool} (hw : effect = .Deny → widen = true) :
    ∃ scope target, segmentsWithHostSemanticsWidened C pre fold widen = some scope ∧
      segmentsWithHostSemanticsWidened C address fold widen = some target ∧ scope <+: target := by
  obtain ⟨hscheme, -, -, scope, target, hs, ht, hfront⟩ := scopeCovers_iff.1 h
  cases hd : effect == .Deny with
  | true =>
    rw [hw (by simpa using hd)]
    rw [hd] at hs ht
    exact ⟨scope, target, hs, ht, hfront⟩
  | false =>
    -- an allow compares as written, and the case table can be put over both sides
    rw [hd] at hs ht
    rw [segments_widen pre widen, segments_widen address widen]
    unfold scopeSegments
    rw [hs, ht, hscheme]
    exact ⟨_, _, rfl, rfl, hfront.map _⟩

theorem length_segments {url : Parts} {widen : Bool} {scope : List Bytes}
    (h : segmentsWithHostSemanticsWidened C url fold widen = some scope) :
    ((scopeSegments C fold url).map List.length).getD 0 = scope.length := by
  rw [segments_widen] at h
  obtain ⟨segs, hs, rfl⟩ := Option.map_eq_some_iff.1 h
  rw [hs]
  simp

/-- The written prefix is kept exactly where there is a prefix. -/
def Rule.Written (rule : Rule) : Prop := rule.prefixWritten.isSome = rule.prefixUrl.isSome

variable {operation : Operation} {address : Option Url} {principalId id : Bytes}

/-- Two rules that match one request and tie: no prefix, one spelling, or a conflict. -/
theorem matches_tie (hw : rule.Written) (hw' : other.Written)
    (hm : rule.matches C fold principalId operation address = true)
    (hm' : other.matches C fold principalId operation address = true) (hrank : rule.rank C fold = other.rank C fold) :
    (rule.prefixUrl = none ∧ other.prefixUrl = none) ∨
      (∃ written, rule.prefixWritten = some written ∧ other.prefixWritten = some written) ∨
      conflicts C fold rule other = true := by
  obtain ⟨hsome, hdepth⟩ := Prod.mk.inj (toLex.injective hrank)
  cases hp : rule.prefixUrl with
  | none =>
    rw [hp] at hsome
    exact Or.inl ⟨rfl, by simpa using hsome.symm⟩
  | some pre =>
    rw [hp] at hsome
    obtain ⟨otherPre, ho⟩ := Option.isSome_iff_exists.1 hsome.symm
    refine Or.inr ?_
    obtain ⟨written, hwritten⟩ := Option.isSome_iff_exists.1 (hw.trans (by rw [hp]; rfl))
    obtain ⟨otherWritten, hother⟩ := Option.isSome_iff_exists.1 (hw'.trans (by rw [ho]; rfl))
    by_cases heq : written = otherWritten
    · exact Or.inl ⟨written, hwritten, heq ▸ hother⟩
    · obtain ⟨hg, hops, hcovers⟩ := matches_iff.1 hm
      obtain ⟨hg', hops', hcovers'⟩ := matches_iff.1 hm'
      rw [hp] at hcovers
      rw [ho] at hcovers'
      obtain ⟨_, target, ⟨⟩, rfl, hc⟩ := hcovers.resolve_left (by simp)
      obtain ⟨_, _, ⟨⟩, ⟨⟩, hc'⟩ := hcovers'.resolve_left (by simp)
      obtain ⟨h1, h2, h3, -⟩ := scopeCovers_iff.1 hc
      obtain ⟨h1', h2', h3', -⟩ := scopeCovers_iff.1 hc'
      have hwide : rule.effect = .Deny → (rule.effect == .Deny || other.effect == .Deny) = true := fun h => by simp [h]
      have hwide' : other.effect = .Deny → (rule.effect == .Deny || other.effect == .Deny) = true := fun h => by
        simp [h]
      obtain ⟨scope, segs, hs, ht, hfront⟩ := widened_front hc hwide
      obtain ⟨otherScope, segs', hs', ht', hfront'⟩ := widened_front hc' hwide'
      obtain rfl : segs = segs' := Option.some.inj (ht.symm.trans ht')
      -- two fronts of one list, equally long
      have hlen : scope.length = otherScope.length := by
        rw [← length_segments hs, ← length_segments hs']
        simpa [Rule.prefixSegments, hp, ho] using hdepth
      have hscope : scope = otherScope :=
        (prefix_of_prefix_length_le hfront hfront' hlen.le).eq_of_length hlen
      refine Or.inr (conflicts_iff.2 ⟨pre, otherPre, scope, hp, ho, ?_, principalsIntersect_of_match hg hg', ?_, hs,
        hscope ▸ hs', h1.trans h1'.symm, h2.trans h2'.symm, h3.trans h3'.symm⟩)
      · rw [hwritten, hother]
        simpa [sameSpelling] using heq
      · cases hro : rule.operations with
        | none => rfl
        | some a =>
          cases hoo : other.operations with
          | none => rfl
          | some b =>
            refine any_eq_true.2 ⟨operation, hops a hro, ?_⟩
            simpa using hops' b hoo

/-! ### Rules apart from their place -/

variable {operations : List Bytes}

theorem parseEach_id {parsed : List Operation}
    (h : parseEach id operations = .ok parsed) (id' : Bytes) : parseEach id' operations = .ok parsed := by
  induction operations generalizing parsed with
  | nil => exact h
  | cons operation operations ih =>
    unfold parseEach at h ⊢
    cases ho : operationFromName operation with
    | none => rw [ho] at h; cases h
    | some o =>
      rw [ho] at h
      obtain ⟨rest, hrest, h⟩ := bind_eq_ok.1 h
      exact bind_eq_ok.2 ⟨rest, ih hrest, h⟩

theorem parseOperations_id {parsed : Option (List Operation)}
    (h : parseOperations id operations = .ok parsed) (id' : Bytes) : parseOperations id' operations = .ok parsed := by
  unfold parseOperations at h ⊢
  split at h
  · rename_i hstar
    rw [if_pos hstar]
    split at h
    · cases h
    · rename_i hlen
      rw [if_neg hlen]
      exact h
  · rename_i hstar
    rw [if_neg hstar]
    obtain ⟨rest, hrest, h⟩ := bind_eq_ok.1 h
    exact bind_eq_ok.2 ⟨rest, parseEach_id hrest id', h⟩

variable {policy : TomlPolicyRule} {index : ℕ}

/-- A rule that its place names has an id. -/
theorem isBlank_ruleId {index' : ℕ} (h : isBlank (ruleId index policy) = false) :
    isBlank (ruleId index' policy) = false := by
  unfold ruleId at h ⊢
  cases hid : policy.id with
  | some id => simpa [hid] using h
  | none =>
    rw [Option.getD_none, show utf8 "rule-" = [0x72, 0x75, 0x6C, 0x65, 0x2D] by decide]
    simp [isBlank]

/-- The rule without its id and its place. -/
def Rule.bare (rule : Rule) : Rule := { rule with id := [], order := 0 }

/-- Where a rule stands decides its id and its place, and nothing else about it. -/
theorem loadRule_index (h : loadRule U index policy = .ok rule)
    (index' : ℕ) : loadRule U index' policy = .ok { rule with id := ruleId index' policy, order := index' } := by
  unfold loadRule at h ⊢
  simp only [bind_eq_ok, refuseIf_eq_ok] at h ⊢
  obtain ⟨-, h1, -, h2, -, h3, operations, h4, prefixUrl, h5, -, h6, h7⟩ := h
  refine ⟨(), isBlank_ruleId h1, (), h2, (), h3, operations, parseOperations_id h4 _, prefixUrl, parsePrefix_id h5 _,
    (), h6, ?_⟩
  rw [← Except.ok.inj h7]

/-- What a loaded rule keeps of its prefix. -/
theorem loadRule_written (h : loadRule U index policy = .ok rule) :
    rule.order = index ∧ rule.Written ∧ (rule.prefixUrl = none → policy.prefixText = [star]) ∧
      ∀ written ∈ rule.prefixWritten, policy.prefixText = written := by
  unfold loadRule at h
  simp only [bind_eq_ok] at h
  obtain ⟨-, -, -, -, -, -, operations, -, prefixUrl, hp, -, -, h⟩ := h
  rw [← Except.ok.inj h]
  refine ⟨rfl, ?_, ?_, ?_⟩
  · cases prefixUrl <;> rfl
  · rintro rfl
    exact parsePrefix_eq_none.1 hp
  · cases prefixUrl with
    | none => simp
    | some url => simp

/-- The rule a document entry loads to, wherever it stands. -/
def bareRule (U : UrlCrate) (policy : TomlPolicyRule) : Rule :=
  match loadRule U 0 policy with
  | .ok rule => rule.bare
  | .error _ => ⟨[], .Deny, [], none, none, none, 0⟩

/-- What loading the rules of a document in order gives. -/
structure Loaded (U : UrlCrate) (first : ℕ) (policies : List TomlPolicyRule) (rules : List Rule) : Prop where
  loads : ∀ policy ∈ policies, ∃ rule, loadRule U 0 policy = .ok rule
  bare : rules.map Rule.bare = policies.map (bareRule U)
  first_le : ∀ rule ∈ rules, first ≤ rule.order
  ordered : rules.Pairwise fun rule other => rule.order < other.order
  written : ∀ rule ∈ rules, rule.Written

variable {policies : List TomlPolicyRule}

theorem Loaded.of_loadAll {first : ℕ}
    (h : loadAll (loadRule U) first policies = .ok rules) : Loaded U first policies rules := by
  induction policies generalizing first rules with
  | nil =>
    obtain rfl : [] = rules := Except.ok.inj h
    exact ⟨by simp, rfl, by simp, List.Pairwise.nil, by simp⟩
  | cons policy policies ih =>
    obtain ⟨rule, rest, hrule, hrest, rfl⟩ := loadAll_cons_eq_ok.1 h
    obtain ⟨horder, hwritten, -⟩ := loadRule_written hrule
    have hzero := loadRule_index hrule 0
    have ihrest := ih hrest
    refine ⟨?_, ?_, ?_, ?_, ?_⟩
    · exact forall_mem_cons.2 ⟨⟨_, hzero⟩, ihrest.loads⟩
    · rw [map_cons, map_cons, ihrest.bare, bareRule, hzero]
      rfl
    · refine forall_mem_cons.2 ⟨horder.ge, fun other ho => ?_⟩
      exact (Nat.le_succ first).trans (ihrest.first_le other ho)
    · refine pairwise_cons.2 ⟨fun other ho => ?_, ihrest.ordered⟩
      rw [horder]
      exact ihrest.first_le other ho
    · exact forall_mem_cons.2 ⟨hwritten, ihrest.written⟩

theorem loadAll_of_loads (h : ∀ policy ∈ policies, ∃ rule, loadRule U 0 policy = .ok rule) (first : ℕ) :
    ∃ rules, loadAll (loadRule U) first policies = .ok rules := by
  induction policies generalizing first with
  | nil => exact ⟨[], rfl⟩
  | cons policy policies ih =>
    obtain ⟨⟨rule, hrule⟩, hrest⟩ := forall_mem_cons.1 h
    obtain ⟨rest, hrest⟩ := ih hrest (first + 1)
    exact ⟨_, loadAll_cons_eq_ok.2 ⟨_, rest, loadRule_index hrule first, hrest, rfl⟩⟩

/-- The escape gate asks for each prefix on its own. -/
def Unmoved (U : UrlCrate) (policy : TomlPolicyRule) : Prop :=
  ∀ plain, U.parse policy.prefixText = .ok plain → containsPercentEscape plain.path = false

theorem escapeGate_eq_ok {acknowledged : Bool} : rejectUnacknowledgedEscapedPrefixes U C fold
      (policies.mapIdx fun index policy => (ruleId index policy, policy.prefixText)) acknowledged = .ok () ↔
      acknowledged = true ∨ ∀ policy ∈ policies, Unmoved U policy := by
  unfold rejectUnacknowledgedEscapedPrefixes
  cases acknowledged with
  | true => simp
  | false =>
    simp only [Bool.false_eq_true, if_false, false_or, refuseIf_eq_ok, bne_eq_false_iff_eq, filterMap_eq_nil_iff]
    constructor
    · intro h policy hpolicy plain hplain
      obtain ⟨index, hlt, rfl⟩ := mem_iff_getElem.1 hpolicy
      have hentry := h _ (mem_mapIdx.2 ⟨index, hlt, rfl⟩)
      simp only [hplain] at hentry
      split at hentry
      · rename_i hno
        simpa using hno
      · cases hentry
    · intro h entry hentry
      obtain ⟨index, hlt, rfl⟩ := mem_mapIdx.1 hentry
      cases hplain : U.parse policies[index].prefixText with
      | error e => simp
      | ok plain =>
        have hno := h _ (getElem_mem hlt) plain hplain
        simp [hno]

variable {config : TomlPolicyConfig}

/-- What acceptance of a document means. -/
theorem fromConfig_eq_ok {policy : Policy} : fromConfig C fold U config = .ok policy ↔
      config.plugin = AUTHZ_POLICY_KIND_TOML ∧ loadAll (loadRule U) 0 config.policy = .ok policy.rules ∧
        (config.prefixEscapesAreDecoded = true ∨ ∀ entry ∈ config.policy, Unmoved U entry) ∧
        policy.rules.Pairwise (fun rule other => conflicts C fold rule other = false) ∧
        policy.decisionTtl = config.decisionTtlMaxSeconds := by
  unfold fromConfig
  simp only [bind_eq_ok, refuseIf_eq_ok, bne_eq_false_iff_eq]
  constructor
  · rintro ⟨-, h1, rules, h2, ⟨⟩, h3, ⟨⟩, h4, h5⟩
    cases h5
    exact ⟨h1, h2, escapeGate_eq_ok.1 h3, rejectCoMatchingEqualScopes_eq_ok.1 h4, rfl⟩
  · rintro ⟨h1, h2, h3, h4, h5⟩
    refine ⟨(), h1, policy.rules, h2, (), escapeGate_eq_ok.2 h3, (), rejectCoMatchingEqualScopes_eq_ok.2 h4, ?_⟩
    rw [← h5]

/-! ### Declaration order -/

/-- The verdict, read off the rules apart from their place. -/
theorem allow_eq {policy : Policy} (hpos : policy.rules.Pairwise fun rule other => rule.order < other.order)
    (principalId : Bytes) (operation : Operation) (address : Option Url) :
    (policy.evaluate C fold U principalId operation address).allow =
      (maxByKey (Rule.rank C fold) ((policy.rules.map Rule.bare).filter fun rule =>
        rule.matches C fold principalId operation (address.map (canonicalize U)))).any (·.effect == .Allow) := by
  have hfilter : (policy.rules.map Rule.bare).filter (fun rule =>
      rule.matches C fold principalId operation (address.map (canonicalize U))) =
      (policy.rules.filter fun rule =>
        rule.matches C fold principalId operation (address.map (canonicalize U))).map Rule.bare := filter_map
  have hmax : policy.matchingRule C fold U principalId operation address =
      maxByKey (Rule.rank C fold) (policy.rules.filter fun rule =>
        rule.matches C fold principalId operation (address.map (canonicalize U))) :=
    maxByKey_lex (hpos.filter _)
  have hbare : ∀ l : List Rule, maxByKey (Rule.rank C fold) (l.map Rule.bare) =
      (maxByKey (Rule.rank C fold) l).map Rule.bare := fun l => maxByKey_map l
  rw [hfilter, hbare, ← hmax]
  unfold Policy.evaluate
  cases policy.matchingRule C fold U principalId operation address with
  | none => rfl
  | some rule =>
    cases he : rule.effect with
    | Allow => simp [Rule.bare, he]
    | Deny => simp [Rule.bare, he]

/-- In an accepted document, entries whose rules match one request and tie have one prefix
text. -/
theorem tie_prefixText {policy : Policy} (h : fromConfig C fold U config = .ok policy) :
    ∀ x ∈ config.policy, ∀ y ∈ config.policy,
      (bareRule U x).matches C fold principalId operation address = true →
      (bareRule U y).matches C fold principalId operation address = true →
      (bareRule U x).rank C fold = (bareRule U y).rank C fold → x.prefixText = y.prefixText := by
  obtain ⟨-, hload, -, hpair, -⟩ := fromConfig_eq_ok.1 h
  have loaded := Loaded.of_loadAll hload
  have hbare : (policy.rules.map Rule.bare).Pairwise fun rule other => conflicts C fold rule other = false :=
    pairwise_map.2 hpair
  rw [loaded.bare, pairwise_map] at hbare
  have htie : config.policy.Pairwise fun x y =>
      (bareRule U x).matches C fold principalId operation address = true →
      (bareRule U y).matches C fold principalId operation address = true →
      (bareRule U x).rank C fold = (bareRule U y).rank C fold → x.prefixText = y.prefixText := by
    refine hbare.imp_of_mem fun {x y} hx hy hno hmx hmy hrank => ?_
    obtain ⟨rule, hrule⟩ := loaded.loads x hx
    obtain ⟨other, hother⟩ := loaded.loads y hy
    obtain ⟨-, hw, hstar, htext⟩ := loadRule_written hrule
    obtain ⟨-, hw', hstar', htext'⟩ := loadRule_written hother
    have hbx : bareRule U x = rule.bare := by rw [bareRule, hrule]
    have hby : bareRule U y = other.bare := by rw [bareRule, hother]
    rw [hbx] at hno hmx hrank
    rw [hby] at hno hmy hrank
    rcases matches_tie (show rule.bare.Written from hw) (show other.bare.Written from hw') hmx hmy hrank with
      ⟨h1, h2⟩ | ⟨written, h1, h2⟩ | hconflict
    · exact (hstar h1).trans (hstar' h2).symm
    · exact (htext written h1).trans (htext' written h2).symm
    · rw [hno] at hconflict
      cases hconflict
  refine List.Pairwise.forall_of_forall_of_flip (fun x _ _ _ _ => rfl) htie (htie.imp ?_)
  intro x y hxy hy hx hrank
  exact (hxy hx hy hrank.symm).symm

/-- In an accepted policy, two rules that match one request and tie in rank have no prefix
or prefixes written alike; and so every reordering of the document that keeps the order
among rules with one written prefix is accepted and gives every request its verdict. -/
theorem declaration_order_inert (C : CaseTable) (fold : Bool) (U : UrlCrate) (config : TomlPolicyConfig)
    (policy : Policy) (h : fromConfig C fold U config = .ok policy) :
    (∀ (principalId : Bytes) (operation : Operation) (address : Option Url) (i j : ℕ) (hi : i < policy.rules.length)
      (hj : j < policy.rules.length), i ≠ j →
      (policy.rules[i]).matches C fold principalId operation address = true →
      (policy.rules[j]).matches C fold principalId operation address = true →
      ((policy.rules[i]).prefixUrl.isSome, (policy.rules[i]).prefixSegments C fold) =
        ((policy.rules[j]).prefixUrl.isSome, (policy.rules[j]).prefixSegments C fold) →
      ((policy.rules[i]).prefixUrl = none ∧ (policy.rules[j]).prefixUrl = none) ∨
        ∃ written, (policy.rules[i]).prefixWritten = some written ∧ (policy.rules[j]).prefixWritten = some written) ∧
    ∀ reordered : List TomlPolicyRule, reordered.Perm config.policy →
      (∀ written, reordered.filter (fun entry => decide (entry.prefixText = written)) =
        config.policy.filter fun entry => decide (entry.prefixText = written)) →
      ∃ policy', fromConfig C fold U { config with policy := reordered } = .ok policy' ∧
        ∀ (principalId : Bytes) (operation : Operation) (address : Option Url),
          (policy'.evaluate C fold U principalId operation address).allow =
            (policy.evaluate C fold U principalId operation address).allow := by
  obtain ⟨hplugin, hload, hgate, hpair, httl⟩ := fromConfig_eq_ok.1 h
  have loaded := Loaded.of_loadAll hload
  constructor
  · intro principalId operation address i j hi hj hne hmi hmj hrank
    have hno : conflicts C fold policy.rules[i] policy.rules[j] = false := by
      rcases Nat.lt_or_gt_of_ne hne with hlt | hgt
      · exact pairwise_iff_getElem.1 hpair i j hi hj hlt
      · rw [conflicts_comm]
        exact pairwise_iff_getElem.1 hpair j i hj hi hgt
    rcases matches_tie (loaded.written _ (getElem_mem hi)) (loaded.written _ (getElem_mem hj)) hmi hmj
      (congrArg toLex hrank) with hnone | hwritten | hconflict
    · exact Or.inl hnone
    · exact Or.inr hwritten
    · rw [hno] at hconflict
      cases hconflict
  · intro reordered hperm hgroup
    have hloads : ∀ entry ∈ reordered, ∃ rule, loadRule U 0 entry = .ok rule :=
      fun entry he => loaded.loads entry (hperm.mem_iff.1 he)
    obtain ⟨rules', hload'⟩ := loadAll_of_loads hloads 0
    have loaded' := Loaded.of_loadAll hload'
    have hpair' : rules'.Pairwise fun rule other => conflicts C fold rule other = false := by
      have hbare : (policy.rules.map Rule.bare).Pairwise fun rule other => conflicts C fold rule other = false :=
        pairwise_map.2 hpair
      have hbare' : (rules'.map Rule.bare).Pairwise fun rule other => conflicts C fold rule other = false := by
        rw [loaded'.bare]
        rw [loaded.bare] at hbare
        refine ((hperm.map (bareRule U)).pairwise_iff ?_).2 hbare
        intro rule other hno
        rwa [conflicts_comm]
      exact pairwise_map.1 hbare'
    refine ⟨⟨rules', config.decisionTtlMaxSeconds⟩, fromConfig_eq_ok.2 ⟨hplugin, hload', ?_, hpair', rfl⟩, ?_⟩
    · exact hgate.imp_right fun hall entry he => hall entry (hperm.mem_iff.1 he)
    · intro principalId operation address
      rw [allow_eq loaded'.ordered, allow_eq loaded.ordered]
      dsimp only
      rw [loaded'.bare, loaded.bare, filter_map, filter_map, maxByKey_map, maxByKey_map]
      have hpick : maxByKey (fun entry => (bareRule U entry).rank C fold)
          (reordered.filter fun entry =>
            (bareRule U entry).matches C fold principalId operation (address.map (canonicalize U))) =
          maxByKey (fun entry => (bareRule U entry).rank C fold)
            (config.policy.filter fun entry =>
              (bareRule U entry).matches C fold principalId operation (address.map (canonicalize U))) :=
        maxByKey_perm hperm hgroup (tie_prefixText h)
      exact congrArg _ (congrArg _ hpick)

/-- Everybody reads the bucket, nobody its private part, but the auditors do. -/
def auditRules : List TomlPolicyRule :=
  [⟨none, .Allow, [star], [utf8 "read"], utf8 "s3://b/"⟩, ⟨none, .Deny, [star], [[star]], utf8 "s3://b/private"⟩,
    ⟨some (utf8 "audit"), .Allow, utf8 "audit-*", [utf8 "read"], utf8 "s3://b/private"⟩]

/-- The same with the first rule moved to the end. -/
def auditRulesMoved : List TomlPolicyRule := auditRules.tail ++ auditRules.take 1

/-- The document of the rules. -/
def auditConfig (policy : List TomlPolicyRule) : TomlPolicyConfig := ⟨AUTHZ_POLICY_KIND_TOML, none, false, policy⟩

theorem declaration_order_inert_audit :
    ∃ policy policy', fromConfig .ascii true reference (auditConfig auditRules) = .ok policy ∧
      fromConfig .ascii true reference (auditConfig auditRulesMoved) = .ok policy' ∧
      ∀ principalId operation address, (policy'.evaluate .ascii true reference principalId operation address).allow =
        (policy.evaluate .ascii true reference principalId operation address).allow := by
  have hsome : (fromConfig .ascii true reference (auditConfig auditRules)).toOption.isSome = true := by decide +kernel
  cases hok : fromConfig .ascii true reference (auditConfig auditRules) with
  | error e => rw [hok] at hsome; cases hsome
  | ok policy =>
    have hgroup : ∀ written, auditRulesMoved.filter (fun entry => decide (entry.prefixText = written)) =
        auditRules.filter fun entry => decide (entry.prefixText = written) := by
      intro written
      by_cases h1 : utf8 "s3://b/" = written
      · subst h1
        decide +kernel
      · simp [auditRulesMoved, auditRules, filter_cons, h1]
    obtain ⟨policy', hok', hsame⟩ := (declaration_order_inert .ascii true reference (auditConfig auditRules) policy
      hok).2 auditRulesMoved (by decide +kernel) hgroup
    exact ⟨policy, policy', rfl, hok', hsame⟩

end OvStorage.Authz
