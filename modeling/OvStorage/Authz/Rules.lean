import OvStorage.Lib.Select
import OvStorage.Authz.Glob
import OvStorage.Authz.Scope

/-!
# Evaluating a policy

`Policy::evaluate` of `ovstorage-authz-policy/src/rules.rs`: the rules that match a
request are ranked by whether they have a prefix, by its depth and by their place in the
document, and the highest decides.

## The model

`fold` is the source's `HOST_FOLDS_FILE_PATHS`. Logging is left out.

## What is proved

* `evaluate_spelling_blind`: neither can the policy.
-/

namespace OvStorage.Authz

open Address Select

/-- The operations a request can ask for. -/
inductive Operation
  | Stat | Read | Write | Delete | List | ListVersions | WatchDirectory | CreateDirectory | DeleteDirectory
  | UpdateMetadata | CheckAccess | ListAddressRoots | ListBackendKinds | AddConnection | RemoveConnection
  | UpdateConnectionCredentials | ListConnections | AddAlias | RemoveAlias | ListAliases | SetAddressVisibility
deriving DecidableEq, Repr

/-- A loaded rule. -/
structure Rule where
  id : Bytes
  effect : Effect
  principal : Bytes
  /-- No list stands for every operation. -/
  operations : Option (List Operation)
  prefixUrl : Option Url
  /-- The prefix as the document has it. -/
  prefixWritten : Option Bytes
  order : ℕ

/-- The loaded rules, and the longest time a decision may be kept, in seconds. -/
structure Policy where
  rules : List Rule
  decisionTtl : Option ℕ

/-- What `evaluate` answers. -/
structure Decision where
  allow : Bool
  reason : Option Bytes
  explanation : Option Bytes
deriving DecidableEq

/-! ### The code -/

section Code

variable (C : CaseTable) (fold : Bool)

/-- `Rule::matches`. -/
def Rule.matches (rule : Rule) (principalId : Bytes) (operation : Operation) (address : Option Url) : Bool :=
  if !globMatch rule.principal principalId then false
  else if rule.operations.any fun operations => !operations.contains operation then false
  else
    match rule.prefixUrl, address with
    | none, _ => true
    | some pre, some address => scopeCovers C fold pre.toParts address.toParts rule.effect
    | some _, none => false

/-- `Rule::prefix_segments`. -/
def Rule.prefixSegments (rule : Rule) : ℕ :=
  match rule.prefixUrl with
  | none => 0
  | some pre => ((scopeSegments C fold pre.toParts).map List.length).getD 0

/-- The ranking pair: whether there is a prefix, and its depth. -/
def Rule.rank (rule : Rule) : Bool ×ₗ ℕ := toLex (rule.prefixUrl.isSome, rule.prefixSegments C fold)

/-- `Policy::matching_rule`. -/
def Policy.matchingRule (U : UrlCrate) (policy : Policy) (principalId : Bytes) (operation : Operation)
    (address : Option Url) : Option Rule :=
  let address := address.map (canonicalize U)
  maxByKey (fun rule => toLex (rule.rank C fold, rule.order))
    (policy.rules.filter fun rule => rule.matches C fold principalId operation address)

/-- `Policy::evaluate`. -/
def Policy.evaluate (U : UrlCrate) (policy : Policy) (principalId : Bytes) (operation : Operation)
    (address : Option Url) : Decision :=
  match policy.matchingRule C fold U principalId operation address with
  | none => ⟨false, some (utf8 "no matching authz policy rule"), none⟩
  | some rule =>
    match rule.effect with
    | .Allow => ⟨true, none, some rule.id⟩
    | .Deny => ⟨false, some (utf8 "authorization denied by policy '" ++ rule.id ++ utf8 "'"), some rule.id⟩

end Code

/-! ### Two spellings of a node -/

variable {C : CaseTable} {fold : Bool}

/-- What it takes to match. -/
theorem matches_iff {rule : Rule} {principalId : Bytes} {operation : Operation} {address : Option Url} :
    rule.matches C fold principalId operation address = true ↔
      globMatch rule.principal principalId = true ∧ (∀ operations ∈ rule.operations, operation ∈ operations) ∧
        (rule.prefixUrl = none ∨ ∃ pre target, rule.prefixUrl = some pre ∧ address = some target ∧
          scopeCovers C fold pre.toParts target.toParts rule.effect = true) := by
  have hops : (rule.operations.any fun operations => !operations.contains operation) = false ↔
      ∀ operations ∈ rule.operations, operation ∈ operations := by
    cases rule.operations <;> simp
  unfold Rule.matches
  cases hg : globMatch rule.principal principalId with
  | false => simp
  | true =>
    cases ho : rule.operations.any fun operations => !operations.contains operation with
    | true =>
      refine iff_of_false (by simp) ?_
      rintro ⟨-, h, -⟩
      rw [hops.2 h] at ho
      cases ho
    | false =>
      rw [and_iff_right (show true = true from rfl), and_iff_right (hops.1 ho)]
      cases rule.prefixUrl with
      | none => simp
      | some pre =>
        cases address with
        | none => simp
        | some target => simp

/-- A rule reads no more of a canonical address than its scheme, host, port and `node_path`. -/
theorem matches_congr {u v : Url} {st tt : List Bytes} (hu : Shape u.toParts st) (hv : Shape v.toParts tt)
    (hs : u.scheme = v.scheme) (hh : u.host = v.host) (hp : u.port = v.port)
    (hn : nodePath u.toParts = nodePath v.toParts) (rule : Rule) (principalId : Bytes) (operation : Operation) :
    rule.matches C fold principalId operation (some u) = rule.matches C fold principalId operation (some v) := by
  have hcovers : ∀ pre : Parts, scopeCovers C fold pre u.toParts rule.effect =
      scopeCovers C fold pre v.toParts rule.effect := by
    intro pre
    unfold scopeCovers coversWithHostSemantics
    rw [segments_congr hu hv hs hh hn, hs, hh, hp]
  unfold Rule.matches
  cases rule.prefixUrl with
  | none => rfl
  | some pre => simp only [hcovers]

/-- Addresses whose canonical forms name one node up to the query get one decision, by one
rule. -/
theorem evaluate_spelling_blind {U : UrlCrate} (law : U.Lawful) (C : CaseTable) (fold : Bool) (policy : Policy)
    (principalId : Bytes) (operation : Operation) (u v : Url) (hu : u.cannotBeABase = false)
    (hv : v.cannotBeABase = false) (hs : (canonicalize U u).scheme = (canonicalize U v).scheme)
    (hh : (canonicalize U u).host = (canonicalize U v).host) (hp : (canonicalize U u).port = (canonicalize U v).port)
    (hn : nodePath (canonicalize U u).toParts = nodePath (canonicalize U v).toParts) :
    policy.evaluate C fold U principalId operation (some u) = policy.evaluate C fold U principalId operation (some v) ∧
      policy.matchingRule C fold U principalId operation (some u) =
        policy.matchingRule C fold U principalId operation (some v) := by
  obtain ⟨st, hst⟩ := canonicalize_shape law hu
  obtain ⟨tt, htt⟩ := canonicalize_shape law hv
  have hrule : policy.matchingRule C fold U principalId operation (some u) =
      policy.matchingRule C fold U principalId operation (some v) := by
    unfold Policy.matchingRule
    simp only [Option.map_some, matches_congr hst htt hs hh hp hn]
  exact ⟨by unfold Policy.evaluate; rw [hrule], hrule⟩

/-- `file:///Public`, as a deny. -/
def denyPublic : Rule :=
  ⟨utf8 "deny-public", .Deny, [star], none,
    some ⟨⟨FILE, true, [], none, none, none, utf8 "/Public", none, none⟩, by decide⟩,
    some (utf8 "file:///Public"), 0⟩

/-- `file:///data/%2E%2E%2Fpub%6Cic/#top`. -/
def escapedPublic : Url :=
  ⟨⟨FILE, true, [], none, none, none, utf8 "/data/%2E%2E%2Fpub%6Cic/", none, some (utf8 "top")⟩, by decide⟩

/-- `file:///public?v=1`. -/
def plainPublic : Url := ⟨⟨FILE, true, [], none, none, none, utf8 "/public", some (utf8 "v=1"), none⟩, by decide⟩

/-- On a folding host the deny meets both spellings. -/
theorem evaluate_spelling_blind_public :
    (Policy.evaluate .ascii true reference ⟨[denyPublic], none⟩ (utf8 "ann") .Read (some plainPublic)).explanation =
      some (utf8 "deny-public") ∧
    Policy.evaluate .ascii true reference ⟨[denyPublic], none⟩ (utf8 "ann") .Read (some escapedPublic) =
      Policy.evaluate .ascii true reference ⟨[denyPublic], none⟩ (utf8 "ann") .Read (some plainPublic) :=
  ⟨by decide +kernel,
    (evaluate_spelling_blind reference_lawful .ascii true ⟨[denyPublic], none⟩ (utf8 "ann") .Read escapedPublic
      plainPublic (by decide) (by decide) (by decide +kernel) (by decide +kernel) (by decide +kernel)
      (by decide +kernel)).1⟩

end OvStorage.Authz
