import OvStorage.Address.Projection
import OvStorage.Lib.Select
import OvStorage.Lib.Validate
import OvStorage.Routing.RouteTable

/-!
# The alias chain

`longest_matching_rule`, `walk_chain`, `validate_alias_rules` and `walk_chain_async` of
`ovstorage-plugin-core/src/alias.rs`: an address is rewritten by the most specific rule above it,
again and again, until no rule matches or a real root is at least as specific.

## The model

The two walks are one loop, `walkFrom`, over what interrupts it: a covering root as specific as
the rule, asked for at each hop. A rule set is what dispatch reads of it, the pairs and where a
rule was derived from; `AliasSource`, presentation and the connection ids are left out, and so is
what `resolve` adds to the result of the walk.

## What is proved

`walkFrom_tooLong`, `walkFrom_of_overlong`: a walk that nothing interrupts is refused as too long
exactly if nine rules apply one after another.
-/

namespace OvStorage.Alias

open Address SegList Select

/-! ### The code -/

/-- `Specificity`. -/
abbrev Specificity := ℕ ×ₗ Bool

/-- `Specificity::of`. -/
def Specificity.of (url : Url) : Specificity := nodeRank url.toParts

/-- A rule: what it matches, and what it writes in its place. -/
abbrev Rule := Url × Url

/-- `MAX_ALIAS_HOPS`. -/
def MAX_ALIAS_HOPS : ℕ := 8

/-- `longest_matching_rule`. -/
def longestMatchingRule (rules : List Rule) (addr : Url) : Option Rule :=
  maxByKey (fun rule => Specificity.of rule.1) (rules.filter fun rule => isAncestorOrSelf rule.1.toParts addr.toParts)

/-- `ResolvedAddress`, as far as the walk fills it. -/
structure ResolvedAddress where
  address : Url
  hops : List Rule
deriving DecidableEq

/-- The two refusals of a walk. -/
def exceedsCap (start : Url) : Error :=
  ⟨.AliasChainTooLong, utf8 "alias chain from `" ++ redactedUrl start ++ utf8 "` exceeds the 8-hop cap"⟩

def cycles (start : Url) : Error :=
  ⟨.AliasChainTooLong, utf8 "alias chain from `" ++ redactedUrl start ++ utf8 "` cycles"⟩

section Code

variable (U : UrlCrate)

/-- The loop of `walk_chain` and `walk_chain_async`: `left` hops may still be made, and
`interrupts` says whether the root over the current address stops the rule at this hop. -/
def walkFrom (rules : List Rule) (interrupts : ℕ → Url → Url → Bool) (start : Url) (left : ℕ) (current : Url)
    (hops : List Rule) (seen : List Bytes) : Except Error ResolvedAddress :=
  match longestMatchingRule rules current with
  | none => .ok ⟨current, hops⟩
  | some (pre, target) =>
    if interrupts left current pre then .ok ⟨current, hops⟩
    else
      match left with
      | 0 => .error (exceedsCap start)
      | left + 1 =>
        if current.asStr ∈ seen then .error (cycles start)
        else
          match replacePrefix U current pre target with
          | .error e => .error e
          | .ok next => walkFrom rules interrupts start left next (hops ++ [(pre, target)]) (current.asStr :: seen)

/-- `walk_chain`; the callback may answer differently at each hop. -/
def walkChain (rules : List Rule) (start : Url) (rootRankFor : ℕ → Url → Option Specificity) :
    Except Error ResolvedAddress :=
  walkFrom U rules (fun hop current pre => (rootRankFor hop current).any fun rank => Specificity.of pre ≤ rank) start
    MAX_ALIAS_HOPS start [] []

/-- `ConnectionKey`. -/
structure ConnectionKey where
  target : String
  id : String
deriving DecidableEq

/-- `AliasRule`, as far as dispatch reads it. -/
structure AliasRule where
  /-- `from`. -/
  pre : Url
  /-- `to`. -/
  target : Url
  derivedFrom : Option ConnectionKey
deriving DecidableEq

/-- `RuleSet`, without the visibility overrides. -/
structure RuleSet where
  aliases : List AliasRule
deriving DecidableEq

/-- `alias_pairs`. -/
def RuleSet.aliasPairs (rules : RuleSet) : List Rule := rules.aliases.map fun rule => (rule.pre, rule.target)

/-- The rules that an operator has written. -/
def RuleSet.authoredPairs (rules : RuleSet) : List Rule :=
  (rules.aliases.filter fun rule => rule.derivedFrom.isNone).map fun rule => (rule.pre, rule.target)

/-- `alias_pairs_for`: generated rules stand aside for a query they do not recognize. -/
def RuleSet.aliasPairsFor (rules : RuleSet) (addr : Url) : List Rule :=
  if Routing.generatedRuleMayAnswer addr.toParts then rules.aliasPairs else rules.authoredPairs

/-- `walk_chain_async`; `rootInfoFor` is what the inner layer answers at each hop. -/
def walkChainAsync (rules : RuleSet) (addr : Url) (rootInfoFor : ℕ → Url → Except Error Url) :
    Except Error ResolvedAddress :=
  let covered (hop : ℕ) (current pre : Url) : Bool := match rootInfoFor hop current with
    | .ok root =>
      if isAncestorOrSelf root.toParts current.toParts then decide (Specificity.of pre ≤ Specificity.of root) else false
    | .error _ => false
  walkFrom U (rules.aliasPairsFor addr) covered addr MAX_ALIAS_HOPS addr [] []

/-! ### Validation -/

/-- What `validate_alias_rules` refuses on either side of a rule. -/
def validateSide (side : Bytes) (url : Url) : Except Error Unit :=
  if url.cannotBeABase then
    .error ⟨.InvalidArgument, utf8 "alias rule `" ++ side ++ utf8 "` must have an authority; scheme '" ++ url.scheme ++
      utf8 "' was parsed as authority-less"⟩
  else if url.query.isSome then
    .error ⟨.InvalidArgument, utf8 "alias rule `" ++ side ++ utf8 "` must not carry a query: " ++ redactedUrl url ++
      utf8 ". An address names a node, and a query is not part of what names it: on `from` it pins " ++
      utf8 "the rule to one exact spelling and no extension of it, and on `to` " ++
      utf8 "it survives only for callers whose own address carries no query. " ++
      utf8 "Write the rule without the query"⟩
  else .ok ()

/-- What `validate_alias_rules` refuses on a `from` alone. -/
def validateFrom (start : Url) (seen : List (Bytes × Option Bytes × Option UInt16 × Bytes × Option Bytes)) :
    Except Error Unit :=
  if start.username ≠ [] ∨ start.password.isSome then
    .error ⟨.InvalidArgument, utf8 "alias rule `from` must not carry credentials: " ++ redactedUrl start ++
      utf8 ". Alias matching compares scheme, host, port and path, so this rule covers its path " ++
      utf8 "for EVERY credential rather than the one written — on 0.2.0 the " ++
      utf8 "matcher compared the credential too, so this is a widening of a live " ++
      utf8 "rule. Write the prefix without the credentials to accept that scope; " ++
      utf8 "`to` may keep its own"⟩
  else if nodeKey start.toParts ∈ seen then
    .error ⟨.InvalidArgument, utf8 "duplicate alias `from` prefix: " ++ redactedUrl start⟩
  else .ok ()

/-- The loop of `validate_alias_rules`. -/
def validateRules (rules : List Rule) :
    List Rule → List (Bytes × Option Bytes × Option UInt16 × Bytes × Option Bytes) → Except Error Unit
  | [], _ => .ok ()
  | (start, target) :: rest, seen => do
    validateSide (utf8 "from") start
    validateSide (utf8 "to") target
    validateFrom start seen
    let _ ← walkChain U rules start fun _ _ => none
    validateRules rules rest (nodeKey start.toParts :: seen)

/-- `validate_alias_rules`. -/
def validateAliasRules (rules : List Rule) : Except Error Unit := validateRules U rules rules []

end Code

section Accepted

variable {U : UrlCrate} {rules : List Rule}

theorem validateSide_query {side : Bytes} {url : Url} (h : validateSide side url = .ok ()) : url.query = none := by
  unfold validateSide at h
  split_ifs at h with _ hquery
  simpa using hquery

variable {seen : List (Bytes × Option Bytes × Option UInt16 × Bytes × Option Bytes)} {left : List Rule}

/-- What an accepted list promises of each rule. -/
theorem validateRules_spec (h : validateRules U rules left seen = .ok ()) :
    ∀ rule ∈ left, rule.1.query = none ∧ rule.2.query = none ∧
    ∃ found, walkChain U rules rule.1 (fun _ _ => none) = .ok found := by
  induction left generalizing seen with
  | nil => simp
  | cons first rest ih =>
    rw [validateRules] at h
    obtain ⟨⟨⟩, hfrom, h⟩ := Validate.bind_eq_ok.mp h
    obtain ⟨⟨⟩, hto, h⟩ := Validate.bind_eq_ok.mp h
    obtain ⟨⟨⟩, -, h⟩ := Validate.bind_eq_ok.mp h
    obtain ⟨found, hwalk, h⟩ := Validate.bind_eq_ok.mp h
    intro rule hrule
    rcases List.mem_cons.mp hrule with rfl | hrule
    · exact ⟨validateSide_query hfrom, validateSide_query hto, found, hwalk⟩
    · exact ih h rule hrule

/-- The rules of an accepted list match different nodes. -/
theorem validateRules_distinct (h : validateRules U rules left seen = .ok ()) :
    (left.map fun rule => nodeKey rule.1.toParts).Nodup ∧ ∀ rule ∈ left, nodeKey rule.1.toParts ∉ seen := by
  induction left generalizing seen with
  | nil => simp
  | cons first rest ih =>
    rw [validateRules] at h
    obtain ⟨⟨⟩, -, h⟩ := Validate.bind_eq_ok.mp h
    obtain ⟨⟨⟩, -, h⟩ := Validate.bind_eq_ok.mp h
    obtain ⟨⟨⟩, hfrom, h⟩ := Validate.bind_eq_ok.mp h
    obtain ⟨found, -, h⟩ := Validate.bind_eq_ok.mp h
    unfold validateFrom at hfrom
    split_ifs at hfrom with _ hseen
    obtain ⟨hnodup, hrest⟩ := ih h
    simp only [List.mem_cons, not_or] at hrest
    refine ⟨?_, ?_⟩
    · rw [List.map_cons, List.nodup_cons]
      refine ⟨?_, hnodup⟩
      intro hmem
      obtain ⟨rule, hrule, hsame⟩ := List.mem_map.mp hmem
      exact (hrest rule hrule).1 hsame
    · intro rule hrule
      rcases List.mem_cons.mp hrule with rfl | hrule
      · exact hseen
      · exact (hrest rule hrule).2

theorem authoredPairs_subset (rules : RuleSet) : rules.authoredPairs ⊆ rules.aliasPairs := by
  intro pair hpair
  obtain ⟨rule, hrule, rfl⟩ := List.mem_map.mp hpair
  exact List.mem_map_of_mem (List.mem_of_mem_filter hrule)

end Accepted

/-! ### Chains of rules -/

section Chains

variable (U : UrlCrate) (rules : List Rule)

/-- One application of a rule. -/
def hop (a : Url) : Option Url :=
  match longestMatchingRule rules a with
  | none => none
  | some (pre, target) => (replacePrefix U a pre target).toOption

/-- So many applications, one after another. -/
def hopsFrom : ℕ → Url → Option Url
  | 0, a => some a
  | n + 1, a => (hop U rules a).bind (hopsFrom n)

/-- The address can be rewritten as often as the walk allows, and then a rule still matches. -/
def Overlong (a : Url) : Prop := ∃ b, hopsFrom U rules MAX_ALIAS_HOPS a = some b ∧ longestMatchingRule rules b ≠ none

variable {U rules} {a b : Url}

theorem hopsFrom_add (m n : ℕ) (a : Url) :
    hopsFrom U rules (m + n) a = (hopsFrom U rules m a).bind (hopsFrom U rules n) := by
  induction m generalizing a with
  | zero => simp [hopsFrom]
  | succ m ih =>
    rw [Nat.succ_add, hopsFrom, hopsFrom, Option.bind_assoc]
    exact congrArg _ (funext ih)

/-- A shorter chain. -/
theorem hopsFrom_le {m n : ℕ} (hmn : m ≤ n) (h : (hopsFrom U rules n a).isSome = true) :
    (hopsFrom U rules m a).isSome = true := by
  obtain ⟨k, rfl⟩ := Nat.exists_eq_add_of_le hmn
  rw [hopsFrom_add] at h
  exact Option.isSome_of_isSome_bind h

/-- A chain that comes back goes on for ever. -/
theorem hopsFrom_forever {p : ℕ} (hp : 0 < p) (h : hopsFrom U rules p a = some a) (n : ℕ) :
    (hopsFrom U rules n a).isSome = true := by
  have hloop : ∀ k, hopsFrom U rules (p * k) a = some a := by
    intro k
    induction k with
    | zero => rfl
    | succ k ih => rw [Nat.mul_succ, hopsFrom_add, ih, Option.bind_some, h]
  refine hopsFrom_le (Nat.le_mul_of_pos_left n hp) ?_
  rw [hloop]
  rfl

theorem overlong_of_isSome (h : (hopsFrom U rules (MAX_ALIAS_HOPS + 1) a).isSome = true) : Overlong U rules a := by
  rw [hopsFrom_add] at h
  obtain ⟨b, hb⟩ := Option.isSome_iff_exists.mp (Option.isSome_of_isSome_bind h)
  rw [hb, Option.bind_some] at h
  refine ⟨b, hb, fun hnone => ?_⟩
  simp [hopsFrom, hop, hnone] at h

variable {e : Error}

theorem addressParse_code {value : Bytes} (h : addressParse U value = .error e) : e.code = .InvalidArgument := by
  unfold addressParse at h
  split at h
  · rw [← Except.error.inj h]
  · split_ifs at h
    rw [← Except.error.inj h]

/-- No refusal of `replace_prefix` says that a chain is too long. -/
theorem replacePrefix_code {pre target : Url} (h : replacePrefix U a pre target = .error e) :
    e.code ≠ .AliasChainTooLong := by
  unfold replacePrefix at h
  split at h
  · rw [← Except.error.inj h]
    simp
  · rw [addressParse_code h]
    simp

variable {seen : List Bytes} {hops : List Rule} {current start : Url}

/-- A walk that is refused as too long is on a chain of nine rules. The induction is on the hops
left; `seen` holds addresses of the chain before the current one. -/
theorem walkFrom_tooLong {interrupts : ℕ → Url → Url → Bool} {left made : ℕ}
    (h : walkFrom U rules interrupts start left current hops seen = .error e) (hcode : e.code = .AliasChainTooLong)
    (hmade : made + left = MAX_ALIAS_HOPS) (hcurrent : hopsFrom U rules made start = some current)
    (hseen : ∀ s ∈ seen, ∃ j < made, ∃ b, hopsFrom U rules j start = some b ∧ b.asStr = s) :
    Overlong U rules start := by
  induction left generalizing made current hops seen with
  | zero =>
    unfold walkFrom at h
    split at h
    · cases h
    · rename_i pre target hrule
      refine ⟨current, by rw [← hmade, Nat.add_zero, hcurrent], ?_⟩
      rw [hrule]
      simp
  | succ left ih =>
    unfold walkFrom at h
    split at h
    · cases h
    · rename_i pre target hrule
      dsimp only at h
      split_ifs at h with hinterrupts hcycle
      · obtain ⟨j, hj, b, hb, hsame⟩ := hseen _ hcycle
        obtain rfl : b = current := asStr_inj hsame
        obtain ⟨p, rfl⟩ := Nat.exists_eq_add_of_le hj.le
        rw [hopsFrom_add, hb, Option.bind_some] at hcurrent
        have hforever := hopsFrom_forever (by omega) hcurrent
        apply overlong_of_isSome
        have hlate : (hopsFrom U rules (j + (MAX_ALIAS_HOPS + 1)) start).isSome = true := by
          rw [hopsFrom_add, hb, Option.bind_some]
          exact hforever _
        exact hopsFrom_le (Nat.le_add_left _ _) hlate
      · split at h
        · rename_i e' hreplace
          rw [← Except.error.inj h] at hcode
          exact absurd hcode (replacePrefix_code hreplace)
        · rename_i next hreplace
          have hhop : hop U rules current = some next := by
            simp [hop, hrule, hreplace, Except.toOption]
          refine ih h (show (made + 1) + left = MAX_ALIAS_HOPS by omega) ?_ ?_
          · rw [hopsFrom_add, hcurrent, Option.bind_some]
            simp [hopsFrom, hhop]
          · intro s hs
            rcases List.mem_cons.mp hs with rfl | hs
            · exact ⟨made, by omega, current, hcurrent, rfl⟩
            · obtain ⟨j, hj, hrest⟩ := hseen s hs
              exact ⟨j, by omega, hrest⟩

/-- A chain of nine rules is refused when nothing interrupts it. -/
theorem walkFrom_of_overlong {left : ℕ}
    (h : hopsFrom U rules left current = some b) (hb : longestMatchingRule rules b ≠ none) :
    ∃ e, walkFrom U rules (fun _ _ _ => false) start left current hops seen = .error e ∧
    e.code = .AliasChainTooLong := by
  induction left generalizing current hops seen with
  | zero =>
    obtain rfl := Option.some.inj h
    unfold walkFrom
    cases hrule : longestMatchingRule rules current with
    | none => exact absurd hrule hb
    | some rule => exact ⟨_, rfl, rfl⟩
  | succ left ih =>
    obtain ⟨next, hnext, hrest⟩ := Option.bind_eq_some_iff.mp h
    unfold walkFrom
    unfold hop at hnext
    cases hrule : longestMatchingRule rules current with
    | none => simp [hrule] at hnext
    | some rule =>
      obtain ⟨pre, target⟩ := rule
      rw [hrule] at hnext
      dsimp only at hnext ⊢
      simp only [Bool.false_eq_true, if_false]
      split_ifs with hcycle
      · exact ⟨_, rfl, rfl⟩
      · cases hreplace : replacePrefix U current pre target with
        | error e => simp [hreplace, Except.toOption] at hnext
        | ok next' =>
          rw [hreplace] at hnext
          obtain rfl : next' = next := by simpa [Except.toOption] using hnext
          exact ih hrest

end Chains

end OvStorage.Alias
