import OvStorage.Alias.Depth
import OvStorage.Alias.Roots

/-!
# Derived rules and authored visibility

`RuleSet::visibility_pairs` and `validate_visibility_rules` of `ovstorage-plugin-core/src/alias.rs`:
the visibility of an address is that of the most specific entry above it, and a rule that is derived
from a connection is an entry like those an operator has written.

## The model

A rule set has its aliases with their own visibility and the standalone overrides; ids, sources and
presentation are left out. `validate_visibility_rules` also warns of a prefix with credentials that
hides, and this is left out too.

## What is proved

`authored_denials_stand`: a derived rule relaxes no denial that was authored, whether the fold is skipped or not.
-/

namespace OvStorage.Alias.Visibility

open Address SegList Select List

/-! ### The code -/

/-- `AliasRule`, with its intrinsic visibility. -/
structure AliasRule extends Alias.AliasRule where
  visibility : Option AddressVisibility
deriving DecidableEq

/-- `VisibilityOverride`. -/
structure VisibilityOverride where
  address : Url
  visibility : AddressVisibility
deriving DecidableEq

/-- `RuleSet`. -/
structure RuleSet where
  aliases : List AliasRule
  visibility : List VisibilityOverride
deriving DecidableEq

/-- An address with what is to be seen below it. -/
abbrev Entry := Url × AddressVisibility

namespace RuleSet

variable (rules : RuleSet)

/-- The closure `intrinsic`. -/
def intrinsic (rule : AliasRule) : Option Entry := rule.visibility.map fun vis => (rule.pre, vis)

/-- `authored_alias`. -/
def authoredAlias : List Entry := (rules.aliases.filter fun rule => rule.derivedFrom.isNone).filterMap intrinsic

/-- `standalone_visibility_pairs`. -/
def standalone : List Entry := rules.visibility.map fun rule => (rule.address, rule.visibility)

/-- `derived`. -/
def derived : List Entry := (rules.aliases.filter fun rule => rule.derivedFrom.isSome).filterMap intrinsic

/-- `authored`: the entries that an operator has written. -/
def authored : List Entry := rules.authoredAlias ++ rules.standalone

/-- `ceiling`: the most restrictive authored visibility. -/
def ceiling : AddressVisibility :=
  (rules.authored.map Prod.snd).foldl mostRestrictiveVisibility .Visible

/-- `needs_fold`. -/
def needsFold : Bool :=
  rules.aliases.any fun rule => rule.derivedFrom.isSome &&
    rule.visibility.any fun vis => mostRestrictiveVisibility vis rules.ceiling != vis

/-- A derived entry with the authored answer at its prefix. -/
def folded (entry : Entry) : Entry :=
  (entry.1, mostRestrictiveVisibility entry.2 (visibilityOfIn rules.authored entry.1))

/-- `visibility_pairs`. -/
def visibilityPairs : List Entry :=
  rules.authoredAlias ++ (if rules.needsFold then rules.derived.map rules.folded else rules.derived) ++ rules.standalone

/-- `visibility_pairs`, if it would always fold. -/
def foldedPairs : List Entry := rules.authoredAlias ++ rules.derived.map rules.folded ++ rules.standalone

/-- `alias_pairs`. -/
def aliasPairs : List Rule := rules.aliases.map fun rule => (rule.pre, rule.target)

end RuleSet

/-- The loop of `validate_visibility_rules`. -/
def validateEntries :
    List Entry → List (Bytes × Option Bytes × Option UInt16 × Bytes × Option Bytes) → Except Error Unit
  | [], _ => .ok ()
  | (pre, visibility) :: rest, seen =>
    if visibility = .Visible ∧ (pre.username ≠ [] ∨ pre.password.isSome) then
      .error ⟨.InvalidArgument, utf8 "visibility rule `" ++ redactedUrl pre ++
        utf8 "` is visible and its prefix carries credentials. " ++
        utf8 "Visibility matching compares scheme, host, port and path, so this " ++
        utf8 "rule reveals its path for EVERY credential rather than the one " ++
        utf8 "written — on 0.2.0 the matcher compared the credential too, so this " ++
        utf8 "is a widening of a live rule, in the direction that publishes. Write " ++
        utf8 "the prefix without the credentials to accept that scope"⟩
    else if pre.query.isSome then
      .error ⟨.InvalidArgument, utf8 "visibility rule `" ++ redactedUrl pre ++
        utf8 "` must not carry a query. Visibility is decided on " ++
        utf8 "scheme, authority and path, so a rule on a path already covers every " ++
        utf8 "version of it — and a query-bearing rule now matches only the exact " ++
        utf8 "query, so a `hidden` or `suppressed` rule written this way would stop " ++
        utf8 "hiding. Write the prefix without the query"⟩
    else if nodeKey pre.toParts ∈ seen then
      .error ⟨.InvalidArgument, utf8 "duplicate visibility prefix: " ++ redactedUrl pre⟩
    else validateEntries rest (nodeKey pre.toParts :: seen)

/-- `validate_visibility_rules`. -/
def validateVisibilityRules (entries : List Entry) : Except Error Unit := validateEntries entries []

/-- What the two validators admit, as far as the lookup depends on it. -/
structure RuleSet.Admitted (U : UrlCrate) (rules : RuleSet) : Prop where
  aliases : ∀ rule ∈ rules.aliases, Canonical U rule.pre ∧ rule.pre.query = none
  overrides : ∀ rule ∈ rules.visibility, Canonical U rule.address ∧ rule.address.query = none
  distinct : (rules.aliases.map fun rule => nodeKey rule.pre.toParts).Nodup

/-! ### What an operator wrote -/

namespace RuleSet

/-- What the operator wrote: the visibility of each alias that is not derived, and then the standalone overrides. -/
def writtenEntries (rules : RuleSet) : List Entry :=
  (rules.aliases.filterMap fun rule => if rule.derivedFrom = none then rule.visibility.map (rule.pre, ·) else none) ++
    rules.visibility.map fun override => (override.address, override.visibility)

/-- A derived rule above the address has this visibility of its own. -/
structure Generates (rules : RuleSet) (addr : Url) (rule : AliasRule) (vis : AddressVisibility) : Prop where
  mem : rule ∈ rules.aliases
  derived : rule.derivedFrom.isSome
  own : rule.visibility = some vis
  above : isAncestorOrSelf rule.pre.toParts addr.toParts = true

end RuleSet

/-! ### The order of visibilities -/

instance : Max AddressVisibility := ⟨mostRestrictiveVisibility⟩

/-- What is more restrictive is greater. -/
instance : SemilatticeSup AddressVisibility :=
  SemilatticeSup.mk' (fun x y => by cases x <;> cases y <;> rfl)
    (fun x y z => by cases x <;> cases y <;> cases z <;> rfl)
    fun x => by cases x <;> rfl

theorem visible_le (vis : AddressVisibility) : .Visible ≤ vis := by
  cases vis <;> exact sup_eq_right.mp rfl

theorem le_foldl (vis : List AddressVisibility) (start : AddressVisibility) :
    start ≤ vis.foldl mostRestrictiveVisibility start ∧ ∀ v ∈ vis, v ≤ vis.foldl mostRestrictiveVisibility start := by
  induction vis generalizing start with
  | nil => simp
  | cons v rest ih =>
    obtain ⟨hstart, hrest⟩ := ih (mostRestrictiveVisibility start v)
    have hleft : start ≤ mostRestrictiveVisibility start v := le_sup_left (b := v)
    have hright : v ≤ mostRestrictiveVisibility start v := le_sup_right (a := start)
    refine ⟨hleft.trans hstart, fun w hw => ?_⟩
    rcases mem_cons.mp hw with rfl | hw
    · exact hright.trans hstart
    · exact hrest w hw

/-! ### The lookup -/

section Lookup

/-- The entries above an address. -/
def above (entries : List Entry) (addr : Url) : List Entry :=
  entries.filter fun entry => isAncestorOrSelf entry.1.toParts addr.toParts

/-- The most specific one of them. -/
def winner (entries : List Entry) (addr : Url) : Option Entry :=
  maxByKey (fun entry => Specificity.of entry.1) (above entries addr)

variable {entries : List Entry} {entry : Entry} {addr : Url}

theorem visibilityOfIn_eq (entries : List Entry) (addr : Url) :
    visibilityOfIn entries addr = ((winner entries addr).map Prod.snd).getD .Visible := rfl

theorem mem_above :
    entry ∈ above entries addr ↔ entry ∈ entries ∧ isAncestorOrSelf entry.1.toParts addr.toParts = true :=
  mem_filter

theorem winner_mem (h : winner entries addr = some entry) :
    entry ∈ entries ∧ isAncestorOrSelf entry.1.toParts addr.toParts = true :=
  mem_above.mp (maxByKey_eq_some_iff.mp h).mem

theorem winner_le (h : winner entries addr = some entry) {other : Entry} (hother : other ∈ above entries addr) :
    Specificity.of other.1 ≤ Specificity.of entry.1 :=
  (maxByKey_eq_some_iff.mp h).le other hother

/-- The answer is bounded by what bounds every entry. -/
theorem visibilityOfIn_le {bound : AddressVisibility} (h : ∀ entry ∈ entries, entry.2 ≤ bound) :
    visibilityOfIn entries addr ≤ bound := by
  rw [visibilityOfIn_eq]
  cases hwinner : winner entries addr with
  | none => exact visible_le bound
  | some entry => exact h entry (winner_mem hwinner).1

end Lookup

/-! ### The shortcut -/

section Shortcut

variable {rules : RuleSet} {entry : Entry} {addr : Url}

theorem le_ceiling (h : entry ∈ rules.authored) : entry.2 ≤ rules.ceiling :=
  (le_foldl _ _).2 _ (mem_map_of_mem h)

theorem mem_intrinsic {aliases : List AliasRule} {p : AliasRule → Bool} :
    entry ∈ (aliases.filter p).filterMap RuleSet.intrinsic ↔
    ∃ rule ∈ aliases, p rule = true ∧ rule.pre = entry.1 ∧ rule.visibility = some entry.2 := by
  constructor
  · intro h
    obtain ⟨rule, hrule, hentry⟩ := mem_filterMap.mp h
    obtain ⟨hmem, hp⟩ := mem_filter.mp hrule
    obtain ⟨vis, hvis, rfl⟩ := Option.map_eq_some_iff.mp hentry
    exact ⟨rule, hmem, hp, rfl, hvis⟩
  · rintro ⟨rule, hmem, hp, hpre, hvis⟩
    refine mem_filterMap.mpr ⟨rule, mem_filter.mpr ⟨hmem, hp⟩, ?_⟩
    rw [RuleSet.intrinsic, hvis, Option.map_some, hpre]

theorem authored_eq (rules : RuleSet) : rules.authored = rules.writtenEntries := by
  rw [RuleSet.authored, RuleSet.authoredAlias, filterMap_filter]
  refine congrArg (· ++ _) (filterMap_congr fun rule _ => ?_)
  cases rule.derivedFrom <;> simp [RuleSet.intrinsic]

/-- The entries of the derived rules above an address. -/
theorem mem_above_derived :
    entry ∈ above rules.derived addr ↔ ∃ rule, rules.Generates addr rule entry.2 ∧ rule.pre = entry.1 := by
  rw [mem_above, RuleSet.derived, mem_intrinsic]
  constructor
  · rintro ⟨⟨rule, hmem, hderived, hpre, hvis⟩, habove⟩
    exact ⟨rule, ⟨hmem, hderived, hvis, hpre ▸ habove⟩, hpre⟩
  · rintro ⟨rule, ⟨hmem, hderived, hvis, habove⟩, hpre⟩
    exact ⟨⟨rule, hmem, hderived, hpre, hvis⟩, hpre ▸ habove⟩

/-- Below the ceiling the fold returns what it is given. -/
theorem folded_of_not_needsFold (h : rules.needsFold = false) (hentry : entry ∈ rules.derived) :
    rules.folded entry = entry := by
  obtain ⟨rule, hrule, hderived, -, hvis⟩ := mem_intrinsic.mp hentry
  have hrefuted := any_eq_false.mp h rule hrule
  have hceiling : mostRestrictiveVisibility entry.2 rules.ceiling = entry.2 := by
    simpa [hderived, hvis] using hrefuted
  have hanswer : visibilityOfIn rules.authored entry.1 ≤ entry.2 :=
    (visibilityOfIn_le fun _ => le_ceiling).trans (sup_eq_left.mp hceiling)
  exact Prod.ext rfl (sup_eq_left.mpr hanswer)

theorem visibilityPairs_eq_foldedPairs (rules : RuleSet) : rules.visibilityPairs = rules.foldedPairs := by
  unfold RuleSet.visibilityPairs RuleSet.foldedPairs
  split_ifs with h
  · rfl
  · rw [map_congr_left fun entry hentry => folded_of_not_needsFold (Bool.eq_false_iff.mpr h) hentry, map_id']

end Shortcut

/-! ### The answers -/

section Answers

variable {U : UrlCrate} {rules : RuleSet} {addr : Url} {entry : Entry}

theorem validateEntries_query {entries : List Entry}
    {seen : List (Bytes × Option Bytes × Option UInt16 × Bytes × Option Bytes)}
    (h : validateEntries entries seen = .ok ()) : ∀ entry ∈ entries, entry.1.query = none := by
  induction entries generalizing seen with
  | nil => simp
  | cons first rest ih =>
    unfold validateEntries at h
    split_ifs at h with _ hquery _
    intro entry hentry
    rcases mem_cons.mp hentry with rfl | hentry
    · simpa using hquery
    · exact ih h entry hentry

/-- What the validators accept is admitted. -/
theorem admitted_of_validated (hcanon : (∀ rule ∈ rules.aliases, Canonical U rule.pre) ∧
    ∀ rule ∈ rules.visibility, Canonical U rule.address) (haliases : validateAliasRules U rules.aliasPairs = .ok ())
    (hoverrides : validateVisibilityRules rules.standalone = .ok ()) : rules.Admitted U where
  aliases rule hrule := ⟨hcanon.1 rule hrule, (validateRules_spec haliases _ (mem_map_of_mem hrule)).1⟩
  overrides rule hrule := ⟨hcanon.2 rule hrule, validateEntries_query hoverrides _ (mem_map_of_mem hrule)⟩
  distinct := by
    have h := (validateRules_distinct haliases).1
    rwa [RuleSet.aliasPairs, map_map] at h

/-- An admitted authored prefix. -/
theorem RuleSet.Admitted.authored (hrules : rules.Admitted U) (h : entry ∈ rules.authored) :
    Canonical U entry.1 ∧ entry.1.query = none := by
  rcases mem_append.mp h with h | h
  · obtain ⟨rule, hrule, -, hpre, -⟩ := mem_intrinsic.mp h
    rw [← hpre]
    exact hrules.aliases rule hrule
  · obtain ⟨rule, hrule, rfl⟩ := mem_map.mp h
    exact hrules.overrides rule hrule

/-- An admitted derived prefix. -/
theorem RuleSet.Admitted.derived (hrules : rules.Admitted U) (h : entry ∈ rules.derived) : Canonical U entry.1 := by
  obtain ⟨rule, hrule, -, hpre, -⟩ := mem_intrinsic.mp h
  rw [← hpre]
  exact (hrules.aliases rule hrule).1

/-- Two aliases above one address that are as specific as each other are one. -/
theorem RuleSet.Admitted.eq_of_tie (hrules : rules.Admitted U) (law : U.Lawful) (haddr : Canonical U addr)
    {rule rule' : AliasRule} (hrule : rule ∈ rules.aliases) (hrule' : rule' ∈ rules.aliases)
    (hcover : isAncestorOrSelf rule.pre.toParts addr.toParts = true)
    (hcover' : isAncestorOrSelf rule'.pre.toParts addr.toParts = true)
    (htie : Specificity.of rule.pre = Specificity.of rule'.pre) : rule = rule' := by
  refine inj_on_of_nodup_map hrules.distinct hrule hrule' ?_
  exact nodeKey_eq_of_nodeRank_eq law (hrules.aliases rule hrule).1 (hrules.aliases rule' hrule').1
    haddr hcover hcover' htie

variable {d : Entry}

/-- No authored alias ties with a derived rule. -/
theorem RuleSet.Admitted.no_tie (hrules : rules.Admitted U) (law : U.Lawful) (haddr : Canonical U addr) {a : Entry}
    (ha : a ∈ above rules.authoredAlias addr) (hd : d ∈ above rules.derived addr) :
    Specificity.of a.1 ≠ Specificity.of d.1 := by
  intro htie
  obtain ⟨ha, hcoverA⟩ := mem_above.mp ha
  obtain ⟨hd, hcoverD⟩ := mem_above.mp hd
  obtain ⟨rule, hrule, hauthored, hpre, -⟩ := mem_intrinsic.mp ha
  obtain ⟨rule', hrule', hderived, hpre', -⟩ := mem_intrinsic.mp hd
  rw [← hpre] at hcoverA htie
  rw [← hpre'] at hcoverD htie
  obtain rfl := hrules.eq_of_tie law haddr hrule hrule' hcoverA hcoverD htie
  rw [Option.isNone_iff_eq_none] at hauthored
  simp [hauthored] at hderived

/-- Nor do two derived rules. -/
theorem RuleSet.Admitted.derived_eq (hrules : rules.Admitted U) (law : U.Lawful) (haddr : Canonical U addr) {d' : Entry}
    (hd : d ∈ above rules.derived addr) (hd' : d' ∈ above rules.derived addr)
    (htie : Specificity.of d.1 = Specificity.of d'.1) :
    d = d' := by
  obtain ⟨hd, hcover⟩ := mem_above.mp hd
  obtain ⟨hd', hcover'⟩ := mem_above.mp hd'
  obtain ⟨rule, hrule, -, hpre, hvis⟩ := mem_intrinsic.mp hd
  obtain ⟨rule', hrule', -, hpre', hvis'⟩ := mem_intrinsic.mp hd'
  rw [← hpre] at hcover htie
  rw [← hpre'] at hcover' htie
  obtain rfl := hrules.eq_of_tie law haddr hrule hrule' hcover hcover' htie
  exact Prod.ext (hpre.symm.trans hpre') (Option.some.inj (hvis.symm.trans hvis'))

/-- Below a derived rule that no authored entry is as specific as, the authored entries answer what they answer at its
prefix. -/
theorem answer_above (law : U.Lawful) (hrules : rules.Admitted U) (haddr : Canonical U addr)
    (hd : d ∈ above rules.derived addr) (h : ∀ e ∈ above rules.authored addr, Specificity.of e.1 < Specificity.of d.1) :
    visibilityOfIn rules.authored d.1 = visibilityOfIn rules.authored addr := by
  obtain ⟨hd, hcoverD⟩ := mem_above.mp hd
  have hcanon := hrules.derived hd
  have hbelow := (isAncestorOrSelf_iff law hcanon haddr).mp hcoverD
  have hsame : above rules.authored d.1 = above rules.authored addr := by
    refine filter_congr fun e he => Bool.eq_iff_iff.mpr ?_
    obtain ⟨hcanonE, hquery⟩ := hrules.authored he
    rw [isAncestorOrSelf_iff law hcanonE hcanon, isAncestorOrSelf_iff law hcanonE haddr]
    constructor
    · exact fun hcover => hcover.trans hbelow
    · intro hcover
      obtain ⟨es, hes⟩ := hcanonE.shape law
      obtain ⟨ds, hds⟩ := hcanon.shape law
      have hrank := (h e (mem_above.mpr ⟨he, (isAncestorOrSelf_iff law hcanonE haddr).mpr hcover⟩)).le
      rw [Specificity.of, Specificity.of, hes.nodeRank_eq, hds.nodeRank_eq] at hrank
      exact hcover.of_rank_le hbelow hquery hrank
  rw [visibilityOfIn_eq, visibilityOfIn_eq, winner, winner, hsame]

theorem above_folded (rules : RuleSet) (addr : Url) :
    above (rules.derived.map rules.folded) addr = (above rules.derived addr).map rules.folded := filter_map

/-- The entries above an address, as `visibility_pairs` lists them. -/
theorem above_foldedPairs (rules : RuleSet) (addr : Url) : above rules.foldedPairs addr =
    above rules.authoredAlias addr ++ (above rules.derived addr).map rules.folded ++ above rules.standalone addr := by
  rw [← above_folded, RuleSet.foldedPairs, above, filter_append, filter_append]
  rfl

/-- The entry that wins: the most specific derived one, folded, if it is more specific than all that are authored. -/
theorem winner_foldedPairs (law : U.Lawful) (hrules : rules.Admitted U) (haddr : Canonical U addr)
    (hd : winner rules.derived addr = some d) : winner rules.visibilityPairs addr =
      if (winner rules.authored addr).all fun e => Specificity.of e.1 < Specificity.of d.1 then some (rules.folded d)
      else winner rules.authored addr := by
  have hauthored : above rules.authored addr = above rules.authoredAlias addr ++ above rules.standalone addr :=
    filter_append ..
  rw [visibilityPairs_eq_foldedPairs, winner, winner, hauthored, above_foldedPairs]
  refine maxByKey_inserted (y := rules.folded d) ?_ ?_
  · rw [maxByKey_map]
    exact congrArg _ hd
  · intro a ha
    have htie := hrules.no_tie law haddr ha (maxByKey_eq_some_iff.mp hd).mem
    exact htie

/-- Where an authored entry is at least as specific as every derived one, the authored entries answer. -/
theorem answer_of_authored (law : U.Lawful) (hrules : rules.Admitted U) (haddr : Canonical U addr)
    (h : ∀ d ∈ above rules.derived addr, ∃ e ∈ above rules.authored addr, Specificity.of d.1 ≤ Specificity.of e.1) :
    visibilityOfIn rules.visibilityPairs addr = visibilityOfIn rules.authored addr := by
  rw [visibilityOfIn_eq, visibilityOfIn_eq]
  cases hd : winner rules.derived addr with
  | none =>
    have hnone : above rules.derived addr = [] := maxByKey_eq_none_iff.mp hd
    have hsame : above rules.visibilityPairs addr = above rules.authored addr := by
      rw [visibilityPairs_eq_foldedPairs, above_foldedPairs, hnone, map_nil, append_nil]
      exact (filter_append ..).symm
    rw [winner, winner, hsame]
  | some d =>
    rw [winner_foldedPairs law hrules haddr hd, if_neg]
    obtain ⟨e, he, hle⟩ := h d (maxByKey_eq_some_iff.mp hd).mem
    cases hbest : winner rules.authored addr with
    | none =>
      rw [winner, maxByKey_eq_none_iff] at hbest
      simp [hbest] at he
    | some best => simpa using hle.trans (winner_le hbest he)

/-- Where a derived rule is more specific than every authored entry and no other derived rule is more specific, it
answers with what the authored entries answer. -/
theorem answer_of_derived (law : U.Lawful) (hrules : rules.Admitted U) (haddr : Canonical U addr)
    (hd : winner rules.derived addr = some d)
    (h : ∀ e ∈ above rules.authored addr, Specificity.of e.1 < Specificity.of d.1) :
    visibilityOfIn rules.visibilityPairs addr = mostRestrictiveVisibility d.2 (visibilityOfIn rules.authored addr) := by
  have hmem := (maxByKey_eq_some_iff.mp hd).mem
  rw [← answer_above law hrules haddr hmem h, visibilityOfIn_eq, winner_foldedPairs law hrules haddr hd, if_pos]
  · rfl
  · cases hbest : winner rules.authored addr with
    | none => rfl
    | some best => simpa using h best (maxByKey_eq_some_iff.mp hbest).mem

/-- A generated rule relaxes no authored denial: the answer is at least as restrictive as the authored one, it is the
authored one where the most specific entry is authored, and where that is a derived rule, the more restrictive one of
its own and the authored one. The fold is skipped only where this changes no answer. -/
theorem authored_denials_stand (law : U.Lawful) (hrules : rules.Admitted U) (haddr : Canonical U addr) :
    mostRestrictiveVisibility (visibilityOfIn rules.writtenEntries addr) (visibilityOfIn rules.visibilityPairs addr) =
        visibilityOfIn rules.visibilityPairs addr ∧
      (∀ e ∈ rules.writtenEntries, isAncestorOrSelf e.1.toParts addr.toParts = true →
        (∀ rule vis, rules.Generates addr rule vis → Specificity.of rule.pre ≤ Specificity.of e.1) →
        visibilityOfIn rules.visibilityPairs addr = visibilityOfIn rules.writtenEntries addr) ∧
      (∀ rule vis, rules.Generates addr rule vis →
        (∀ e ∈ rules.writtenEntries, isAncestorOrSelf e.1.toParts addr.toParts = true →
          Specificity.of e.1 < Specificity.of rule.pre) →
        (∀ rule' vis', rules.Generates addr rule' vis' → Specificity.of rule'.pre ≤ Specificity.of rule.pre) →
        visibilityOfIn rules.visibilityPairs addr =
          mostRestrictiveVisibility (visibilityOfIn rules.writtenEntries addr) vis) ∧
      visibilityOfIn rules.visibilityPairs addr = visibilityOfIn rules.foldedPairs addr := by
  rw [← authored_eq]
  refine ⟨?_, ?_, ?_, by rw [visibilityPairs_eq_foldedPairs]⟩
  · by_cases h : ∀ d ∈ above rules.derived addr, ∃ e ∈ above rules.authored addr,
      Specificity.of d.1 ≤ Specificity.of e.1
    · rw [answer_of_authored law hrules haddr h]
      exact sup_idem _
    · push Not at h
      obtain ⟨d, hd, hless⟩ := h
      cases hbest : winner rules.derived addr with
      | none =>
        rw [winner, maxByKey_eq_none_iff] at hbest
        simp [hbest] at hd
      | some best =>
        rw [answer_of_derived law hrules haddr hbest fun e he => (hless e he).trans_le (winner_le hbest hd)]
        exact sup_eq_right.mpr le_sup_right
  · intro e he hcover hle
    refine answer_of_authored law hrules haddr fun d hd => ⟨e, mem_above.mpr ⟨he, hcover⟩, ?_⟩
    obtain ⟨rule, hrule, hpre⟩ := mem_above_derived.mp hd
    exact hpre ▸ hle rule d.2 hrule
  · intro rule vis hrule hless hmost
    have hmem : (rule.pre, vis) ∈ above rules.derived addr := mem_above_derived.mpr ⟨rule, hrule, rfl⟩
    cases hbest : winner rules.derived addr with
    | none =>
      rw [winner, maxByKey_eq_none_iff] at hbest
      simp [hbest] at hmem
    | some best =>
      have hbestMem := (maxByKey_eq_some_iff.mp hbest).mem
      obtain ⟨rule', hrule', hpre'⟩ := mem_above_derived.mp hbestMem
      have htie := le_antisymm (hpre' ▸ hmost rule' best.2 hrule') (winner_le hbest hmem)
      obtain rfl := hrules.derived_eq law haddr hbestMem hmem htie
      rw [answer_of_derived law hrules haddr hbest fun e he => hless e (mem_above.mp he).1 (mem_above.mp he).2]
      exact sup_comm _ _

end Answers

/-- A rule that is derived for `s3://b/x` and suppressed, below a hidden `s3://b/`. -/
def hiddenBucket : RuleSet :=
  ⟨[⟨⟨bucketX, shareRoot, some ⟨"s3", "b"⟩⟩, some .Suppressed⟩], [⟨bucketTop, .Hidden⟩]⟩

/-- What is below the rule is suppressed. -/
theorem authored_denials_stand_below :
    visibilityOfIn hiddenBucket.visibilityPairs bucketNine = mostRestrictiveVisibility .Hidden .Suppressed := by
  have htop : Canonical reference bucketTop := reference_canonical _ [[]] (by decide +kernel) (by simp [bucketTop])
  have hx : Canonical reference bucketX := reference_canonical _ [utf8 "x"] (by decide +kernel) (by simp [bucketX])
  have hnine : Canonical reference bucketNine :=
    reference_canonical _ (List.replicate 9 (utf8 "x")) (by decide +kernel) (by simp [bucketNine])
  have hrules : hiddenBucket.Admitted reference := by
    refine ⟨?_, ?_, by simp [hiddenBucket]⟩
    · intro rule hrule
      obtain rfl := mem_singleton.mp hrule
      exact ⟨hx, rfl⟩
    · intro rule hrule
      obtain rfl := mem_singleton.mp hrule
      exact ⟨htop, rfl⟩
  have hanswer : visibilityOfIn hiddenBucket.writtenEntries bucketNine = .Hidden := by decide +kernel
  rw [← hanswer]
  refine (authored_denials_stand reference_lawful hrules hnine).2.2.1
    ⟨⟨bucketX, shareRoot, some ⟨"s3", "b"⟩⟩, some .Suppressed⟩
    .Suppressed ⟨mem_singleton_self _, rfl, rfl, by decide +kernel⟩ (by decide +kernel) fun rule vis hrule => ?_
  obtain rfl := mem_singleton.mp hrule.mem
  exact le_rfl

end OvStorage.Alias.Visibility
