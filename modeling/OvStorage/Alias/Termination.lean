import OvStorage.Alias.Depth
import OvStorage.Lib.PrefixRewriting

/-!
# Every chain of accepted rules ends

`validate_alias_rules` walks the chains of the rules' own prefixes only, and with a cap on the hops. That is
enough: over the nodes of addresses the rules are a prefix rewriting `system`, a hop is its `next`
(`isSome_hopsFrom`), and the chains of a system end if those of its sources do.

This holds of rules that swap the segments of the prefix and keep those behind them (`Swapping`): with a target
that reads a drive letter or an empty authority into what it is given, a chain may come back.
-/

namespace OvStorage.Alias

open Address Select PrefixRewriting

/-- The projection has the segments of the target in place of those of the prefix, and those behind them. -/
structure Swaps (a : Parts) (rule : Rule) (v : Parts) : Prop where
  scheme : v.scheme = rule.2.scheme
  host : v.host = rule.2.host
  port : v.port = rule.2.port
  segs : decodedSegments v = decodedSegments rule.2.toParts ++ below a rule.1.toParts

/-- `replace_prefix` swaps the segments of each rule, whatever is behind them. -/
def Swapping (U : UrlCrate) (rules : List Rule) : Prop :=
  ∀ rule ∈ rules, ∀ a, Canonical U a → isAncestorOrSelf rule.1.toParts a.toParts = true →
    ∃ v, replacePrefix U a rule.1 rule.2 = .ok v ∧ Swaps a.toParts rule v.toParts

/-- The authority of an address, and its segments. -/
def word (a : Url) : (Bytes × Option Bytes × Option UInt16) × List Bytes :=
  ((a.scheme, a.host, a.port), decodedSegments a.toParts)

/-- The rule is above the word. -/
def Matches (s : (Bytes × Option Bytes × Option UInt16) × List Bytes) (rule : Rule) : Prop :=
  (word rule.1).1 = s.1 ∧ (word rule.1).2 <+: s.2

instance (s : (Bytes × Option Bytes × Option UInt16) × List Bytes) (rule : Rule) : Decidable (Matches s rule) :=
  inferInstanceAs (Decidable (_ ∧ _))

/-- `longest_matching_rule`, of segments. -/
def longestMatching (rules : List Rule) (s : (Bytes × Option Bytes × Option UInt16) × List Bytes) : Option Rule :=
  maxByKey (fun rule => Specificity.of rule.1) (rules.filter fun rule => decide (Matches s rule))

variable {rules : List Rule}

theorem longestMatching_spec {s : (Bytes × Option Bytes × Option UInt16) × List Bytes} {rule : Rule}
    (h : longestMatching rules s = some rule) : rule ∈ rules ∧ Matches s rule := by
  obtain ⟨hmem, hmatches⟩ := List.mem_filter.mp (maxByKey_eq_some_iff.mp h).mem
  exact ⟨hmem, of_decide_eq_true hmatches⟩

/-- What the rules do to the segments of addresses. -/
def system (rules : List Rule) : System (Bytes × Option Bytes × Option UInt16) Bytes Rule where
  source rule := word rule.1
  target rule := word rule.2
  select := longestMatching rules
  matches_select h := (longestMatching_spec h).2.imp_left Eq.symm
  stable d h hd := by
    obtain ⟨-, hplace, hpre⟩ := longestMatching_spec h
    refine maxByKey_filter_of_imp h
      (decide_eq_true ⟨hplace, List.prefix_take_iff.mpr ⟨hpre, hd⟩⟩) fun other _ hother => ?_
    obtain ⟨hplace', hpre'⟩ := of_decide_eq_true hother
    exact decide_eq_true ⟨hplace', (List.prefix_take_iff.mp hpre').1⟩

section Chains

variable {U : UrlCrate} {rules : List Rule} {a b : Url} {rule : Rule}

/-- The rule that is selected depends on the segments alone. -/
theorem longestMatching_word (law : U.Lawful) (hrules : Sound U rules) (ha : Canonical U a) :
    longestMatching rules (word a) = longestMatchingRule rules a := by
  refine congrArg (maxByKey _) (List.filter_congr fun rule hrule => ?_)
  obtain ⟨hpre, -, hquery⟩ := hrules rule hrule
  refine Bool.eq_iff_iff.mpr ?_
  rw [decide_eq_true_iff, isAncestorOrSelf_iff law hpre ha]
  constructor
  · rintro ⟨hplace, hsegs⟩
    obtain ⟨hscheme, hauthority⟩ := Prod.mk.inj hplace
    obtain ⟨hhost, hport⟩ := Prod.mk.inj hauthority
    exact ⟨hscheme, hhost, hport, hsegs, Or.inl hquery⟩
  · intro hcovers
    refine ⟨?_, hcovers.segs⟩
    exact Prod.ext hcovers.scheme (Prod.ext hcovers.host hcovers.port)

/-- A rule that swaps segments is applied as the system has it. -/
theorem next_word (law : U.Lawful) (hrules : Sound U rules) (hswaps : Swapping U rules) (ha : Canonical U a)
    (hrule : longestMatchingRule rules a = some rule) :
    ∃ b, hop U rules a = some b ∧ Canonical U b ∧ (system rules).next (word a) = some (word b) := by
  obtain ⟨hmem, hanc⟩ := longestMatchingRule_spec hrule
  obtain ⟨v, hv, hswap⟩ := hswaps rule hmem a ha hanc
  refine ⟨v, by simp [hop, hrule, hv, Except.toOption], replacePrefix_canonical law hv, ?_⟩
  rw [System.next, show (system rules).select (word a) = _
    from longestMatching_word law hrules ha, hrule, Option.map_some]
  refine congrArg some (Prod.ext ?_ hswap.segs.symm)
  exact Prod.ext hswap.scheme.symm (Prod.ext hswap.host.symm hswap.port.symm)

/-- A chain of rules is as long as that of the system. -/
theorem isSome_hopsFrom (law : U.Lawful) (hrules : Sound U rules) (hswaps : Swapping U rules) (ha : Canonical U a)
    (n : ℕ) :
    (hopsFrom U rules n a).isSome = ((system rules).iter n (word a)).isSome := by
  induction n generalizing a with
  | zero => rfl
  | succ n ih =>
    cases hrule : longestMatchingRule rules a with
    | none =>
      have hhop : hop U rules a = none := by simp [hop, hrule]
      have hnext : (system rules).next (word a) = none := by
        rw [System.next, show (system rules).select (word a) = _ from longestMatching_word law hrules ha, hrule]; rfl
      rw [hopsFrom, hhop, System.iter, hnext]
      rfl
    | some rule =>
      obtain ⟨b, hhop, hb, hnext⟩ := next_word law hrules hswaps ha hrule
      rw [hopsFrom, hhop, System.iter, hnext]
      exact ih hb

/-- The chain of a rule's own prefix is not endless, or its walk would have been refused. -/
theorem not_endless_source (law : U.Lawful) (hrules : Sound U rules) (hswaps : Swapping U rules)
    (hvalid : validateAliasRules U rules = .ok ()) (hmem : rule ∈ rules) : ¬(system rules).Endless (word rule.1) := by
  intro hendless
  have hlong : Overlong U rules rule.1 := by
    refine overlong_of_isSome ?_
    rw [isSome_hopsFrom law hrules hswaps (hrules rule hmem).1]
    exact hendless _
  obtain ⟨-, -, found, hwalk⟩ := validateRules_spec hvalid rule hmem
  obtain ⟨e, hrefused, -⟩ := tooLong_of_overlong hlong
  exact nomatch hwalk.symm.trans hrefused

/-- No chain of accepted rules is endless. -/
theorem exists_hopsFrom_eq_none (law : U.Lawful) (hrules : Sound U rules) (hswaps : Swapping U rules)
    (hvalid : validateAliasRules U rules = .ok ()) (ha : Canonical U a) : ∃ n, hopsFrom U rules n a = none := by
  by_contra hall
  refine System.ends (R := system rules) ?_ (word a) fun n => ?_
  · intro s rule hrule
    have hmem : rule ∈ rules := (longestMatching_spec hrule).1
    exact not_endless_source law hrules hswaps hvalid hmem
  · rw [← isSome_hopsFrom law hrules hswaps ha, Option.isSome_iff_ne_none]
    exact fun hnone => hall ⟨n, hnone⟩

/-- A chain that ends does so at an address that no rule is above. -/
theorem exists_last (hswaps : Swapping U rules) (hcanon : ∀ n b, hopsFrom U rules n a = some b → Canonical U b) {n : ℕ}
    (hn : hopsFrom U rules n a = none) :
    ∃ m z, hopsFrom U rules m a = some z ∧ ∀ rule ∈ rules, isAncestorOrSelf rule.1.toParts z.toParts = false := by
  induction n with
  | zero => cases hn
  | succ n ih =>
    rw [hopsFrom_add] at hn
    cases hz : hopsFrom U rules n a with
    | none => exact ih hz
    | some z =>
      refine ⟨n, z, hz, ?_⟩
      cases hrule : longestMatchingRule rules z with
      | none =>
        exact fun rule hmem => Bool.eq_false_iff.mpr
          (List.filter_eq_nil_iff.mp (maxByKey_eq_none_iff.mp hrule) rule hmem)
      | some rule =>
        obtain ⟨hmem, hanc⟩ := longestMatchingRule_spec hrule
        obtain ⟨v, hv, -⟩ := hswaps rule hmem z (hcanon n z hz) hanc
        rw [hz] at hn
        simp [hopsFrom, hop, hrule, hv, Except.toOption] at hn

theorem canonical_hopsFrom (law : U.Lawful) (ha : Canonical U a) {n : ℕ} (h : hopsFrom U rules n a = some b) :
    Canonical U b := by
  induction n generalizing a with
  | zero => exact Option.some.inj h ▸ ha
  | succ n ih =>
    obtain ⟨c, hc, hrest⟩ := Option.bind_eq_some_iff.mp h
    obtain ⟨rule, -, hreplace⟩ := hop_eq_some hc
    exact ih (replacePrefix_canonical law hreplace) hrest

/-- A chain that ends visits no address twice. -/
theorem hopsFrom_injective {k : ℕ} (hk : hopsFrom U rules k a = none) {m n : ℕ} (hmn : m < n)
    (hm : hopsFrom U rules m a = some b) :
    hopsFrom U rules n a ≠ some b := by
  intro hn
  obtain ⟨p, rfl⟩ := Nat.exists_eq_add_of_le hmn.le
  rw [hopsFrom_add, hm, Option.bind_some] at hn
  have hforever := hopsFrom_forever (show 0 < p by omega) hn k
  have hlate : (hopsFrom U rules (m + k) a).isSome = true := by rwa [hopsFrom_add, hm, Option.bind_some]
  have hsome := hopsFrom_le (Nat.le_add_left k m) hlate
  rw [hk] at hsome
  cases hsome

theorem exceedsCap_ne_cycles (a : Url) : exceedsCap a ≠ cycles a := by
  intro h
  have htext := (Error.mk.inj h).2
  rw [List.append_assoc, List.append_assoc] at htext
  exact absurd (List.append_cancel_left (List.append_cancel_left htext)) (by decide)

/-- A walk that the cycle check ends has come back to an address of its chain. -/
theorem walkFrom_cycles {interrupts : ℕ → Url → Url → Bool} {start current : Url} {left made : ℕ} {hops : List Rule}
    {seen : List Bytes} (h : walkFrom U rules interrupts start left current hops seen = .error (cycles start))
    (hcurrent : hopsFrom U rules made start = some current)
    (hseen : ∀ s ∈ seen, ∃ j < made, ∃ b, hopsFrom U rules j start = some b ∧ b.asStr = s) :
    ∃ m n b, m < n ∧ hopsFrom U rules m start = some b ∧ hopsFrom U rules n start = some b := by
  induction left generalizing made current hops seen with
  | zero =>
    unfold walkFrom at h
    split at h
    · cases h
    · dsimp only at h
      split_ifs at h
      exact absurd (Except.error.inj h) (exceedsCap_ne_cycles start)
  | succ left ih =>
    unfold walkFrom at h
    split at h
    · cases h
    · rename_i pre target hrule
      dsimp only at h
      split_ifs at h with hinterrupts hcycle
      · obtain ⟨j, hj, b, hb, hsame⟩ := hseen _ hcycle
        obtain rfl : b = current := asStr_inj hsame
        exact ⟨j, made, b, hj, hb, hcurrent⟩
      · split at h
        · rename_i e hreplace
          exact absurd (congrArg Error.code (Except.error.inj h)) (replacePrefix_code hreplace)
        · rename_i next hreplace
          have hhop : hop U rules current = some next := by simp [hop, hrule, hreplace, Except.toOption]
          have hnext : hopsFrom U rules (made + 1) start = some next := by
            rw [hopsFrom_add, hcurrent, Option.bind_some]
            simp [hopsFrom, hhop]
          refine ih h hnext fun s hs => ?_
          rcases List.mem_cons.mp hs with rfl | hs
          · exact ⟨made, Nat.lt_succ_self made, current, hcurrent, rfl⟩
          · obtain ⟨j, hj, hrest⟩ := hseen s hs
            exact ⟨j, Nat.lt_succ_of_lt hj, hrest⟩

end Chains

/-- **Every chain of accepted rules ends** at an address that no rule is above and visits no address twice, so that no
dispatch is ended by the cycle check. -/
theorem accepted_chains_end {U : UrlCrate} (law : U.Lawful) {rules : List Rule}
    (hcanon : ∀ rule ∈ rules, Canonical U rule.1 ∧ Canonical U rule.2) (hswaps : Swapping U rules)
    (hvalid : validateAliasRules U rules = .ok ()) {a : Url} (ha : Canonical U a) :
    (∃ n z, hopsFrom U rules n a = some z ∧ ∀ rule ∈ rules, isAncestorOrSelf rule.1.toParts z.toParts = false) ∧
      (∀ m n b, hopsFrom U rules m a = some b → hopsFrom U rules n a = some b → m = n) ∧
      (∀ rootRankFor, walkChain U rules a rootRankFor ≠ .error (cycles a)) ∧
      ∀ set : RuleSet, set.aliasPairsFor a = rules →
      ∀ rootInfoFor, walkChainAsync U set a rootInfoFor ≠ .error (cycles a) := by
  have hrules : Sound U rules := fun rule hrule =>
    ⟨(hcanon rule hrule).1, (hcanon rule hrule).2, (validateRules_spec hvalid rule hrule).1⟩
  obtain ⟨k, hk⟩ := exists_hopsFrom_eq_none law hrules hswaps hvalid ha
  have hwalk : ∀ interrupts, walkFrom U rules interrupts a MAX_ALIAS_HOPS a [] [] ≠ .error (cycles a) := by
    intro interrupts h
    obtain ⟨m, n, b, hmn, hm, hn⟩ := walkFrom_cycles h (show hopsFrom U rules 0 a = some a from rfl) (by simp)
    exact hopsFrom_injective hk hmn hm hn
  refine ⟨exists_last hswaps (fun _ _ h => canonical_hopsFrom law ha h) hk, ?_, fun _ => hwalk _, ?_⟩
  · intro m n b hm hn
    rcases Nat.lt_trichotomy m n with hlt | heq | hlt
    · exact absurd hn (hopsFrom_injective hk hlt hm)
    · exact heq
    · exact absurd hm (hopsFrom_injective hk hlt hn)
  · rintro set rfl rootInfoFor
    exact hwalk _

/-- The rules swap segments that target no root of a `file:` authority, and none from `x:/` to another root. -/
theorem swapping_of_targets {U : UrlCrate} (law : U.Lawful)
    (hcanon : ∀ rule ∈ rules, Canonical U rule.1 ∧ Canonical U rule.2)
    (htargets : ∀ rule ∈ rules, decodedSegments rule.2.toParts = [] → rule.2.scheme ≠ FILE ∧
      rule.1.hasAuthority = true) :
    Swapping U rules := by
  intro rule hrule a ha hanc
  obtain ⟨hpre, htarget⟩ := hcanon rule hrule
  have hbar : ¬TakesBar a.toParts rule.1.toParts rule.2.toParts := fun h => (htargets rule hrule h.2.1).1 h.1
  have hcolon : ¬TakesColon a.toParts rule.1.toParts rule.2.toParts := fun h => (htargets rule hrule h.2.1).1 h.1
  obtain ⟨v, hv, hscheme, hhost, hport, -, hsegs⟩ := replacePrefix_landing law ha hpre htarget hanc fun h =>
    Bool.false_ne_true (h.1.1.symm.trans (htargets rule hrule h.2).2)
  refine ⟨v, hv, hscheme, hhost.trans ?_, hport, hsegs.trans ?_⟩
  · rw [landedHost, if_neg (not_or.mpr ⟨hbar, hcolon⟩)]
  · rw [landedSegs, if_neg hbar]

/-- The rule `s3://b/x` → `s3://b/` takes one segment off after another, and then ends. -/
theorem accepted_chains_end_nine :
    (∃ n z, hopsFrom reference [(bucketX, bucketTop)] n bucketNine = some z ∧
        ∀ rule ∈ [(bucketX, bucketTop)], isAncestorOrSelf rule.1.toParts z.toParts = false) ∧
      (∀ m n b, hopsFrom reference [(bucketX, bucketTop)] m bucketNine = some b →
        hopsFrom reference [(bucketX, bucketTop)] n bucketNine = some b → m = n) ∧
      (∀ rootRankFor, walkChain reference [(bucketX, bucketTop)] bucketNine rootRankFor ≠ .error (cycles bucketNine)) ∧
      ∀ set : RuleSet, set.aliasPairsFor bucketNine = [(bucketX, bucketTop)] →
        ∀ rootInfoFor, walkChainAsync reference set bucketNine rootInfoFor ≠ .error (cycles bucketNine) := by
  have hcanon : ∀ rule ∈ [(bucketX, bucketTop)], Canonical reference rule.1 ∧ Canonical reference rule.2 := by
    intro rule hrule
    obtain rfl := List.mem_singleton.mp hrule
    exact ⟨reference_canonical _ [utf8 "x"] (by decide +kernel) (by simp [bucketX]),
      reference_canonical _ [[]] (by decide +kernel) (by simp [bucketTop])⟩
  refine accepted_chains_end reference_lawful hcanon (swapping_of_targets reference_lawful hcanon ?_)
    (by decide +kernel)
    (reference_canonical _ (List.replicate 9 (utf8 "x")) (by decide +kernel) (by simp [bucketNine]))
  intro rule hrule _
  obtain rfl := List.mem_singleton.mp hrule
  exact ⟨by decide, rfl⟩

end OvStorage.Alias
