import OvStorage.Alias.Chain

/-!
# How far eager validation reaches

`validate_alias_rules` walks the chains of the rules' own prefixes. An address below one of them
brings segments with it, and these can select more specific rules at later hops: the chain is
then another one, and it can be longer than any that was walked.

## The model

A hop reads only the segments of the rule it applies, and the first one behind them where a
`file:` target can take it for a drive letter. So an address can be cut behind what its chain
reads (`Cut`), and what is left is made of the rules' own segments and of drive letters
(`Composed`). A hop that strips the empty authority of `x:///…` by a rule from `x:/` onto a root
is the one place where the result is not a matter of segments (`Strips`).

## What is proved

`tooLong_iff_composed`: dispatch is never refused as too long exactly if no composed address starts a
chain of nine rules.
-/

namespace OvStorage.Alias

open Address SegList Select List

/-! ### Cutting an address short -/

/-- The second address is the first one without the segments behind so many. -/
structure Cut (d : ℕ) (a b : Parts) : Prop where
  scheme : b.scheme = a.scheme
  host : b.host = a.host
  port : b.port = a.port
  hasAuthority : b.hasAuthority = a.hasAuthority
  segs : decodedSegments b = (decodedSegments a).take d

section Cutting

variable {U : UrlCrate} {a b p t : Url} {d k : ℕ}

/-- A canonical address can be cut anywhere. -/
theorem exists_cut (law : U.Lawful) (ha : Canonical U a) (d : ℕ) :
    ∃ b, Canonical U b ∧ Cut d a.toParts b.toParts ∧ b.query = a.query := by
  obtain ⟨as, has⟩ := ha.shape law
  have hset : Settled ((nodeSegs as).take d ++ [[]]) :=
    Settled.append (fun s hs => nodeSegs_names has.settled s (mem_of_mem_take hs))
      (show Settled [[]] from Or.inl rfl)
  have hsep : SepFree slash ((nodeSegs as).take d ++ [[]]) := by
    intro s hs
    rcases mem_append.mp hs with hs | hs
    · exact has.nodeSegs_sepFree s (mem_of_mem_take hs)
    · rw [mem_singleton.mp hs]
      exact not_mem_nil
  have hfix : PathFixed a.scheme (pieces slash (escapedSegs a.toParts ((nodeSegs as).take d ++ [[]]))) :=
    pathFixed_escaped a.toParts (by simp) hsep hset
  have hparts : (a.withPath _ hfix).toParts =
      { a.toParts with
        path := pieces slash (escapedSegs a.toParts ((nodeSegs as).take d ++ [[]]))
        query := a.query } := rfl
  obtain ⟨hcanon, hsegs⟩ := canonical_withSegs law ha (Or.inr rfl) hparts (by simp) hsep hset
  refine ⟨a.withPath _ hfix, hcanon, ⟨rfl, rfl, rfl, rfl, ?_⟩, rfl⟩
  rw [hsegs, nodeSegs_concat_nil, has.decodedSegments]

/-- Above what is left of an address is what was above it and is not longer. -/
theorem Cut.isAncestorOrSelf_iff (h : Cut d a.toParts b.toParts) (law : U.Lawful) (ha : Canonical U a)
    (hb : Canonical U b) (hp : Canonical U p) (hquery : p.query = none) :
    isAncestorOrSelf p.toParts b.toParts = true ↔
      isAncestorOrSelf p.toParts a.toParts = true ∧ (decodedSegments p.toParts).length ≤ d := by
  rw [Address.isAncestorOrSelf_iff law hp hb, Address.isAncestorOrSelf_iff law hp ha]
  constructor
  · intro hcov
    have hsegs : decodedSegments p.toParts <+: (decodedSegments a.toParts).take d := h.segs ▸ hcov.segs
    rw [prefix_take_iff] at hsegs
    exact ⟨⟨hcov.scheme.trans h.scheme, hcov.host.trans h.host, hcov.port.trans h.port,
      hsegs.1, Or.inl hquery⟩, hsegs.2⟩
  · rintro ⟨hcov, hlen⟩
    refine ⟨hcov.scheme.trans h.scheme.symm, hcov.host.trans h.host.symm,
      hcov.port.trans h.port.symm, ?_, Or.inl hquery⟩
    show decodedSegments p.toParts <+: decodedSegments b.toParts
    rw [h.segs, prefix_take_iff]
    exact ⟨hcov.segs, hlen⟩

theorem Cut.below_eq (h : Cut ((decodedSegments p.toParts).length + k) a.toParts b.toParts) :
    below b.toParts p.toParts = (below a.toParts p.toParts).take k := by
  rw [below, below, h.segs, drop_take, Nat.add_sub_cancel_left]

theorem Cut.splitsAuthority_iff (h : Cut d a.toParts b.toParts) :
    SplitsAuthority b.toParts p.toParts ↔ SplitsAuthority a.toParts p.toParts := by
  rw [SplitsAuthority, SplitsAuthority, h.hasAuthority]

/-- A drive letter is still taken for one if it is left. -/
theorem Cut.takes_iff (h : Cut ((decodedSegments p.toParts).length + k) a.toParts b.toParts)
    (hk : TakesBar a.toParts p.toParts t.toParts ∨ TakesColon a.toParts p.toParts t.toParts → 0 < k) :
    (TakesBar b.toParts p.toParts t.toParts ↔ TakesBar a.toParts p.toParts t.toParts) ∧
      (TakesColon b.toParts p.toParts t.toParts ↔ TakesColon a.toParts p.toParts t.toParts) := by
  by_cases hzero : k = 0
  · have hno : ¬ (TakesBar a.toParts p.toParts t.toParts ∨ TakesColon a.toParts p.toParts t.toParts) := by
      intro htakes
      have := hk htakes
      omega
    rw [not_or] at hno
    have hnil : below b.toParts p.toParts = [] := by
      rw [h.below_eq, hzero, take_zero]
    exact ⟨iff_of_false (by simp [TakesBar, hnil]) hno.1, iff_of_false (by simp [TakesColon, hnil]) hno.2⟩
  · have hhead : (below b.toParts p.toParts).head? = (below a.toParts p.toParts).head? := by
      rw [h.below_eq, List.head?_take, if_neg hzero]
    rw [TakesBar, TakesBar, TakesColon, TakesColon, h.scheme, h.host, hhead]
    exact ⟨Iff.rfl, Iff.rfl⟩

theorem writtenSegs_take (scheme : Bytes) (ss : List Bytes) (k : ℕ) :
    writtenSegs scheme (ss.take k) = (writtenSegs scheme ss).take k := by
  cases ss with
  | nil => simp [writtenSegs]
  | cons s ss =>
    cases k with
    | zero => rfl
    | succ k =>
      rw [take_succ_cons, writtenSegs, writtenSegs]
      split_ifs <;> rfl

/-- What is cut off an address is cut off its projection. -/
theorem Cut.replacePrefix (h : Cut ((decodedSegments p.toParts).length + k) a.toParts b.toParts) (law : U.Lawful)
    (ha : Canonical U a) (hb : Canonical U b) (hp : Canonical U p) (hquery : p.query = none) (ht : Canonical U t)
    (hanc : isAncestorOrSelf p.toParts a.toParts = true)
    (hroot : ¬ (SplitsAuthority a.toParts p.toParts ∧ decodedSegments t.toParts = []))
    (hk : TakesBar a.toParts p.toParts t.toParts ∨ TakesColon a.toParts p.toParts t.toParts → 0 < k) {v : Url}
    (hv : replacePrefix U a p t = .ok v) :
    decodedSegments v.toParts = landedSegs a.toParts p.toParts t.toParts ∧
      ∃ w, replacePrefix U b p t = .ok w ∧ Cut ((decodedSegments t.toParts).length + k) v.toParts w.toParts := by
  have hancb := (h.isAncestorOrSelf_iff law ha hb hp hquery).mpr ⟨hanc, Nat.le_add_right _ _⟩
  obtain ⟨v', hv', hscheme, hhost, hport, hauth, hsegs⟩ := replacePrefix_landing law ha hp ht hanc hroot
  obtain rfl : v' = v := Except.ok.inj (hv'.symm.trans hv)
  rw [← h.splitsAuthority_iff] at hroot
  obtain ⟨w, hw, hwscheme, hwhost, hwport, hwauth, hwsegs⟩ := replacePrefix_landing law hb hp ht hancb hroot
  obtain ⟨hbar, hcolon⟩ := h.takes_iff hk
  refine ⟨hsegs, w, hw, hwscheme.trans hscheme.symm, ?_, hwport.trans hport.symm, hwauth.trans hauth.symm, ?_⟩
  · rw [hwhost, hhost, landedHost, landedHost]
    simp only [hbar, hcolon]
  · rw [hwsegs, hsegs, landedSegs, landedSegs, h.below_eq]
    by_cases htakes : TakesBar a.toParts p.toParts t.toParts
    · rw [if_pos htakes, if_pos (hbar.mpr htakes), htakes.2.1, writtenSegs_take]
      simp
    · rw [if_neg htakes, if_neg (mt hbar.mp htakes), take_length_add_append]

end Cutting

/-! ### What a chain reads -/

/-- What validation promises of the rules. -/
def Sound (U : UrlCrate) (rules : List Rule) : Prop :=
  ∀ rule ∈ rules, Canonical U rule.1 ∧ Canonical U rule.2 ∧ rule.1.query = none

/-- The most segments that a rule matches. -/
def deepest (rules : List Rule) : ℕ := rules.foldr (fun rule most => max (decodedSegments rule.1.toParts).length most) 0

/-- The segment is one that a rule matches, or a drive letter. -/
def Spelled (rules : List Rule) (s : Bytes) : Prop :=
  (∃ rule ∈ rules, s ∈ decodedSegments rule.1.toParts) ∨ BarDrive s ∨ ColonDrive s

/-- The address is below a rule and made of segments that the rules match and of drive letters,
at most nine times as many as a rule matches and one more. -/
structure Composed (rules : List Rule) (a : Url) : Prop where
  under : ∃ rule ∈ rules, isAncestorOrSelf rule.1.toParts a.toParts = true
  segs : ∀ s ∈ decodedSegments a.toParts, Spelled rules s
  few : (decodedSegments a.toParts).length ≤ (MAX_ALIAS_HOPS + 1) * (deepest rules + 1)

/-- One of the first hops strips the empty authority of `x:///…` by a rule from `x:/` onto a root. -/
def StripsWithin (U : UrlCrate) (rules : List Rule) (n : ℕ) (a : Url) : Prop :=
  ∃ k < n, ∃ b rule, hopsFrom U rules k a = some b ∧ longestMatchingRule rules b = some rule ∧
    SplitsAuthority b.toParts rule.1.toParts ∧ decodedSegments rule.2.toParts = []

section Reads

variable {U : UrlCrate} {rules : List Rule} {a b z : Url} {rule : Rule} {d n : ℕ}

theorem le_deepest (h : rule ∈ rules) : (decodedSegments rule.1.toParts).length ≤ deepest rules := by
  induction rules with
  | nil => cases h
  | cons first rest ih =>
    rw [deepest, foldr_cons, ← deepest]
    rcases mem_cons.mp h with rfl | h
    · exact le_max_left _ _
    · exact (ih h).trans (le_max_right _ _)

theorem longestMatchingRule_spec (h : longestMatchingRule rules a = some rule) :
    rule ∈ rules ∧ isAncestorOrSelf rule.1.toParts a.toParts = true :=
  mem_filter.mp (maxByKey_eq_some_iff.mp h).mem

/-- The rule that was selected stays selected while it matches. -/
theorem Cut.longestMatchingRule (h : Cut d a.toParts b.toParts) (law : U.Lawful) (hrules : Sound U rules)
    (ha : Canonical U a) (hb : Canonical U b) (hrule : longestMatchingRule rules a = some rule)
    (hd : (decodedSegments rule.1.toParts).length ≤ d) : longestMatchingRule rules b = some rule := by
  obtain ⟨hmem, hanc⟩ := longestMatchingRule_spec hrule
  have hiff : ∀ other ∈ rules, isAncestorOrSelf other.1.toParts b.toParts = true ↔
      isAncestorOrSelf other.1.toParts a.toParts = true ∧ (decodedSegments other.1.toParts).length ≤ d :=
    fun other hother => h.isAncestorOrSelf_iff law ha hb (hrules other hother).1 (hrules other hother).2.2
  exact maxByKey_filter_of_imp hrule ((hiff rule hmem).mpr ⟨hanc, hd⟩) fun other hother hb =>
    ((hiff other hother).mp hb).1

/-- An address under a prefix begins with its segments. -/
theorem segs_of_isAncestorOrSelf (law : U.Lawful) (hb : Canonical U b) (ha : Canonical U a)
    (h : isAncestorOrSelf b.toParts a.toParts = true) :
    decodedSegments a.toParts = decodedSegments b.toParts ++ below a.toParts b.toParts := by
  obtain ⟨rest, hrest⟩ := ((isAncestorOrSelf_iff law hb ha).mp h).segs
  have hrest : decodedSegments b.toParts ++ rest = decodedSegments a.toParts := hrest
  rw [below, ← hrest, drop_left]

theorem hop_eq_some (h : hop U rules a = some b) :
    ∃ rule, longestMatchingRule rules a = some rule ∧ replacePrefix U a rule.1 rule.2 = .ok b := by
  unfold hop at h
  cases hrule : longestMatchingRule rules a with
  | none => simp [hrule] at h
  | some rule =>
    rw [hrule] at h
    dsimp only at h
    cases hreplace : replacePrefix U a rule.1 rule.2 with
    | error e => simp [hreplace, Except.toOption] at h
    | ok v => exact ⟨rule, rfl, by simpa [hreplace, Except.toOption] using h⟩

theorem replacePrefix_canonical (law : U.Lawful) {p t v : Url} (h : replacePrefix U a p t = .ok v) : Canonical U v := by
  unfold replacePrefix at h
  split at h
  · cases h
  · exact addressParse_canonical law h

/-- How much of the address below the rule has to be left, for so much of the projection. -/
def keptBelow (a : Parts) (rule : Rule) (d : ℕ) : ℕ :=
  if TakesBar a rule.1.toParts rule.2.toParts ∨ TakesColon a rule.1.toParts rule.2.toParts then max d 1
  else d - (decodedSegments rule.2.toParts).length

theorem keptBelow_pos (a : Parts) (rule : Rule) (d : ℕ)
    (h : TakesBar a rule.1.toParts rule.2.toParts ∨ TakesColon a rule.1.toParts rule.2.toParts) :
    0 < keptBelow a rule d := by
  rw [keptBelow, if_pos h]
  omega

theorem keptBelow_le (a : Parts) (rule : Rule) (d : ℕ) : keptBelow a rule d ≤ d + 1 := by
  unfold keptBelow
  split_ifs <;> omega

theorem le_keptBelow (a : Parts) (rule : Rule) (d : ℕ) :
    d ≤ (decodedSegments rule.2.toParts).length + keptBelow a rule d := by
  unfold keptBelow
  split_ifs <;> omega

/-- What is kept below the rule is a drive letter and what the projection keeps. -/
theorem spelled_keptBelow (hsegs : decodedSegments b.toParts = landedSegs a.toParts rule.1.toParts rule.2.toParts)
    (h : ∀ s ∈ (decodedSegments b.toParts).take d, Spelled rules s) :
    ∀ s ∈ (below a.toParts rule.1.toParts).take (keptBelow a.toParts rule d), Spelled rules s := by
  intro s hs
  rw [hsegs, landedSegs] at h
  unfold keptBelow at hs
  by_cases hbar : TakesBar a.toParts rule.1.toParts rule.2.toParts
  · obtain ⟨x, hx, hdrive⟩ := hbar.2.2.2
    obtain ⟨xs, hxs⟩ := List.head?_eq_some_iff.mp hx
    rw [if_pos hbar, hxs, writtenSegs, if_pos ⟨hbar.1, hdrive⟩] at h
    rw [if_pos (Or.inl hbar), hxs] at hs
    cases d with
    | zero =>
      obtain rfl : s = x := by simpa using hs
      exact Or.inr (Or.inl hdrive)
    | succ d =>
      rw [Nat.max_eq_left (by omega), take_succ_cons] at hs
      rw [take_succ_cons] at h
      rcases mem_cons.mp hs with rfl | hs
      · exact Or.inr (Or.inl hdrive)
      · exact h s (mem_cons_of_mem _ hs)
  · rw [if_neg hbar] at h
    by_cases hcolon : TakesColon a.toParts rule.1.toParts rule.2.toParts
    · obtain ⟨x, hx, hdrive⟩ := hcolon.2.2.2
      obtain ⟨xs, hxs⟩ := List.head?_eq_some_iff.mp hx
      rw [hcolon.2.1, nil_append, hxs] at h
      rw [if_pos (Or.inr hcolon), hxs] at hs
      cases d with
      | zero =>
        obtain rfl : s = x := by simpa using hs
        exact Or.inr (Or.inr hdrive)
      | succ d =>
        rw [Nat.max_eq_left (by omega)] at hs
        exact h s hs
    · rw [if_neg (by tauto)] at hs
      refine h s ?_
      rw [take_append]
      exact mem_append_right _ hs

/-- A chain reads so many segments of the address it starts at: they are spelled by the rules, and
whatever is cut behind them, the chain goes on as far. -/
def Needs (U : UrlCrate) (rules : List Rule) (n d : ℕ) (a : Url) : Prop :=
  d ≤ (n + 1) * (deepest rules + 1) ∧ (∀ s ∈ (decodedSegments a.toParts).take d, Spelled rules s) ∧
    ∀ e ≥ d, ∀ b, Canonical U b → Cut e a.toParts b.toParts →
      ∃ z, hopsFrom U rules n b = some z ∧ longestMatchingRule rules z ≠ none

/-- The last rule of a chain reads its own segments. -/
theorem needs_zero (law : U.Lawful) (hrules : Sound U rules) (ha : Canonical U a)
    (hrule : longestMatchingRule rules a = some rule) :
    Needs U rules 0 (decodedSegments rule.1.toParts).length a := by
  obtain ⟨hmem, hanc⟩ := longestMatchingRule_spec hrule
  refine ⟨?_, ?_, ?_⟩
  · have := le_deepest hmem
    omega
  · intro s hs
    rw [segs_of_isAncestorOrSelf law (hrules rule hmem).1 ha hanc, take_left] at hs
    exact Or.inl ⟨rule, hmem, hs⟩
  · intro e he b hb hcut
    refine ⟨b, rfl, ?_⟩
    rw [hcut.longestMatchingRule law hrules ha hb hrule he]
    simp

/-- A hop reads its rule's segments, a drive letter, and what the chain behind it reads. -/
theorem needs_succ (law : U.Lawful) (hrules : Sound U rules) (ha : Canonical U a)
    (hrule : longestMatchingRule rules a = some rule) (hv : replacePrefix U a rule.1 rule.2 = .ok b)
    (hroot : ¬ (SplitsAuthority a.toParts rule.1.toParts ∧ decodedSegments rule.2.toParts = []))
    (h : Needs U rules n d b) :
    Needs U rules (n + 1) ((decodedSegments rule.1.toParts).length + keptBelow a.toParts rule d) a := by
  obtain ⟨hmem, hanc⟩ := longestMatchingRule_spec hrule
  obtain ⟨hpre, htarget, hquery⟩ := hrules rule hmem
  obtain ⟨hle, hspelled, hgoes⟩ := h
  have hland : ∀ {k w}, keptBelow a.toParts rule d ≤ k → Canonical U w →
      Cut ((decodedSegments rule.1.toParts).length + k) a.toParts w.toParts → _ := fun hk hw hcut =>
    hcut.replacePrefix law ha hw hpre hquery htarget hanc hroot
      (fun htakes => (keptBelow_pos a.toParts rule d htakes).trans_le hk) hv
  have hsegs : decodedSegments b.toParts = landedSegs a.toParts rule.1.toParts rule.2.toParts := by
    obtain ⟨w, hw, hcut, -⟩ := exists_cut law ha ((decodedSegments rule.1.toParts).length + keptBelow a.toParts rule d)
    exact (hland le_rfl hw hcut).1
  refine ⟨?_, ?_, ?_⟩
  · have h1 := le_deepest hmem
    have h2 := keptBelow_le a.toParts rule d
    rw [Nat.succ_mul]
    omega
  · intro s hs
    rw [segs_of_isAncestorOrSelf law hpre ha hanc, take_length_add_append, mem_append] at hs
    rcases hs with hs | hs
    · exact Or.inl ⟨rule, hmem, hs⟩
    · exact spelled_keptBelow hsegs hspelled s hs
  · intro e he w hw hcut
    obtain ⟨k, rfl⟩ := Nat.exists_eq_add_of_le (show (decodedSegments rule.1.toParts).length ≤ e by omega)
    obtain ⟨-, v, hreplace, hrest⟩ := hland (show keptBelow a.toParts rule d ≤ k by omega) hw hcut
    have hhop : hop U rules w = some v := by
      rw [hop, hcut.longestMatchingRule law hrules ha hw hrule (by omega)]
      simp [hreplace, Except.toOption]
    have henough := le_keptBelow a.toParts rule d
    obtain ⟨z, hz, hmatch⟩ := hgoes _ (by omega) v (replacePrefix_canonical law hreplace) hrest
    exact ⟨z, by rw [hopsFrom, hhop, Option.bind_some, hz], hmatch⟩

/-- Every chain needs only a part of its address, unless it strips an authority on the way. -/
theorem exists_needed (law : U.Lawful) (hrules : Sound U rules) (ha : Canonical U a)
    (hstrips : ¬ StripsWithin U rules n a) (h : hopsFrom U rules n a = some z)
    (hz : longestMatchingRule rules z ≠ none) : ∃ d, Needs U rules n d a := by
  induction n generalizing a with
  | zero =>
    obtain rfl : a = z := Option.some.inj h
    obtain ⟨rule, hrule⟩ := Option.ne_none_iff_exists'.mp hz
    exact ⟨_, needs_zero law hrules ha hrule⟩
  | succ n ih =>
    obtain ⟨b, hb, hrest⟩ := Option.bind_eq_some_iff.mp h
    obtain ⟨rule, hrule, hreplace⟩ := hop_eq_some hb
    have hroot : ¬ (SplitsAuthority a.toParts rule.1.toParts ∧ decodedSegments rule.2.toParts = []) :=
      fun hcut => hstrips ⟨0, Nat.succ_pos n, a, rule, rfl, hrule, hcut.1, hcut.2⟩
    have hstrips' : ¬ StripsWithin U rules n b := by
      rintro ⟨k, hk, c, rule', hc, hmatch⟩
      refine hstrips ⟨k + 1, by omega, c, rule', ?_, hmatch⟩
      rw [hopsFrom, hb, Option.bind_some, hc]
    obtain ⟨d, hd⟩ := ih (replacePrefix_canonical law hreplace) hstrips' hrest
    exact ⟨_, needs_succ law hrules ha hrule hreplace hroot hd⟩

/-- An overlong chain starts at a composed address too. -/
theorem exists_composed (law : U.Lawful) (hrules : Sound U rules) (ha : Canonical U a)
    (hstrips : ¬ StripsWithin U rules MAX_ALIAS_HOPS a) (h : Overlong U rules a) :
    ∃ b, Canonical U b ∧ b.query = a.query ∧ Composed rules b ∧ Overlong U rules b := by
  obtain ⟨z, hz, hmatch⟩ := h
  obtain ⟨d, hle, hspelled, hgoes⟩ := exists_needed law hrules ha hstrips hz hmatch
  obtain ⟨b, hb, hcut, hquery⟩ := exists_cut law ha d
  obtain ⟨y, hy, hlast⟩ := hgoes d le_rfl b hb hcut
  refine ⟨b, hb, hquery, ⟨?_, ?_, ?_⟩, y, hy, hlast⟩
  · obtain ⟨c, hc, -⟩ := Option.bind_eq_some_iff.mp (show (hop U rules b).bind (hopsFrom U rules 7) = some y from hy)
    obtain ⟨rule, hrule, -⟩ := hop_eq_some hc
    exact ⟨rule, longestMatchingRule_spec hrule⟩
  · rw [hcut.segs]
    exact hspelled
  · rw [hcut.segs, length_take]
    omega

end Reads

/-! ### Dispatch -/

/-- The walk is refused as too long. -/
def TooLong (result : Except Error ResolvedAddress) : Prop := ∃ e, result = .error e ∧ e.code = .AliasChainTooLong

/-- No address that validation would have to walk as well starts a chain of nine rules. -/
def Covered (U : UrlCrate) (rules : List Rule) (among : Url → Prop) : Prop :=
  ∀ addr, Canonical U addr → among addr → Composed rules addr ∨ StripsWithin U rules MAX_ALIAS_HOPS addr →
    ¬ Overlong U rules addr

section Dispatch

variable {U : UrlCrate}

variable {rules : List Rule}

/-- The walk from an address, for some interruptions. -/
theorem overlong_of_tooLong {interrupts : ℕ → Url → Url → Bool} {a : Url}
    (h : TooLong (walkFrom U rules interrupts a MAX_ALIAS_HOPS a [] [])) : Overlong U rules a := by
  obtain ⟨e, he, hcode⟩ := h
  exact walkFrom_tooLong he hcode (Nat.zero_add _) rfl (by simp)

theorem tooLong_of_overlong {a : Url} (h : Overlong U rules a) :
    TooLong (walkFrom U rules (fun _ _ _ => false) a MAX_ALIAS_HOPS a [] []) := by
  obtain ⟨z, hz, hmatch⟩ := h
  exact walkFrom_of_overlong hz hmatch

/-- Dispatch is never refused as too long exactly if no composed address starts a chain of nine
rules, of all the rules or, where the query sets the generated ones aside, of the authored ones. -/
theorem tooLong_iff_composed (law : U.Lawful) {rules : RuleSet}
    (hcanon : ∀ rule ∈ rules.aliases, Canonical U rule.pre ∧ Canonical U rule.target)
    (hvalid : validateAliasRules U rules.aliasPairs = .ok ()) :
    ((∀ addr, Canonical U addr → ∀ rootRankFor, ¬ TooLong (walkChain U rules.aliasPairs addr rootRankFor)) ∧
      ∀ addr, Canonical U addr → ∀ rootInfoFor, ¬ TooLong (walkChainAsync U rules addr rootInfoFor)) ↔
    Covered U rules.aliasPairs (fun _ => True) ∧
      Covered U rules.authoredPairs fun addr => Routing.generatedRuleMayAnswer addr.toParts = false := by
  have hsound : Sound U rules.aliasPairs := by
    intro pair hpair
    obtain ⟨rule, hrule, rfl⟩ := mem_map.mp hpair
    obtain ⟨hpre, htarget⟩ := hcanon rule hrule
    exact ⟨hpre, htarget, (validateRules_spec hvalid _ hpair).1⟩
  have hauthored : Sound U rules.authoredPairs := fun pair hpair => hsound pair (authoredPairs_subset rules hpair)
  have hmay : ∀ {a b : Url}, b.query = a.query →
      Routing.generatedRuleMayAnswer b.toParts = Routing.generatedRuleMayAnswer a.toParts := by
    intro a b hquery
    rw [Routing.generatedRuleMayAnswer, hquery, Routing.generatedRuleMayAnswer]
  -- what is covered among addresses of some queries is never overlong there
  have hnever : ∀ {pairs : List Rule} {among : Url → Prop}, Sound U pairs → Covered U pairs among →
      (∀ a b : Url, b.query = a.query → among a → among b) → ∀ a, Canonical U a → among a → ¬ Overlong U pairs a := by
    intro pairs among hpairs hcovered hquery a ha hamong hlong
    by_cases hstrips : StripsWithin U pairs MAX_ALIAS_HOPS a
    · exact hcovered a ha hamong (Or.inr hstrips) hlong
    · obtain ⟨b, hb, hsame, hcomposed, hlong'⟩ := exists_composed law hpairs ha hstrips hlong
      exact hcovered b hb (hquery a b hsame hamong) (Or.inl hcomposed) hlong'
  constructor
  · rintro ⟨hsync, hasync⟩
    refine ⟨fun addr haddr _ _ hlong => hsync addr haddr (fun _ _ => none) (tooLong_of_overlong hlong), ?_⟩
    intro addr haddr hquery _ hlong
    refine hasync addr haddr (fun _ _ => .error ⟨.NoRoute, []⟩) ?_
    have := tooLong_of_overlong hlong
    simpa [walkChainAsync, RuleSet.aliasPairsFor, hquery] using this
  · rintro ⟨hall, hsome⟩
    have hplain := hnever hsound hall fun _ _ _ h => h
    refine ⟨fun addr haddr rootRankFor hlong => hplain addr haddr trivial (overlong_of_tooLong hlong), ?_⟩
    intro addr haddr rootInfoFor hlong
    have hwalk := overlong_of_tooLong hlong
    unfold RuleSet.aliasPairsFor at hwalk
    split_ifs at hwalk with hquery
    · exact hplain addr haddr trivial hwalk
    · refine hnever hauthored hsome ?_ addr haddr (by simpa using hquery) hwalk
      intro a b hsame ha
      rw [hmay hsame, ha]

end Dispatch

/-- The rules `s3://b/p` → `file://server/share` alone. -/
def toShare : RuleSet := ⟨[⟨bucketPart, shareRoot, none⟩]⟩

/-- Where one rule leaves its scheme for good, nothing is refused as too long. -/
theorem tooLong_iff_composed_toShare :
    (∀ addr, Canonical reference addr →
      ∀ rootRankFor, ¬ TooLong (walkChain reference toShare.aliasPairs addr rootRankFor)) ∧
      ∀ addr, Canonical reference addr →
      ∀ rootInfoFor, ¬ TooLong (walkChainAsync reference toShare addr rootInfoFor) := by
  have hpre : Canonical reference bucketPart :=
    reference_canonical _ [utf8 "p"] (by decide +kernel) (by simp [bucketPart])
  have htarget : Canonical reference shareRoot :=
    reference_canonical _ [utf8 "share"] (by decide +kernel) (by simp [shareRoot])
  -- the second hop would need a rule for a `file:` address
  have hshort : ∀ addr, Canonical reference addr → ¬ Overlong reference [(bucketPart, shareRoot)] addr := by
    rintro addr haddr ⟨z, hz, -⟩
    obtain ⟨b, hb, hz⟩ :=
      Option.bind_eq_some_iff.mp (show (hop reference _ addr).bind (hopsFrom reference _ 7) = some z from hz)
    obtain ⟨c, hc, -⟩ :=
      Option.bind_eq_some_iff.mp (show (hop reference _ b).bind (hopsFrom reference _ 6) = some z from hz)
    obtain ⟨rule, hrule, hreplace⟩ := hop_eq_some hb
    obtain ⟨rule', hrule', -⟩ := hop_eq_some hc
    obtain ⟨hmem, hanc⟩ := longestMatchingRule_spec hrule
    obtain ⟨hmem', hanc'⟩ := longestMatchingRule_spec hrule'
    obtain rfl := mem_singleton.mp hmem
    obtain rfl := mem_singleton.mp hmem'
    obtain ⟨v, hv, hscheme, -⟩ := replacePrefix_landing reference_lawful haddr hpre htarget hanc
      (fun h => absurd h.1.1 (by decide))
    obtain rfl : v = b := Except.ok.inj (hv.symm.trans hreplace)
    have hsame : bucketPart.scheme = v.scheme :=
      ((isAncestorOrSelf_iff reference_lawful hpre (replacePrefix_canonical reference_lawful hv)).mp hanc').scheme
    exact absurd (hsame.trans hscheme) (by decide)
  refine (@tooLong_iff_composed reference reference_lawful toShare ?_ (by decide +kernel)).mpr ⟨?_, ?_⟩
  · intro rule hrule
    obtain rfl := mem_singleton.mp hrule
    exact ⟨hpre, htarget⟩
  · exact fun addr haddr _ _ => hshort addr haddr
  · exact fun addr haddr _ _ => hshort addr haddr

/-- `s3://b/x`. -/
def bucketX : Url := ⟨⟨utf8 "s3", true, [], none, some (utf8 "b"), none, utf8 "/x", none, none⟩, by decide +kernel⟩

theorem wellFormed_bucketTop :
    (⟨utf8 "s3", true, [], none, some (utf8 "b"), none, utf8 "/", none, none⟩ : Parts).WellFormed := by decide +kernel

/-- `s3://b/`. -/
def bucketTop : Url := ⟨⟨utf8 "s3", true, [], none, some (utf8 "b"), none, utf8 "/", none, none⟩, wellFormed_bucketTop⟩

/-- `s3://b/x/x/x/x/x/x/x/x/x`. -/
def bucketNine : Url :=
  ⟨⟨utf8 "s3", true, [], none, some (utf8 "b"), none, utf8 "/x/x/x/x/x/x/x/x/x", none, none⟩, by decide +kernel⟩

/-- The rule `s3://b/x` → `s3://b/` is accepted, and `s3://b/x/x/x/x/x/x/x/x/x` is refused: each hop
takes one segment off, and there are nine. -/
theorem accepted_rule_too_long :
    Canonical reference bucketX ∧ Canonical reference bucketTop ∧ Canonical reference bucketNine ∧
      validateAliasRules reference [(bucketX, bucketTop)] = .ok () ∧
      TooLong (walkChain reference [(bucketX, bucketTop)] bucketNine fun _ _ => none) ∧
      TooLong (walkChainAsync reference ⟨[⟨bucketX, bucketTop, none⟩]⟩ bucketNine fun _ _ =>
        .error ⟨.NoRoute, []⟩) := by
  refine ⟨reference_canonical _ [utf8 "x"] (by decide +kernel) (by simp [bucketX]),
    reference_canonical _ [[]] (by decide +kernel) (by simp [bucketTop]),
    reference_canonical _ (List.replicate 9 (utf8 "x")) (by decide +kernel) (by simp [bucketNine]),
    by decide +kernel, ?_, ?_⟩
  · exact ⟨exceedsCap bucketNine, by decide +kernel, rfl⟩
  · exact ⟨exceedsCap bucketNine, by decide +kernel, rfl⟩

end OvStorage.Alias
