import OvStorage.Alias.Chain
import OvStorage.Lib.Table
import OvStorage.Lib.Transition

/-!
# Advertised roots, live

`project_advertised_roots` and `project_root_change` of `ovstorage-plugin-core/src/alias.rs`: the
roots of the inner layer as an alias wrapper advertises them, with a root for each alias whose
chain ends at one of them, and the changes of these roots as it passes them on.

## The model

A root is what the projection reads and writes of it; its layer kind, connection, capabilities,
read strategy and icon are carried along and left out. A `Feed` is the wrapper's inner roots and a
consumer that keeps a row for each address, replaces all of them on a snapshot, upserts what is
added or updated and deletes what is removed. `forwarded` is a history variable: the addresses
that the removal of a real root has taken away although a live alias names them.

## What is proved

`agrees_of_run`: the addresses held are those of a fresh snapshot without the forwarded ones, as
long as every change is `Orderly`.
-/

namespace OvStorage.Alias

open Address SegList Select List

/-! ### The code -/

/-- `AddressVisibility`. -/
inductive AddressVisibility
  | Visible | Hidden | Suppressed
deriving DecidableEq

/-- `AliasState`. -/
inductive AliasState
  | Live | Dangling
  | ChainTooLong (reason : Bytes)
deriving DecidableEq

/-- `ConfigLayer`. -/
inductive ConfigLayer
  | Programmatic | Env | Project | User | Machine

/-- `AliasSource`. -/
inductive AliasSource
  | Static (layer : ConfigLayer)
  | Runtime (persisted : Bool)
  | BrokerDelivered (brokerPrincipal : String)

/-- `RouteSource`. -/
inductive RouteSource
  | Static (layer : ConfigLayer)
  | ConnectionContributed (connectionId : String)
  | BrokerDelivered (brokerPrincipal connectionId : String)
  | Aliased (target : Url) (aliasSource : AliasSource)

/-- `RootInfo`, as far as the projection reads or writes it. -/
structure RootInfo where
  root : Url
  displayName : Option String
  owningTarget : Option String
  source : RouteSource
  visible : Bool
  visibility : AddressVisibility
  aliasState : Option AliasState
  userMetadata : Table String String

/-- `RootInfoChange`. -/
inductive RootInfoChange
  | Snapshot (roots : List RootInfo)
  | Added (roots : List RootInfo)
  | Removed (roots : List RootInfo)
  | Updated (roots : List RootInfo)

/-- `AliasProjection`. -/
structure AliasProjection where
  /-- `from`. -/
  pre : Url
  /-- `to`. -/
  target : Url
  source : AliasSource
  displayName : Option String
  userMetadata : Table String String

/-- `visibility_of_in`. -/
def visibilityOfIn (visibility : List (Url × AddressVisibility)) (addr : Url) : AddressVisibility :=
  ((maxByKey (fun rule => Specificity.of rule.1)
    (visibility.filter fun rule => isAncestorOrSelf rule.1.toParts addr.toParts)).map Prod.snd).getD .Visible

/-- `most_restrictive_visibility`. -/
def mostRestrictiveVisibility : AddressVisibility → AddressVisibility → AddressVisibility
  | .Suppressed, _ => .Suppressed
  | _, .Suppressed => .Suppressed
  | .Hidden, _ => .Hidden
  | _, .Hidden => .Hidden
  | .Visible, .Visible => .Visible

/-- `bare_alias_root`. -/
def bareAliasRoot (pre : Url) : RootInfo :=
  { root := pre
    displayName := none
    owningTarget := none
    source := .Static .Programmatic
    visible := true
    visibility := .Visible
    aliasState := none
    userMetadata := .empty }

/-- The closure `covering` of `chain_terminal`. -/
def covering (roots : List RootInfo) (addr : Url) : Option RootInfo :=
  maxByKey (fun root => Specificity.of root.root)
    (roots.filter fun root => isAncestorOrSelf root.root.toParts addr.toParts)

/-- `synthesize_alias_root`. -/
def synthesizeAliasRoot (rule : AliasProjection) (terminal : Option RootInfo) (state : AliasState)
    (visibility : AddressVisibility) : RootInfo :=
  let root := terminal.getD (bareAliasRoot rule.pre)
  { root with
    root := rule.pre
    source := .Aliased rule.target rule.source
    owningTarget := none
    aliasState := some state
    visibility := visibility
    visible := visibility == .Visible
    displayName := rule.displayName.or root.displayName
    userMetadata := rule.userMetadata.rows.foldl (fun metadata row => metadata.insert row.1 row.2) root.userMetadata }

/-- The visibility a root is advertised with. -/
def effectiveVisibility (visibility : List (Url × AddressVisibility)) (root : RootInfo) : AddressVisibility :=
  mostRestrictiveVisibility root.visibility (visibilityOfIn visibility root.root)

/-- A root with its effective visibility, unless that suppresses it. -/
def retainRoot (visibility : List (Url × AddressVisibility)) (root : RootInfo) : Option RootInfo :=
  match effectiveVisibility visibility root with
  | .Suppressed => none
  | effective => some { root with visibility := effective, visible := effective == .Visible }

/-- `upsert_inner_roots`, of one root. -/
def upsertInnerRoot (current : List RootInfo) (root : RootInfo) : List RootInfo :=
  match current with
  | [] => [root]
  | existing :: rest => if existing.root = root.root then root :: rest else existing :: upsertInnerRoot rest root

/-- `upsert_inner_roots`. -/
def upsertInnerRoots (current changed : List RootInfo) : List RootInfo := changed.foldl upsertInnerRoot current

/-- The `retain` of `project_root_change`: the inner roots that a removal leaves. -/
def survivors (inner removed : List RootInfo) : List RootInfo :=
  inner.filter fun current => !removed.any fun gone => gone.root == current.root

section Code

variable (U : UrlCrate)

/-- `chain_terminal`. -/
def chainTerminal (rules : List Rule) (roots : List RootInfo) (target : Url) : Option RootInfo × AliasState :=
  match walkChain U rules target fun _ addr => (covering roots addr).map fun root => Specificity.of root.root with
  | .ok resolved =>
    match covering roots resolved.address with
    | some root => (some root, .Live)
    | none => (none, .Dangling)
  | .error e => (none, .ChainTooLong e.message)

variable (aliases : List AliasProjection) (visibility : List (Url × AddressVisibility))

/-- The pairs that the projection walks. -/
def pairsOf (aliases : List AliasProjection) : List Rule := aliases.map fun rule => (rule.pre, rule.target)

/-- `project_advertised_roots`. -/
def projectAdvertisedRoots (roots : List RootInfo) : List RootInfo :=
  let aliasRoots := aliases.filterMap fun rule =>
    let aliasVisibility := visibilityOfIn visibility rule.pre
    if aliasVisibility = .Suppressed then none
    else
      match chainTerminal U (pairsOf aliases) roots rule.target with
      | (terminal, .Live) => some (synthesizeAliasRoot rule terminal .Live aliasVisibility)
      | _ => none
  roots.filterMap (retainRoot visibility) ++ aliasRoots

/-- `project_removed_roots`. -/
def projectRemovedRoots (removed survivingRoots : List RootInfo) : List RootInfo :=
  let aliasRoots := aliases.filterMap fun rule =>
    let aliasVisibility := visibilityOfIn visibility rule.pre
    if aliasVisibility = .Suppressed then none
    else
      match chainTerminal U (pairsOf aliases) removed rule.target with
      | (some terminal, state) => some (synthesizeAliasRoot rule (some terminal) state aliasVisibility)
      | (none, _) => none
  let shielded (root : RootInfo) : Bool := root.aliasState.isSome && aliases.any fun rule =>
    nodeKey rule.pre.toParts == nodeKey root.root.toParts &&
      (chainTerminal U (pairsOf aliases) survivingRoots rule.target).2 == .Live
  let innerRoots := removed.filterMap fun root =>
    if effectiveVisibility visibility root = .Suppressed then none
    else if shielded root then none
    else retainRoot visibility root
  aliasRoots ++ innerRoots

/-- `project_root_change`: what is passed on, and the inner roots behind it. -/
def projectRootChange (change : RootInfoChange) (innerRoots : List RootInfo) : RootInfoChange × List RootInfo :=
  match change with
  | .Snapshot roots => (.Snapshot (projectAdvertisedRoots U aliases visibility roots), roots)
  | .Added roots => (.Added (projectAdvertisedRoots U aliases visibility roots), upsertInnerRoots innerRoots roots)
  | .Updated roots => (.Updated (projectAdvertisedRoots U aliases visibility roots), upsertInnerRoots innerRoots roots)
  | .Removed roots =>
    let surviving := survivors innerRoots roots
    (.Removed (projectRemovedRoots U aliases visibility roots surviving), surviving)

end Code

/-! ### The consumer -/

/-- A row for each address, the last one where it comes twice. -/
def upsertRows (rows : Table Url RootInfo) (roots : List RootInfo) : Table Url RootInfo :=
  roots.foldl (fun rows root => rows.insert root.root root) rows

/-- What a consumer does that keeps a row for each address. -/
def applyRootChange (rows : Table Url RootInfo) : RootInfoChange → Table Url RootInfo
  | .Snapshot roots => upsertRows .empty roots
  | .Added roots => upsertRows rows roots
  | .Updated roots => upsertRows rows roots
  | .Removed roots => roots.foldl (fun rows root => rows.erase root.root) rows

/-! ### Live aliases -/

section Live

variable {U : UrlCrate} {rules : List Rule} {roots roots' : List RootInfo} {target addr : Url}

theorem covering_isSome_iff : (covering roots addr).isSome = true ↔
    ∃ root ∈ roots, isAncestorOrSelf root.root.toParts addr.toParts = true := by
  rw [Option.isSome_iff_ne_none, Ne, covering, maxByKey_eq_none_iff, filter_eq_nil_iff]
  push Not
  rfl

/-- The covering root stops a rule exactly if some root does. -/
theorem covering_any_iff (rank : Specificity) :
    ((covering roots addr).map fun root => Specificity.of root.root).any (fun best => rank ≤ best) = true ↔
      ∃ root ∈ roots, isAncestorOrSelf root.root.toParts addr.toParts = true ∧ rank ≤ Specificity.of root.root := by
  rw [Option.any_map]
  constructor
  · intro h
    obtain ⟨root, hroot, hle⟩ := (Option.any_eq_true _ _).mp h
    obtain ⟨hmem, hanc⟩ := mem_filter.mp (maxByKey_eq_some_iff.mp hroot).mem
    exact ⟨root, hmem, hanc, by simpa using hle⟩
  · rintro ⟨root, hmem, hanc, hle⟩
    obtain ⟨best, hbest⟩ := Option.isSome_iff_exists.mp (covering_isSome_iff.mpr ⟨root, hmem, hanc⟩)
    have hmax := (maxByKey_eq_some_iff.mp hbest).le root (mem_filter.mpr ⟨hmem, hanc⟩)
    rw [hbest, Option.any_some]
    simpa using hle.trans hmax

/-- The alias is live: its chain ends under a root. -/
def Live (U : UrlCrate) (rules : List Rule) (roots : List RootInfo) (target : Url) : Prop :=
  (chainTerminal U rules roots target).2 = .Live

instance (U : UrlCrate) (rules : List Rule) (roots : List RootInfo) (target : Url) :
    Decidable (Live U rules roots target) :=
  inferInstanceAs (Decidable (_ = _))

/-- The walk of `chain_terminal` from some point on ends under one of the roots. -/
def EndsUnder (U : UrlCrate) (rules : List Rule) (roots : List RootInfo) (left : ℕ) (start current : Url)
    (hops : List Rule) (seen : List Bytes) : Prop :=
  ∃ resolved, walkFrom U rules (fun _ addr pre => ((covering roots addr).map fun root => Specificity.of root.root).any
      fun rank => Specificity.of pre ≤ rank) start left current hops seen = .ok resolved ∧
    ∃ root ∈ roots, isAncestorOrSelf root.root.toParts resolved.address.toParts = true

theorem live_iff_endsUnder :
    Live U rules roots target ↔ EndsUnder U rules roots MAX_ALIAS_HOPS target target [] [] := by
  unfold Live chainTerminal EndsUnder walkChain
  generalize walkFrom U rules _ target MAX_ALIAS_HOPS target [] [] = result
  cases result with
  | error e => simp
  | ok resolved =>
    simp only [Except.ok.injEq, exists_eq_left', ← covering_isSome_iff]
    cases covering roots resolved.address <;> simp

/-- `chain_terminal` has a root exactly for a live alias. -/
theorem terminal_isSome_iff : (chainTerminal U rules roots target).1.isSome = true ↔ Live U rules roots target := by
  unfold Live chainTerminal
  split
  · split <;> simp
  · simp

section Walk

variable {left : ℕ} {start current pre t : Url} {hops : List Rule} {seen : List Bytes}

theorem endsUnder_of_none (hrule : longestMatchingRule rules current = none) :
    EndsUnder U rules roots left start current hops seen ↔
      ∃ root ∈ roots, isAncestorOrSelf root.root.toParts current.toParts = true := by
  unfold EndsUnder walkFrom
  simp [hrule]

/-- A root as specific as the rule ends the walk, and the walk ends under it. -/
theorem endsUnder_of_stop (hrule : longestMatchingRule rules current = some (pre, t))
    (hstop : ∃ root ∈ roots, isAncestorOrSelf root.root.toParts current.toParts = true ∧
      Specificity.of pre ≤ Specificity.of root.root) : EndsUnder U rules roots left start current hops seen := by
  obtain ⟨root, hmem, hanc, -⟩ := id hstop
  refine ⟨⟨current, hops⟩, ?_, root, hmem, hanc⟩
  unfold walkFrom
  simp only [hrule, (covering_any_iff _).mpr hstop, if_true]

theorem endsUnder_zero (hrule : longestMatchingRule rules current = some (pre, t))
    (hgo : ¬ ∃ root ∈ roots, isAncestorOrSelf root.root.toParts current.toParts = true ∧
      Specificity.of pre ≤ Specificity.of root.root) : ¬ EndsUnder U rules roots 0 start current hops seen := by
  rintro ⟨resolved, hwalk, -⟩
  unfold walkFrom at hwalk
  simp [hrule, mt (covering_any_iff _).mp hgo] at hwalk

theorem endsUnder_succ (hrule : longestMatchingRule rules current = some (pre, t))
    (hgo : ¬ ∃ root ∈ roots, isAncestorOrSelf root.root.toParts current.toParts = true ∧
      Specificity.of pre ≤ Specificity.of root.root) :
    EndsUnder U rules roots (left + 1) start current hops seen ↔ current.asStr ∉ seen ∧
      ∃ next, replacePrefix U current pre t = .ok next ∧
        EndsUnder U rules roots left start next (hops ++ [(pre, t)]) (current.asStr :: seen) := by
  unfold EndsUnder
  rw [walkFrom]
  simp only [hrule, if_neg (mt (covering_any_iff _).mp hgo)]
  by_cases hseen : current.asStr ∈ seen
  · simp [hseen]
  · cases hreplace : replacePrefix U current pre t with
    | error e => simp [hseen]
    | ok next => simp [hseen]

/-- Where none of the roots stops the walk, none of them does so alone. -/
theorem go_alone {rank : Specificity}
    (hgo : ¬ ∃ root ∈ roots, isAncestorOrSelf root.root.toParts current.toParts = true ∧
    rank ≤ Specificity.of root.root) : ∀ root ∈ roots, ¬ ∃ root' ∈ [root],
      isAncestorOrSelf root'.root.toParts current.toParts = true ∧ rank ≤ Specificity.of root'.root := by
  rintro root hmem ⟨root', hroot', hanc⟩
  obtain rfl := mem_singleton.mp hroot'
  exact hgo ⟨root', hmem, hanc⟩

/-- A walk ends under one of the roots exactly if it does under one of them alone. -/
theorem endsUnder_iff_exists : EndsUnder U rules roots left start current hops seen ↔
    ∃ root ∈ roots, EndsUnder U rules [root] left start current hops seen := by
  induction left generalizing current hops seen with
  | zero =>
    cases hrule : longestMatchingRule rules current with
    | none => simp only [endsUnder_of_none hrule, mem_singleton, exists_eq_left]
    | some rule =>
      by_cases hstop : ∃ root ∈ roots, isAncestorOrSelf root.root.toParts current.toParts = true ∧
          Specificity.of rule.1 ≤ Specificity.of root.root
      · refine iff_of_true (endsUnder_of_stop hrule hstop) ?_
        obtain ⟨root, hmem, hanc⟩ := hstop
        exact ⟨root, hmem, endsUnder_of_stop hrule ⟨root, mem_singleton_self _, hanc⟩⟩
      · refine iff_of_false (endsUnder_zero hrule hstop) ?_
        rintro ⟨root, hmem, h⟩
        exact endsUnder_zero hrule (go_alone hstop root hmem) h
  | succ left ih =>
    cases hrule : longestMatchingRule rules current with
    | none => simp only [endsUnder_of_none hrule, mem_singleton, exists_eq_left]
    | some rule =>
      by_cases hstop : ∃ root ∈ roots, isAncestorOrSelf root.root.toParts current.toParts = true ∧
          Specificity.of rule.1 ≤ Specificity.of root.root
      · refine iff_of_true (endsUnder_of_stop hrule hstop) ?_
        obtain ⟨root, hmem, hanc⟩ := hstop
        exact ⟨root, hmem, endsUnder_of_stop hrule ⟨root, mem_singleton_self _, hanc⟩⟩
      · rw [endsUnder_succ hrule hstop]
        constructor
        · rintro ⟨hseen, next, hnext, h⟩
          obtain ⟨root, hmem, h⟩ := ih.mp h
          exact ⟨root, hmem, (endsUnder_succ hrule (go_alone hstop root hmem)).mpr ⟨hseen, next, hnext, h⟩⟩
        · rintro ⟨root, hmem, h⟩
          obtain ⟨hseen, next, hnext, h⟩ := (endsUnder_succ hrule (go_alone hstop root hmem)).mp h
          exact ⟨hseen, next, hnext, ih.mpr ⟨root, hmem, h⟩⟩

end Walk

/-- An alias is live exactly if one of the roots alone makes it live. -/
theorem live_iff_exists : Live U rules roots target ↔ ∃ root ∈ roots, Live U rules [root] target := by
  simp only [live_iff_endsUnder]
  exact endsUnder_iff_exists

/-- Only the address of a root counts. -/
theorem endsUnder_congr {root root' : RootInfo} {left : ℕ} {start current : Url} {hops : List Rule} {seen : List Bytes}
    (h : root.root = root'.root) (hlive : EndsUnder U rules [root] left start current hops seen) :
    EndsUnder U rules [root'] left start current hops seen := by
  have hcovering : ∀ addr, (covering [root] addr).map (fun root => Specificity.of root.root) =
      (covering [root'] addr).map fun root => Specificity.of root.root := by
    intro addr
    unfold covering
    by_cases hanc : isAncestorOrSelf root'.root.toParts addr.toParts = true
    · simp [h, hanc, maxByKey]
    · simp [h, hanc, maxByKey]
  obtain ⟨resolved, hwalk, x, hx, hanc⟩ := hlive
  obtain rfl := mem_singleton.mp hx
  simp only [hcovering] at hwalk
  exact ⟨resolved, hwalk, root', mem_singleton_self _, h ▸ hanc⟩

/-- An alias that is live for some roots is live for all that have their addresses. -/
theorem Live.of_roots (h : Live U rules roots target)
    (hroots : ∀ root ∈ roots, ∃ root' ∈ roots', root'.root = root.root) :
    Live U rules roots' target := by
  obtain ⟨root, hmem, hlive⟩ := live_iff_exists.mp h
  obtain ⟨root', hmem', hsame⟩ := hroots root hmem
  refine live_iff_exists.mpr ⟨root', hmem', ?_⟩
  rw [live_iff_endsUnder] at hlive ⊢
  exact endsUnder_congr hsame.symm hlive

end Live

/-! ### The addresses that are advertised -/

section Addresses

variable (U : UrlCrate) (aliases : List AliasProjection) (visibility : List (Url × AddressVisibility))

/-- Some root has the address and is not suppressed. -/
def Shown (roots : List RootInfo) (x : Url) : Prop :=
  ∃ root ∈ roots, root.root = x ∧ effectiveVisibility visibility root ≠ .Suppressed

instance (roots : List RootInfo) (x : Url) : Decidable (Shown visibility roots x) :=
  inferInstanceAs (Decidable (∃ root ∈ roots, _))

/-- Some alias that is not suppressed has the address and is live. -/
def Named (roots : List RootInfo) (x : Url) : Prop :=
  ∃ rule ∈ aliases, rule.pre = x ∧ visibilityOfIn visibility rule.pre ≠ .Suppressed ∧
    Live U (pairsOf aliases) roots rule.target

instance (roots : List RootInfo) (x : Url) : Decidable (Named U aliases visibility roots x) :=
  inferInstanceAs (Decidable (∃ rule ∈ aliases, _))

/-- The removal of the root is withheld: it is an alias root, and a live alias names its node. -/
def Shielded (surviving : List RootInfo) (root : RootInfo) : Prop :=
  root.aliasState.isSome = true ∧ ∃ rule ∈ aliases, nodeKey rule.pre.toParts = nodeKey root.root.toParts ∧
    Live U (pairsOf aliases) surviving rule.target

variable {U aliases visibility} {roots removed surviving : List RootInfo} {x : Url}

theorem retainRoot_eq_some_iff {root root' : RootInfo} (h : retainRoot visibility root = some root') :
    root'.root = root.root ∧ effectiveVisibility visibility root ≠ .Suppressed := by
  unfold retainRoot at h
  split at h
  · cases h
  · rename_i effective hne
    cases h
    exact ⟨rfl, hne⟩

theorem retainRoot_of_ne {root : RootInfo} (h : effectiveVisibility visibility root ≠ .Suppressed) :
    ∃ root', retainRoot visibility root = some root' ∧ root'.root = root.root := by
  unfold retainRoot
  split
  · contradiction
  · exact ⟨_, rfl, rfl⟩

/-- The addresses of the projection of some roots. -/
theorem mem_projectAdvertisedRoots : x ∈ (projectAdvertisedRoots U aliases visibility roots).map RootInfo.root ↔
    Shown visibility roots x ∨ Named U aliases visibility roots x := by
  unfold projectAdvertisedRoots
  rw [map_append, mem_append]
  refine or_congr ?_ ?_
  · simp only [mem_map, mem_filterMap]
    constructor
    · rintro ⟨root', ⟨root, hmem, hretain⟩, rfl⟩
      obtain ⟨hroot, hne⟩ := retainRoot_eq_some_iff hretain
      exact ⟨root, hmem, hroot.symm, hne⟩
    · rintro ⟨root, hmem, rfl, hne⟩
      obtain ⟨root', hretain, hroot⟩ := retainRoot_of_ne hne
      exact ⟨root', ⟨root, hmem, hretain⟩, hroot⟩
  · simp only [mem_map, mem_filterMap]
    constructor
    · rintro ⟨root, ⟨rule, hmem, hsome⟩, rfl⟩
      split_ifs at hsome with hvis
      split at hsome
      · rename_i terminal heq
        cases hsome
        exact ⟨rule, hmem, rfl, hvis, by rw [Live, heq]⟩
      · cases hsome
    · rintro ⟨rule, hmem, rfl, hvis, hlive⟩
      obtain ⟨terminal, hterminal⟩ :
          ∃ terminal, chainTerminal U (pairsOf aliases) roots rule.target = (terminal, .Live) :=
        ⟨_, Prod.ext rfl hlive⟩
      exact ⟨synthesizeAliasRoot rule terminal .Live _, ⟨rule, hmem, by rw [if_neg hvis, hterminal]⟩, rfl⟩

/-- The addresses that a removal takes away. -/
theorem mem_projectRemovedRoots : x ∈ (projectRemovedRoots U aliases visibility removed surviving).map RootInfo.root ↔
    Named U aliases visibility removed x ∨ ∃ root ∈ removed, root.root = x ∧
      effectiveVisibility visibility root ≠ .Suppressed ∧ ¬ Shielded U aliases surviving root := by
  unfold projectRemovedRoots
  rw [map_append, mem_append]
  refine or_congr ?_ ?_
  · simp only [mem_map, mem_filterMap]
    constructor
    · rintro ⟨root, ⟨rule, hmem, hsome⟩, rfl⟩
      split_ifs at hsome with hvis
      split at hsome
      · rename_i terminal state heq
        cases hsome
        exact ⟨rule, hmem, rfl, hvis, terminal_isSome_iff.mp (by rw [heq]; rfl)⟩
      · cases hsome
    · rintro ⟨rule, hmem, rfl, hvis, hlive⟩
      obtain ⟨terminal, hterminal⟩ := Option.isSome_iff_exists.mp (terminal_isSome_iff.mpr hlive)
      obtain ⟨state, hpair⟩ : ∃ state, chainTerminal U (pairsOf aliases) removed rule.target = (some terminal, state) :=
        ⟨_, Prod.ext hterminal rfl⟩
      exact ⟨synthesizeAliasRoot rule (some terminal) state _, ⟨rule, hmem, by rw [if_neg hvis, hpair]⟩, rfl⟩
  · have hshield : ∀ root : RootInfo, (root.aliasState.isSome && aliases.any fun rule =>
        nodeKey rule.pre.toParts == nodeKey root.root.toParts &&
          (chainTerminal U (pairsOf aliases) surviving rule.target).2 == .Live) = true ↔
        Shielded U aliases surviving root := by
      intro root
      simp [Shielded, Live]
    simp only [mem_map, mem_filterMap]
    constructor
    · rintro ⟨root', ⟨root, hmem, hsome⟩, rfl⟩
      split_ifs at hsome with hvis hsh
      exact ⟨root, hmem, (retainRoot_eq_some_iff hsome).1.symm, hvis, fun h => hsh ((hshield root).mpr h)⟩
    · rintro ⟨root, hmem, rfl, hvis, hsh⟩
      obtain ⟨root', hretain, hroot⟩ := retainRoot_of_ne hvis
      exact ⟨root', ⟨root, hmem, by rw [if_neg hvis, if_neg fun h => hsh ((hshield root).mp h), hretain]⟩, hroot⟩

end Addresses

/-! ### The inner roots and the rows -/

section Rows

variable {current changed roots : List RootInfo} {root new : RootInfo} {rows : Table Url RootInfo} {x : Url}

theorem mem_upsertInnerRoot (h : root ∈ upsertInnerRoot current new) : root ∈ current ∨ root = new := by
  induction current with
  | nil => exact Or.inr (mem_singleton.mp h)
  | cons existing rest ih =>
    unfold upsertInnerRoot at h
    split_ifs at h with hsame
    · rcases mem_cons.mp h with rfl | h
      · exact Or.inr rfl
      · exact Or.inl (mem_cons_of_mem _ h)
    · rcases mem_cons.mp h with rfl | h
      · exact Or.inl mem_cons_self
      · exact (ih h).imp_left (mem_cons_of_mem _)

theorem self_mem_upsertInnerRoot (current : List RootInfo) (new : RootInfo) : new ∈ upsertInnerRoot current new := by
  induction current with
  | nil => exact mem_singleton_self _
  | cons existing rest ih =>
    unfold upsertInnerRoot
    split_ifs
    · exact mem_cons_self
    · exact mem_cons_of_mem _ ih

theorem upsertInnerRoot_keeps (new : RootInfo) (h : root ∈ current) :
    root ∈ upsertInnerRoot current new ∨ root.root = new.root := by
  induction current with
  | nil => cases h
  | cons existing rest ih =>
    unfold upsertInnerRoot
    split_ifs with hsame
    · rcases mem_cons.mp h with rfl | h
      · exact Or.inr hsame
      · exact Or.inl (mem_cons_of_mem _ h)
    · rcases mem_cons.mp h with rfl | h
      · exact Or.inl mem_cons_self
      · exact (ih h).imp_left (mem_cons_of_mem _)

theorem mem_upsertInnerRoots (h : root ∈ upsertInnerRoots current changed) : root ∈ current ∨ root ∈ changed := by
  induction changed generalizing current with
  | nil => exact Or.inl h
  | cons first rest ih =>
    rcases ih h with h | h
    · rcases mem_upsertInnerRoot h with h | rfl
      · exact Or.inl h
      · exact Or.inr mem_cons_self
    · exact Or.inr (mem_cons_of_mem _ h)

/-- An inner root stays, or one that is upserted has taken its place. -/
theorem upsertInnerRoots_keeps (changed : List RootInfo) (h : root ∈ current) :
    root ∈ upsertInnerRoots current changed ∨
    ∃ new ∈ changed, new ∈ upsertInnerRoots current changed ∧ new.root = root.root := by
  induction changed generalizing current root with
  | nil => exact Or.inl h
  | cons first rest ih =>
    rcases upsertInnerRoot_keeps first h with h | hsame
    · rcases ih h with h | ⟨new, hnew, hmem, hroot⟩
      · exact Or.inl h
      · exact Or.inr ⟨new, mem_cons_of_mem _ hnew, hmem, hroot⟩
    · rcases ih (self_mem_upsertInnerRoot current first) with h | ⟨new, hnew, hmem, hroot⟩
      · exact Or.inr ⟨first, mem_cons_self, h, hsame.symm⟩
      · exact Or.inr ⟨new, mem_cons_of_mem _ hnew, hmem, hroot.trans hsame.symm⟩

/-- The last root that is upserted for an address stands there. -/
theorem upsertInnerRoots_has (current : List RootInfo) (h : root ∈ changed) :
    ∃ new ∈ changed, new ∈ upsertInnerRoots current changed ∧ new.root = root.root := by
  induction changed generalizing current with
  | nil => cases h
  | cons first rest ih =>
    rcases mem_cons.mp h with rfl | h
    · rcases upsertInnerRoots_keeps rest (self_mem_upsertInnerRoot current root) with h | ⟨new, hnew, hmem, hroot⟩
      · exact ⟨root, mem_cons_self, h, rfl⟩
      · exact ⟨new, mem_cons_of_mem _ hnew, hmem, hroot⟩
    · obtain ⟨new, hnew, hrest⟩ := ih (upsertInnerRoot current first) h
      exact ⟨new, mem_cons_of_mem _ hnew, hrest⟩

/-- The addresses held after rows are upserted. -/
theorem held_upsertRows : ((upsertRows rows roots).get x).isSome = true ↔
    (rows.get x).isSome = true ∨ x ∈ roots.map RootInfo.root := by
  induction roots generalizing rows with
  | nil => simp [upsertRows]
  | cons first rest ih =>
    rw [upsertRows, foldl_cons, ← upsertRows, ih, map_cons, mem_cons]
    by_cases hx : x = first.root
    · simp [hx]
    · simp [Table.get_insert_of_ne _ _ hx, hx]

/-- The addresses held after rows are deleted. -/
theorem held_erase : ((roots.foldl (fun rows root => rows.erase root.root) rows).get x).isSome = true ↔
    (rows.get x).isSome = true ∧ x ∉ roots.map RootInfo.root := by
  induction roots generalizing rows with
  | nil => simp
  | cons first rest ih =>
    rw [foldl_cons, ih, map_cons, mem_cons]
    by_cases hx : x = first.root
    · simp [hx]
    · simp [Table.get_erase_of_ne _ hx, hx]

end Rows

/-! ### The feed -/

/-- The inner roots behind a wrapper, and a consumer of its changes. -/
structure Feed where
  inner : List RootInfo
  rows : Table Url RootInfo
  /-- What the removals of real roots have taken away although a live alias names it. -/
  forwarded : List Url

section Feed

variable (U : UrlCrate) (aliases : List AliasProjection) (visibility : List (Url × AddressVisibility))

/-- The consumer starts from a snapshot. -/
def Feed.start (roots : List RootInfo) : Feed :=
  ⟨roots, upsertRows .empty (projectAdvertisedRoots U aliases visibility roots), []⟩

/-- The addresses of the removed real roots that an alias names which is still live. -/
def takenAway (removed surviving : List RootInfo) : List Url :=
  (removed.filter fun root => root.aliasState.isNone && decide (effectiveVisibility visibility root ≠ .Suppressed) &&
    decide (Named U aliases visibility surviving root.root)).map RootInfo.root

/-- A change of the inner roots comes through. -/
def Feed.step (s : Feed) (change : RootInfoChange) : Feed :=
  let (passed, inner) := projectRootChange U aliases visibility change s.inner
  { inner, rows := applyRootChange s.rows passed
    forwarded := match change with
      | .Snapshot _ => []
      | .Added roots | .Updated roots =>
        s.forwarded.filter fun x => decide (x ∉ (projectAdvertisedRoots U aliases visibility roots).map RootInfo.root)
      | .Removed roots => s.forwarded ++ takenAway U aliases visibility roots inner }

/-- The change suppresses no root at an address that is advertised otherwise. -/
def OrderlyUpsert (inner changed : List RootInfo) : Prop :=
  ∀ root ∈ changed, effectiveVisibility visibility root = .Suppressed →
    ¬ Shown visibility (inner ++ changed) root.root ∨
      Named U aliases visibility (upsertInnerRoots inner changed) root.root

/-- The removal is one that the consumer can follow. -/
structure OrderlyRemoval (inner removed surviving : List RootInfo) : Prop where
  /-- A removed root is told with the visibility it had. -/
  consistent : ∀ root ∈ removed, ∀ current ∈ inner, current.root = root.root → current.visibility = root.visibility
  /-- No alias that the removed roots alone make live is live without them. -/
  dependent : ∀ rule ∈ aliases, visibilityOfIn visibility rule.pre ≠ .Suppressed →
    Live U (pairsOf aliases) removed rule.target → ¬ Live U (pairsOf aliases) surviving rule.target
  /-- No surviving root stands at the address of an alias that is withdrawn. -/
  vacated : ∀ rule ∈ aliases, visibilityOfIn visibility rule.pre ≠ .Suppressed →
    Live U (pairsOf aliases) removed rule.target → ¬ Shown visibility surviving rule.pre
  /-- An alias that shields a node has the address of the root there. -/
  spelled : ∀ root ∈ removed, root.aliasState.isSome = true → ∀ rule ∈ aliases,
    nodeKey rule.pre.toParts = nodeKey root.root.toParts → Live U (pairsOf aliases) surviving rule.target →
      rule.pre = root.root

/-- What the consumer can follow. -/
def Orderly (inner : List RootInfo) : RootInfoChange → Prop
  | .Snapshot _ => True
  | .Added roots | .Updated roots => OrderlyUpsert U aliases visibility inner roots
  | .Removed roots => OrderlyRemoval U aliases visibility inner roots (survivors inner roots)

/-- The consumer holds the addresses of a fresh snapshot, but for those taken away. -/
def Feed.Agrees (s : Feed) : Prop :=
  ∀ x, (s.rows.get x).isSome = true ↔
    x ∈ (projectAdvertisedRoots U aliases visibility s.inner).map RootInfo.root ∧ x ∉ s.forwarded

variable {U aliases visibility} {inner changed removed surviving : List RootInfo} {x : Url} {s : Feed}

/-- An orderly upsert adds the addresses of the projection of what it brings. -/
theorem mem_upserted (h : OrderlyUpsert U aliases visibility inner changed) :
    x ∈ (projectAdvertisedRoots U aliases visibility (upsertInnerRoots inner changed)).map RootInfo.root ↔
      x ∈ (projectAdvertisedRoots U aliases visibility inner).map RootInfo.root ∨
        x ∈ (projectAdvertisedRoots U aliases visibility changed).map RootInfo.root := by
  -- a root of either stands there, or another at its address, and then an alias names that if it is suppressed
  have hshown : ∀ root ∈ inner ++ changed, effectiveVisibility visibility root ≠ .Suppressed → root.root = x →
      Shown visibility (upsertInnerRoots inner changed) x ∨
        Named U aliases visibility (upsertInnerRoots inner changed) x := by
    rintro root hmem hvis rfl
    have hplace : root ∈ upsertInnerRoots inner changed ∨
        ∃ new ∈ changed, new ∈ upsertInnerRoots inner changed ∧ new.root = root.root := by
      rcases mem_append.mp hmem with hmem | hmem
      · exact upsertInnerRoots_keeps changed hmem
      · exact Or.inr (upsertInnerRoots_has inner hmem)
    rcases hplace with hplace | ⟨new, hnew, hplace, hsame⟩
    · exact Or.inl ⟨root, hplace, rfl, hvis⟩
    · by_cases hsup : effectiveVisibility visibility new = .Suppressed
      · rcases h new hnew hsup with hno | hnamed
        · exact absurd ⟨root, hmem, hsame.symm, hvis⟩ hno
        · exact Or.inr (hsame ▸ hnamed)
      · exact Or.inl ⟨new, hplace, hsame, hsup⟩
  rw [mem_projectAdvertisedRoots, mem_projectAdvertisedRoots, mem_projectAdvertisedRoots]
  constructor
  · rintro (⟨root, hmem, hroot, hvis⟩ | ⟨rule, hrule, hpre, hvis, hlive⟩)
    · rcases mem_upsertInnerRoots hmem with hmem | hmem
      · exact Or.inl (Or.inl ⟨root, hmem, hroot, hvis⟩)
      · exact Or.inr (Or.inl ⟨root, hmem, hroot, hvis⟩)
    · obtain ⟨root, hmem, hlive⟩ := live_iff_exists.mp hlive
      rcases mem_upsertInnerRoots hmem with hmem | hmem
      · exact Or.inl (Or.inr ⟨rule, hrule, hpre, hvis, live_iff_exists.mpr ⟨root, hmem, hlive⟩⟩)
      · exact Or.inr (Or.inr ⟨rule, hrule, hpre, hvis, live_iff_exists.mpr ⟨root, hmem, hlive⟩⟩)
  · rintro ((⟨root, hmem, hroot, hvis⟩ | ⟨rule, hrule, hpre, hvis, hlive⟩) |
      (⟨root, hmem, hroot, hvis⟩ | ⟨rule, hrule, hpre, hvis, hlive⟩))
    · exact hshown root (mem_append_left _ hmem) hvis hroot
    · refine Or.inr ⟨rule, hrule, hpre, hvis, hlive.of_roots fun root hmem => ?_⟩
      rcases upsertInnerRoots_keeps changed hmem with hmem | ⟨new, -, hmem, hsame⟩
      · exact ⟨root, hmem, rfl⟩
      · exact ⟨new, hmem, hsame⟩
    · exact hshown root (mem_append_right _ hmem) hvis hroot
    · refine Or.inr ⟨rule, hrule, hpre, hvis, hlive.of_roots fun root hmem => ?_⟩
      obtain ⟨new, -, hmem, hsame⟩ := upsertInnerRoots_has inner hmem
      exact ⟨new, hmem, hsame⟩

theorem mem_takenAway : x ∈ takenAway U aliases visibility removed surviving ↔
    (∃ root ∈ removed, root.root = x ∧ root.aliasState = none ∧ effectiveVisibility visibility root ≠ .Suppressed) ∧
      Named U aliases visibility surviving x := by
  simp only [takenAway, mem_map, mem_filter, Bool.and_eq_true, decide_eq_true_eq, Option.isNone_iff_eq_none]
  constructor
  · rintro ⟨root, ⟨hmem, ⟨hreal, hvis⟩, hnamed⟩, rfl⟩
    exact ⟨⟨root, hmem, rfl, hreal, hvis⟩, hnamed⟩
  · rintro ⟨⟨root, hmem, rfl, hreal, hvis⟩, hnamed⟩
    exact ⟨root, ⟨hmem, ⟨hreal, hvis⟩, hnamed⟩, rfl⟩

theorem mem_survivors {root : RootInfo} :
    root ∈ survivors inner removed ↔ root ∈ inner ∧ ∀ gone ∈ removed, gone.root ≠ root.root := by
  simp [survivors]

/-- What an orderly removal leaves of the addresses is the snapshot without those taken away. -/
theorem mem_removed (hdistinct : ∀ rule ∈ aliases, ∀ rule' ∈ aliases, rule.pre = rule'.pre → rule = rule')
    (h : OrderlyRemoval U aliases visibility inner removed (survivors inner removed)) :
    x ∈ (projectAdvertisedRoots U aliases visibility inner).map RootInfo.root ∧
        x ∉ (projectRemovedRoots U aliases visibility removed (survivors inner removed)).map RootInfo.root ↔
      x ∈ (projectAdvertisedRoots U aliases visibility (survivors inner removed)).map RootInfo.root ∧
        x ∉ takenAway U aliases visibility removed (survivors inner removed) := by
  rw [mem_projectAdvertisedRoots, mem_projectAdvertisedRoots, mem_projectRemovedRoots, mem_takenAway]
  have hmono : ∀ {target}, Live U (pairsOf aliases) (survivors inner removed) target →
      Live U (pairsOf aliases) inner target :=
    fun hlive => hlive.of_roots fun root hmem => ⟨root, (mem_survivors.mp hmem).1, rfl⟩
  constructor
  · rintro ⟨hadvertised, hkept⟩
    rw [not_or] at hkept
    obtain ⟨hnot, hkept⟩ := hkept
    refine ⟨?_, ?_⟩
    · rcases hadvertised with ⟨root, hmem, rfl, hvis⟩ | ⟨rule, hrule, rfl, hvis, hlive⟩
      · by_cases hgone : ∃ gone ∈ removed, gone.root = root.root
        · obtain ⟨gone, hgone, hsame⟩ := hgone
          have hvis' : effectiveVisibility visibility gone ≠ .Suppressed := by
            rw [effectiveVisibility, hsame, ← h.consistent gone hgone root hmem hsame.symm]
            exact hvis
          obtain ⟨hstate, rule, hrule, hnode, hlive⟩ : Shielded U aliases (survivors inner removed) gone := by
            by_contra hsh
            exact hkept ⟨gone, hgone, hsame, hvis', hsh⟩
          have hpre := h.spelled gone hgone hstate rule hrule hnode hlive
          refine Or.inr ⟨rule, hrule, hpre.trans hsame, ?_, hlive⟩
          intro hsup
          refine hvis ?_
          rw [effectiveVisibility, ← hsame, ← hpre, hsup]
          cases root.visibility <;> rfl
        · push Not at hgone
          exact Or.inl ⟨root, mem_survivors.mpr ⟨hmem, hgone⟩, rfl, hvis⟩
      · refine Or.inr ⟨rule, hrule, rfl, hvis, ?_⟩
        obtain ⟨root, hmem, hlive⟩ := live_iff_exists.mp hlive
        by_cases hgone : ∃ gone ∈ removed, gone.root = root.root
        · obtain ⟨gone, hgone, hsame⟩ := hgone
          refine absurd ⟨rule, hrule, rfl, hvis, ?_⟩ hnot
          refine hlive.of_roots fun root' hroot' => ⟨gone, hgone, ?_⟩
          rw [hsame, mem_singleton.mp hroot']
        · push Not at hgone
          exact live_iff_exists.mpr ⟨root, mem_survivors.mpr ⟨hmem, hgone⟩, hlive⟩
    · rintro ⟨⟨root, hmem, hroot, hreal, hvis⟩, -⟩
      refine hkept ⟨root, hmem, hroot, hvis, fun hsh => ?_⟩
      have hstate := hsh.1
      rw [hreal] at hstate
      cases hstate
  · rintro ⟨hadvertised, htaken⟩
    refine ⟨?_, ?_⟩
    · rcases hadvertised with ⟨root, hmem, hroot, hvis⟩ | ⟨rule, hrule, hpre, hvis, hlive⟩
      · exact Or.inl ⟨root, (mem_survivors.mp hmem).1, hroot, hvis⟩
      · exact Or.inr ⟨rule, hrule, hpre, hvis, hmono hlive⟩
    · rintro (⟨rule, hrule, rfl, hvis, hlive⟩ | ⟨root, hmem, rfl, hvis, hsh⟩)
      · rcases hadvertised with hshown | ⟨rule', hrule', hpre, -, hlive'⟩
        · exact h.vacated rule hrule hvis hlive hshown
        · rw [hdistinct rule' hrule' rule hrule hpre] at hlive'
          exact h.dependent rule hrule hvis hlive hlive'
      · rcases hadvertised with ⟨root', hmem', hsame, -⟩ | hnamed
        · exact (mem_survivors.mp hmem').2 root hmem hsame.symm
        · cases hstate : root.aliasState with
          | none => exact htaken ⟨⟨root, hmem, rfl, hstate, hvis⟩, hnamed⟩
          | some state =>
            obtain ⟨rule, hrule, hpre, -, hlive⟩ := hnamed
            exact hsh ⟨by rw [hstate]; rfl, rule, hrule, by rw [hpre], hlive⟩

/-- What each orderly change keeps. -/
theorem Feed.Agrees.step (hdistinct : ∀ rule ∈ aliases, ∀ rule' ∈ aliases, rule.pre = rule'.pre → rule = rule')
    (hs : s.Agrees U aliases visibility) {change : RootInfoChange} (h : Orderly U aliases visibility s.inner change) :
    (s.step U aliases visibility change).Agrees U aliases visibility := by
  intro x
  cases change with
  | Snapshot roots =>
    show ((upsertRows .empty (projectAdvertisedRoots U aliases visibility roots)).get x).isSome = true ↔ _ ∧ x ∉ []
    rw [held_upsertRows]
    simp [Feed.step, projectRootChange]
  | Added roots =>
    show ((upsertRows s.rows (projectAdvertisedRoots U aliases visibility roots)).get x).isSome = true ↔
      x ∈ (projectAdvertisedRoots U aliases visibility (upsertInnerRoots s.inner roots)).map RootInfo.root ∧
        x ∉ List.filter _ _
    rw [held_upsertRows, hs x, mem_upserted h, mem_filter, decide_eq_true_eq]
    tauto
  | Updated roots =>
    show ((upsertRows s.rows (projectAdvertisedRoots U aliases visibility roots)).get x).isSome = true ↔
      x ∈ (projectAdvertisedRoots U aliases visibility (upsertInnerRoots s.inner roots)).map RootInfo.root ∧
        x ∉ List.filter _ _
    rw [held_upsertRows, hs x, mem_upserted h, mem_filter, decide_eq_true_eq]
    tauto
  | Removed roots =>
    show (((projectRemovedRoots U aliases visibility roots (survivors s.inner roots)).foldl
        (fun rows root => rows.erase root.root) s.rows).get x).isSome = true ↔
      x ∈ (projectAdvertisedRoots U aliases visibility (survivors s.inner roots)).map RootInfo.root ∧
        x ∉ s.forwarded ++ takenAway U aliases visibility roots (survivors s.inner roots)
    have hremoved := mem_removed hdistinct h (x := x)
    rw [held_erase, hs x, mem_append]
    tauto

/-- In every run of orderly changes the consumer holds the addresses of a fresh snapshot, but for
those that the removal of a real root has taken away. -/
theorem agrees_of_run (hvalid : validateAliasRules U (pairsOf aliases) = .ok ()) {roots : List RootInfo}
    {changes : List RootInfoChange}
    (h : Run (fun s => s = Feed.start U aliases visibility roots)
      (fun s change s' => s' = s.step U aliases visibility change ∧ Orderly U aliases visibility s.inner change)
        changes s) :
    ∀ x, (s.rows.get x).isSome = true ↔
      x ∈ (projectAdvertisedRoots U aliases visibility s.inner).map RootInfo.root ∧ x ∉ s.forwarded := by
  have hdistinct : ∀ rule ∈ aliases, ∀ rule' ∈ aliases, rule.pre = rule'.pre → rule = rule' := by
    have hnodup := (validateRules_distinct hvalid).1
    rw [pairsOf, map_map] at hnodup
    intro rule hrule rule' hrule' hpre
    exact inj_on_of_nodup_map hnodup hrule hrule' (congrArg (fun url : Url => nodeKey url.toParts) hpre)
  refine h.stateInvariant (I := fun s => s.Agrees U aliases visibility) ?_ ?_
  · rintro s rfl x
    rw [Feed.start, held_upsertRows]
    simp
  · rintro s change s' hs ⟨rfl, horderly⟩
    exact hs.step hdistinct horderly

end Feed

/-- The alias `s3://b/p` → `file://server/share`. -/
def partAlias : AliasProjection := ⟨bucketPart, shareRoot, .Runtime true, none, .empty⟩

/-- A real root at `s3://b/p`. -/
def partRoot : RootInfo := bareAliasRoot bucketPart

/-- A real root at `file://server/share`. -/
def realShare : RootInfo := bareAliasRoot shareRoot

/-- The consumer after the real root at `s3://b/p` has gone. -/
def withoutPart : Feed :=
  (Feed.start reference [partAlias] [] [partRoot, realShare]).step reference [partAlias] [] (.Removed [partRoot])

/-- When the real root at `s3://b/p` goes, the consumer keeps the share and loses that address. -/
theorem agrees_of_run_part :
    ((withoutPart.rows.get shareRoot).isSome = true ↔
        shareRoot ∈ (projectAdvertisedRoots reference [partAlias] [] [realShare]).map RootInfo.root ∧
        shareRoot ∉ [bucketPart]) ∧
      ((withoutPart.rows.get bucketPart).isSome = true ↔
        bucketPart ∈ (projectAdvertisedRoots reference [partAlias] [] [realShare]).map RootInfo.root ∧
        bucketPart ∉ [bucketPart]) := by
  have hrun : Run (fun s => s = Feed.start reference [partAlias] [] [partRoot, realShare])
      (fun s change s' => s' = s.step reference [partAlias] [] change ∧ Orderly reference [partAlias] [] s.inner change)
      ([] ++ [.Removed [partRoot]]) withoutPart := by
    refine Run.step (Run.start rfl) ⟨rfl, ?_⟩
    refine ⟨by decide +kernel, by decide +kernel, by decide +kernel, fun root hroot hstate => ?_⟩
    rw [mem_singleton.mp hroot] at hstate
    cases hstate
  have hinner : survivors [partRoot, realShare] [partRoot] = [realShare] := by
    have hne : partRoot.root ≠ realShare.root := by decide +kernel
    simp [survivors, hne]
  have htaken : takenAway reference [partAlias] [] [partRoot] [realShare] = [bucketPart] := by decide +kernel
  have h := agrees_of_run (by decide +kernel) hrun
  simp only [withoutPart, Feed.step, projectRootChange, Feed.start, hinner, htaken, nil_append] at h
  simp only [withoutPart, Feed.step, projectRootChange, Feed.start, hinner]
  exact ⟨h shareRoot, h bucketPart⟩

/-- A real root goes from the address of a live alias: its removal is passed on, and the consumer
loses an address that a snapshot lists. -/
theorem removal_under_live_alias :
    validateAliasRules reference (pairsOf [partAlias]) = .ok () ∧
      ∃ s, Run (fun s => s = Feed.start reference [partAlias] [] [partRoot, realShare])
          (fun s change s' => s' = s.step reference [partAlias] [] change) [.Removed [partRoot]] s ∧
        (s.rows.get bucketPart).isSome = false ∧
        bucketPart ∈ (projectAdvertisedRoots reference [partAlias] [] s.inner).map RootInfo.root := by
  have hrun : Run (fun s => s = Feed.start reference [partAlias] [] [partRoot, realShare])
      (fun s change s' => s' = s.step reference [partAlias] [] change) ([] ++ [.Removed [partRoot]])
      ((Feed.start reference [partAlias] [] [partRoot, realShare]).step reference [partAlias] []
        (.Removed [partRoot])) := by
    exact Run.step (Run.start rfl) rfl
  exact ⟨by decide +kernel, _, hrun, by decide +kernel, by decide +kernel⟩

end OvStorage.Alias
