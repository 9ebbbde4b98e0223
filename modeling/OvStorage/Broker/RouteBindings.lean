import OvStorage.Address.Containment
import OvStorage.Authz.Load
import OvStorage.Lib.StableSort

/-!
# Providers bound to routes

`route_prefix_problem` and `BrokerOAuthRouteBindings` of `ovstorage-broker/src/oauth_providers.rs`: which OAuth
provider answers for an address.

## The model

A binding is a canonicalized prefix with the name of its provider, kept sorted by descending rank. A prefix that cannot
be bound is dropped, and what the drop writes to the log is left out.
-/

namespace OvStorage.Broker

open Address Authz StableSort List

/-! ### The code -/

/-- `RoutePrefixProblem`. -/
inductive RoutePrefixProblem
  | Opaque
  | Credentials
  | RespelledScope
deriving DecidableEq

/-- `route_prefix_problem`. -/
def routePrefixProblem (pre : Url) (bound : List Url) : Option RoutePrefixProblem :=
  if pre.cannotBeABase then some .Opaque
  else if carriesCredentials pre then some .Credentials
  else if bound.any fun other => nodeKey other.toParts == nodeKey pre.toParts then some .RespelledScope
  else none

/-- `BrokerOAuthRouteBindings`. -/
structure BrokerOAuthRouteBindings where
  rules : List (Url × String)

namespace BrokerOAuthRouteBindings

/-- `BrokerOAuthRouteBindings::new`. -/
def new : BrokerOAuthRouteBindings := ⟨[]⟩

variable (U : UrlCrate) (B : BrokerOAuthRouteBindings)

/-- `with_route`. -/
def withRoute (pre : Url) (providerName : String) : BrokerOAuthRouteBindings :=
  match refusedConfigComponent pre.asStr with
  | some _ => B
  | none =>
    let pre := canonicalize U pre
    match routePrefixProblem pre (B.rules.map Prod.fst) with
    | some _ => B
    | none => ⟨sortByKeyDesc (fun p => nodeRank p.1.toParts) (B.rules ++ [(pre, providerName)])⟩

/-- `provider_for`. -/
def providerFor (address : Url) : Option String :=
  (B.rules.find? fun rule => isAncestorOrSelf rule.1.toParts address.toParts).map Prod.snd

/-- The calls of `with_route`, one after another. -/
def withRoutes (routes : List (Url × String)) : BrokerOAuthRouteBindings :=
  routes.foldl (fun B route => B.withRoute U route.1 route.2) B

/-! ### What a call does -/

/-- What `with_route` asks of a prefix alone. -/
structure Bindable (pre : Url) : Prop where
  plain : refusedConfigComponent pre.asStr = none
  hierarchical : (canonicalize U pre).cannotBeABase = false
  anonymous : carriesCredentials (canonicalize U pre) = false

/-- The prefix is bound: nothing is wrong with it, and no binding names its node. -/
structure Accepts (pre : Url) : Prop extends Bindable U pre where
  fresh : ∀ rule ∈ B.rules, nodeKey rule.1.toParts ≠ nodeKey (canonicalize U pre).toParts

instance (pre : Url) : Decidable (Bindable U pre) :=
  decidable_of_iff (refusedConfigComponent pre.asStr = none ∧ (canonicalize U pre).cannotBeABase = false ∧
    carriesCredentials (canonicalize U pre) = false) ⟨fun ⟨a, b, c⟩ => ⟨a, b, c⟩, fun ⟨a, b, c⟩ => ⟨a, b, c⟩⟩

instance (pre : Url) : Decidable (B.Accepts U pre) :=
  decidable_of_iff (Bindable U pre ∧ ∀ rule ∈ B.rules, nodeKey rule.1.toParts ≠ nodeKey (canonicalize U pre).toParts)
    ⟨fun ⟨a, b⟩ => ⟨a, b⟩, fun ⟨a, b⟩ => ⟨a, b⟩⟩

/-- The calls that are accepted, of those made one after another. -/
def accepted : BrokerOAuthRouteBindings → List (Url × String) → List (Url × String)
  | _, [] => []
  | B, route :: routes =>
    if B.Accepts U route.1 then route :: accepted (B.withRoute U route.1 route.2) routes
    else accepted (B.withRoute U route.1 route.2) routes

variable {U B} {pre : Url} {providerName : String}

theorem withRoute_accepts (h : B.Accepts U pre) :
    (B.withRoute U pre providerName).rules =
      sortByKeyDesc (fun p => nodeRank p.1.toParts) (B.rules ++ [(canonicalize U pre, providerName)]) := by
  have hfresh : (B.rules.map Prod.fst).any
      (fun other => nodeKey other.toParts == nodeKey (canonicalize U pre).toParts) = false := by
    simpa using fun a b hab => h.fresh (a, b) hab
  simp only [withRoute, h.plain, routePrefixProblem, h.hierarchical, h.anonymous, hfresh, Bool.false_eq_true, if_false]

theorem withRoute_refuses (h : ¬B.Accepts U pre) : B.withRoute U pre providerName = B := by
  cases hplain : refusedConfigComponent pre.asStr with
  | some component => simp only [withRoute, hplain]
  | none =>
    cases hproblem : routePrefixProblem (canonicalize U pre) (B.rules.map Prod.fst) with
    | some problem => simp only [withRoute, hplain, hproblem]
    | none =>
      simp only [routePrefixProblem] at hproblem
      split_ifs at hproblem with hopaque hcredentials hbound
      refine absurd ⟨⟨hplain, by simpa using hopaque, by simpa using hcredentials⟩, fun rule hrule heq => hbound ?_⟩ h
      exact any_eq_true.mpr ⟨rule.1, mem_map_of_mem hrule, by simpa using heq⟩

/-! ### The bindings kept -/

variable (B) in
/-- The prefixes are canonical, name pairwise distinct nodes and come by descending rank. -/
structure Sound : Prop where
  shaped : ∀ rule ∈ B.rules, ∃ st, Shape rule.1.toParts st
  distinct : B.rules.Pairwise fun rule other => nodeOf rule.1.toParts ≠ nodeOf other.1.toParts
  sorted : B.rules.Pairwise fun rule other => nodeRank other.1.toParts ≤ nodeRank rule.1.toParts

theorem Sound.new : Sound new := ⟨by simp [BrokerOAuthRouteBindings.new], .nil, .nil⟩

theorem Bindable.shape (law : U.Lawful) (h : Bindable U pre) : ∃ st, Shape (canonicalize U pre).toParts st := by
  refine canonicalize_shape law ?_
  have hbase := h.hierarchical
  by_contra hc
  rw [canonicalize, if_pos (by simpa using hc)] at hbase
  exact hc hbase

theorem Sound.withRoute (law : U.Lawful) (hB : Sound B) : Sound (B.withRoute U pre providerName) := by
  by_cases h : B.Accepts U pre
  · obtain ⟨st, hst⟩ := h.shape law
    have hrules := @withRoute_accepts U B pre providerName h
    have hperm := perm_sortByKeyDesc (fun p : Url × String => nodeRank p.1.toParts)
      (B.rules ++ [(canonicalize U pre, providerName)])
    constructor
    · intro rule hrule
      rw [hrules, mem_sortByKeyDesc, mem_append, mem_singleton] at hrule
      rcases hrule with hrule | rfl
      · exact hB.shaped rule hrule
      · exact ⟨st, hst⟩
    · rw [hrules, hperm.pairwise_iff fun hne => hne.symm, pairwise_append]
      refine ⟨hB.distinct, pairwise_singleton _ _, fun rule hrule other hother => ?_⟩
      obtain rfl := mem_singleton.mp hother
      obtain ⟨rt, hrt⟩ := hB.shaped rule hrule
      exact mt (hrt.nodeKey_eq_iff hst).mpr (h.fresh rule hrule)
    · rw [hrules]
      exact pairwise_sortByKeyDesc _ _
  · rwa [withRoute_refuses h]

theorem Sound.withRoutes (law : U.Lawful) (hB : Sound B) (routes : List (Url × String)) :
    Sound (B.withRoutes U routes) := by
  induction routes generalizing B with
  | nil => exact hB
  | cons route routes ih => exact ih (hB.withRoute law)

/-! ### The bindings, in any order -/

/-- The binding that a call makes. -/
def binding (U : UrlCrate) (route : Url × String) : Url × String := (canonicalize U route.1, route.2)

/-- Each of the calls can be accepted, beside the bindings and the others. -/
structure Compatible (U : UrlCrate) (B : BrokerOAuthRouteBindings) (routes : List (Url × String)) : Prop where
  bindable : ∀ route ∈ routes, Bindable U route.1
  distinct : routes.Pairwise fun route other =>
    nodeKey (binding U route).1.toParts ≠ nodeKey (binding U other).1.toParts
  fresh : ∀ rule ∈ B.rules, ∀ route ∈ routes, nodeKey rule.1.toParts ≠ nodeKey (binding U route).1.toParts

theorem Compatible.perm {routes routes' : List (Url × String)} (h : Compatible U B routes)
    (hperm : routes'.Perm routes) :
    Compatible U B routes' where
  bindable route hroute := h.bindable route (hperm.mem_iff.mp hroute)
  distinct := (hperm.pairwise_iff fun hne => hne.symm).mpr h.distinct
  fresh rule hrule route hroute := h.fresh rule hrule route (hperm.mem_iff.mp hroute)

theorem perm_withRoute (h : B.Accepts U pre) :
    (B.withRoute U pre providerName).rules.Perm (B.rules ++ [binding U (pre, providerName)]) := by
  rw [withRoute_accepts h]
  exact perm_sortByKeyDesc (fun p : Url × String => nodeRank p.1.toParts) _

variable {rule : Url × String}

theorem mem_withRoute (h : B.Accepts U pre) :
    rule ∈ (B.withRoute U pre providerName).rules ↔ rule ∈ B.rules ∨ rule = binding U (pre, providerName) := by
  rw [(perm_withRoute h).mem_iff, mem_append, mem_singleton]

/-- Calls that are compatible are all accepted. -/
theorem Compatible.perm_withRoutes {routes : List (Url × String)} (h : Compatible U B routes) :
    (B.withRoutes U routes).rules.Perm (B.rules ++ routes.map (binding U)) := by
  induction routes generalizing B with
  | nil => simp [withRoutes]
  | cons route routes ih =>
    obtain ⟨hroute, hroutes⟩ := pairwise_cons.mp h.distinct
    have haccepts : B.Accepts U route.1 :=
      ⟨h.bindable route mem_cons_self, fun rule hrule => h.fresh rule hrule route mem_cons_self⟩
    have hrest : Compatible U (B.withRoute U route.1 route.2) routes := by
      refine ⟨fun other hother => h.bindable other (mem_cons_of_mem _ hother), hroutes,
        fun rule hrule other hother => ?_⟩
      rcases (mem_withRoute haccepts).mp hrule with hrule | rfl
      · exact h.fresh rule hrule other (mem_cons_of_mem _ hother)
      · exact hroute other hother
    rw [map_cons, append_cons]
    exact (ih hrest).trans ((perm_withRoute haccepts).append_right _)

/-- The accepted calls are compatible, and what is kept are their bindings. -/
theorem compatible_accepted (routes : List (Url × String)) :
    Compatible U B (B.accepted U routes) ∧
      (B.withRoutes U routes).rules.Perm (B.rules ++ (B.accepted U routes).map (binding U)) := by
  induction routes generalizing B with
  | nil => exact ⟨⟨by simp [accepted], .nil, by simp [accepted]⟩, by simp [withRoutes, accepted]⟩
  | cons route routes ih =>
    have hstep : B.withRoutes U (route :: routes) = (B.withRoute U route.1 route.2).withRoutes U routes := rfl
    by_cases haccepts : B.Accepts U route.1
    · obtain ⟨hrest, hperm⟩ := @ih (B.withRoute U route.1 route.2)
      rw [accepted, if_pos haccepts, hstep]
      refine ⟨⟨forall_mem_cons.mpr ⟨haccepts.toBindable, hrest.bindable⟩,
        pairwise_cons.mpr ⟨?_, hrest.distinct⟩, ?_⟩, ?_⟩
      · exact hrest.fresh _ ((mem_withRoute haccepts).mpr (.inr rfl))
      · intro rule hrule
        exact forall_mem_cons.mpr ⟨haccepts.fresh rule hrule,
          hrest.fresh rule ((mem_withRoute haccepts).mpr (.inl hrule))⟩
      · rw [map_cons, append_cons]
        exact hperm.trans ((perm_withRoute haccepts).append_right _)
    · rw [accepted, if_neg haccepts, hstep, withRoute_refuses haccepts]
      exact ih

/-! ### The provider of an address -/

/-- The binding of the greatest rank above the address, with no other of that rank. -/
structure Selects (B : BrokerOAuthRouteBindings) (address : Url) (rule : Url × String) : Prop where
  mem : rule ∈ B.rules
  covers : isAncestorOrSelf rule.1.toParts address.toParts = true
  deepest : ∀ other ∈ B.rules, isAncestorOrSelf other.1.toParts address.toParts = true →
    other = rule ∨ nodeRank other.1.toParts < nodeRank rule.1.toParts

variable {address : Url}

theorem Sound.selects (hB : Sound B) {st : List Bytes} (haddress : Shape address.toParts st)
    (h : B.rules.find? (fun rule => isAncestorOrSelf rule.1.toParts address.toParts) = some rule) :
    B.Selects address rule := by
  obtain ⟨hcovers, before, after, hsplit, hbefore⟩ := List.find?_eq_some_iff_append.mp h
  refine ⟨mem_of_find?_eq_some h, hcovers, fun other hother hcovers' => ?_⟩
  have hsorted := hB.sorted
  have hdistinct := hB.distinct
  rw [hsplit] at hother hsorted hdistinct
  rcases mem_append.mp hother with hother | hother
  · have := hbefore other hother
    simp only [hcovers', Bool.not_true, Bool.false_eq_true] at this
  · rcases mem_cons.mp hother with rfl | hother
    · exact .inl rfl
    -- two prefixes above one address tie only as one node
    · have hle := (pairwise_cons.mp (pairwise_append.mp hsorted).2.1).1 other hother
      have hne := (pairwise_cons.mp (pairwise_append.mp hdistinct).2.1).1 other hother
      obtain ⟨ruleSt, hrule⟩ := hB.shaped rule (mem_of_find?_eq_some h)
      obtain ⟨otherSt, hother'⟩ := hB.shaped other (by rw [hsplit]; exact mem_append_right _ (mem_cons_of_mem _ hother))
      refine .inr (lt_of_le_of_ne hle fun hrank => hne ?_)
      rw [hrule.nodeRank_eq, hother'.nodeRank_eq] at hrank
      exact Node.Covers.eq_of_rank_eq ((hrule.isAncestorOrSelf_iff haddress).mp hcovers)
        ((hother'.isAncestorOrSelf_iff haddress).mp hcovers') hrank.symm

theorem Selects.unique {other : Url × String} (h : B.Selects address rule) (h' : B.Selects address other) :
    rule = other := by
  rcases h.deepest other h'.mem h'.covers with heq | hlt
  · exact heq.symm
  · rcases h'.deepest rule h.mem h.covers with heq | hlt'
    · exact heq
    · exact absurd hlt (not_lt_of_gt hlt')

theorem Sound.providerFor_iff (hB : Sound B) {st : List Bytes} (haddress : Shape address.toParts st)
    {provider : String} :
    B.providerFor address = some provider ↔ ∃ rule, B.Selects address rule ∧ rule.2 = provider := by
  rw [providerFor, Option.map_eq_some_iff]
  constructor
  · rintro ⟨rule, hfind, rfl⟩
    exact ⟨rule, hB.selects haddress hfind, rfl⟩
  · rintro ⟨rule, hselects, rfl⟩
    cases hfind : B.rules.find? (fun rule => isAncestorOrSelf rule.1.toParts address.toParts) with
    | none => exact absurd hselects.covers (by simpa using List.find?_eq_none.mp hfind rule hselects.mem)
    | some found => exact ⟨found, rfl, congrArg _ ((hB.selects haddress hfind).unique hselects)⟩

end BrokerOAuthRouteBindings

open BrokerOAuthRouteBindings

/-- The prefixes kept name pairwise distinct nodes, an address has the provider of the one of the greatest rank above it
or none when none is, and the calls that were accepted give the same providers in any order. -/
theorem route_bindings_by_node {U : UrlCrate} (law : U.Lawful) (routes : List (Url × String)) :
    ((new.withRoutes U routes).rules.Pairwise fun rule other => nodeOf rule.1.toParts ≠ nodeOf other.1.toParts) ∧
      (∀ address, Canonical U address →
        (∀ provider, (new.withRoutes U routes).providerFor address = some provider ↔
          ∃ rule, (new.withRoutes U routes).Selects address rule ∧ rule.2 = provider) ∧
        ((new.withRoutes U routes).providerFor address = none ↔
          ∀ rule ∈ (new.withRoutes U routes).rules, isAncestorOrSelf rule.1.toParts address.toParts = false)) ∧
      ∀ routes' : List (Url × String), routes'.Perm (new.accepted U routes) →
        (new.withRoutes U routes').rules.Perm (new.withRoutes U routes).rules ∧
          ∀ address, Canonical U address →
            (new.withRoutes U routes').providerFor address = (new.withRoutes U routes).providerFor address := by
  have hsound := fun routes => Sound.new.withRoutes law (U := U) routes
  refine ⟨(hsound routes).distinct, fun address haddress => ?_, fun routes' hroutes' => ?_⟩
  · obtain ⟨st, hst⟩ := haddress.shape law
    refine ⟨fun provider => (hsound routes).providerFor_iff hst, ?_⟩
    rw [providerFor, Option.map_eq_none_iff, List.find?_eq_none]
    exact forall₂_congr fun rule hrule => Bool.not_eq_true _ ▸ Iff.rfl
  · obtain ⟨hcompatible, hperm⟩ := @compatible_accepted U new routes
    have hrules := (hcompatible.perm hroutes').perm_withRoutes.trans (((hroutes'.map _).append_left _).trans hperm.symm)
    refine ⟨hrules, fun address haddress => Option.ext fun provider => ?_⟩
    obtain ⟨st, hst⟩ := haddress.shape law
    rw [(hsound routes').providerFor_iff hst, (hsound routes).providerFor_iff hst]
    refine exists_congr fun rule => and_congr_left fun _ => ?_
    constructor
    · rintro ⟨hmem, hcovers, hdeepest⟩
      exact ⟨hrules.mem_iff.mp hmem, hcovers, fun other hother => hdeepest other (hrules.mem_iff.mpr hother)⟩
    · rintro ⟨hmem, hcovers, hdeepest⟩
      exact ⟨hrules.mem_iff.mpr hmem, hcovers, fun other hother => hdeepest other (hrules.mem_iff.mp hother)⟩

def tenantAddress (path : String)
    (h : (⟨utf8 "s3", true, [], none, some (utf8 "bucket"), none, utf8 path, none, none⟩ : Parts).WellFormed) :
    Url := ⟨_, h⟩

def bucketRoute : Url := tenantAddress "/" (by decide +kernel)

def teamRoute : Url := tenantAddress "/team/" (by decide +kernel)

def teamFile : Url := tenantAddress "/team/x" (by decide +kernel)

/-- The second `team` respells the first, which stays. -/
def tenantRoutes : List (Url × String) :=
  [(bucketRoute, "shared"), (teamRoute, "team"), (tenantAddress "/team" (by decide +kernel), "other")]

theorem route_bindings_by_node_team : (new.withRoutes reference tenantRoutes).providerFor teamFile = some "team" := by
  have hcanonical : Canonical reference teamFile :=
    reference_canonical _ [utf8 "team", utf8 "x"] (by decide +kernel) (by simp [teamFile, tenantAddress])
  have hselects : (new.withRoutes reference tenantRoutes).Selects teamFile (teamRoute, "team") :=
    ⟨by decide +kernel, by decide +kernel, by decide +kernel⟩
  exact (((route_bindings_by_node reference_lawful tenantRoutes).2.1 teamFile hcanonical).1 "team").mpr
    ⟨_, hselects, rfl⟩

end OvStorage.Broker
