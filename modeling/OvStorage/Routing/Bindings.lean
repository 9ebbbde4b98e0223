import OvStorage.Routing.RouteTable

/-!
# Who serves a node

What `router.rs` of `ovstorage-plugin-core` computes from the roots that its children
publish: the conflict of a new connection with what other children serve, the roots that
are withheld because their connection was refused, and the order in which a rebuild hands
its roots to the route table.

## The model

A root carries that its address is canonical, as the plugin ABI promises it. A child is
known by its handle: `ι` is any type with decidable equality, for `Arc::ptr_eq`. A table
in force is given by the roots it was built from.
-/

namespace OvStorage.Routing

open Address StableSort

abbrev ConnectionId := String

/-- The instance name of a layer that owns connections. -/
abbrev Target := String

deriving instance DecidableEq for RootInfo

/-- An address in the form that layers exchange. -/
structure CanonicalUrl (U : UrlCrate) where
  url : Url
  canonical : Canonical U url
deriving DecidableEq

/-- `RootInfo`, with the attribution that the router reads. -/
structure PublishedRoot (U : UrlCrate) where
  info : RootInfo
  canonical : Canonical U info.root
  connectionId : Option ConnectionId
  owningTarget : Option Target
deriving DecidableEq

/-- `Connection`, as far as the router reads it. -/
structure Connection (U : UrlCrate) where
  id : ConnectionId
  currentAddresses : List (CanonicalUrl U)
deriving DecidableEq

section Code

variable {U : UrlCrate} {ι : Type}

/-- The key of `node_key_owned`. -/
abbrev NodeKey := Bytes × Option Bytes × Option UInt16 × Bytes × Option Bytes

def CanonicalUrl.key (address : CanonicalUrl U) : NodeKey := nodeKey address.url.toParts

/-- `same_node`. -/
def CanonicalUrl.sameNode (a b : CanonicalUrl U) : Bool := Address.sameNode a.url.toParts b.url.toParts

def PublishedRoot.address (root : PublishedRoot U) : CanonicalUrl U := ⟨root.info.root, root.canonical⟩

/-! ### The code -/

/-- The table that `RouteTable::build` makes of a rebuild's roots. -/
def tableOf (routes : List (PublishedRoot U × ι)) : RouteTable (PublishedRoot U × ι) :=
  RouteTable.build (routes.map fun route => (route.1.info, route))

/-- The child that `lookup_prefix` names for an address, where the root is at that very node. -/
def servedBy (routes : List (PublishedRoot U × ι)) (address : CanonicalUrl U) : Option ι :=
  match (tableOf routes).lookupPrefix U address.url with
  | some (root, served) => if Address.sameNode root.root.toParts address.url.toParts then some served.2 else none
  | none => none

variable [DecidableEq ι]

/-- What `cross_child_conflict` asks of one address. -/
def takenByOther (claimed : List (CanonicalUrl U × ι)) (routes : List (PublishedRoot U × ι)) (child : ι)
    (address : CanonicalUrl U) : Bool :=
  (servedBy routes address).any (fun serving => serving ≠ child) ||
    claimed.any fun claim => claim.2 ≠ child && claim.1.sameNode address

/-- `cross_child_conflict`: the addresses that the connection may claim, or the refusal. -/
def crossChildConflict (claimed : List (CanonicalUrl U × ι)) (routes : List (PublishedRoot U × ι)) (child : ι)
    (claimable : List (CanonicalUrl U)) : Except ErrorCode (List (CanonicalUrl U)) :=
  let routable := claimable.filter fun address => !takenByOther claimed routes child address
  match claimable.find? (takenByOther claimed routes child) with
  | none => .ok routable
  | some _ => if routable.isEmpty then .error .RouteConflict else .ok routable

/-- `published_claims`, once the child has answered. -/
def publishedClaims (connection : Connection U) (roots : List (PublishedRoot U)) : List (CanonicalUrl U) :=
  connection.currentAddresses.filter fun address =>
    roots.any fun root => root.address.sameNode address && root.connectionId.all (· == connection.id)

/-- `Quarantined`. -/
structure Quarantined (U : UrlCrate) (ι : Type) where
  child : ι
  target : Target
  connection : ConnectionId
  nodes : List (CanonicalUrl U)
deriving DecidableEq

/-- `claims_node`. -/
def Quarantined.claimsNode (held : Quarantined U ι) (node : CanonicalUrl U) : Bool :=
  held.nodes.any fun claimed => claimed.sameNode node

/-- Whether an entry withholds a root: by its attribution, and by its node where that is missing. -/
def Quarantined.withholds (held : Quarantined U ι) (idAloneSuffices : Bool) (route : PublishedRoot U × ι) : Bool :=
  held.child == route.2 &&
    match route.1.connectionId with
    | some id =>
      id == held.connection &&
        match route.1.owningTarget with
        | some owner => owner == held.target
        | none => idAloneSuffices || held.claimsNode route.1.address
    | none => held.claimsNode route.1.address

/-- The entry that withholds a root. -/
def withheldAt (quarantined : List (Quarantined U ι × Bool)) (route : PublishedRoot U × ι) : Option ℕ :=
  quarantined.findIdx? fun held => held.1.withholds held.2 route

/-- `withhold_quarantined`: the roots that stay, and the entries that nothing was published for. -/
def withholdQuarantined (quarantined : List (Quarantined U ι × Bool)) (routes : List (PublishedRoot U × ι)) :
    List (PublishedRoot U × ι) × List (Quarantined U ι) :=
  (routes.filter fun route => (withheldAt quarantined route).isNone,
    (quarantined.zipIdx.filter fun held => !routes.any fun route => withheldAt quarantined route == some held.2).map
      fun held => held.1.1)

/-- One turn of the loop of `incumbents_first`: `entry(..).or_insert_with(..)`. -/
def insertServing (serving : List (NodeKey × ι)) (entry : RootInfo × PublishedRoot U × ι) : List (NodeKey × ι) :=
  let key := nodeKey entry.1.root.toParts
  if (serving.lookup key).isNone then (key, entry.2.2) :: serving else serving

/-- The map of `incumbents_first`, of the table that is about to be replaced. -/
def servingMap (published : List (PublishedRoot U × ι)) : List (NodeKey × ι) :=
  (tableOf published).entries.foldl insertServing []

/-- `incumbents_first`. -/
def incumbentsFirst (published routes : List (PublishedRoot U × ι)) : List (PublishedRoot U × ι) :=
  let serving := servingMap published
  if serving.isEmpty then routes
  else
    let (incumbent, arrived) := routes.partition fun route => serving.lookup route.1.address.key == some route.2
    incumbent ++ arrived

end Code

/-! ### The table at a node -/

section Serving

variable {U : UrlCrate} {ι : Type} {routes published : List (PublishedRoot U × ι)} {address : CanonicalUrl U}

variable {a b : CanonicalUrl U}

theorem sameNode_iff : a.sameNode b = true ↔ a.key = b.key := by
  simp [CanonicalUrl.sameNode, Address.sameNode, CanonicalUrl.key]

/-- A node is an ancestor-or-self of the addresses that name it. -/
theorem isAncestorOrSelf_of_key (law : U.Lawful) (h : a.key = b.key) :
    isAncestorOrSelf a.url.toParts b.url.toParts = true := by
  rw [(isAncestorOrSelf_congr h b.url.toParts).1]
  exact (isAncestorOrSelf_iff law b.canonical b.canonical).mpr (Node.Covers.refl _)

/-- At a node the table answers with the first of the roots that name it. -/
theorem servedBy_eq (law : U.Lawful) :
    servedBy routes address = (routes.find? fun route => route.1.address.sameNode address).map Prod.snd := by
  set items := routes.map fun route => (route.1.info, route) with hitems
  have hroots : ∀ item ∈ items, Canonical U item.1.root := by
    intro item h
    obtain ⟨route, -, rfl⟩ := List.mem_map.mp h
    exact route.1.canonical
  have hfind : ∀ k : NodeKey, (items.find? fun item => decide (nodeKey item.1.root.toParts = k)) =
      (routes.find? fun route => decide (route.1.address.key = k)).map fun route => (route.1.info, route) := by
    intro k
    rw [hitems, List.find?_map]
    rfl
  have hnode : (fun route : PublishedRoot U × ι => route.1.address.sameNode address) =
      fun route => decide (route.1.address.key = address.key) := by
    funext route
    rw [Bool.eq_iff_iff, sameNode_iff, decide_eq_true_eq]
  rw [hnode]
  unfold servedBy tableOf
  rw [← hitems]
  cases hfirst : routes.find? fun route => decide (route.1.address.key = address.key) with
  | none =>
    -- what answers, if anything does, is at another node
    split
    next root served hlook =>
      obtain ⟨hmem, -, -, -⟩ := lookupPrefix_longest law hroots address.canonical hlook
      obtain ⟨route, hroute, heq⟩ := List.mem_map.mp hmem
      obtain ⟨rfl, rfl⟩ := Prod.mk.inj heq
      have hne := List.find?_eq_none.mp hfirst route hroute
      rw [if_neg]
      · rfl
      · have hother : nodeKey route.1.info.root.toParts ≠ nodeKey address.url.toParts :=
          fun hkey => hne (decide_eq_true hkey)
        simpa [Address.sameNode] using hother
    next => rfl
  | some route =>
    have hmem := List.mem_of_find?_eq_some hfirst
    have hkey : route.1.address.key = address.key := by simpa using List.find?_some hfirst
    have hcovers := isAncestorOrSelf_of_key law hkey
    have hitem : (route.1.info, route) ∈ items := List.mem_map_of_mem hmem
    obtain ⟨r, hlook⟩ := Option.isSome_iff_exists.mp
      ((lookupPrefix_isSome_iff law hroots address.canonical).mpr ⟨_, hitem, hcovers⟩)
    obtain ⟨hr, hru, hmax, -⟩ := lookupPrefix_longest law hroots address.canonical hlook
    -- the answer is as specific as the node itself, so it is at that node
    have hrank : nodeRank r.1.root.toParts = nodeRank route.1.info.root.toParts :=
      le_antisymm ((isAncestorOrSelf_congr hkey address.url.toParts).2 ▸ nodeRank_le law
        (hroots r hr) address.canonical hru)
        (hmax _ hitem hcovers)
    have hrkey : nodeKey r.1.root.toParts = address.key :=
      (nodeKey_eq_of_rank_eq law hroots address.canonical hr hitem hru hcovers hrank).trans hkey
    have hearliest := lookupPrefix_earliest law hroots address.canonical hlook
    rw [hrkey, hfind, hfirst] at hearliest
    cases hearliest
    rw [hlook]
    simp [Address.sameNode, show nodeKey route.1.info.root.toParts = nodeKey address.url.toParts from hrkey]

/-! ### Incumbents -/

theorem lookup_insertServing (entries : List (RootInfo × PublishedRoot U × ι)) (serving : List (NodeKey × ι))
    (k : NodeKey) :
    (entries.foldl insertServing serving).lookup k =
      (serving.lookup k).or ((entries.find? fun entry => decide (nodeKey entry.1.root.toParts = k)).map
        fun entry => entry.2.2) := by
  induction entries generalizing serving with
  | nil => simp
  | cons entry entries ih =>
    rw [List.foldl_cons, ih, insertServing]
    by_cases hk : nodeKey entry.1.root.toParts = k
    · rw [List.find?_cons_of_pos (by simpa using hk), hk]
      cases hlook : serving.lookup k with
      | none => simp
      | some child => simp [hlook]
    · rw [List.find?_cons_of_neg (by simpa using hk)]
      split_ifs with hnone
      · rw [List.lookup_cons, beq_false_of_ne (Ne.symm hk)]
      · rfl

/-- The map of `incumbents_first` holds the child that each node resolves to. -/
theorem lookup_servingMap (law : U.Lawful) (address : CanonicalUrl U) :
    (servingMap published).lookup address.key = servedBy published address := by
  rw [servingMap, lookup_insertServing, List.lookup_nil, Option.none_or, servedBy_eq law, tableOf, RouteTable.build]
  have hfilter := filter_sortByKeyDesc (fun item : RootInfo × PublishedRoot U × ι => nodeRank item.1.root.toParts)
    (fun entry => decide (nodeKey entry.1.root.toParts = address.key)) (nodeRank address.url.toParts)
    (published.map fun route => (route.1.info, route))
    fun entry _ hkey => (isAncestorOrSelf_congr (of_decide_eq_true hkey) address.url.toParts).2
  rw [← List.head?_filter, hfilter, List.head?_filter, List.find?_map, Option.map_map]
  congr 1
  congr 1
  funext route
  rw [Bool.eq_iff_iff, sameNode_iff, Function.comp_apply, decide_eq_true_eq]
  rfl

section Incumbents

variable [DecidableEq ι]

theorem mem_incumbentsFirst {route : PublishedRoot U × ι} :
    route ∈ incumbentsFirst published routes ↔ route ∈ routes := by
  unfold incumbentsFirst
  dsimp only
  split_ifs
  · rfl
  · rw [List.partition_eq_filter_filter, List.mem_append, List.mem_filter, List.mem_filter, ← and_or_left]
    exact and_iff_left (by simpa using em _)

/-- The child that serves a node goes on serving it where it still publishes it. -/
theorem servedBy_incumbentsFirst (law : U.Lawful) {child : ι} (hserved : servedBy published address = some child)
    (hstill : ∃ route ∈ routes, route.2 = child ∧ route.1.address.sameNode address = true) :
    servedBy (incumbentsFirst published routes) address = some child := by
  obtain ⟨route, hroute, rfl, hnode⟩ := hstill
  have hlookup : ∀ other : PublishedRoot U × ι, other.1.address.sameNode address = true →
      (servingMap published).lookup other.1.address.key = some route.2 := by
    intro other hother
    rw [sameNode_iff.mp hother, lookup_servingMap law, hserved]
  have hsome : (servingMap published).isEmpty = false := by
    rw [Bool.eq_false_iff]
    intro hempty
    have := hlookup route hnode
    rw [List.isEmpty_iff.mp hempty] at this
    cases this
  rw [servedBy_eq law, incumbentsFirst]
  simp only [hsome, Bool.false_eq_true, if_false, List.partition_eq_filter_filter, List.find?_append]
  -- the first root at the node among the incumbents is one of that child
  cases hfirst : (routes.filter fun route => (servingMap published).lookup route.1.address.key == some route.2).find?
      fun route => route.1.address.sameNode address with
  | none =>
    have hmem : route ∈ routes.filter fun route => (servingMap published).lookup route.1.address.key == some route.2 :=
      List.mem_filter.mpr ⟨hroute, by rw [hlookup route hnode]; exact beq_self_eq_true _⟩
    exact absurd hnode (List.find?_eq_none.mp hfirst route hmem)
  | some first =>
    have hmem := List.mem_filter.mp (List.mem_of_find?_eq_some hfirst)
    have hchild := hmem.2
    rw [hlookup first (List.find?_some (p := fun route : PublishedRoot U × ι => route.1.address.sameNode address)
      hfirst)] at hchild
    simpa using (beq_iff_eq.mp hchild).symm

end Incumbents

end Serving

end OvStorage.Routing
