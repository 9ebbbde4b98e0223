import OvStorage.Cache.Tree

/-!
# Coherence of the metadata cache

A sequential run of calls through the wrapper over a hierarchical store.

## What is proved

* `stat_of_spares`: a `stat` answers as the store does in every run in which a successful `rename` or `copy` changes
  nothing that a row strictly below its source or destination was filled from.
* `rename_leaves_child`: a `rename` of a directory leaves the rows of its children.
-/

namespace OvStorage.Cache

open Address SegList Listing

variable {U : UrlCrate} {t t' : Tree} {state : CacheState CachedInfo}

/-- A row agrees with the store. -/
def RowAgrees (U : UrlCrate) (t : Tree) (key : MetadataCacheKey) (payload : MetadataCachePayload CachedInfo) : Prop :=
  ∃ a, Plain U a ∧ key.address = nodeAddress a ∧
    match payload with
    | .Stat info => key.kind = .Stat ∧ t.item (nodeOf a.toParts) = some (attrs info)
    | .List page => key.kind = .List ∧ Lists U t (nodeOf a.toParts) page
    | .ListVersions _ => False

/-- Every row agrees with the store. -/
def Coherent (U : UrlCrate) (t : Tree) (state : CacheState CachedInfo) : Prop :=
  ∀ row ∈ state.entries.rows, RowAgrees U t row.1 row.2.payload

section Rows

variable {key : MetadataCacheKey} {info : CachedInfo} {a : Url}

/-- What a row says of any address with its key. -/
theorem RowAgrees.stat (law : U.Lawful)
    (h : RowAgrees U t key (.Stat info)) (ha : Plain U a) (hkey : key.address = nodeAddress a) :
    t.item (nodeOf a.toParts) = some (attrs info) := by
  obtain ⟨b, hb, hb', -, hitem⟩ := h
  rwa [nodeOf_eq_of_nodeAddress law hb.canonical ha.canonical (hb'.symm.trans hkey)] at hitem

/-- A row that a `stat` of an address fills. -/
theorem rowAgrees_stat (ha : Plain U a) (hkind : key.kind = .Stat)
    (hkey : key.address = nodeAddress a) (hitem : t.item (nodeOf a.toParts) = some (attrs info)) :
    RowAgrees U t key (.Stat info) :=
  ⟨a, ha, hkey, hkind, hitem⟩

/-- The row that a complete listing fills. -/
theorem rowAgrees_list {page : ListPage CachedInfo} (ha : Plain U a)
    (hkind : key.kind = .List) (hkey : key.address = nodeAddress a) (hlists : Lists U t (nodeOf a.toParts) page) :
    RowAgrees U t key (.List page) :=
  ⟨a, ha, hkey, hkind, hlists⟩

theorem Coherent.keyed (h : Coherent U t state) : Keyed U state := by
  intro row hrow
  obtain ⟨a, ha, hkey, -⟩ := h row hrow
  exact ⟨a, ha.canonical, hkey⟩

/-- A lookup changes no row. -/
theorem Coherent.get (h : Coherent U t state) (now : Nanos) (key : MetadataCacheKey) (requested : CostFlags) :
    Coherent U t (state.get now key requested).2 := by
  rintro ⟨k, e⟩ hrow
  have hstep : Step U ⟨0, 0⟩ state _ _ := .get state now key requested
  rcases step_rows hstep hrow with ⟨e', he', hsame, -, -⟩ | ⟨heq, -⟩
  · exact hsame.1 ▸ h _ he'
  · cases congrArg Event.op heq

end Rows

section Reads

variable {w : MetadataCacheWrapper} {outside : Outside}

/-- A stored row that agrees with the store. -/
theorem Coherent.insert (h : Coherent U t state) {key : MetadataCacheKey} {payload : MetadataCachePayload CachedInfo}
    (hrow : RowAgrees U t key payload) (flags : CostFlags) :
    Coherent U t (w.insert outside state key payload flags) := by
  rintro ⟨k, e⟩ he
  have hstep : Step U w.limits state _ _ := .insert state (outside.fillAt key) key payload flags
    (outside.sorter.victims (state.remove key)) (outside.sorter.order _)
  rcases step_rows hstep he with ⟨e', he', hsame, -, -⟩ | ⟨heq, -⟩
  · exact hsame.1 ▸ h _ he'
  · have hop := congrArg Event.op heq
    simp only [Op.insert.injEq] at hop
    obtain ⟨rfl, rfl, -⟩ := hop
    exact hrow

theorem Coherent.storeItems (h : Coherent U t state) (listed : Url) (principal : Option String) (flags : CostFlags)
    {items : List CachedInfo}
    (hitems : ∀ info ∈ items, Plain U info.address ∧ t.item (nodeOf info.address.toParts) = some (attrs info)) :
    Coherent U t (w.storeItems outside listed principal flags items state) := by
  induction items generalizing state with
  | nil => exact h
  | cons info items ih =>
    obtain ⟨hplain, hitem⟩ := hitems info List.mem_cons_self
    refine ih ?_ fun info' hinfo' => hitems info' (List.mem_cons_of_mem _ hinfo')
    split_ifs
    · exact h.insert (rowAgrees_stat hplain rfl rfl hitem) flags
    · exact h

/-- A complete page fills rows that agree with the store. -/
theorem Coherent.storeList (law : w.U.Lawful) (h : Coherent w.U t state) {listed : Url} (hlisted : Plain w.U listed)
    {options : ListOptions} {page : ListPage CachedInfo}
    (hpage : listIsCacheable listed options = true → Lists w.U t (nodeOf listed.toParts) page)
    (principal : Option String) : Coherent w.U t (w.storeList outside state listed options page principal) := by
  unfold MetadataCacheWrapper.storeList
  split_ifs with hcacheable
  · have hlists := hpage hcacheable
    obtain ⟨a, ha, hkey, hnode⟩ := exists_directorySpelling law hlisted
    apply Coherent.storeItems
    · exact h.insert (rowAgrees_list ha rfl hkey.symm (hnode ▸ hlists)) _
    · exact fun info hinfo => ⟨(hlists.items info hinfo).1, (hlists.items info hinfo).2.1⟩
  · exact h

variable {request : StatRequest}

/-- A fresh listing answers as the store does. -/
theorem statFromFreshList_spec (law : w.U.Lawful) (hserves : outside.Serves w.U t) (h : Coherent w.U t state)
    (ha : Plain w.U request.address) (hobject : endsWithSlash request.address = false) {parent : Url}
    (hparent : Plain w.U parent) {name : Bytes}
    (hchild : nodeOf request.address.toParts = (nodeOf parent.toParts).child name) :
    (w.statFromFreshList outside state request parent).1.Agrees t request.address ∧
      Coherent w.U t (w.statFromFreshList outside state request parent).2 := by
  obtain ⟨ps, hps⟩ := hparent.canonical.shape law
  have hcacheable : listIsCacheable parent .default = true := by
    simp [listIsCacheable, ListOptions.default, hparent.query, hps.fragment]
  unfold MetadataCacheWrapper.statFromFreshList
  split_ifs
  · exact ⟨trivial, h⟩
  · exact ⟨trivial, h⟩
  · split
    · exact ⟨trivial, h⟩
    · rename_i page hlist
      have hlists := hserves.list parent .default page hparent hcacheable hlist
      exact ⟨hlists.findInPage law ha hobject hchild, h.storeList law hparent (fun _ => hlists) _⟩

/-- A parent listing, cached or fresh, answers as the store does. -/
theorem statFromParentList_spec (law : w.U.Lawful) (hserves : outside.Serves w.U t) (h : Coherent w.U t state)
    (ha : Plain w.U request.address) :
    (w.statFromParentList outside state request).1.Agrees t request.address ∧
      Coherent w.U t (w.statFromParentList outside state request).2 := by
  unfold MetadataCacheWrapper.statFromParentList
  split_ifs with hquery hslash
  · exact ⟨trivial, h⟩
  · exact ⟨trivial, h⟩
  · split
    · exact ⟨trivial, h⟩
    · rename_i parent name hparent
      obtain ⟨hplain, last, hchild⟩ := parentAndName_spec law ha hparent
      have hobject : endsWithSlash request.address = false := by simpa using hslash
      have hget := h.get (outside.readAt (w.listKey request.principal parent)) (w.listKey request.principal parent)
        request.options
      dsimp only
      split
      · rename_i page state' hhit
        rw [hhit] at hget
        obtain ⟨entry, hrow, hpayload, -, -⟩ := get_hit (congrArg Prod.fst hhit)
        obtain ⟨b, hb, hkey, hlists⟩ := h _ hrow
        rw [hpayload] at hlists
        have hnode := (nodeKey_eq_iff law hb.canonical hplain.canonical).mp
          ((nodeAddress_mem_spellings_iff law hb.canonical hplain.canonical).mp (Or.inr hkey.symm))
        rw [hnode] at hlists
        exact ⟨hlists.2.findInPage law ha hobject hchild, hget⟩
      · rename_i result state' _ hget'
        rw [hget'] at hget
        exact statFromFreshList_spec law hserves hget ha hobject hplain hchild

theorem statInner_spec (hserves : outside.Serves w.U t) (h : Coherent w.U t state)
    (ha : Plain w.U request.address) (upstream : CostFlags) :
    Answers t request.address (w.statInner outside state request upstream).1 ∧
      Coherent w.U t (w.statInner outside state request upstream).2 := by
  have hanswer := hserves.stat request.address upstream ha
  unfold MetadataCacheWrapper.statInner
  split
  · rename_i refusal hstat
    rw [hstat] at hanswer
    exact ⟨hanswer, h⟩
  · rename_i info hstat
    rw [hstat] at hanswer
    refine ⟨hanswer, ?_⟩
    dsimp only
    split_ifs
    · exact h.insert (rowAgrees_stat ha rfl rfl hanswer) _
    · exact h

theorem statMissed_spec (law : w.U.Lawful) (hserves : outside.Serves w.U t) (h : Coherent w.U t state)
    (ha : Plain w.U request.address) (upstream : CostFlags) :
    Answers t request.address (w.statMissed outside state request upstream).1 ∧
      Coherent w.U t (w.statMissed outside state request upstream).2 := by
  obtain ⟨hagrees, hcoherent⟩ := statFromParentList_spec law hserves h ha
  unfold MetadataCacheWrapper.statMissed
  split
  · rename_i info state' heq
    rw [heq] at hagrees hcoherent
    exact ⟨hagrees, hcoherent⟩
  · rename_i state' heq
    rw [heq] at hagrees hcoherent
    exact ⟨⟨⟨_, rfl⟩, hagrees⟩, hcoherent⟩
  · rename_i state' heq
    rw [heq] at hcoherent
    exact statInner_spec hserves hcoherent ha upstream

/-- Over a coherent cache a `stat` answers as the store does, and keeps it coherent. -/
theorem stat_spec (law : w.U.Lawful) (hserves : outside.Serves w.U t) (h : Coherent w.U t state)
    (ha : Plain w.U request.address) :
    Answers t request.address (w.stat outside state request).1 ∧ Coherent w.U t (w.stat outside state request).2 := by
  unfold MetadataCacheWrapper.stat
  split_ifs with hcredentialed hcacheable
  · exact ⟨hserves.stat _ _ ha, h⟩
  · have hget := h.get
      (outside.readAt (MetadataCacheWrapper.statKey request.principal
        (credentialScope w.digest request.address) request.address))
      (MetadataCacheWrapper.statKey request.principal (credentialScope w.digest request.address) request.address)
      request.options
    dsimp only
    split
    · rename_i info state' hhit
      rw [hhit] at hget
      obtain ⟨entry, hrow, hpayload, -, -⟩ := get_hit (congrArg Prod.fst hhit)
      have hagrees := h _ hrow
      rw [hpayload] at hagrees
      exact ⟨hagrees.stat law ha rfl, hget⟩
    · rename_i stored state' heq
      rw [heq] at hget
      exact statMissed_spec law hserves hget ha _
    · rename_i result state' _ _ heq
      rw [heq] at hget
      exact statMissed_spec law hserves hget ha _
  · exact statInner_spec hserves h ha _

theorem list_coherent (law : w.U.Lawful) (hserves : outside.Serves w.U t) (h : Coherent w.U t state)
    {request : ListRequest} (ha : Plain w.U request.address) : Coherent w.U t (w.list outside state request).2 := by
  unfold MetadataCacheWrapper.list
  split
  · exact h
  · rename_i page hlist
    dsimp only
    split_ifs
    · exact h
    · exact h.storeList law ha (fun hcacheable => hserves.list _ _ _ ha hcacheable hlist) _

end Reads

/-! ### The endpoints that change the store -/

/-- The nodes that a row of that kind at a node is filled from. -/
def Feeds (kind : MetadataKind) (n m : Node) : Prop :=
  match kind with
  | .Stat => m = n
  | .List => ∃ name, m = n.child name
  | .ListVersions => False

theorem Feeds.cases {kind : MetadataKind} {n m : Node} (h : Feeds kind n m) :
    kind = .Stat ∧ m = n ∨ kind = .List ∧ ∃ name, m = n.child name := by
  cases kind with
  | Stat => exact Or.inl ⟨rfl, h⟩
  | List => exact Or.inr ⟨rfl, h⟩
  | ListVersions => exact h.elim

/-- Nothing changes that a row strictly below the node was filled from. -/
def Spares (U : UrlCrate) (t t' : Tree) (state : CacheState CachedInfo) (u : Node) : Prop :=
  ∀ row ∈ state.entries.rows, ∀ a, Plain U a → row.1.address = nodeAddress a → u.Covers (nodeOf a.toParts) →
    nodeOf a.toParts ≠ u → ∀ m, Feeds row.1.kind (nodeOf a.toParts) m → t'.item m = t.item m

section Mutations

/-- A listing of unchanged children. -/
theorem Lists.kept {n : Node} {page : ListPage CachedInfo} (h : Lists U t n page)
    (hsame : ∀ name, t'.item (n.child name) = t.item (n.child name)) : Lists U t' n page := by
  refine ⟨h.complete, fun info hinfo => ?_, fun name hname => h.covers name (hsame name ▸ hname)⟩
  obtain ⟨hplain, hitem, ⟨name, hchild⟩, hfile⟩ := h.items info hinfo
  rw [hchild] at hitem
  exact ⟨hplain, by rw [hchild, hsame, hitem], ⟨name, hchild⟩, hfile⟩

/-- A row that was filled from what has not changed. -/
theorem RowAgrees.kept {key : MetadataCacheKey} {payload : MetadataCachePayload CachedInfo}
    (h : RowAgrees U t key payload)
    (hsame : ∀ a, Plain U a → key.address = nodeAddress a → ∀ m, Feeds key.kind (nodeOf a.toParts) m →
      t'.item m = t.item m ∨ key.kind = .Stat ∧ t.item m = none) : RowAgrees U t' key payload := by
  obtain ⟨a, ha, hkey, hrow⟩ := h
  refine ⟨a, ha, hkey, ?_⟩
  have hfeeds := hsame a ha hkey
  cases payload with
  | Stat info =>
    obtain ⟨hkind, hitem⟩ := hrow
    rw [hkind] at hfeeds
    refine ⟨hkind, ?_⟩
    rcases hfeeds _ rfl with heq | ⟨-, hnone⟩
    · rw [heq, hitem]
    · rw [hitem] at hnone
      cases hnone
  | List page =>
    obtain ⟨hkind, hlists⟩ := hrow
    rw [hkind] at hfeeds
    refine ⟨hkind, hlists.kept fun name => ?_⟩
    rcases hfeeds _ ⟨name, rfl⟩ with heq | ⟨hstat, -⟩
    · exact heq
    · cases hstat
  | ListVersions _ => exact hrow

variable {row : MetadataCacheKey × Entry CachedInfo} {u : Url}

/-- The rows that `invalidate_for` leaves. -/
theorem invalidateFor_rows {w : MetadataCacheWrapper} (law : w.U.Lawful) (hkeyed : Keyed w.U state) (hu : Plain w.U u)
    (hrow : row ∈ (w.invalidateFor state u).entries.rows) {a : Url} (ha : Plain w.U a)
    (hkey : row.1.address = nodeAddress a) :
    nodeOf a.toParts ≠ nodeOf u.toParts ∧
      (row.1.kind = .List → ¬Node.Covers (nodeOf a.toParts) (nodeOf u.toParts)) := by
  have hlist := (invalidation_exact law _ (fun row hrow => hkeyed row (Table.mem_retain.mp hrow).1) u hu.canonical
    row).2.2.mp hrow
  obtain ⟨b, hb, hb', hne⟩ := ((invalidation_exact law state hkeyed u hu.canonical row).1.mp hlist.1).2
  obtain ⟨c, hc, hc', hcover⟩ := hlist.2
  have hnodeb := nodeOf_eq_of_nodeAddress law hb ha.canonical (hb'.symm.trans hkey)
  have hnodec := nodeOf_eq_of_nodeAddress law hc ha.canonical (hc'.symm.trans hkey)
  rw [(nodeKey_eq_iff law hb hu.canonical).ne, hnodeb] at hne
  rw [isAncestorOrSelf_iff law hc hu.canonical, hnodec] at hcover
  exact ⟨hne, fun hkind hcovers => hcover ⟨hkind, hcovers⟩⟩

theorem invalidateFor_subset {w : MetadataCacheWrapper}
    (hrow : row ∈ (w.invalidateFor state u).entries.rows) : row ∈ state.entries.rows :=
  (Table.mem_retain.mp (Table.mem_retain.mp hrow).1).1

variable {state' : CacheState CachedInfo}

theorem Coherent.subset (h : Coherent U t state)
    (hrows : ∀ row ∈ state'.entries.rows, row ∈ state.entries.rows) : Coherent U t state' :=
  fun row hrow => h row (hrows row hrow)

theorem Spares.subset {u : Node} (h : Spares U t t' state u)
    (hrows : ∀ row ∈ state'.entries.rows, row ∈ state.entries.rows) : Spares U t t' state' u :=
  fun row hrow => h row (hrows row hrow)

/-- A change of one node, and of what was missing above it, spares what is strictly below. -/
theorem spares_of_changesOnly {u : Node} (h : t.ChangesOnly t' u (· = u)) : Spares U t t' state u := by
  intro row _ a _ _ hcovers hne m hm
  have hbelow : (nodeOf a.toParts).Covers m := by
    rcases hm.cases with ⟨-, rfl⟩ | ⟨-, name, rfl⟩
    · exact Node.Covers.refl _
    · exact Node.covers_child _ name
  rcases h m with rfl | hsame | ⟨-, habove⟩
  · exact absurd (hbelow.antisymm hcovers) hne
  · exact hsame
  · exact absurd ((hbelow.trans habove).antisymm hcovers) hne

/-- Rows that survive the invalidation of every root of a change agree with the store after it,
once those strictly below the roots are spared. -/
theorem Coherent.mutated (h : Coherent U t state) (roots : List Url)
    (hrows : ∀ row ∈ state'.entries.rows, row ∈ state.entries.rows ∧ ∀ u ∈ roots, ∀ a, Plain U a →
      row.1.address = nodeAddress a → nodeOf a.toParts ≠ nodeOf u.toParts ∧
        (row.1.kind = .List → ¬Node.Covers (nodeOf a.toParts) (nodeOf u.toParts)))
    (hchanges : ∀ n, t'.item n = t.item n ∨ ∃ u ∈ roots,
      Node.Covers (nodeOf u.toParts) n ∨ t.item n = none ∧ n.Covers (nodeOf u.toParts))
    (hspares : ∀ u ∈ roots, Spares U t t' state' (nodeOf u.toParts)) : Coherent U t' state' := by
  intro row hrow
  obtain ⟨hmem, hleft⟩ := hrows row hrow
  refine (h row hmem).kept fun a ha hkey m hm => ?_
  rcases hchanges m with hsame | ⟨u, hu, hunder | ⟨hnone, habove⟩⟩
  · exact Or.inl hsame
  · obtain ⟨hne, hlist⟩ := hleft u hu a ha hkey
    refine Or.inl (hspares u hu row hrow a ha hkey ?_ hne m hm)
    rcases hm.cases with ⟨-, rfl⟩ | ⟨hkind, name, rfl⟩
    · exact hunder
    -- the root is no child of a listing that is left
    · refine (Node.Covers.of_child ha.query hunder).resolve_left fun hroot => hlist hkind ?_
      rw [hroot]
      exact Node.covers_child _ name
  · obtain ⟨-, hlist⟩ := hleft u hu a ha hkey
    rcases hm.cases with ⟨hkind, -⟩ | ⟨hkind, name, rfl⟩
    · exact Or.inr ⟨hkind, hnone⟩
    · exact absurd ((Node.covers_child _ name).trans habove) (hlist hkind)

variable {w : MetadataCacheWrapper}

/-- After `invalidate_for` the rows agree with a store changed below one root. -/
theorem Coherent.invalidateFor (law : w.U.Lawful) (h : Coherent w.U t state) (hu : Plain w.U u)
    (hchanges : t.ChangesOnly t' (nodeOf u.toParts) (Node.Covers (nodeOf u.toParts)))
    (hspares : Spares w.U t t' state (nodeOf u.toParts)) : Coherent w.U t' (w.invalidateFor state u) := by
  apply h.mutated [u]
  · refine fun row hrow => ⟨invalidateFor_subset hrow, fun v hv a ha hkey => ?_⟩
    obtain rfl := List.mem_singleton.mp hv
    exact invalidateFor_rows law h.keyed hu hrow ha hkey
  · intro n
    rcases hchanges n with hunder | hsame | habove
    · exact Or.inr ⟨u, List.mem_singleton_self u, Or.inl hunder⟩
    · exact Or.inl hsame
    · exact Or.inr ⟨u, List.mem_singleton_self u, Or.inr habove⟩
  · intro v hv
    obtain rfl := List.mem_singleton.mp hv
    exact hspares.subset fun row hrow => invalidateFor_subset hrow

/-- So it is when nothing but the node of the call changes. -/
theorem Coherent.invalidateFor_node (law : w.U.Lawful) (h : Coherent w.U t state) (hu : Plain w.U u)
    (hchanges : t.ChangesOnly t' (nodeOf u.toParts) (· = nodeOf u.toParts)) :
    Coherent w.U t' (w.invalidateFor state u) := by
  apply h.invalidateFor law hu
  · intro n
    rcases hchanges n with rfl | hrest
    · exact Or.inl (Node.Covers.refl _)
    · exact Or.inr hrest
  · exact spares_of_changesOnly hchanges

theorem changesOnly_of_ne {u : Node} (h : ∀ n ≠ u, t'.item n = t.item n) : t.ChangesOnly t' u (· = u) := by
  intro n
  by_cases hn : n = u
  · exact Or.inl hn
  · exact Or.inr (Or.inl (h n hn))

/-- Both scopes of a `rename` are invalidated as nodes. -/
theorem Coherent.rename (law : w.U.Lawful) (h : Coherent w.U t state) {source destination : Url}
    (hs : Plain w.U source) (hd : Plain w.U destination) (hperforms : t.Performs t' (.rename source destination))
    (hsource : Spares w.U t t' state (nodeOf source.toParts))
    (hdestination : Spares w.U t t' state (nodeOf destination.toParts)) :
    Coherent w.U t' (w.rename state source destination) := by
  have hkeyed : Keyed w.U (w.invalidateFor state source) := fun row hrow => h.keyed row (invalidateFor_subset hrow)
  have hsubset : ∀ row ∈ (w.rename state source destination).entries.rows, row ∈ state.entries.rows :=
    fun row hrow => invalidateFor_subset (invalidateFor_subset hrow)
  apply h.mutated [source, destination]
  · refine fun row hrow => ⟨hsubset row hrow, fun v hv a ha hkey => ?_⟩
    rcases List.mem_pair.mp hv with rfl | rfl
    · exact invalidateFor_rows law h.keyed hs (invalidateFor_subset hrow) ha hkey
    · exact invalidateFor_rows law hkeyed hd hrow ha hkey
  · intro n
    rcases hperforms.2.2 n with (hunder | hunder) | hsame | habove
    · exact Or.inr ⟨source, by simp, Or.inl hunder⟩
    · exact Or.inr ⟨destination, by simp, Or.inl hunder⟩
    · exact Or.inl hsame
    · exact Or.inr ⟨destination, by simp, Or.inr habove⟩
  · intro v hv
    rcases List.mem_pair.mp hv with rfl | rfl
    · exact hsource.subset hsubset
    · exact hdestination.subset hsubset

/-- A removed directory leaves no row below it. -/
theorem Coherent.deleteDirectory (law : w.U.Lawful) (h : Coherent w.U t state) (hu : Plain w.U u)
    (hperforms : t.Performs t' (.deleteDirectory u)) : Coherent w.U t' (w.deleteDirectory state u) := by
  have hkeyed : Keyed w.U (w.invalidateFor state u) := fun row hrow => h.keyed row (invalidateFor_subset hrow)
  have hrows := fun row => (invalidation_exact law _ hkeyed u hu.canonical row).2.1
  apply h.mutated [u]
  · refine fun row hrow => ⟨invalidateFor_subset ((hrows row).mp hrow).1, fun v hv a ha hkey => ?_⟩
    obtain rfl := List.mem_singleton.mp hv
    exact invalidateFor_rows law h.keyed hu ((hrows row).mp hrow).1 ha hkey
  · intro n
    by_cases hunder : Node.Covers (nodeOf u.toParts) n
    · exact Or.inr ⟨u, List.mem_singleton_self u, Or.inl hunder⟩
    · exact Or.inl ((hperforms n).2 hunder)
  · intro v hv row hrow a ha hkey hcovers
    obtain rfl := List.mem_singleton.mp hv
    obtain ⟨-, b, hb, hb', hnot⟩ := (hrows row).mp hrow
    have hnode := nodeOf_eq_of_nodeAddress law hb ha.canonical (hb'.symm.trans hkey)
    rw [← Bool.not_eq_true, isAncestorOrSelf_iff law hu.canonical hb, hnode] at hnot
    exact absurd hcovers hnot

end Mutations

/-! ### Runs -/

/-- The cache beside its store. -/
structure World where
  cache : CacheState CachedInfo
  tree : Tree

/-- A call through the wrapper. -/
inductive Call
  | stat (outside : Outside) (request : StatRequest)
  | list (outside : Outside) (request : ListRequest)
  | mutate (outcome : Outcome) (mutation : Mutation)

/-- The addresses that a mutation names. -/
def Mutation.addresses : Mutation → List Url
  | .write address => [address]
  | .delete address => [address]
  | .copy source destination => [source, destination]
  | .rename source destination => [source, destination]
  | .updateMetadata address => [address]
  | .createDirectory address => [address]
  | .deleteDirectory address => [address]
  | .continueWrite address => [address]

/-- One call from its start to its answer; only a mutation that is done changes the store. -/
inductive MetadataCacheWrapper.Step (w : MetadataCacheWrapper) : World → Call → World → Prop
  | stat (world : World) (outside : Outside) (request : StatRequest) (serves : outside.Serves w.U world.tree)
      (plain : Plain w.U request.address) :
      Step w world (.stat outside request) ⟨(w.stat outside world.cache request).2, world.tree⟩
  | list (world : World) (outside : Outside) (request : ListRequest) (serves : outside.Serves w.U world.tree)
      (plain : Plain w.U request.address) :
      Step w world (.list outside request) ⟨(w.list outside world.cache request).2, world.tree⟩
  | done (world : World) (mutation : Mutation) (tree : Tree) (performs : world.tree.Performs tree mutation)
      (plain : ∀ a ∈ mutation.addresses, Plain w.U a) :
      Step w world (.mutate .done mutation) ⟨w.mutate world.cache .done mutation, tree⟩
  | unchanged (world : World) (mutation : Mutation) (outcome : Outcome) (unchanged : outcome ≠ .done) :
      Step w world (.mutate outcome mutation) ⟨w.mutate world.cache outcome mutation, world.tree⟩

/-- A `rename` or `copy` that is done spares the rows strictly below the nodes it changes. -/
def Call.Spares (U : UrlCrate) (before after : World) : Call → Prop
  | .mutate .done (.copy _ destination) =>
    Cache.Spares U before.tree after.tree before.cache (nodeOf destination.toParts)
  | .mutate .done (.rename source destination) =>
    Cache.Spares U before.tree after.tree before.cache (nodeOf source.toParts) ∧
      Cache.Spares U before.tree after.tree before.cache (nodeOf destination.toParts)
  | _ => True

section Runs

variable {w : MetadataCacheWrapper}

/-- A mutation that is done keeps the cache coherent with the changed store. -/
theorem Coherent.done (law : w.U.Lawful) (h : Coherent w.U t state) {mutation : Mutation}
    (hplain : ∀ a ∈ mutation.addresses, Plain w.U a) (hperforms : t.Performs t' mutation)
    (hspares : (Call.mutate .done mutation).Spares w.U ⟨state, t⟩ ⟨w.mutate state .done mutation, t'⟩) :
    Coherent w.U t' (w.mutate state .done mutation) := by
  cases mutation with
  | write address => exact h.invalidateFor_node law (hplain _ (by simp [Mutation.addresses])) hperforms.2
  | continueWrite address => exact h.invalidateFor_node law (hplain _ (by simp [Mutation.addresses])) hperforms.2
  | createDirectory address => exact h.invalidateFor_node law (hplain _ (by simp [Mutation.addresses])) hperforms.2
  | delete address =>
    exact h.invalidateFor_node law (hplain _ (by simp [Mutation.addresses])) (changesOnly_of_ne hperforms.2.2)
  | updateMetadata address =>
    exact h.invalidateFor_node law (hplain _ (by simp [Mutation.addresses])) (changesOnly_of_ne hperforms.2)
  | deleteDirectory address => exact h.deleteDirectory law (hplain _ (by simp [Mutation.addresses])) hperforms
  | copy source destination =>
    exact h.invalidateFor law (hplain _ (by simp [Mutation.addresses])) hperforms.2 hspares
  | rename source destination =>
    exact h.rename law (hplain _ (by simp [Mutation.addresses])) (hplain _ (by simp [Mutation.addresses])) hperforms
      hspares.1 hspares.2

/-- A mutation that changes nothing leaves only rows that there were. -/
theorem mutate_subset {outcome : Outcome} (houtcome : outcome ≠ .done) (mutation : Mutation) :
    ∀ row ∈ (w.mutate state outcome mutation).entries.rows, row ∈ state.entries.rows := by
  intro row hrow
  cases mutation with
  | copy source destination =>
    rw [MetadataCacheWrapper.mutate] at hrow
    split_ifs at hrow
    · exact hrow
    · exact invalidateFor_subset hrow
  | _ => simpa [MetadataCacheWrapper.mutate, houtcome] using hrow

/-- Each call that meets the condition keeps the cache coherent. -/
theorem Coherent.step (law : w.U.Lawful) {before after : World} {call : Call}
    (h : Coherent w.U before.tree before.cache) (hstep : w.Step before call after)
    (hspares : call.Spares w.U before after) : Coherent w.U after.tree after.cache := by
  cases hstep with
  | stat outside request serves plain => exact (stat_spec law serves h plain).2
  | list outside request serves plain => exact list_coherent law serves h plain
  | done mutation tree performs plain => exact h.done law plain performs hspares
  | unchanged mutation outcome unchanged => exact h.subset (mutate_subset unchanged mutation)

/-- The runs of the wrapper over a store, from an empty cache, through calls that meet a condition. -/
abbrev MetadataCacheWrapper.RunsWhen (w : MetadataCacheWrapper) (condition : World → Call → World → Prop) :
    List Call → World → Prop :=
  Run (·.cache = CacheState.empty) fun before call after => w.Step before call after ∧ condition before call after

theorem coherent_of_run (law : w.U.Lawful) {trace : List Call} {world : World}
    (hrun : w.RunsWhen (fun before call after => call.Spares w.U before after) trace world) :
    Coherent w.U world.tree world.cache := by
  apply hrun.stateInvariant (I := fun world => Coherent w.U world.tree world.cache)
  · intro world hempty row hrow
    rw [hempty] at hrow
    exact absurd hrow List.not_mem_nil
  · exact fun before call after h hstep => h.step law hstep.1 hstep.2

/-- In every run whose renames and copies spare the rows below them, a `stat` answers as the store does. -/
theorem stat_of_spares (law : w.U.Lawful) {trace : List Call} {world : World}
    (hrun : w.RunsWhen (fun before call after => call.Spares w.U before after) trace world)
    {outside : Outside} (hserves : outside.Serves w.U world.tree) {request : StatRequest}
    (ha : Plain w.U request.address) : Answers world.tree request.address (w.stat outside world.cache request).1 :=
  (stat_spec law hserves (coherent_of_run law hrun) ha).1

end Runs

/-! ### A renamed directory -/

/-- A node of the store `s3://b`. -/
def storeNode (segs : List Bytes) : Node := ⟨utf8 "s3", some (utf8 "b"), none, segs, none⟩

/-- What a `stat` says of a directory. -/
def directoryAttrs : Attrs := ⟨.Directory, none, none⟩

/-- The store of one directory with one object in it. -/
def oneDirectory (directory object : Bytes) : Tree where
  item n :=
    if n = storeNode n.segs then
      match n.segs with
      | [] => some directoryAttrs
      | [d] => if d = directory then some directoryAttrs else none
      | [d, x] => if d = directory ∧ x = object then some ⟨.File, some 1, some (utf8 "v1")⟩ else none
      | _ => none
    else none
  parents n name h := by
    have hstore : n = storeNode n.segs := by
      by_contra hne
      exact h (if_neg fun heq => hne (congrArg (fun m : Node => { m with segs := n.segs }) heq))
    have hchild : n.child name = storeNode (n.child name).segs := by
      rw [hstore]
      rfl
    rw [if_pos hchild] at h
    refine ⟨directoryAttrs, ?_, rfl⟩
    rw [if_pos hstore]
    rcases hsegs : n.segs with _ | ⟨d, _ | ⟨x, rest⟩⟩
    · rfl
    · simp [Node.child, hsegs] at h
      simp [h]
    · simp [Node.child, hsegs] at h

theorem oneDirectory_item (directory object : Bytes) (segs : List Bytes) :
    (oneDirectory directory object).item (storeNode segs) = match segs with
      | [] => some directoryAttrs
      | [d] => if d = directory then some directoryAttrs else none
      | [d, x] => if d = directory ∧ x = object then some ⟨.File, some 1, some (utf8 "v1")⟩ else none
      | _ => none :=
  if_pos rfl

theorem oneDirectory_outside (directory object : Bytes) {n : Node} (hn : n ≠ storeNode n.segs) :
    (oneDirectory directory object).item n = none :=
  if_neg hn

/-- Under another name the directory is another store. -/
theorem oneDirectory_rename {source destination : Url} {d d' object : Bytes} (hne : d ≠ d')
    (hs : nodeOf source.toParts = storeNode [d]) (hd : nodeOf destination.toParts = storeNode [d']) :
    (oneDirectory d object).Performs (oneDirectory d' object) (.rename source destination) := by
  have hcovers : ∀ name rest, (storeNode [name]).Covers (storeNode (name :: rest)) :=
    fun name rest => ⟨rfl, rfl, rfl, ⟨rest, rfl⟩, Or.inl rfl⟩
  rw [Tree.Performs, hs, hd]
  refine ⟨fun segs _ => ?_, fun n hunder _ => ?_, fun n => ?_⟩
  · change (oneDirectory d' object).item (storeNode (d' :: segs)) = (oneDirectory d object).item (storeNode (d :: segs))
    rw [oneDirectory_item, oneDirectory_item]
    rcases segs with _ | ⟨x, _ | ⟨y, rest⟩⟩ <;> simp
  · by_cases hn : n = storeNode n.segs
    · obtain ⟨rest, hrest⟩ := hunder.segs
      rw [hn, ← hrest, oneDirectory_item]
      rcases rest with _ | ⟨x, _ | ⟨y, rest⟩⟩ <;> simp [storeNode, hne]
    · exact oneDirectory_outside d' object hn
  · by_cases hn : n = storeNode n.segs
    · rw [hn, oneDirectory_item, oneDirectory_item]
      rcases n.segs with _ | ⟨e, rest⟩
      · exact Or.inr (Or.inl rfl)
      · by_cases he : e = d ∨ e = d'
        · rcases he with rfl | rfl
          · exact Or.inl (Or.inl (hcovers _ rest))
          · exact Or.inl (Or.inr (hcovers _ rest))
        · obtain ⟨h, h'⟩ := not_or.mp he
          refine Or.inr (Or.inl ?_)
          rcases rest with _ | ⟨x, _ | ⟨y, rest⟩⟩ <;> simp [h, h']
    · exact Or.inr (Or.inl ((oneDirectory_outside d' object hn).trans (oneDirectory_outside d object hn).symm))

/-- `s3://b/a`. -/
def directoryBefore : Url :=
  ⟨⟨utf8 "s3", true, [], none, some (utf8 "b"), none, utf8 "/a", none, none⟩, by decide⟩

/-- `s3://b/c`. -/
def directoryAfter : Url :=
  ⟨⟨utf8 "s3", true, [], none, some (utf8 "b"), none, utf8 "/c", none, none⟩, by decide⟩

/-- `s3://b/a/x`. -/
def objectBefore : Url :=
  ⟨⟨utf8 "s3", true, [], none, some (utf8 "b"), none, utf8 "/a/x", none, none⟩, by decide⟩

theorem plain_directoryBefore : Plain reference directoryBefore :=
  ⟨reference_canonical _ [utf8 "a"] (by decide) (by decide), rfl⟩

theorem plain_directoryAfter : Plain reference directoryAfter :=
  ⟨reference_canonical _ [utf8 "c"] (by decide) (by decide), rfl⟩

theorem plain_objectBefore : Plain reference objectBefore :=
  ⟨reference_canonical _ [utf8 "a", utf8 "x"] (by decide) (by decide), rfl⟩

/-- The sort of `slice::sort`, which leaves equals in place. -/
def stableSorter : Sorter where
  victims state := (state.entries.rows.map fun row => (row.2.lastAccessed, row.1)).mergeSort fun a b => a.1 ≤ b.1
  order state := by
    refine ⟨List.mergeSort_perm _ _, ?_⟩
    have htrans : ∀ a b c : Nanos × MetadataCacheKey, decide (a.1 ≤ b.1) = true → decide (b.1 ≤ c.1) = true →
        decide (a.1 ≤ c.1) = true :=
      fun a b c hab hbc => decide_eq_true ((of_decide_eq_true hab).trans (of_decide_eq_true hbc))
    have htotal : ∀ a b : Nanos × MetadataCacheKey, (decide (a.1 ≤ b.1) || decide (b.1 ≤ a.1)) = true :=
      fun a b => by simpa using le_total a.1 b.1
    have hsorted :=
      List.pairwise_mergeSort htrans htotal (state.entries.rows.map fun row => (row.2.lastAccessed, row.1))
    exact hsorted.imp of_decide_eq_true

/-- The inner layer of a store that answers each `stat` itself and lists nothing. -/
def Tree.outside (t : Tree) : Outside where
  readAt _ := 0
  fillAt _ := 0
  sorter := stableSorter
  stat a _ := match t.item (nodeOf a.toParts) with
    | some i => .ok ⟨a, i.kind, i.size, i.etag⟩
    | none => .error (.NotFound "no such object")
  list _ _ := .error .Other
  optedIn _ := false

theorem Tree.outside_serves (U : UrlCrate) (t : Tree) : t.outside.Serves U t where
  stat a flags _ := by
    unfold Tree.outside
    dsimp only
    split
    · rename_i i hitem
      exact hitem
    · rename_i hnone
      exact ⟨⟨_, rfl⟩, hnone⟩
  list listed options page _ _ h := by cases h

/-- The wrapper of the runs below. -/
def smallWrapper : MetadataCacheWrapper := ⟨reference, ⟨8, 30⟩, fun _ => 0⟩

theorem smallWrapper_lawful : smallWrapper.U.Lawful := by
  unfold smallWrapper
  exact reference_lawful

/-- The world of the runs below: a directory `a` with an object `x` in it. -/
def worldBefore : World := ⟨CacheState.empty, oneDirectory (utf8 "a") (utf8 "x")⟩

/-- A `stat` by nobody in particular. -/
def plainStat (address : Url) : StatRequest := ⟨address, ⟨false, false⟩, none, false⟩

/-- The world after a `stat`. -/
def worldRead (address : Url) : World :=
  ⟨(smallWrapper.stat worldBefore.tree.outside worldBefore.cache (plainStat address)).2, worldBefore.tree⟩

/-- The world after the directory is renamed to `c`. -/
def worldAfter (address : Url) : World :=
  ⟨smallWrapper.mutate (worldRead address).cache .done (.rename directoryBefore directoryAfter),
    oneDirectory (utf8 "c") (utf8 "x")⟩

theorem step_read {address : Url} (ha : Plain reference address) :
    smallWrapper.Step worldBefore (.stat worldBefore.tree.outside (plainStat address)) (worldRead address) :=
  .stat worldBefore _ _ (Tree.outside_serves _ _) ha

theorem step_renamed (address : Url) :
    smallWrapper.Step (worldRead address) (.mutate .done (.rename directoryBefore directoryAfter))
      (worldAfter address) := by
  refine .done (worldRead address) _ (oneDirectory (utf8 "c") (utf8 "x")) ?_ ?_
  · exact oneDirectory_rename (by decide) (by decide) (by decide)
  · intro a ha
    rcases List.mem_pair.mp ha with rfl | rfl
    · exact plain_directoryBefore
    · exact plain_directoryAfter

/-- An address is asked for, and then the directory is renamed. -/
theorem exists_renamedRun (condition : World → Call → World → Prop) {address : Url} (ha : Plain reference address)
    (hread : condition worldBefore (.stat worldBefore.tree.outside (plainStat address)) (worldRead address))
    (hrenamed : condition (worldRead address) (.mutate .done (.rename directoryBefore directoryAfter))
      (worldAfter address)) : ∃ trace, smallWrapper.RunsWhen condition trace (worldAfter address) := by
  have hstart : smallWrapper.RunsWhen condition [] worldBefore := .start rfl
  have hstep : smallWrapper.RunsWhen condition _ (worldRead address) := hstart.step ⟨step_read ha, hread⟩
  exact ⟨_, hstep.step ⟨step_renamed address, hrenamed⟩⟩

/-- A `stat` of the directory fills one row, of its own node. -/
theorem worldRead_rows {row : MetadataCacheKey × Entry CachedInfo}
    (h : row ∈ (worldRead directoryBefore).cache.entries.rows) : row.1.address = nodeAddress directoryBefore := by
  have hkeys : (worldRead directoryBefore).cache.entries.rows.map (·.1.address) = [nodeAddress directoryBefore] := by
    decide +kernel
  have hmem := List.mem_map_of_mem (f := (·.1.address)) h
  rw [hkeys] at hmem
  exact List.mem_singleton.mp hmem

/-- The object is gone after the directory was renamed, once only the directory was cached. -/
theorem stat_of_spares_renamed : ∃ message,
    (smallWrapper.stat (worldAfter directoryBefore).tree.outside (worldAfter directoryBefore).cache
      (plainStat objectBefore)).1 = .error (.NotFound message) := by
  have hspares : ∀ u, ¬Node.Covers u (storeNode [utf8 "a"]) ∨ u = storeNode [utf8 "a"] →
      Spares reference worldBefore.tree (worldAfter directoryBefore).tree (worldRead directoryBefore).cache u := by
    intro u hu row hrow a ha hkey hcovers hne
    have hnode := nodeOf_eq_of_nodeAddress reference_lawful ha.canonical plain_directoryBefore.canonical
      (hkey.symm.trans (worldRead_rows hrow))
    have hbefore : nodeOf directoryBefore.toParts = storeNode [utf8 "a"] := by decide
    rw [hnode, hbefore] at hcovers hne
    exact absurd (hu.resolve_left (not_not_intro hcovers)).symm hne
  obtain ⟨trace, hrun⟩ := exists_renamedRun (fun before call after => call.Spares smallWrapper.U before after)
    plain_directoryBefore trivial
    ⟨hspares _ (Or.inr (by decide)), hspares _ (Or.inl fun h => absurd h.segs (by decide))⟩
  have hplain : Plain smallWrapper.U (plainStat objectBefore).address := plain_objectBefore
  generalize hworld : worldAfter directoryBefore = world at hrun
  have hserves := Tree.outside_serves smallWrapper.U world.tree
  have hanswer := stat_of_spares smallWrapper_lawful hrun hserves hplain
  exact hanswer.of_gone (by rw [← hworld]; decide +kernel)

/-- A `rename` of a directory leaves the row of an object in it. -/
theorem rename_leaves_child : ¬∀ (w : MetadataCacheWrapper), w.U.Lawful → ∀ trace world,
    w.RunsWhen (fun _ _ _ => True) trace world → ∀ outside : Outside, outside.Serves w.U world.tree →
      ∀ request : StatRequest, Plain w.U request.address →
        Answers world.tree request.address (w.stat outside world.cache request).1 := by
  intro h
  obtain ⟨trace, hrun⟩ := exists_renamedRun (fun _ _ _ => True) plain_objectBefore trivial trivial
  have hplain : Plain smallWrapper.U (plainStat objectBefore).address := plain_objectBefore
  have hok : (smallWrapper.stat (worldAfter objectBefore).tree.outside (worldAfter objectBefore).cache
      (plainStat objectBefore)).1.isOk = true := by decide +kernel
  generalize hworld : worldAfter objectBefore = world at hrun hok
  have hserves := Tree.outside_serves smallWrapper.U world.tree
  have hanswer := h smallWrapper smallWrapper_lawful trace _ hrun _ hserves (plainStat objectBefore) hplain
  obtain ⟨message, hrefused⟩ := hanswer.of_gone (by rw [← hworld]; decide +kernel)
  rw [hrefused] at hok
  cases hok

end OvStorage.Cache
