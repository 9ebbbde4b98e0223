import OvStorage.Lib.Topmost
import OvStorage.Watch.Assignment

/-!
# Which scopes are watched

`select_scopes` of `ovstorage-plugin-cache/src/notification_drain.rs`: of the candidates that are
assigned to a root, the topmost of those that can cover what is below them, the protected ones
first, as many as the budget allows, and one cover above it.

## The model

`can_cover` and `may_open_recursive` are any functions, and the running and the protected scopes any
lists. A text is compared byte by byte.

## What is proved

* `selection_covers`: what is selected, what is protected, and what covers what is left out.
-/

namespace OvStorage.Watch

open Address Routing Select Topmost List

/-! ### The code -/

/-- `Assignment`. -/
abbrev Assignment := List SelectedScope

/-- What `select_scopes` is given. -/
structure Selection where
  roots : List RootView
  candidates : List Url
  budget : ℕ
  canCover : SelectedScope → Bool
  mayOpenRecursive : Url → Bool
  running : List (Bytes × Url × ℕ)
  /-- `protected`. -/
  defendedScopes : List (Bytes × Url × ℕ)

namespace Selection

variable (q : Selection)

/-- `assigned`. -/
def assigned : Assignment := q.candidates.filterMap (assignScope q.roots q.running)

/-- The other scope is above this one on its root and can cover it. -/
def coversOver (other entry : SelectedScope) : Bool :=
  other.scope != entry.scope && other.root == entry.root &&
    isAncestorOrSelf other.scope.toParts entry.scope.toParts && q.canCover other

/-- `antichain`. -/
def antichain : Assignment := topmost q.coversOver q.assigned

/-- The scope is one of the protected ones. -/
def isProtected (entry : SelectedScope) : Bool :=
  q.defendedScopes.any fun (key, root, generation) =>
    key == entry.scope.asStr && root == entry.root && generation == entry.generation

/-- The protected half of the antichain. -/
def defended : Assignment := q.antichain.filter q.isProtected

/-- The other half. -/
def undefended : Assignment := q.antichain.filter fun entry => !q.isProtected entry

/-- `subsumed`. -/
def subsumed (entry : SelectedScope) : ℕ :=
  (q.defended.filter fun held => held.root == entry.root &&
    isAncestorOrSelf entry.scope.toParts held.scope.toParts).length

/-- The order of covers: by how many protected scopes they subsume, then the lower spelling. -/
def coverKey (entry : SelectedScope) : ℕ ×ₗ (List ℕ)ᵒᵈ :=
  toLex (q.subsumed entry, OrderDual.toDual (textKey entry.scope.asStr))

/-- `winner`. -/
def winner : Option Url :=
  (maxByKey q.coverKey (q.undefended.filter fun entry => decide (0 < q.subsumed entry) &&
    !(q.roots.any fun view => view.root.asStr == entry.scope.asStr) && q.mayOpenRecursive entry.scope)).map
      SelectedScope.scope

/-- `covers`. -/
def covers : Assignment := q.undefended.filter fun entry => some entry.scope == q.winner

/-- What is chosen within the budget. -/
def chosen : Assignment :=
  (q.defended ++ q.undefended.filter fun entry => !(some entry.scope == q.winner)).take q.budget

/-- `select_scopes`. -/
def selectScopes : Assignment :=
  match q.covers.head? with
  | some cover => if q.chosen.any fun held => held.scope == cover.scope then q.chosen else q.chosen ++ [cover]
  | none => q.chosen

end Selection

/-! ### Above and below -/

section Above

variable {a b c : Parts}

theorem pathContains_trans {p q r : Bytes} (h : pathContains p q = true) (k : pathContains q r = true) :
    pathContains p r = true := by
  rw [pathContains_iff] at h k ⊢
  rcases h with rfl | ⟨mid, rfl, hend⟩
  · exact k
  · rcases k with rfl | ⟨rest, rfl, -⟩
    · exact Or.inr ⟨mid, rfl, hend⟩
    · cases mid with
      | nil => exact Or.inr ⟨rest, by simp, Or.inl (by simpa using hend)⟩
      | cons b mid => exact Or.inr ⟨b :: mid ++ rest, by simp, hend.imp_right fun h => by simpa using h⟩

theorem isAncestorOrSelf_trans (h : isAncestorOrSelf a b = true) (k : isAncestorOrSelf b c = true) :
    isAncestorOrSelf a c = true := by
  rw [isAncestorOrSelf_eq_true] at h k ⊢
  obtain ⟨hscheme, hhost, hport, hpath, hquery⟩ := h
  obtain ⟨kscheme, khost, kport, kpath, kquery⟩ := k
  refine ⟨hscheme.trans kscheme, hhost.trans khost, hport.trans kport, pathContains_trans hpath kpath, ?_⟩
  rcases hquery with hq | hq
  · exact Or.inl hq
  · exact kquery.imp hq.trans hq.trans

/-- How far down an address is: the length of its node path, then whether a query is pinned. -/
def textRank (u : Parts) : ℕ := 2 * (nodePath u).length + u.query.isSome.toNat

/-- What is above another node is higher up. -/
theorem textRank_lt (h : isAncestorOrSelf a b = true) (hne : nodeKey a ≠ nodeKey b) : textRank a < textRank b := by
  obtain ⟨hscheme, hhost, hport, hpath, hquery⟩ := isAncestorOrSelf_eq_true.mp h
  have hpre : nodePath a <+: nodePath b := by
    rcases pathContains_iff.mp hpath with heq | ⟨rest, hrest, -⟩
    · exact heq ▸ prefix_rfl
    · exact ⟨rest, hrest.symm⟩
  have ha := Bool.toNat_le a.query.isSome
  unfold textRank
  rcases Nat.lt_or_eq_of_le hpre.length_le with hlt | heq
  · omega
  · have hpaths := hpre.eq_of_length heq
    rcases hquery with hq | hq
    · cases hbq : b.query with
      | none => exact absurd (by simp [nodeKey, hscheme, hhost, hport, hpaths, hq, hbq]) hne
      | some q => simp [hpaths, hq]
    · exact absurd (by simp [nodeKey, hscheme, hhost, hport, hpaths, hq]) hne

end Above

/-! ### Assigned scopes -/

namespace Selection

variable {q : Selection} {s a b c : SelectedScope}

/-- The scope may be watched under its root: that is the longest above it (the first of two as long as each other),
spelled otherwise, not watched as a whole, and it grants probes or the scope is running under it. -/
structure Eligible (q : Selection) (s : SelectedScope) : Prop where
  candidate : s.scope ∈ q.candidates
  spelled : s.root.asStr ≠ s.scope.asStr
  longest : ∃ before view after, q.roots = before ++ view :: after ∧ s.root = view.root ∧
    s.generation = view.generation ∧ isAncestorOrSelf view.root.toParts s.scope.toParts = true ∧
    (∀ other ∈ q.roots, isAncestorOrSelf other.root.toParts s.scope.toParts = true →
      nodeRank other.root.toParts ≤ nodeRank view.root.toParts) ∧
    (∀ other ∈ before, isAncestorOrSelf other.root.toParts s.scope.toParts = true →
      nodeRank other.root.toParts < nodeRank view.root.toParts) ∧
    view.covers = false ∧ (view.admitsProbes = true ∨ ∃ root, (s.scope.asStr, root, view.generation) ∈ q.running)

/-- Another eligible scope is above this one on its root, and can cover it. -/
def CoveredBy (q : Selection) (s o : SelectedScope) : Prop :=
  q.Eligible o ∧ o.scope ≠ s.scope ∧ o.root = s.root ∧ isAncestorOrSelf o.scope.toParts s.scope.toParts = true ∧
    q.canCover o = true

/-- A protected scope that the covering rule leaves. -/
structure Defended (q : Selection) (s : SelectedScope) : Prop where
  eligible : q.Eligible s
  uncovered : ∀ o, ¬q.CoveredBy s o
  held : (s.scope.asStr, s.root, s.generation) ∈ q.defendedScopes

theorem coversOver_iff : q.coversOver a b = true ↔
    a.scope ≠ b.scope ∧ a.root = b.root ∧ isAncestorOrSelf a.scope.toParts b.scope.toParts = true ∧
    q.canCover a = true := by
  simp [coversOver, and_assoc]

section Sorted

variable (hsorted : q.roots.Pairwise fun a b => viewKey b ≤ viewKey a)

include hsorted

/-- What is assigned is what is eligible, if the views are in order. -/
theorem mem_assigned_iff : s ∈ q.assigned ↔ q.Eligible s := by
  constructor
  · intro h
    obtain ⟨scope, hscope, hs⟩ := mem_filterMap.mp h
    obtain ⟨view, hview, hgo⟩ := Option.bind_eq_some_iff.mp hs
    obtain ⟨habove, before, after, hroots, hbefore⟩ := List.find?_eq_some_iff_append.mp hview
    dsimp only at hgo
    split_ifs at hgo with hcovers hspelled hprobes
    cases hgo
    have hnone : ∀ other ∈ before, isAncestorOrSelf other.root.toParts scope.toParts = false := fun other hother => by
      simpa using hbefore other hother
    refine ⟨hscope, by simpa using hspelled, before, view, after, hroots, rfl, rfl, habove, ?_, ?_,
      by simpa using hcovers, ?_⟩
    · intro other hother hotherAbove
      rw [hroots] at hother hsorted
      rcases mem_append.mp hother with hmem | hmem
      · rw [hnone other hmem] at hotherAbove
        cases hotherAbove
      · rcases mem_cons.mp hmem with rfl | hmem
        · exact le_rfl
        · have hle := (pairwise_cons.mp (pairwise_append.mp hsorted).2.1).1 other hmem
          exact Prod.Lex.monotone_fst _ _ hle
    · intro other hother hotherAbove
      rw [hnone other hother] at hotherAbove
      cases hotherAbove
    · simp only [Bool.and_eq_true, Bool.not_eq_true', not_and, Bool.not_eq_false] at hprobes
      cases hadmits : view.admitsProbes with
      | true => exact Or.inl rfl
      | false =>
        obtain ⟨⟨key, root, generation⟩, hmem, hsame⟩ := any_eq_true.mp (hprobes hadmits)
        obtain ⟨rfl, rfl⟩ : key = scope.asStr ∧ generation = view.generation := by simpa using hsame
        exact Or.inr ⟨root, hmem⟩
  · rintro ⟨hscope, hspelled, before, view, after, hroots, hroot, hgeneration, habove, -, hfirst, hcovers, hprobes⟩
    obtain ⟨root, generation, scope⟩ := s
    obtain rfl : root = view.root := hroot
    obtain rfl : generation = view.generation := hgeneration
    -- a view that comes earlier is at least as long, so it is not above the scope
    have hview : assignedRoot q.roots scope = some view := by
      refine List.find?_eq_some_iff_append.mpr ⟨habove, before, after, hroots, fun other hother => ?_⟩
      rw [hroots] at hsorted
      have hle := (pairwise_append.mp hsorted).2.2 other hother view mem_cons_self
      rw [Bool.not_eq_true', Bool.eq_false_iff]
      exact fun hotherAbove => absurd (hfirst other hother hotherAbove) (not_lt_of_ge (Prod.Lex.monotone_fst _ _ hle))
    refine mem_filterMap.mpr ⟨scope, hscope, ?_⟩
    have hadmitted : view.admitsProbes = false → ∃ root, (scope.asStr, root, view.generation) ∈ q.running := fun h =>
      hprobes.resolve_left (by simp [h])
    simpa [assignScope, hview, hcovers, hspelled] using hadmitted

/-- What the covering rule leaves is what no eligible scope covers. -/
theorem mem_antichain_iff : s ∈ q.antichain ↔ q.Eligible s ∧ ∀ o, ¬q.CoveredBy s o := by
  rw [antichain, Topmost.mem_topmost, mem_assigned_iff hsorted]
  refine and_congr_right fun _ => forall_congr' fun o => ?_
  rw [mem_assigned_iff hsorted, CoveredBy, not_and, Bool.eq_false_iff, ne_eq, coversOver_iff]

theorem mem_defended_iff : s ∈ q.defended ↔ q.Defended s := by
  rw [defended, mem_filter, mem_antichain_iff hsorted]
  have hprotected : q.isProtected s = true ↔ (s.scope.asStr, s.root, s.generation) ∈ q.defendedScopes := by
    simp [isProtected]
  rw [hprotected]
  exact ⟨fun ⟨⟨heligible, huncovered⟩, hheld⟩ => ⟨heligible, huncovered, hheld⟩,
    fun h => ⟨⟨h.eligible, h.uncovered⟩, h.held⟩⟩

end Sorted

/-- The scopes that are assigned come from different candidates. -/
theorem assigned_sublist (q : Selection) : (q.assigned.map SelectedScope.scope).Sublist q.candidates := by
  unfold assigned
  induction q.candidates with
  | nil => exact List.Sublist.slnil
  | cons scope rest ih =>
    cases h : assignScope q.roots q.running scope with
    | none =>
      rw [filterMap_cons_none h]
      exact ih.cons scope
    | some s =>
      obtain ⟨view, -, rfl⟩ := assignScope_eq_some h
      rw [filterMap_cons_some h, map_cons]
      exact ih.cons_cons scope

section Nodes

variable (hnodes : (q.candidates.map fun scope => nodeKey scope.toParts).Nodup)

include hnodes

/-- Assigned scopes of one node are one. -/
theorem assigned_scope_eq (ha : a ∈ q.assigned) (hb : b ∈ q.assigned)
    (h : nodeKey a.scope.toParts = nodeKey b.scope.toParts) :
    a.scope = b.scope := by
  have hsub := q.assigned_sublist.subset
  exact inj_on_of_nodup_map hnodes (hsub (mem_map_of_mem ha)) (hsub (mem_map_of_mem hb)) h

theorem assigned_nodup : (q.assigned.map fun s => nodeKey s.scope.toParts).Nodup := by
  have hsub := q.assigned_sublist.map fun scope => nodeKey scope.toParts
  rw [map_map] at hsub
  exact hsub.nodup hnodes

theorem coversOver_rank (ha : a ∈ q.assigned) (hb : b ∈ q.assigned) (h : q.coversOver a b = true) :
    textRank a.scope.toParts < textRank b.scope.toParts := by
  obtain ⟨hne, -, habove, -⟩ := coversOver_iff.mp h
  exact textRank_lt habove fun hsame => hne (assigned_scope_eq hnodes ha hb hsame)

theorem coversOver_trans (ha : a ∈ q.assigned) (hb : b ∈ q.assigned) (hc : c ∈ q.assigned) (h : q.coversOver a b = true)
    (k : q.coversOver b c = true) : q.coversOver a c = true := by
  have hlt := (coversOver_rank hnodes ha hb h).trans (coversOver_rank hnodes hb hc k)
  obtain ⟨-, hroot, habove, hcan⟩ := coversOver_iff.mp h
  obtain ⟨-, kroot, kabove, -⟩ := coversOver_iff.mp k
  refine coversOver_iff.mpr ⟨?_, hroot.trans kroot, isAncestorOrSelf_trans habove kabove, hcan⟩
  intro hsame
  rw [hsame] at hlt
  exact lt_irrefl _ hlt

/-- What the covering rule drops is below a scope that it keeps and that can cover it. -/
theorem exists_cover (ha : a ∈ q.assigned) (hnot : a ∉ q.antichain) : ∃ o ∈ q.antichain, q.coversOver o a = true :=
  exists_topmost (fun s => textRank s.scope.toParts) (fun _ hx _ hy => coversOver_rank hnodes hx hy)
    (fun _ hx _ hy _ hz => coversOver_trans hnodes hx hy hz) ha hnot

end Nodes

/-! ### Selected scopes -/

/-- How the antichain is made up. -/
theorem antichain_perm (q : Selection) :
    (q.defended ++ (q.undefended.filter fun entry => !(some entry.scope == q.winner)) ++
      q.covers).Perm q.antichain := by
  have hcovers := filter_append_perm (fun entry : SelectedScope => some entry.scope == q.winner) q.undefended
  rw [append_assoc]
  exact ((perm_append_comm.trans hcovers).append_left _).trans (filter_append_perm q.isProtected q.antichain)

/-- What is selected is what is chosen, with the cover if none of its scope is chosen. -/
theorem selectScopes_cases (q : Selection) :
    q.selectScopes = q.chosen ∧ (∀ cover ∈ q.covers, ∃ held ∈ q.chosen, held.scope = cover.scope) ∨
      ∃ cover ∈ q.covers, q.selectScopes = q.chosen ++ [cover] := by
  unfold selectScopes
  split
  · rename_i cover hcover
    have hmem := mem_of_head? hcover
    split_ifs with hheld
    · refine Or.inl ⟨rfl, fun other hother => ?_⟩
      obtain ⟨held, hchosen, hsame⟩ := any_eq_true.mp hheld
      have hother := (mem_filter.mp hother).2
      have hcover := (mem_filter.mp hmem).2
      simp only [beq_iff_eq] at hsame hother hcover
      exact ⟨held, hchosen, hsame.trans (Option.some.inj (hcover.trans hother.symm))⟩
    · exact Or.inr ⟨cover, hmem, rfl⟩
  · rename_i hnone
    rw [List.head?_eq_none_iff] at hnone
    exact Or.inl ⟨rfl, by simp [hnone]⟩

theorem selectScopes_subperm (q : Selection) : q.selectScopes.Subperm q.antichain := by
  rcases q.selectScopes_cases with ⟨h, -⟩ | ⟨cover, hcover, h⟩
  · rw [h]
    exact ((take_sublist _ _).trans (sublist_append_left _ _)).subperm.trans q.antichain_perm.subperm
  · rw [h]
    exact ((take_sublist _ _).append (singleton_sublist.mpr hcover)).subperm.trans q.antichain_perm.subperm

theorem length_selectScopes_le (q : Selection) : q.selectScopes.length ≤ q.budget + 1 := by
  have hchosen : q.chosen.length ≤ q.budget := length_take_le _ _
  rcases q.selectScopes_cases with ⟨h, -⟩ | ⟨cover, -, h⟩
  · rw [h]
    omega
  · rw [h, length_append, length_singleton]
    omega

theorem chosen_subset (q : Selection) : q.chosen ⊆ q.selectScopes := by
  rcases q.selectScopes_cases with ⟨h, -⟩ | ⟨cover, -, h⟩
  · exact h ▸ List.Subset.refl _
  · exact h ▸ subset_append_left _ _

theorem antichain_subset (q : Selection) : q.antichain ⊆ q.assigned := fun _ h => (mem_topmost.mp h).1

/-- The protected scopes come first. -/
theorem defended_subset (h : q.defended.length ≤ q.budget) : q.defended ⊆ q.selectScopes := by
  refine fun s hs => q.chosen_subset ?_
  rw [chosen, take_append, take_of_length_le h]
  exact mem_append_left _ hs

theorem chosen_subset_antichain (q : Selection) : q.chosen ⊆ q.antichain := fun _ h =>
  q.selectScopes_subperm.subset (q.chosen_subset h)

section Nodes

variable (hnodes : (q.candidates.map fun scope => nodeKey scope.toParts).Nodup)

include hnodes

theorem eq_of_scope_eq (ha : a ∈ q.antichain) (hb : b ∈ q.antichain) (h : a.scope = b.scope) : a = b :=
  inj_on_of_nodup_map (assigned_nodup hnodes) (q.antichain_subset ha) (q.antichain_subset hb) (by rw [h])

/-- Below the budget, all of the antichain is selected. -/
theorem mem_selectScopes (h : q.selectScopes.length < q.budget) (hs : s ∈ q.antichain) : s ∈ q.selectScopes := by
  have hchosen : q.chosen = q.defended ++ q.undefended.filter fun entry => !(some entry.scope == q.winner) := by
    have hlen : q.chosen.length ≤ q.selectScopes.length := by
      rcases q.selectScopes_cases with ⟨hsel, -⟩ | ⟨cover, -, hsel⟩ <;> simp [hsel]
    refine take_of_length_le ?_
    rw [chosen, length_take] at hlen
    omega
  have hparts := q.antichain_perm.mem_iff.mpr hs
  rw [← hchosen] at hparts
  rcases mem_append.mp hparts with hmem | hcovers
  · exact q.chosen_subset hmem
  · rcases q.selectScopes_cases with ⟨hsel, hheld⟩ | ⟨cover, hcover, hsel⟩
    · obtain ⟨held, hmem, hsame⟩ := hheld s hcovers
      obtain rfl := eq_of_scope_eq hnodes (q.chosen_subset_antichain hmem) hs hsame
      exact q.chosen_subset hmem
    · have hboth : cover.scope = s.scope := by
        have hk := (mem_filter.mp hcover).2
        have hk' := (mem_filter.mp hcovers).2
        simp only [beq_iff_eq] at hk hk'
        exact Option.some.inj (hk.trans hk'.symm)
      have hanti : cover ∈ q.antichain := mem_of_mem_filter (mem_of_mem_filter hcover)
      obtain rfl := eq_of_scope_eq hnodes hanti hs hboth
      rw [hsel]
      exact mem_append_right _ (mem_singleton_self _)

/-- At most one scope more than the budget is selected, and none twice; each is eligible, and no eligible one covers it;
the protected scopes that the covering rule leaves are selected if the budget has room for all of them; and below the
budget, what is eligible and not selected is covered by a selected scope. -/
theorem selection_covers (hsorted : q.roots.Pairwise fun a b => viewKey b ≤ viewKey a) :
    q.selectScopes.length ≤ q.budget + 1 ∧ (q.selectScopes.map fun s => nodeKey s.scope.toParts).Nodup ∧
      (∀ s ∈ q.selectScopes, q.Eligible s ∧ ∀ o, ¬q.CoveredBy s o) ∧
      ((∀ held : List SelectedScope, held.Nodup → (∀ s ∈ held, q.Defended s) → held.length ≤ q.budget) →
        ∀ s, q.Defended s → s ∈ q.selectScopes) ∧
      (q.selectScopes.length < q.budget → ∀ e, q.Eligible e → e ∉ q.selectScopes →
        ∃ o ∈ q.selectScopes, q.CoveredBy e o) := by
  have hsub := q.selectScopes_subperm
  have hnodup : (q.antichain.map fun s => nodeKey s.scope.toParts).Nodup :=
    (filter_sublist.map _).nodup (assigned_nodup hnodes)
  refine ⟨q.length_selectScopes_le, ?_, fun s hs => (mem_antichain_iff hsorted).mp (hsub.subset hs), ?_, ?_⟩
  · obtain ⟨l, hperm, hsublist⟩ := hsub
    exact (hperm.map _).nodup_iff.mp ((hsublist.map _).nodup hnodup)
  · intro hroom s hs
    have hheld : q.defended.Nodup := (hnodup.of_map _).sublist filter_sublist
    refine q.defended_subset (hroom _ hheld fun s hs => (mem_defended_iff hsorted).mp hs) ?_
    exact (mem_defended_iff hsorted).mpr hs
  · intro hlen e he hnot
    obtain ⟨o, ho, hcovers⟩ :=
      exists_cover hnodes ((mem_assigned_iff hsorted).mpr he) fun h => hnot (mem_selectScopes hnodes hlen h)
    exact ⟨o, mem_selectScopes hnodes hlen ho, ((mem_antichain_iff hsorted).mp ho).1, coversOver_iff.mp hcovers⟩

end Nodes

end Selection

/-- `s3://b/docs/x/y/`. -/
def docsSubdirectory : Url :=
  ⟨⟨utf8 "s3", true, [], none, some (utf8 "b"), none, utf8 "/docs/x/y/", none, none⟩, by decide⟩

/-- `s3://b/docs/z/`. -/
def docsSibling : Url :=
  ⟨⟨utf8 "s3", true, [], none, some (utf8 "b"), none, utf8 "/docs/z/", none, none⟩, by decide⟩

/-- Three directories of a root that was refused, and room for all: one can cover the second, and the third is
protected. -/
def docsSelection : Selection where
  roots := [⟨docsRoot, 0, false, true⟩]
  candidates := [docsDirectory, docsSubdirectory, docsSibling]
  budget := 3
  canCover s := s.scope == docsDirectory
  mayOpenRecursive _ := true
  running := []
  defendedScopes := [(docsSibling.asStr, docsRoot, 0)]

/-- The protected one is selected, and one that covers the one that is not. -/
theorem selection_covers_docs : ⟨docsRoot, 0, docsSibling⟩ ∈ docsSelection.selectScopes ∧
    ∃ o ∈ docsSelection.selectScopes, docsSelection.CoveredBy ⟨docsRoot, 0, docsSubdirectory⟩ o := by
  have hnodes : (docsSelection.candidates.map fun scope => nodeKey scope.toParts).Nodup := by decide +kernel
  have hsorted : docsSelection.roots.Pairwise fun a b => viewKey b ≤ viewKey a := pairwise_singleton ..
  obtain ⟨-, -, -, hheld, hcovered⟩ := Selection.selection_covers hnodes hsorted
  refine ⟨hheld (fun held hnodup hdefended => ?_) _ ?_, hcovered (by decide +kernel) _ ?_ (by decide +kernel)⟩
  · have hsub : held ⊆ docsSelection.defended := fun s hs => (Selection.mem_defended_iff hsorted).mpr (hdefended s hs)
    have hlen : docsSelection.defended.length ≤ docsSelection.budget := by decide +kernel
    exact (subperm_of_subset hnodup hsub).length_le.trans hlen
  · exact (Selection.mem_defended_iff hsorted).mp (by decide +kernel)
  · exact (Selection.mem_assigned_iff hsorted).mp (by decide +kernel)

end OvStorage.Watch
