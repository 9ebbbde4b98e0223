import OvStorage.Listing.Incremental

/-!
# The two list folds compared

When the incremental fold yields what the whole-set fold returns, for recursive listings of
a flat store in the order of their keys.

## What is proved

`yields_whole_iff`: exactly where the entries are `Gathered` and `Contiguous`, which the order of the keys does not give
(`folds_differ`).
-/

namespace OvStorage.Listing

open Address SegList IncrementalListFold List

variable {δ : Type*}

/-- A directory entry at an address. -/
def DirectoryAt (a : Url) (x : ObjectInfo δ) : Prop := x.kind ≠ .File ∧ x.address = a

instance (a : Url) (x : ObjectInfo δ) : Decidable (DirectoryAt a x) := inferInstanceAs (Decidable (_ ∧ _))

/-- The directory entries at the address stand together, and one of the first two is a marker. -/
def GatheredAt (a : Url) (xs : List (ObjectInfo δ)) : Prop :=
  ∃ pre block post, xs = pre ++ (block ++ post) ∧ (∀ x ∈ block, DirectoryAt a x) ∧
    (∀ x ∈ pre ++ post, ¬ DirectoryAt a x) ∧ ∃ m ∈ block.take 2, m.kind = .DirectoryMarker

/-- The directory entries at the address of each marker do. -/
def Gathered (xs : List (ObjectInfo δ)) : Prop := ∀ m ∈ xs, m.kind = .DirectoryMarker → GatheredAt m.address xs

/-! ### One entry more -/

section Gathering

variable {a : Url} {c x : ObjectInfo δ} {xs : List (ObjectInfo δ)}

theorem gatheredAt_cons_of_not (h : ¬ DirectoryAt a c) : GatheredAt a (c :: xs) ↔ GatheredAt a xs := by
  constructor
  · rintro ⟨pre, block, post, he, hblock, hrest, hm⟩
    cases pre with
    | cons p pre =>
      exact ⟨pre, block, post, (List.cons.inj he).2, hblock, fun x hx => hrest x (mem_cons_of_mem p hx), hm⟩
    | nil =>
      cases block with
      | nil => simp at hm
      | cons b block =>
        rw [(List.cons.inj he).1] at h
        exact absurd (hblock b mem_cons_self) h
  · rintro ⟨pre, block, post, rfl, hblock, hrest, hm⟩
    refine ⟨c :: pre, block, post, rfl, hblock, fun x hx => ?_, hm⟩
    rcases mem_cons.mp hx with rfl | hx
    · exact h
    · exact hrest x hx

theorem gatheredAt_cons_of (h : DirectoryAt a c) :
    GatheredAt a (c :: xs) ↔ ∃ block post, xs = block ++ post ∧ (∀ x ∈ block, DirectoryAt a x) ∧
      (∀ x ∈ post, ¬ DirectoryAt a x) ∧ (c.kind = .DirectoryMarker ∨ ∃ m ∈ block.head?, m.kind = .DirectoryMarker) := by
  constructor
  · rintro ⟨pre, block, post, he, hblock, hrest, hm⟩
    cases pre with
    | cons p pre =>
      rw [(List.cons.inj he).1] at h
      exact absurd h (hrest p mem_cons_self)
    | nil =>
      cases block with
      | nil => simp at hm
      | cons b block =>
        cases he
        refine ⟨block, post, rfl, fun x hx => hblock x (mem_cons_of_mem c hx), hrest, ?_⟩
        obtain ⟨m, hmem, hm⟩ := hm
        rw [take_succ_cons] at hmem
        rcases mem_cons.mp hmem with rfl | hmem
        · exact Or.inl hm
        · cases block with
          | nil => cases hmem
          | cons b block =>
            rw [take_succ_cons, take_zero, mem_singleton] at hmem
            exact Or.inr ⟨b, rfl, hmem ▸ hm⟩
  · rintro ⟨block, post, rfl, hblock, hrest, hm⟩
    refine ⟨[], c :: block, post, rfl, fun x hx => ?_, hrest, ?_⟩
    · rcases mem_cons.mp hx with rfl | hx
      · exact h
      · exact hblock x hx
    · rcases hm with hm | ⟨m, hmem, hm⟩
      · exact ⟨c, by simp, hm⟩
      · cases block with
        | nil => cases hmem
        | cons b block =>
          obtain rfl : b = m := by simpa using hmem
          exact ⟨b, by simp, hm⟩

theorem fuse_kind (h : Fuses c x) : (fuse c x).kind = .DirectoryMarker := by
  unfold fuse
  split_ifs with hx
  · exact hx
  · exact h.2.2.2.resolve_right hx

theorem fuse_address (h : Fuses c x) : (fuse c x).address = c.address := by
  unfold fuse
  split_ifs
  · exact h.1.symm
  · rfl

theorem directoryAt_fuse (h : Fuses c x) : DirectoryAt a (fuse c x) ↔ DirectoryAt a c := by
  unfold DirectoryAt
  rw [fuse_kind h, fuse_address h]
  simp [h.2.1]

theorem directoryAt_next (h : Fuses c x) : DirectoryAt a x ↔ DirectoryAt a c := by
  unfold DirectoryAt
  rw [h.1]
  simp [h.2.1, h.2.2.1]

/-- Two entries that fuse are gathered when the one they leave is. -/
theorem gatheredAt_fuse (h : Fuses c x) : GatheredAt a (c :: x :: xs) ↔ GatheredAt a (fuse c x :: xs) := by
  by_cases hc : DirectoryAt a c
  · rw [gatheredAt_cons_of hc, gatheredAt_cons_of ((directoryAt_fuse h).mpr hc)]
    have hx := (directoryAt_next h).mpr hc
    constructor
    · rintro ⟨block, post, he, hblock, hrest, -⟩
      cases block with
      | nil =>
        rw [nil_append] at he
        exact absurd hx (hrest x (he ▸ mem_cons_self))
      | cons b block =>
        cases he
        exact ⟨block, post, rfl, fun y hy => hblock y (mem_cons_of_mem x hy), hrest, Or.inl (fuse_kind h)⟩
    · rintro ⟨block, post, rfl, hblock, hrest, -⟩
      refine ⟨x :: block, post, rfl, fun y hy => ?_, hrest, h.2.2.2.imp_right fun hm => ⟨x, rfl, hm⟩⟩
      rcases mem_cons.mp hy with rfl | hy
      · exact hx
      · exact hblock y hy
  · rw [gatheredAt_cons_of_not hc, gatheredAt_cons_of_not (mt (directoryAt_next h).mp hc),
      gatheredAt_cons_of_not (mt (directoryAt_fuse h).mp hc)]

theorem gathered_fuse (h : Fuses c x) : Gathered (c :: x :: xs) ↔ Gathered (fuse c x :: xs) := by
  have hmem : ∀ m : ObjectInfo δ, m ∈ fuse c x :: xs → m ∈ c :: x :: xs := by
    intro m hm
    rcases mem_cons.mp hm with rfl | hm
    · exact fuse_cases (q := fun y => y ∈ c :: x :: xs) (by simp) (by simp)
    · simp [hm]
  constructor
  · intro hg m hm hk
    exact (gatheredAt_fuse h).mp (hg m (hmem m hm) hk)
  · intro hg m hm hk
    have hhead : GatheredAt (fuse c x).address (fuse c x :: xs) := hg _ mem_cons_self (fuse_kind h)
    rw [gatheredAt_fuse h]
    rcases mem_cons.mp hm with rfl | hm
    · rwa [fuse_address h] at hhead
    · rcases mem_cons.mp hm with rfl | hm
      · rwa [fuse_address h, h.1] at hhead
      · exact hg m (mem_cons_of_mem _ hm) hk

/-- Two neighbours that do not fuse: no directory entry follows a marker's first one. -/
theorem gathered_cons (h : ¬ Fuses c x) : Gathered (c :: x :: xs) ↔
    (∀ a, DirectoryAt a c → (∃ m ∈ c :: x :: xs, DirectoryAt a m ∧ m.kind = .DirectoryMarker) →
      ∀ y ∈ x :: xs, ¬ DirectoryAt a y) ∧ Gathered (x :: xs) := by
  -- the entry behind a gathered one would fuse with it
  have hnone : ∀ {a}, DirectoryAt a c → GatheredAt a (c :: x :: xs) → ∀ y ∈ x :: xs, ¬ DirectoryAt a y := by
    intro a hc hg
    obtain ⟨block, post, he, hblock, hrest, hm⟩ := (gatheredAt_cons_of hc).mp hg
    cases block with
    | nil =>
      rw [he]
      exact hrest
    | cons b block =>
      cases he
      have hx := hblock x mem_cons_self
      refine absurd ⟨hc.2.trans hx.2.symm, hc.1, hx.1, hm.imp_right ?_⟩ h
      rintro ⟨m, hmem, hm⟩
      obtain rfl : x = m := by simpa using hmem
      exact hm
  constructor
  · intro hg
    refine ⟨?_, ?_⟩
    · rintro a hc ⟨m, hm, hma, hk⟩
      exact hnone hc (hma.2 ▸ hg m hm hk)
    · intro m hm hk
      have hgm := hg m (mem_cons_of_mem c hm) hk
      by_cases hc : DirectoryAt m.address c
      · exact absurd ⟨by rw [hk]; decide, rfl⟩ (hnone hc hgm m hm)
      · exact (gatheredAt_cons_of_not hc).mp hgm
  · rintro ⟨hfirst, hg⟩ m hm hk
    have hmdir : DirectoryAt m.address m := ⟨by rw [hk]; decide, rfl⟩
    by_cases hc : DirectoryAt m.address c
    · have hno := hfirst m.address hc ⟨m, hm, hmdir, hk⟩
      rw [gatheredAt_cons_of hc]
      refine ⟨[], x :: xs, rfl, by simp, hno, Or.inl ?_⟩
      rcases mem_cons.mp hm with rfl | hm
      · exact hk
      · exact absurd hmdir (hno m hm)
    · rw [gatheredAt_cons_of_not hc]
      rcases mem_cons.mp hm with rfl | hm
      · exact absurd hmdir hc
      · exact hg m hm hk

end Gathering

/-! ### Markers -/

variable {xs : List (ObjectInfo δ)} {done : List Bytes}

/-- Addresses without a directory entry to come need not be done. -/
theorem settle_congr {done' : List Bytes}
    (h : ∀ x ∈ xs, x.kind ≠ .File → (x.address.asStr ∈ done ↔ x.address.asStr ∈ done')) :
    settle done xs = settle done' xs := by
  induction xs generalizing done done' with
  | nil => rfl
  | cons x xs ih =>
    have hxs : ∀ y ∈ xs, y.kind ≠ .File → (y.address.asStr ∈ done ↔ y.address.asStr ∈ done') :=
      fun y hy => h y (mem_cons_of_mem x hy)
    by_cases hfile : x.kind = .File
    · rw [settle_of_file hfile, settle_of_file hfile, ih hxs]
    · have hx := h x mem_cons_self hfile
      by_cases hdone : x.address.asStr ∈ done
      · rw [settle_of_done hfile hdone, settle_of_done hfile (hx.mp hdone), ih hxs]
      · have hdone' := mt hx.mpr hdone
        cases hm : lastMarker x.address.asStr (x :: xs) with
        | none => rw [settle_of_none hfile hdone hm, settle_of_none hfile hdone' hm, ih hxs]
        | some marker =>
          have htail : settle (x.address.asStr :: done) xs = settle (x.address.asStr :: done') xs :=
            ih fun y hy hk => by simp only [mem_cons, hxs y hy hk]
          rw [settle_of_marker hfile hdone hm, settle_of_marker hfile hdone' hm, htail]

variable {c x : ObjectInfo δ}

/-- Two entries that fuse settle as the one they leave. -/
theorem settle_fuse (h : Fuses c x) (xs : List (ObjectInfo δ)) :
    settle [] (c :: x :: xs) = settle [] (fuse c x :: xs) := by
  have hkey : (fuse c x).address.asStr = c.address.asStr := by rw [fuse_address h]
  have hkeyx : x.address.asStr = c.address.asStr := by rw [h.1]
  have hfuse : lastMarker c.address.asStr (fuse c x :: xs) =
      some ((lastMarker c.address.asStr xs).getD (fuse c x)) := by
    rw [lastMarker_cons, if_pos ⟨hkey, fuse_kind h⟩]
  have hlast : lastMarker c.address.asStr (c :: x :: xs) = lastMarker c.address.asStr (fuse c x :: xs) := by
    rw [hfuse, fuse]
    by_cases hx : x.kind = .DirectoryMarker
    · have hlastx : lastMarker c.address.asStr (x :: xs) = some ((lastMarker c.address.asStr xs).getD x) := by
        rw [lastMarker_cons, if_pos ⟨hkeyx, hx⟩]
      rw [lastMarker_cons, hlastx, if_pos hx, Option.getD_some]
      exact ite_self _
    · have hlastx : lastMarker c.address.asStr (x :: xs) = lastMarker c.address.asStr xs := lastMarker_of_ne hx xs
      rw [lastMarker_cons, hlastx, if_neg hx, if_pos ⟨rfl, h.2.2.2.resolve_right hx⟩]
  have h1 := settle_of_marker h.2.1 (not_mem_nil) (hlast.trans hfuse)
  have h2 : settle [c.address.asStr] (x :: xs) = settle [c.address.asStr] xs :=
    settle_of_done h.2.2.1 (mem_singleton.mpr hkeyx)
  have h3 := settle_of_marker (by rw [fuse_kind h]; decide) (not_mem_nil) (hkey.symm ▸ hfuse)
  rw [h1, h2, h3, hkey]

/-- Gathered entries are merged into those that settle. -/
theorem mergedFrom_eq_settle (h : Gathered (c :: xs)) : mergedFrom c xs = settle [] (c :: xs) := by
  induction xs generalizing c with
  | nil =>
    rw [mergedFrom]
    by_cases hfile : c.kind = .File
    · rw [settle_of_file hfile]
      rfl
    · cases hm : lastMarker c.address.asStr [c] with
      | none =>
        rw [settle_of_none hfile (by simp) hm]
        rfl
      | some marker =>
        rw [settle_of_marker hfile (by simp) hm, mem_singleton.mp (lastMarker_eq_some hm).1]
        rfl
  | cons x xs ih =>
    rw [mergedFrom]
    by_cases hf : Fuses c x
    · rw [if_pos hf, ih ((gathered_fuse hf).mp h), settle_fuse hf]
    · obtain ⟨hfirst, hrest⟩ := (gathered_cons hf).mp h
      rw [if_neg hf, ih hrest]
      by_cases hfile : c.kind = .File
      · rw [settle_of_file hfile]
      · cases hm : lastMarker c.address.asStr (c :: x :: xs) with
        | none => rw [settle_of_none hfile (by simp) hm]
        | some marker =>
          obtain ⟨hmem, haddr, hk⟩ := lastMarker_eq_some hm
          have hdir : DirectoryAt c.address marker := ⟨by rw [hk]; decide, asStr_inj haddr⟩
          have hno := hfirst c.address ⟨hfile, rfl⟩ ⟨marker, hmem, hdir, hk⟩
          have hself : marker = c := by
            rcases mem_cons.mp hmem with he | hmem
            · exact he
            · exact absurd hdir (hno marker hmem)
          rw [settle_of_marker hfile (by simp) hm, hself]
          congr 1
          refine settle_congr fun y hy hyk => ?_
          rw [mem_singleton]
          refine iff_of_false (by simp) fun he => hno y hy ⟨hyk, asStr_inj he⟩

/-! ### Counting -/

variable {a : Url}

theorem countP_settle_of_done (h : a.asStr ∈ done) (xs : List (ObjectInfo δ)) :
    (settle done xs).countP (fun y => decide (DirectoryAt a y)) = 0 := by
  rw [countP_eq_zero]
  intro y hy hd
  obtain ⟨hk, rfl⟩ := of_decide_eq_true hd
  exact (mem_settle hy).2 hk h

/-- One directory entry settles at the address of a marker. -/
theorem countP_settle_le_one (h : ∃ m ∈ xs, DirectoryAt a m ∧ m.kind = .DirectoryMarker) :
    (settle done xs).countP (fun y => decide (DirectoryAt a y)) ≤ 1 := by
  induction xs generalizing done with
  | nil =>
    obtain ⟨m, hm, -⟩ := h
    cases hm
  | cons x xs ih =>
    obtain ⟨m, hm, hma, hk⟩ := h
    by_cases hx : DirectoryAt a x
    · by_cases hdone : x.address.asStr ∈ done
      · rw [countP_settle_of_done (by rw [← hx.2]; exact hdone)]
        omega
      · cases hlast : lastMarker x.address.asStr (x :: xs) with
        | none =>
          refine absurd hk (lastMarker_eq_none.mp hlast m hm ?_)
          rw [hma.2, hx.2]
        | some marker =>
          rw [settle_of_marker hx.1 hdone hlast, countP_cons,
            countP_settle_of_done (by rw [← hx.2]; exact mem_cons_self)]
          split_ifs <;> omega
    · have hxs : ∃ m ∈ xs, DirectoryAt a m ∧ m.kind = .DirectoryMarker := by
        rcases mem_cons.mp hm with rfl | hm
        · exact absurd hma hx
        · exact ⟨m, hm, hma, hk⟩
      have hskip : ∀ {y : ObjectInfo δ} {done : List Bytes}, ¬ DirectoryAt a y →
          (y :: settle done xs).countP (fun y => decide (DirectoryAt a y)) ≤ 1 := by
        intro y done hy
        rw [countP_cons_of_neg (by simpa using hy)]
        exact ih hxs
      rw [settle]
      split_ifs with hfile hdone
      · exact hskip hx
      · exact ih hxs
      · cases hlast : lastMarker x.address.asStr (x :: xs) with
        | none => exact hskip hx
        | some marker =>
          obtain ⟨-, haddr, hmk⟩ := lastMarker_eq_some hlast
          refine hskip fun hd => hx ⟨hfile, ?_⟩
          rw [← hd.2, asStr_inj haddr]

/-- A directory entry is merged into one. -/
theorem countP_mergedFrom_pos
    (h : ∃ y ∈ c :: xs, DirectoryAt a y) : 0 < (mergedFrom c xs).countP (fun y => decide (DirectoryAt a y)) := by
  induction xs generalizing c with
  | nil =>
    obtain ⟨y, hy, hd⟩ := h
    rw [countP_pos_iff]
    exact ⟨y, hy, decide_eq_true hd⟩
  | cons x xs ih =>
    obtain ⟨y, hy, hd⟩ := h
    rw [mergedFrom]
    split_ifs with hf
    · apply ih
      rcases mem_cons.mp hy with rfl | hy
      · exact ⟨_, mem_cons_self, (directoryAt_fuse hf).mpr hd⟩
      · rcases mem_cons.mp hy with rfl | hy
        · exact ⟨_, mem_cons_self, (directoryAt_fuse hf).mpr ((directoryAt_next hf).mp hd)⟩
        · exact ⟨y, mem_cons_of_mem _ hy, hd⟩
    · rcases mem_cons.mp hy with rfl | hy
      · rw [countP_cons_of_pos (p := fun y => decide (DirectoryAt a y)) (decide_eq_true hd)]
        omega
      · rw [countP_cons]
        have := ih ⟨y, hy, hd⟩
        omega

/-- Entries that leave one directory entry at the address of each marker are gathered. -/
theorem gathered_of_countP (h : ∀ a, (∃ m ∈ c :: xs, DirectoryAt a m ∧ m.kind = .DirectoryMarker) →
      (mergedFrom c xs).countP (fun y => decide (DirectoryAt a y)) ≤ 1) : Gathered (c :: xs) := by
  induction xs generalizing c with
  | nil =>
    intro m hm hk
    rw [mem_singleton.mp hm]
    have hc : DirectoryAt c.address c := ⟨by rw [← mem_singleton.mp hm, hk]; decide, rfl⟩
    rw [gatheredAt_cons_of hc]
    exact ⟨[], [], rfl, by simp, by simp, Or.inl (mem_singleton.mp hm ▸ hk)⟩
  | cons x xs ih =>
    by_cases hf : Fuses c x
    · rw [gathered_fuse hf]
      refine ih ?_
      rintro a ⟨m, hm, hma, hk⟩
      have hcount := h a
      rw [mergedFrom, if_pos hf] at hcount
      refine hcount ?_
      rcases mem_cons.mp hm with rfl | hm
      · exact ⟨_, fuse_cases (q := fun y => y ∈ c :: x :: xs) (by simp) (by simp), hma, hk⟩
      · exact ⟨m, by simp [hm], hma, hk⟩
    · rw [gathered_cons hf]
      simp only [mergedFrom, if_neg hf] at h
      refine ⟨?_, ih ?_⟩
      · intro a hc hm y hy hd
        have hcount := h a hm
        rw [countP_cons_of_pos (p := fun y => decide (DirectoryAt a y)) (decide_eq_true hc)] at hcount
        have := countP_mergedFrom_pos ⟨y, hy, hd⟩
        omega
      · rintro a ⟨m, hm, hma, hk⟩
        have hcount := h a ⟨m, mem_cons_of_mem c hm, hma, hk⟩
        rw [countP_cons] at hcount
        omega

/-! ### Ancestors -/

/-- Settling leaves an entry at each address. -/
theorem exists_settle_address (hx : x ∈ xs) : x.address.asStr ∈ done ∨ ∃ y ∈ settle done xs, y.address = x.address := by
  induction xs generalizing done with
  | nil => cases hx
  | cons c xs ih =>
    have htail : ∀ {z : ObjectInfo δ}, (x = c → z.address = x.address) →
        x.address.asStr ∈ done ∨ ∃ y ∈ z :: settle done xs, y.address = x.address := by
      intro z hz
      rcases mem_cons.mp hx with he | hx
      · exact Or.inr ⟨z, mem_cons_self, hz he⟩
      · exact (ih hx).imp_right fun ⟨y, hy, he⟩ => ⟨y, mem_cons_of_mem z hy, he⟩
    rw [settle]
    split_ifs with hfile hdone
    · exact htail fun he => by rw [he]
    · rcases mem_cons.mp hx with rfl | hx
      · exact Or.inl hdone
      · exact ih hx
    · cases hm : lastMarker c.address.asStr (c :: xs) with
      | none => exact htail fun he => by rw [he]
      | some marker =>
        have hmarker : marker.address = c.address := asStr_inj (lastMarker_eq_some hm).2.1
        by_cases hc : x.address = c.address
        · exact Or.inr ⟨marker, mem_cons_self, by rw [hmarker, hc]⟩
        · rcases mem_cons.mp hx with rfl | hx
          · exact absurd rfl hc
          · have hrest : x.address.asStr ∈ c.address.asStr :: done ∨
                ∃ y ∈ settle (c.address.asStr :: done) xs, y.address = x.address := ih hx
            rcases hrest with h | ⟨y, hy, he⟩
            · exact Or.inl ((mem_cons.mp h).resolve_left fun h => hc (asStr_inj h))
            · exact Or.inr ⟨y, mem_cons_of_mem marker hy, he⟩

/-- Merging leaves an entry at each address. -/
theorem mem_mergedFrom_addresses :
    a ∈ (mergedFrom c xs).map ObjectInfo.address ↔ a ∈ (c :: xs).map ObjectInfo.address := by
  induction xs generalizing c with
  | nil => rfl
  | cons x xs ih =>
    rw [mergedFrom]
    split_ifs with hf
    · rw [ih, map_cons, map_cons, map_cons, fuse_address hf, ← hf.1]
      simp only [mem_cons, or_self_left]
    · simp only [map_cons, mem_cons] at ih ⊢
      rw [ih]

theorem contiguous_mergedFrom {anc : Url → List Url} {all : Url → Prop} {pre : List Url} :
    Ancestry.Contiguous anc all pre ((mergedFrom c xs).map ObjectInfo.address) ↔
      Ancestry.Contiguous anc all pre ((c :: xs).map ObjectInfo.address) := by
  induction xs generalizing c pre with
  | nil => rfl
  | cons x xs ih =>
    rw [mergedFrom]
    split_ifs with hf
    · rw [ih, map_cons, map_cons, map_cons, fuse_address hf, ← hf.1, Ancestry.Contiguous,
        Ancestry.Contiguous, Ancestry.contiguous_repeat]
    · rw [map_cons, map_cons, Ancestry.Contiguous, Ancestry.Contiguous, ih]

/-- Each entry follows on the ones before it. -/
def Follows (U : UrlCrate) (P : Url) (xs : List (ObjectInfo δ)) : Prop :=
  Ancestry.Contiguous (entryAncestors U P) (· ∈ xs.map ObjectInfo.address) [] (xs.map ObjectInfo.address)

section Compared

variable {U : UrlCrate} {bare : δ} {P : Url}

/-- The two closings agree on entries that are gathered and follow on. -/
theorem closeKnown_settle_eq_iff (law : U.Lawful) (hparsed : U.Parsed P) (hP : Kept P.toParts)
    (hkept : ∀ x ∈ xs, Kept x.address.toParts) :
    Ancestry.closeKnown (entryAncestors U P) (inferredDirectoryInfo bare) ObjectInfo.address
        ((settle [] xs).map ObjectInfo.address) (settle [] xs) = closed U bare P [] (merged none xs) ↔
      Gathered xs ∧ Follows U P xs := by
  cases xs with
  | nil => exact iff_of_true rfl ⟨fun m hm => (nomatch hm), trivial⟩
  | cons c xs =>
    have hlawful := entryAncestors_lawful law hparsed hP
    have hsettle : ∀ y ∈ settle [] (c :: xs), Kept y.address.toParts := fun y hy => hkept y (mem_settle hy).1
    have hiff : ∀ hg : Gathered (c :: xs),
        Ancestry.closeKnown (entryAncestors U P) (inferredDirectoryInfo bare) ObjectInfo.address
          ((settle [] (c :: xs)).map ObjectInfo.address) (settle [] (c :: xs)) = closed U bare P [] (mergedFrom c xs) ↔
        Follows U P (c :: xs) := by
      intro hg
      rw [← mergedFrom_eq_settle hg] at hsettle ⊢
      have hagree : Ancestry.closeKnown (entryAncestors U P) (inferredDirectoryInfo bare) ObjectInfo.address
            ((mergedFrom c xs).map ObjectInfo.address) (mergedFrom c xs) =
          closed U bare P (Ancestry.lastChain (entryAncestors U P) endsWithSlash []) (mergedFrom c xs) ↔
          Ancestry.Contiguous (entryAncestors U P) (· ∈ (mergedFrom c xs).map ObjectInfo.address) []
            ((mergedFrom c xs).map ObjectInfo.address) :=
        hlawful.closeKnown_eq_closeChain_iff (fun _ => rfl) (fun y hy => ⟨hsettle y hy, mem_map_of_mem hy⟩)
          (fun z hz => nomatch hz) (fun a => by simp)
      rw [show Ancestry.lastChain (entryAncestors U P) endsWithSlash [] = [] from rfl] at hagree
      rw [hagree, contiguous_mergedFrom, Follows]
      exact Ancestry.contiguous_congr (fun a => mem_mergedFrom_addresses) rfl (fun _ => Iff.rfl) _
    rw [merged]
    constructor
    · intro h
      have hg : Gathered (c :: xs) := by
        refine gathered_of_countP fun a hm => ?_
        have ha : a ∈ (settle [] (c :: xs)).map ObjectInfo.address := by
          obtain ⟨m, hm, hma, -⟩ := hm
          obtain ⟨y, hy, he⟩ := (exists_settle_address hm).resolve_left (not_mem_nil)
          exact mem_map.mpr ⟨y, hy, he.trans hma.2⟩
        -- whatever is put has an address of its own
        have hput : ∀ b ∉ (settle [] (c :: xs)).map ObjectInfo.address,
            decide (DirectoryAt a (inferredDirectoryInfo bare b)) = false :=
          fun b hb => decide_eq_false fun hd => hb ((show b = a from hd.2) ▸ ha)
        have hcount := congrArg (List.countP fun y => decide (DirectoryAt a y)) h
        rw [Ancestry.countP_closeKnown hput] at hcount
        calc (mergedFrom c xs).countP (fun y => decide (DirectoryAt a y))
            ≤ (closed U bare P [] (mergedFrom c xs)).countP (fun y => decide (DirectoryAt a y)) :=
              (Ancestry.sublist_closeChain [] _).countP_le
          _ = (settle [] (c :: xs)).countP (fun y => decide (DirectoryAt a y)) := hcount.symm
          _ ≤ 1 := countP_settle_le_one hm
      exact ⟨hg, (hiff hg).mp h⟩
    · rintro ⟨hg, hfollows⟩
      exact (hiff hg).mpr hfollows

/-- The incremental fold yields what the whole-set fold returns exactly when the entries are
gathered and follow on. -/
theorem yields_whole_iff (law : U.Lawful) (hparsed : U.Parsed P) (hP : Kept P.toParts) {inner : List (Poll (Item δ))}
    {items : List (ObjectInfo δ)} (hinner : Streams inner items) (hkept : ∀ item ∈ items, Kept item.address.toParts)
    (hsorted : (items.map fun item => key item.address.toParts).Pairwise (· ≤ ·)) :
    Yields U bare inner (new P false true) ((foldMarkersAndInferSubdirKinds U bare P items false true).map .ok) ↔
      Gathered (prepared U items) ∧ Follows U P (prepared U items) := by
  have hprep : ∀ x ∈ prepared U items, Kept x.address.toParts := by
    intro x hx
    obtain ⟨item, hitem, rfl⟩ := mem_map.mp hx
    rw [flatEntry_address]
    exact normalizeDirectoryAddress_kept law (hkept item hitem)
  have hok : Function.Injective (Except.ok : ObjectInfo δ → Item δ) := fun _ _ h => Except.ok.inj h
  rw [yields_flat law hparsed hP hinner hkept hsorted, (map_injective_iff.mpr hok).eq_iff,
    foldMarkersAndInferSubdirKinds_flat, closeKnown_settle_eq_iff law hparsed hP hprep]

end Compared

/-! ### An entry between a directory and what is in it -/

instance (u : Parts) : Decidable (Kept u) :=
  decidable_of_iff (u.cannotBeABase = false ∧ PathFixed u.scheme u.path) ⟨fun h => ⟨h.1, h.2⟩, fun h => ⟨h.1, h.2⟩⟩

/-- `s3://b` with a path. -/
def inBucket (path : Bytes)
    (h : (⟨utf8 "s3", true, [], none, some (utf8 "b"), none, path, none, none⟩ : Parts).WellFormed) :
    Url := ⟨_, h⟩

/-- The directory `d`, the file `d.txt` and the file `d/x` of `s3://b/`. -/
def split : List (ObjectInfo Unit) :=
  [⟨inBucket (utf8 "/d") (by decide +kernel), .Directory, none, ()⟩,
    ⟨inBucket (utf8 "/d.txt") (by decide +kernel), .File, some 1, ()⟩,
    ⟨inBucket (utf8 "/d/x") (by decide +kernel), .File, some 1, ()⟩]

/-- `s3://b/`. -/
def bucket : Url := inBucket (utf8 "/") (by decide +kernel)

/-- The keys are in order, and the incremental fold puts a second `d/` before `d/x`. -/
theorem folds_differ :
    (∀ item ∈ split, Kept item.address.toParts ∧ isAncestorOrSelf bucket.toParts item.address.toParts = true) ∧
      (split.map fun item => key item.address.toParts).Pairwise (· ≤ ·) ∧
      (foldMarkersAndInferSubdirKinds reference () bucket split false true).length = 3 ∧
      (∀ out, Yields reference () (split.map fun item => .Ready (.ok item)) (new bucket false true) out →
        out.length = 4) ∧
      ¬ Yields reference () (split.map fun item => .Ready (.ok item)) (new bucket false true)
        ((foldMarkersAndInferSubdirKinds reference () bucket split false true).map .ok) := by
  have hwhole : (foldMarkersAndInferSubdirKinds reference () bucket split false true).length = 3 := by decide +kernel
  have hfour : ∀ out, Yields reference () (split.map fun item => .Ready (.ok item)) (new bucket false true) out →
      out.length = 4 := by
    intro out h
    rw [yields_iff.mp h]
    decide +kernel
  refine ⟨by decide +kernel, by decide +kernel, hwhole, hfour, fun h => ?_⟩
  have hlen := hfour _ h
  rw [length_map, hwhole] at hlen
  omega

/-- The marker `d/` and the file `d/x`. -/
def nested : List (ObjectInfo Unit) :=
  [⟨inBucket (utf8 "/d/") (by decide +kernel), .File, some 0, ()⟩,
    ⟨inBucket (utf8 "/d/x") (by decide +kernel), .File, some 1, ()⟩]

/-- With the inner stream pending in between, the folds agree on a marker and what is in it. -/
theorem yields_whole_nested :
    Yields reference () [.Ready (.ok (nested.get ⟨0, by decide⟩)), .Pending, .Ready (.ok (nested.get ⟨1, by decide⟩))]
      (new bucket false true) ((foldMarkersAndInferSubdirKinds reference () bucket nested false true).map .ok) := by
  have hinner : Streams [.Ready (.ok (nested.get ⟨0, by decide⟩)), .Pending, .Ready (.ok (nested.get ⟨1, by decide⟩))]
      nested := rfl
  refine (yields_whole_iff reference_lawful (reference_parsed_iff.mpr (by decide +kernel)) (by decide +kernel) hinner
    (by decide +kernel) (by decide +kernel)).mpr ⟨?_, ?_⟩
  · have hprep : prepared reference nested =
        [⟨inBucket (utf8 "/d/") (by decide +kernel), .DirectoryMarker, none, ()⟩,
          ⟨inBucket (utf8 "/d/x") (by decide +kernel), .File, some 1, ()⟩] := by decide +kernel
    rw [hprep]
    intro m hm hk
    rcases mem_cons.mp hm with rfl | hm
    · exact ⟨[], [_], [_], rfl, by simp [DirectoryAt], by simp [DirectoryAt], by simp⟩
    · rw [mem_singleton.mp hm] at hk
      cases hk
  · have haddr : (prepared reference nested).map ObjectInfo.address =
        [inBucket (utf8 "/d/") (by decide +kernel), inBucket (utf8 "/d/x") (by decide +kernel)] := by decide +kernel
    unfold Follows Ancestry.Contiguous
    rw [haddr]
    refine ⟨?_, ?_, trivial⟩
    · intro a ha
      rw [show entryAncestors reference bucket (inBucket (utf8 "/d/") (by decide +kernel)) = [] by decide +kernel] at ha
      cases ha
    · intro a ha _
      rw [show entryAncestors reference bucket (inBucket (utf8 "/d/x") (by decide +kernel)) =
        [inBucket (utf8 "/d/") (by decide +kernel)] by decide +kernel] at ha
      exact ⟨_, rfl, Or.inl (mem_singleton.mp ha)⟩

end OvStorage.Listing
