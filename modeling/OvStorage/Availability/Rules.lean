import Mathlib.Order.MinMax
import OvStorage.Availability.Programs

/-!
# What keeps an availability row from going stale

## The model

`Inv` says of a row that it was written under the present floor and, once a mutation has
settled, names only what the backend has held since the floor. `Rely` is what a thread keeps of
the row it has snapshotted and of its own commit while the others act.
-/

namespace OvStorage.Availability

open Interleave Function Option

variable {ι ε : Type} {s s' s₁ s₂ : Shared ι ε} {t : ι} {S : AvailRow ε} {v : ε}

/-- What the history of an address only ever gains. -/
structure Grows (s s' : Shared ι ε) : Prop where
  nextNonce : s.nextNonce ≤ s'.nextNonce
  floor : s.floor ≤ s'.floor
  stamp : ∀ n < s.nextNonce, s'.stamp n = s.stamp n
  held : s.held <+: s'.held

/-- What thread `t` may rely on while the others act. -/
structure Rely (t : ι) (s s' : Shared ι ε) : Prop extends Grows s s' where
  commits : s'.commits t = s.commits t

/-- The invariant of the shared state. -/
structure Inv (s : Shared ι ε) : Prop where
  nonce : ∀ S, s.row = some S → S.nonce < s.nextNonce ∧ s.stamp S.nonce = s.floor
  names : ∀ S v, s.row = some S → S.etag = some v → 0 < s.floor → some v ∈ s.held.drop s.floor
  floor : s.floor < s.held.length
  commits : ∀ t c, s.commits t = some c → 0 < c ∧ c < s.held.length
  finished : ∀ c ∈ s.finished, 0 < c ∧ c ≤ s.floor

/-- The row was there once, and names what the backend held since the floor it was written under. -/
structure Stood (S : AvailRow ε) (s : Shared ι ε) : Prop where
  nonce : S.nonce < s.nextNonce
  stamp : s.stamp S.nonce < s.held.length
  names : ∀ v, S.etag = some v → 0 < s.stamp S.nonce → some v ∈ s.held.drop (s.stamp S.nonce)

/-- Against the row, a swap of `t` may publish the validator. -/
structure Publishable (t : ι) (S : AvailRow ε) (v : ε) (s : Shared ι ε) : Prop where
  nonce : S.nonce < s.nextNonce
  held : some v ∈ s.held.drop (max (s.stamp S.nonce) (s.commitOf t))

/-- The row has been written or removed since `t` committed. -/
def Settled (t : ι) (s : Shared ι ε) : Prop := s.commitOf t ≤ s.floor

/-- No mutation of `t` is on. -/
def Quiet (t : ι) (s : Shared ι ε) : Prop := s.commits t = none

namespace Grows

theorem refl (s : Shared ι ε) : Grows s s := ⟨le_rfl, le_rfl, fun _ _ => rfl, List.prefix_refl _⟩

theorem trans {s₃ : Shared ι ε} (h : Grows s₁ s₂) (h' : Grows s₂ s₃) : Grows s₁ s₃ where
  nextNonce := h.nextNonce.trans h'.nextNonce
  floor := h.floor.trans h'.floor
  stamp n hn := (h'.stamp n (hn.trans_le h.nextNonce)).trans (h.stamp n hn)
  held := h.held.trans h'.held

/-- What was held since a moment still is. -/
theorem mem_drop (h : Grows s s') {n : ℕ} (hv : some v ∈ s.held.drop n) : some v ∈ s'.held.drop n := by
  obtain ⟨later, hlater⟩ := h.held
  rw [← hlater, List.drop_append]
  exact List.mem_append_left _ hv

theorem stood (h : Grows s s') (hS : Stood S s) : Stood S s' where
  nonce := hS.nonce.trans_le h.nextNonce
  stamp := by
    rw [h.stamp _ hS.nonce]
    exact hS.stamp.trans_le h.held.length_le
  names v hv hpos := by
    rw [h.stamp _ hS.nonce] at hpos ⊢
    exact h.mem_drop (hS.names v hv hpos)

end Grows

theorem mem_drop_of_le {held : List (Option ε)} {m n : ℕ} (hmn : m ≤ n) (hv : some v ∈ held.drop n) :
    some v ∈ held.drop m := by
  have hdrop : held.drop n = (held.drop m).drop (n - m) := by rw [List.drop_drop, Nat.add_sub_cancel' hmn]
  rw [hdrop] at hv
  exact List.mem_of_mem_drop hv

/-- What the backend holds now was held since any earlier moment. -/
theorem mem_drop_of_getLast? {held : List (Option ε)} (hlast : held.getLast? = some (some v)) {n : ℕ}
    (hn : n < held.length) : some v ∈ held.drop n := by
  obtain ⟨init, rfl⟩ := List.getLast?_eq_some_iff.mp hlast
  rw [List.drop_append_of_le_length (by simpa [Nat.lt_succ_iff] using hn)]
  exact List.mem_append_right _ (List.mem_singleton_self _)

namespace Rely

theorem refl (t : ι) (s : Shared ι ε) : Rely t s s := ⟨Grows.refl s, rfl⟩

theorem trans {s₃ : Shared ι ε} (h : Rely t s₁ s₂) (h' : Rely t s₂ s₃) : Rely t s₁ s₃ :=
  ⟨h.toGrows.trans h'.toGrows, h'.commits.trans h.commits⟩

theorem commitOf (h : Rely t s s') : s'.commitOf t = s.commitOf t := by
  rw [Shared.commitOf, Shared.commitOf, h.commits]

theorem quiet (h : Rely t s s') (hs : Quiet t s) : Quiet t s' := h.commits.trans hs

theorem settled (h : Rely t s s') (hs : Settled t s) : Settled t s' := by
  rw [Settled, h.commitOf]
  exact hs.trans h.floor

theorem stood (h : Rely t s s') (hS : Stood S s) : Stood S s' := h.toGrows.stood hS

theorem publishable (h : Rely t s s') (hs : Publishable t S v s) : Publishable t S v s' where
  nonce := hs.nonce.trans_le h.nextNonce
  held := by
    rw [h.stamp _ hs.nonce, h.commitOf]
    exact h.mem_drop hs.held

end Rely

/-- What `t` could publish it can still when its mutation is over. -/
theorem Publishable.quiet (hs : Publishable t S v s) (h : Grows s s') (hquiet : Quiet t s') : Publishable t S v s' where
  nonce := hs.nonce.trans_le h.nextNonce
  held := by
    rw [h.stamp _ hs.nonce, Shared.commitOf, hquiet, getD_none, Nat.max_zero]
    exact h.mem_drop (mem_drop_of_le (le_max_left _ _) hs.held)

/-- After a commit of its own, `t` may publish what the backend has held since, against a row
that stood before. -/
theorem publishable_of_commit (hS : Stood S s) (h : Grows s s') {c : ℕ} (hc : s'.commits t = some c)
    (hle : s.held.length ≤ c) (hv : some v ∈ s'.held.drop c) : Publishable t S v s' where
  nonce := (h.stood hS).nonce
  held := by
    have hstamp : s'.stamp S.nonce ≤ c := by
      rw [h.stamp _ hS.nonce]
      exact (hS.stamp.trans_le hle).le
    rwa [Shared.commitOf, hc, getD_some, max_eq_right hstamp]

theorem Quiet.commitOf (h : Quiet t s) : s.commitOf t = 0 := by rw [Shared.commitOf, h, getD_none]

theorem Quiet.settled (h : Quiet t s) : Settled t s := by
  rw [Settled, h.commitOf]
  exact Nat.zero_le _

/-- The row as it is now has stood. -/
theorem Inv.stood (hs : Inv s) (hS : s.row = some S) : Stood S s where
  nonce := (hs.nonce S hS).1
  stamp := (hs.nonce S hS).2 ▸ hs.floor
  names v hv hpos := by
    rw [(hs.nonce S hS).2] at hpos ⊢
    exact hs.names S v hS hv hpos

section Effects

/-- All that an action of `t` can do to the shared state. -/
inductive Effect [DecidableEq ι] (t : ι) (s : Shared ι ε) : Shared ι ε → Prop
  | none : Effect t s s
  | remove : Effect t s (s.remove t)
  | put (etag : Option ε) : Effect t s (s.put t etag)
  | restore (preserved : AvailRow ε) : Effect t s { s with row := some preserved }
  | slot (slot : Option (ℕ × ℕ)) : Effect t s { s with slot := slot }
  | commit (v : Option ε) : s.commits t = .none → Effect t s (s.commit t v)
  | finish : Effect t s (s.finish t)
  | abandon : Effect t s (s.abandon t)
  | held (v : Option ε) : Effect t s { s with held := s.held ++ [v] }

variable [DecidableEq ι]

theorem exec_effect [DecidableEq ε] {a : Action ε} {r : Answer ε a} (h : s.exec t a r = some s') : Effect t s s' := by
  cases a with
  | readAvail | generation | backendReply =>
    obtain ⟨_, rfl⟩ := of_guard h
    exact .none
  | compareAndPut expected etag =>
    simp only [Shared.exec] at h
    split_ifs at h
    all_goals cases h
    · exact .put etag
    · exact .none
  | compareAndRemove expected =>
    obtain ⟨_, rfl⟩ := of_guard h
    split_ifs
    · exact .remove
    · exact .none
  | restore preserved =>
    obtain ⟨_, rfl⟩ := of_guard h
    split_ifs
    · exact .restore preserved
    · exact .none
  | removeIndex =>
    cases h
    exact .remove
  | bumpGeneration | unregister =>
    cases h
    exact .slot _
  | register =>
    obtain ⟨_, rfl⟩ := of_guard h
    exact .slot _
  | stat =>
    cases h
    exact .none
  | backendRead =>
    cases r with
    | failed | unproved _ =>
      cases h
      exact .none
    | proved v =>
      obtain ⟨_, rfl⟩ := of_guard h
      exact .none
  | backendCommit =>
    cases r with
    | none =>
      cases h
      exact .none
    | some v =>
      obtain ⟨hquiet, rfl⟩ := of_guard h
      exact .commit v hquiet
  | backendStep =>
    cases r with
    | failed =>
      cases h
      exact .none
    | done | redirects =>
      obtain ⟨_, rfl⟩ := of_guard h
      exact .none
  | finish =>
    cases h
    exact .finish
  | abandon =>
    cases h
    exact .abandon
  | outOfBand =>
    cases h
    exact .held _

theorem Effect.grows (h : Effect t s s') : Grows s s' := by
  cases h with
  | none | restore _ | slot _ | finish | abandon => exact ⟨le_rfl, le_rfl, fun _ _ => rfl, List.prefix_refl _⟩
  | remove => exact ⟨le_rfl, le_max_left _ _, fun _ _ => rfl, List.prefix_refl _⟩
  | put etag =>
    refine ⟨Nat.le_succ _, le_max_left _ _, fun n hn => ?_, List.prefix_refl _⟩
    exact update_of_ne hn.ne _ _
  | commit v _ | held v => exact ⟨le_rfl, le_rfl, fun _ _ => rfl, List.prefix_append _ _⟩

/-- No action touches the commit of another thread. -/
theorem Effect.commits (h : Effect t s s') {t' : ι} (ht : t' ≠ t) : s'.commits t' = s.commits t' := by
  cases h with
  | commit v _ | finish | abandon => exact update_of_ne ht _ _
  | _ => rfl

/-- What the others do is what a thread may rely on. -/
theorem Effect.rely (h : Effect t s s') {t' : ι} (ht : t' ≠ t) : Rely t' s s' := ⟨h.grows, h.commits ht⟩

end Effects

namespace Inv

theorem commitOf_lt (hs : Inv s) (t : ι) : s.commitOf t < s.held.length := by
  cases hc : s.commits t with
  | none => simpa [Shared.commitOf, hc] using (Nat.zero_le _).trans_lt hs.floor
  | some c => simpa [Shared.commitOf, hc] using (hs.commits t c hc).2

theorem floorAfter_lt (hs : Inv s) (t : ι) : s.floorAfter t < s.held.length := max_lt hs.floor (hs.commitOf_lt t)

theorem remove (hs : Inv s) : Inv (s.remove t) where
  nonce _ h := nomatch h
  names _ _ h := nomatch h
  floor := hs.floorAfter_lt t
  commits := hs.commits
  finished c hc := (hs.finished c hc).imp_right (le_max_of_le_left ·)

/-- A swap keeps the invariant when what it names was held since the floor it settles. -/
theorem put (hs : Inv s) {etag : Option ε} (h : ∀ v, etag = some v → some v ∈ s.held.drop (s.floorAfter t)) :
    Inv (s.put t etag) where
  nonce S hS := by
    cases hS
    exact ⟨Nat.lt_succ_self _, update_self _ _ _⟩
  names S v hS hv _ := by
    cases hS
    exact h v hv
  floor := hs.floorAfter_lt t
  commits := hs.commits
  finished c hc := (hs.finished c hc).imp_right (le_max_of_le_left ·)

/-- What is publishable against the row was held since the floor that the swap settles. -/
theorem held_of_publishable (hs : Inv s) (hrow : s.row = some S) (hv : Publishable t S v s) :
    some v ∈ s.held.drop (s.floorAfter t) := by
  rw [Shared.floorAfter, ← (hs.nonce S hrow).2]
  exact hv.held

/-- To put a row back keeps the invariant when no mutation has settled since it was written. -/
theorem restore (hs : Inv s) (hS : Stood S s) (hfloor : s.stamp S.nonce = s.floor) :
    Inv { s with row := some S } where
  nonce S' hS' := by
    cases hS'
    exact ⟨hS.nonce, hfloor⟩
  names S' v hS' hv hpos := by
    cases hS'
    rw [← hfloor] at hpos
    exact hfloor ▸ hS.names v hv hpos
  floor := hs.floor
  commits := hs.commits
  finished := hs.finished

theorem slot (hs : Inv s) (slot : Option (ℕ × ℕ)) : Inv { s with slot := slot } :=
  ⟨hs.nonce, hs.names, hs.floor, hs.commits, hs.finished⟩

theorem held (hs : Inv s) (v : Option ε) : Inv { s with held := s.held ++ [v] } where
  nonce := hs.nonce
  names S v' hS hv hpos := by
    rw [List.drop_append]
    exact List.mem_append_left _ (hs.names S v' hS hv hpos)
  floor := hs.floor.trans_le (List.prefix_append _ _).length_le
  commits t c hc := (hs.commits t c hc).imp_right (·.trans_le (List.prefix_append _ _).length_le)
  finished := hs.finished

/-- The commits of the threads may change to what lies in the backend's past. -/
theorem withCommits (hs : Inv s) {commits : ι → Option ℕ} (h : ∀ t c, commits t = some c → 0 < c ∧ c < s.held.length) :
    Inv { s with commits := commits } :=
  ⟨hs.nonce, hs.names, hs.floor, h, hs.finished⟩

variable [DecidableEq ι]

theorem commit (hs : Inv s) (v : Option ε) : Inv (s.commit t v) := by
  refine (hs.held v).withCommits fun t' c hc => ?_
  by_cases ht : t' = t
  · subst ht
    rw [update_self] at hc
    cases hc
    exact ⟨(Nat.zero_le _).trans_lt hs.floor, by simp⟩
  · rw [update_of_ne ht] at hc
    exact (hs.held v).commits t' c hc

theorem abandon (hs : Inv s) : Inv (s.abandon t) := by
  refine hs.withCommits fun t' c hc => ?_
  by_cases ht : t' = t
  · subst ht
    rw [update_self] at hc
    cases hc
  · rw [update_of_ne ht] at hc
    exact hs.commits t' c hc

/-- A mutation may be over when the row has been settled since its commit. -/
theorem finish (hs : Inv s) (hsettled : Settled t s) : Inv (s.finish t) where
  nonce := hs.nonce
  names := hs.names
  floor := hs.floor
  commits := (hs.abandon (t := t)).commits
  finished c hc := by
    rcases List.mem_append.mp hc with hc | hc
    · exact hs.finished c hc
    · have hcommit : s.commits t = some c := mem_toList.mp hc
      refine ⟨(hs.commits t c hcommit).1, ?_⟩
      rwa [Settled, Shared.commitOf, hcommit, getD_some] at hsettled

end Inv

/-- No mutation that is over is undone: the row names nothing, or what the backend has held since. -/
def Fenced (s : Shared ι ε) : Prop :=
  ∀ n ∈ s.finished, ∀ S v, s.row = some S → S.etag = some v → some v ∈ s.held.drop n

theorem Inv.fenced (hs : Inv s) : Fenced s := by
  intro n hn S v hS hv
  obtain ⟨hpos, hle⟩ := hs.finished n hn
  exact mem_drop_of_le hle (hs.names S v hS hv (hpos.trans_le hle))

section Actions

variable [DecidableEq ι] [DecidableEq ε] {allowed : ι → (a : Action ε) → Answer ε a → Shared ι ε → Prop}

/-- The discipline of the row, in runs whose actions are `allowed`. -/
def fence (allowed : ι → (a : Action ε) → Answer ε a → Shared ι ε → Prop) :
    Discipline (R := Answer ε) (Shared.exec (ι := ι)) where
  allowed := allowed
  inv := Inv
  rely := Rely
  quiet := Quiet
  rely_refl := Rely.refl
  rely_trans := Rely.trans
  rely_of_exec ht h := (exec_effect h).rely ht
  quiet_of_rely := Rely.quiet

/-- What an action ensures, beside what its thread may rely on anyway. -/
def Does (allowed : ι → (a : Action ε) → Answer ε a → Shared ι ε → Prop) (t : ι) (a : Action ε) (s : Shared ι ε)
    (Q : Answer ε a → Shared ι ε → Prop) : Prop :=
  (fence allowed).Ensures t a s fun r s' => Rely t s s' ∧ Q r s'

theorem Does.weaken {a : Action ε} {Q : Answer ε a → Shared ι ε → Prop} (h : Does allowed t a s Q) :
    Does allowed t a s fun _ _ => True :=
  Discipline.Ensures.mono h fun _ _ hQ => ⟨hQ.1, trivial⟩

theorem does_of {a : Action ε} {Q : Answer ε a → Shared ι ε → Prop}
    (h : ∀ s₁, Rely t s s₁ → Inv s₁ → ∀ r s₂, allowed t a r s₁ → s₁.exec t a r = some s₂ →
      Inv s₂ ∧ s₂.commits t = s₁.commits t ∧ Q r s₂) :
    Does allowed t a s Q := by
  intro s₁ hrely hinv r s₂ hr hexec
  obtain ⟨hinv₂, hcommits, hQ⟩ := h s₁ hrely hinv r s₂ hr hexec
  exact ⟨hinv₂, hrely.trans ⟨(exec_effect hexec).grows, hcommits⟩, hQ⟩

theorem does_readAvail : Does allowed t .readAvail s fun r s' => ∀ S, r = some (some S) → Stood S s' := by
  refine does_of fun s₁ _ hinv r s₂ _ hexec => ?_
  obtain ⟨hr, rfl⟩ := of_guard hexec
  exact ⟨hinv, rfl, fun S hS => hinv.stood (hr _ hS).symm⟩

theorem does_compareAndPut {expected : Option (AvailRow ε)} {etag : Option ε}
    (hpublish : ∀ v, etag = some v → ∃ S, expected = some S ∧ Publishable t S v s) :
    Does allowed t (.compareAndPut expected etag) s fun r s' =>
      ∀ S, r = some S → Stood S s' ∧ Settled t s' := by
  refine does_of fun s₁ hrely hinv r s₂ _ hexec => ?_
  simp only [Shared.exec] at hexec
  split_ifs at hexec with hrow hr hr
  · cases hexec
    have hput : Inv (s₁.put t etag) := hinv.put fun v hv => by
      obtain ⟨S, hS, hv⟩ := hpublish v hv
      exact hinv.held_of_publishable (hrow.trans hS) (hrely.publishable hv)
    refine ⟨hput, rfl, fun S hS => ⟨?_, le_max_right _ _⟩⟩
    exact hput.stood (hr.symm.trans hS)
  · cases hexec
    exact ⟨hinv, rfl, fun S hS => nomatch hr.symm.trans hS⟩

/-- A swap for a tombstone publishes nothing. -/
theorem does_tombstone {expected : Option (AvailRow ε)} :
    Does allowed t (.compareAndPut expected none) s fun r s' => ∀ S, r = some S → Stood S s' ∧ Settled t s' :=
  does_compareAndPut fun _ h => nomatch h

/-- A publication against the row that a validator is publishable against. -/
theorem does_publish (hv : Publishable t S v s) :
    Does allowed t (.compareAndPut (some S) (some v)) s fun r s' => ∀ S, r = some S → Stood S s' ∧ Settled t s' :=
  does_compareAndPut fun _ h => ⟨S, rfl, Option.some.inj h ▸ hv⟩

theorem does_compareAndRemove : Does allowed t (.compareAndRemove S) s fun _ _ => True := by
  refine does_of fun s₁ _ hinv r s₂ _ hexec => ?_
  obtain ⟨_, rfl⟩ := of_guard hexec
  split_ifs
  · exact ⟨hinv.remove, rfl, trivial⟩
  · exact ⟨hinv, rfl, trivial⟩

theorem does_restore (hS : Stood S s)
    (hclear : ∀ r s₁, allowed t (.restore S) r s₁ → s₁.row = none → s₁.stamp S.nonce = s₁.floor) :
    Does allowed t (.restore S) s fun _ _ => True := by
  refine does_of fun s₁ hrely hinv r s₂ hr hexec => ?_
  obtain ⟨hrow, rfl⟩ := of_guard hexec
  split_ifs with hr'
  · rw [hr', eq_comm, decide_eq_true_iff] at hrow
    exact ⟨hinv.restore (hrely.stood hS) (hclear r s₁ hr hrow), rfl, trivial⟩
  · exact ⟨hinv, rfl, trivial⟩

theorem does_removeIndex : Does allowed t .removeIndex s fun _ s' => Settled t s' := by
  refine does_of fun s₁ _ hinv r s₂ _ hexec => ?_
  cases hexec
  exact ⟨hinv.remove, rfl, le_max_right _ _⟩

/-- An action that leaves the row, the backend and the mutations alone. -/
theorem does_slot {a : Action ε}
    (ha : ∀ (s₁ : Shared ι ε) r s₂, s₁.exec t a r = some s₂ → ∃ slot, s₂ = { s₁ with slot := slot }) :
    Does allowed t a s fun _ _ => True := by
  refine does_of fun s₁ _ hinv r s₂ _ hexec => ?_
  obtain ⟨slot, rfl⟩ := ha s₁ r s₂ hexec
  exact ⟨hinv.slot slot, rfl, trivial⟩

theorem does_bumpGeneration : Does allowed t .bumpGeneration s fun _ _ => True :=
  does_slot fun _ _ _ h => ⟨_, (Option.some.inj h).symm⟩

theorem does_unregister : Does allowed t .unregister s fun _ _ => True :=
  does_slot fun _ _ _ h => ⟨_, (Option.some.inj h).symm⟩

theorem does_stat : Does allowed t .stat s fun _ _ => True :=
  does_slot fun s₁ _ _ h => ⟨s₁.slot, (Option.some.inj h).symm⟩

theorem does_register : Does allowed t .register s fun _ _ => True := by
  refine does_slot fun s₁ r s₂ h => ?_
  simp only [Shared.exec, ite_none_right_eq_some, Option.some.injEq] at h
  exact ⟨_, h.2.symm⟩

theorem does_generation : Does allowed t .generation s fun _ _ => True := by
  refine does_slot fun s₁ r s₂ h => ?_
  simp only [Shared.exec, ite_none_right_eq_some, Option.some.injEq] at h
  exact ⟨s₁.slot, h.2.symm⟩

/-- A validator that a read proves is publishable against the row it snapshotted before. -/
theorem does_backendRead :
    Does allowed t .backendRead s fun r s' =>
      ∀ v, r = .proved v → ∀ S, Stood S s → Publishable t S v s' := by
  refine does_of fun s₁ hrely hinv r s₂ _ hexec => ?_
  cases r with
  | failed | unproved _ =>
    cases hexec
    exact ⟨hinv, rfl, fun _ h => nomatch h⟩
  | proved v =>
    obtain ⟨hlast, rfl⟩ := of_guard hexec
    refine ⟨hinv, rfl, fun v' hv' S hS => ?_⟩
    cases hv'
    have hstood := hrely.stood hS
    exact ⟨hstood.nonce, mem_drop_of_getLast? hlast (max_lt hstood.stamp (hinv.commitOf_lt t))⟩

/-- A commit lies behind everything that the backend has held. -/
theorem ensures_backendCommit (hquiet : Quiet t s) :
    (fence allowed).Ensures t .backendCommit s fun _ s' =>
      Grows s s' ∧ ∀ c, s'.commits t = some c → s.held.length ≤ c := by
  intro s₁ hrely hinv r s₂ _ hexec
  have hgrows := hrely.toGrows.trans (exec_effect hexec).grows
  cases r with
  | none =>
    cases hexec
    exact ⟨hinv, hgrows, fun c hc => nomatch (hrely.quiet hquiet).symm.trans hc⟩
  | some v =>
    obtain ⟨_, rfl⟩ := of_guard hexec
    refine ⟨hinv.commit v, hgrows, fun c hc => ?_⟩
    simp only [Shared.commit, update_self, Option.some.injEq] at hc
    exact hc ▸ hrely.held.length_le

theorem does_backendReply :
    Does allowed t .backendReply s fun r s' =>
      ∀ v, r = some (some v) → ∃ c, s'.commits t = some c ∧ some v ∈ s'.held.drop c := by
  refine does_of fun s₁ _ hinv r s₂ _ hexec => ?_
  obtain ⟨hr, rfl⟩ := of_guard hexec
  refine ⟨hinv, rfl, fun v hv => ?_⟩
  obtain ⟨c, hc, hheld⟩ := hr _ hv
  exact ⟨c, hc, hheld v rfl⟩

theorem does_backendStep :
    Does allowed t .backendStep s fun r s' =>
      (r = .redirects → Quiet t s' ∧ ∃ s₁, allowed t .backendStep .redirects s₁) := by
  refine does_of fun s₁ _ hinv r s₂ hr hexec => ?_
  cases r with
  | failed =>
    cases hexec
    exact ⟨hinv, rfl, fun h => nomatch h⟩
  | done =>
    obtain ⟨_, rfl⟩ := of_guard hexec
    exact ⟨hinv, rfl, fun h => nomatch h⟩
  | redirects =>
    obtain ⟨hquiet, rfl⟩ := of_guard hexec
    exact ⟨hinv, rfl, fun _ => ⟨hquiet, s₁, hr⟩⟩

theorem ensures_finish (hsettled : Settled t s) :
    (fence allowed).Ensures t .finish s fun _ s' => Grows s s' ∧ Quiet t s' := by
  intro s₁ hrely hinv r s₂ _ hexec
  have hgrows := hrely.toGrows.trans (exec_effect hexec).grows
  cases hexec
  exact ⟨hinv.finish (hrely.settled hsettled), hgrows, update_self _ _ _⟩

theorem ensures_abandon : (fence allowed).Ensures t .abandon s fun _ s' => Grows s s' ∧ Quiet t s' := by
  intro s₁ hrely hinv r s₂ _ hexec
  have hgrows := hrely.toGrows.trans (exec_effect hexec).grows
  cases hexec
  exact ⟨hinv.abandon, hgrows, update_self _ _ _⟩

theorem does_outOfBand : Does allowed t .outOfBand s fun _ _ => True := by
  refine does_of fun s₁ _ hinv r s₂ _ hexec => ?_
  cases hexec
  exact ⟨hinv.held r, rfl, trivial⟩

end Actions

end OvStorage.Availability
