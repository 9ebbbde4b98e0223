import OvStorage.Alias.Chain
import OvStorage.Lib.Interleave
import OvStorage.Lib.Table

/-!
# Rules derived from a connection

The delegated `add_connection` and `remove_connection` of `AliasWrapper`
(`ovstorage-plugin-core/src/alias.rs`), as concurrent calls for one backend connection: a
registration derives alias rules from the spellings its row advertises, a removal withdraws them.

## The model

Each call is a program of atomic actions: the inner layer's commit, each time the call takes the
lock of `derivations`, and each commit on the rule set. The scan of the inner layer answers as it
will. What is left out of the rule set is left out here too; the eviction of copies that an inner
wrapper has derived does nothing to this one. Two history variables say which calls have a
derivation to install and a withdrawal to make.

## What is proved

* `derived_rules_owned`: where no derivation begins late and no guard is dropped early, the wrapper holds derived rules
  only for connections that the inner layer holds.
* `derived_rule_outlives`: a removal between the inner commit of the registration and the mark.
-/

namespace OvStorage.Alias.Derivation

open Address SegList Interleave Function

/-- What a registration derives rules from: the row that the inner layer answers with. -/
structure Connection where
  /-- The entries of `ACCEPTED_URL_SPELLINGS_KEY` that parse, if the row has the key. -/
  spellings : Option (List Url)
  /-- The first of `current_addresses`. -/
  address : Option Url

/-- `derivation_key`. -/
def derivationKey (owner : ConnectionKey) : String := owner.target ++ "/" ++ owner.id

/-- `derived_rules_from_connection`. -/
def derivedRulesFromConnection (connection : Connection) (owner : ConnectionKey) : List AliasRule :=
  match connection.spellings, connection.address with
  | some spellings, some target => spellings.map fun pre => ⟨pre, target, some owner⟩
  | _, _ => []

/-- The candidates that `install_derived_rules` leaves: no explicit rule here has their scope, and
no alias row of the inner layer. -/
def keptCandidates (rules : RuleSet) (owned : List Url) (candidates : List AliasRule) : List AliasRule :=
  candidates.filter fun rule =>
    !(rules.aliases.any fun existing => existing.derivedFrom.isNone &&
      nodeKey existing.pre.toParts == nodeKey rule.pre.toParts) &&
      !(owned.any fun address => nodeKey address.toParts == nodeKey rule.pre.toParts)

section Commits

variable (U : UrlCrate)

/-- The loop of `install_candidates`. -/
def installRules (rules : RuleSet) : List AliasRule → RuleSet
  | [] => rules
  | rule :: rest =>
    if rules.aliases.any fun existing =>
      nodeKey existing.pre.toParts == nodeKey rule.pre.toParts then installRules rules rest
    else
      let candidate : RuleSet := ⟨rules.aliases ++ [rule]⟩
      match validateAliasRules U candidate.aliasPairs with
      | .ok () => installRules candidate rest
      | .error _ => installRules rules rest

/-- The rules that are not derived from the connection. -/
def withoutDerived (rules : RuleSet) (owner : ConnectionKey) : RuleSet :=
  ⟨rules.aliases.filter fun rule => decide (rule.derivedFrom ≠ some owner)⟩

end Commits

/-- The wrapper and the inner layer, and where the calls are. -/
structure Shared (ι : Type) where
  /-- The inner layer holds the connection. -/
  held : Bool
  rules : RuleSet
  derivations : Table String Bool
  /-- The calls whose derivation has begun and has not been through its install. -/
  underway : ι → Bool
  /-- The calls that have removed the connection and have not been through the withdrawal. -/
  withdrawing : ι → Bool

/-- What a call does at one moment. -/
inductive Action
  | innerAdd
  | beginDerivation
  | scanInner
  | currentRules
  | installCandidates (candidates : List AliasRule)
  | dropGuard
  | innerRemove
  | withdrawDerivedRules
deriving DecidableEq

/-- What an action answers. -/
abbrev Answer : Action → Type
  | .innerAdd => Option Connection
  -- the addresses of the alias rows of the inner layer
  | .scanInner => Option (List Url)
  | .currentRules => RuleSet
  | .innerRemove => Bool
  | _ => Unit

/-- What an action does. -/
def Shared.exec {ι : Type} [DecidableEq ι] (U : UrlCrate) (owner : ConnectionKey) (t : ι) :
    (a : Action) → Answer a → Shared ι → Option (Shared ι)
  | .innerAdd, some _, s => some { s with held := true }
  | .innerAdd, none, s => some s
  | .beginDerivation, _, s =>
    some { s with
      derivations := s.derivations.insert (derivationKey owner) false
      underway := update s.underway t true }
  | .scanInner, _, s => some s
  | .currentRules, rules, s => if rules = s.rules then some s else none
  | .installCandidates candidates, _, s =>
    some { s with
      rules :=
        if s.derivations.get (derivationKey owner) = some true then s.rules else installRules U s.rules candidates
      underway := update s.underway t false }
  | .dropGuard, _, s =>
    some { s with
      derivations := s.derivations.erase (derivationKey owner)
      underway := update s.underway t false }
  | .innerRemove, true, s => some { s with held := false, withdrawing := update s.withdrawing t true }
  | .innerRemove, false, s => some s
  | .withdrawDerivedRules, _, s =>
    some { s with
      derivations := s.derivations.modify (derivationKey owner) fun _ => true
      rules := match validateAliasRules U (withoutDerived s.rules owner).aliasPairs with
        | .ok () => withoutDerived s.rules owner
        | .error _ => s.rules
      withdrawing := update s.withdrawing t false }

/-! ### The calls as programs -/

/-- What is left of a call. -/
abbrev Call := Prog Answer

/-- The guard goes out of scope. -/
def dropGuard : Call := .act .dropGuard fun _ => .ret

/-- `install_derived_rules`, for what the scan has found. -/
def installDerivedRules (owner : ConnectionKey) (connection : Connection) (owned : List Url) : Call :=
  match derivedRulesFromConnection connection owner with
  | [] => dropGuard
  | candidates => .act .currentRules fun rules =>
    match keptCandidates rules owned candidates with
    | [] => dropGuard
    | kept => .act (.installCandidates kept) fun _ => dropGuard

/-- The delegated arm of `add_connection`. -/
def addConnection (owner : ConnectionKey) : Call :=
  .act .innerAdd fun
    | none => .ret
    | some connection =>
      if connection.spellings.isSome then
        .act .beginDerivation fun _ => .act .scanInner fun
          | none => dropGuard
          | some owned => installDerivedRules owner connection owned
      else .ret

/-- The delegated arm of `remove_connection`. -/
def removeConnection : Call :=
  .act .innerRemove fun
    | false => .ret
    | true => .act .withdrawDerivedRules fun _ => .ret

/-- What may be called, any number of times and in any interleaving. -/
inductive Operation
  | addConnection
  | removeConnection

/-- The program of an operation. -/
def Operation.program (owner : ConnectionKey) : Operation → Call
  | .addConnection => Derivation.addConnection owner
  | .removeConnection => Derivation.removeConnection

/-- The wrapper and everybody that calls it. -/
abbrev System (ι : Type) := Threads ι (Shared ι) Answer

/-- One step of a system. -/
abbrev Step (ι : Type) := Interleave.Event ι Operation Answer

section Runs

variable {ι : Type} [DecidableEq ι] (U : UrlCrate) (owner : ConnectionKey)

/-- No call has begun, and rules are derived only from a connection that is held. -/
def System.Initial (s : System ι) : Prop :=
  ∃ shared : Shared ι, s = .idle shared ∧ shared.underway = (fun _ => false) ∧ shared.withdrawing = (fun _ => false) ∧
    ((∃ rule ∈ shared.rules.aliases, rule.derivedFrom = some owner) → shared.held = true)

def System.step (s : System ι) (l : Step ι) : Option (System ι) :=
  Threads.step (Shared.exec U owner) (Operation.program owner) s l

/-- The withdrawal's re-validation accepts. -/
def Revalidates (s : System ι) : Step ι → Prop
  | .act _ .withdrawDerivedRules _ => validateAliasRules U (withoutDerived s.shared.rules owner).aliasPairs = .ok ()
  | _ => True

/-- A derivation begins while the connection is held or a withdrawal is still to come, and no guard
is dropped while another derivation is still to install. -/
def Guarded (s : System ι) : Step ι → Prop
  | .act _ .beginDerivation _ => s.shared.held = true ∨ ∃ t, s.shared.withdrawing t = true
  | .act t .dropGuard _ => ∀ t', t' ≠ t → s.shared.underway t' = false
  | _ => True

/-- The runs whose steps all meet a condition. -/
abbrev RunsWhen (C : System ι → Step ι → Prop) (trace : List (Step ι)) (s : System ι) : Prop :=
  Run (System.Initial owner) (fun s l s' => s.step U owner l = some s' ∧ C s l) trace s

end Runs

/-! ### What the steps keep -/

section Steps

variable {ι : Type} [DecidableEq ι] {U : UrlCrate} {owner : ConnectionKey}

/-- The connection is held, or its rules are still to be withdrawn. -/
def Shared.Accounted (s : Shared ι) : Prop := s.held = true ∨ ∃ t, s.withdrawing t = true

/-- The invariant of the shared state. -/
structure Inv (owner : ConnectionKey) (s : Shared ι) : Prop where
  /-- Derived rules are accounted for. -/
  rules : (∃ rule ∈ s.rules.aliases, rule.derivedFrom = some owner) → s.Accounted
  /-- A derivation that is to install has its entry, and is accounted for unless that is marked. -/
  underway : ∀ t, s.underway t = true → ∃ marked, s.derivations.get (derivationKey owner) = some marked ∧
    (marked = true ∨ s.Accounted)

/-- What a call may rely on while the others act. -/
structure Own (t : ι) (s s' : Shared ι) : Prop where
  underway : s'.underway t = s.underway t
  withdrawing : s'.withdrawing t = s.withdrawing t

variable {a : Action}

theorem own_of_exec {t t' : ι} {r : Answer a} {s s' : Shared ι} (ht : t' ≠ t)
    (h : Shared.exec U owner t a r s = some s') : Own t' s s' := by
  cases a with
  | innerAdd =>
    cases r <;> cases h <;> exact ⟨rfl, rfl⟩
  | beginDerivation =>
    cases h
    exact ⟨update_of_ne ht _ _, rfl⟩
  | scanInner =>
    cases h
    exact ⟨rfl, rfl⟩
  | currentRules =>
    simp only [Shared.exec, Option.ite_none_right_eq_some, Option.some.injEq] at h
    exact h.2 ▸ ⟨rfl, rfl⟩
  | installCandidates candidates =>
    cases h
    exact ⟨update_of_ne ht _ _, rfl⟩
  | dropGuard =>
    cases h
    exact ⟨update_of_ne ht _ _, rfl⟩
  | innerRemove =>
    cases r
    · cases h
      exact ⟨rfl, rfl⟩
    · cases h
      exact ⟨rfl, update_of_ne ht _ _⟩
  | withdrawDerivedRules =>
    cases h
    exact ⟨rfl, update_of_ne ht _ _⟩

/-- What the runs in question take for granted of an action, and what `Guarded` asks of it. -/
def Allowed (U : UrlCrate) (owner : ConnectionKey) (t : ι) (a : Action) (s : Shared ι) : Prop :=
  match a with
  | .beginDerivation => s.Accounted
  | .dropGuard => ∀ t', t' ≠ t → s.underway t' = false
  | .withdrawDerivedRules => validateAliasRules U (withoutDerived s.rules owner).aliasPairs = .ok ()
  | _ => True

/-- Each action keeps the invariant; only a derivation that has begun may install. -/
theorem inv_of_exec {t : ι} {r : Answer a} {s s' : Shared ι} (h : Shared.exec U owner t a r s = some s')
    (hs : Inv owner s) (hallowed : Allowed U owner t a s)
    (hbegun : ∀ candidates, a = .installCandidates candidates → s.underway t = true) : Inv owner s' := by
  cases a with
  | innerAdd =>
    cases r with
    | none =>
      cases h
      exact hs
    | some connection =>
      cases h
      refine ⟨fun _ => Or.inl rfl, fun t' ht => ?_⟩
      obtain ⟨marked, hmarked, -⟩ := hs.underway t' ht
      exact ⟨marked, hmarked, Or.inr (Or.inl rfl)⟩
  | beginDerivation =>
    cases h
    exact ⟨fun _ => hallowed, fun _ _ => ⟨false, Table.get_insert_self _ _ _, Or.inr hallowed⟩⟩
  | scanInner =>
    cases h
    exact hs
  | currentRules =>
    simp only [Shared.exec, Option.ite_none_right_eq_some, Option.some.injEq] at h
    exact h.2 ▸ hs
  | installCandidates candidates =>
    cases h
    refine ⟨fun hrules => ?_, fun t' ht => ?_⟩
    · obtain ⟨marked, hmarked, haccounted⟩ := hs.underway t (hbegun candidates rfl)
      dsimp only at hrules
      split_ifs at hrules with htrue
      · exact hs.rules hrules
      · exact haccounted.resolve_left fun hm => htrue (hm ▸ hmarked)
    · have hne : t' ≠ t := by
        rintro rfl
        simp at ht
      dsimp only at ht
      rw [update_of_ne hne] at ht
      exact hs.underway t' ht
  | dropGuard =>
    cases h
    refine ⟨hs.rules, fun t' ht => ?_⟩
    by_cases hne : t' = t
    · subst hne
      simp at ht
    · dsimp only at ht
      rw [update_of_ne hne, hallowed t' hne] at ht
      cases ht
  | innerRemove =>
    cases r with
    | false =>
      cases h
      exact hs
    | true =>
      cases h
      have haccounted : ∃ t', update s.withdrawing t true t' = true := ⟨t, update_self _ _ _⟩
      refine ⟨fun _ => Or.inr haccounted, fun t' ht => ?_⟩
      obtain ⟨marked, hmarked, -⟩ := hs.underway t' ht
      exact ⟨marked, hmarked, Or.inr (Or.inr haccounted)⟩
  | withdrawDerivedRules =>
    cases h
    refine ⟨fun hrules => ?_, fun t' ht => ?_⟩
    · obtain ⟨rule, hrule, howner⟩ := hrules
      rw [show validateAliasRules U (withoutDerived s.rules owner).aliasPairs = .ok () from hallowed] at hrule
      have hnot := (List.mem_filter.mp hrule).2
      simp [howner] at hnot
    · obtain ⟨marked, hmarked, -⟩ := hs.underway t' ht
      exact ⟨true, by rw [Table.get_modify_self, hmarked]; rfl, Or.inl rfl⟩

variable (U owner ι) in
/-- How the calls act together. -/
def discipline : Discipline (Shared.exec (ι := ι) U owner) where
  allowed t a _ s := Allowed U owner t a s
  inv := Inv owner
  rely t := Own t
  quiet t s := s.underway t = false ∧ s.withdrawing t = false
  rely_refl _ _ := ⟨rfl, rfl⟩
  rely_trans h k := ⟨k.underway.trans h.underway, k.withdrawing.trans h.withdrawing⟩
  rely_of_exec ht h := own_of_exec ht h
  quiet_of_rely h hq := ⟨h.underway.trans hq.1, h.withdrawing.trans hq.2⟩

variable {t : ι} {s : Shared ι} {k : Call}

/-- An action goes on safely from what it leaves the call with. -/
theorem safe_act {k : Answer a → Call} (hbegun : ∀ candidates, a = .installCandidates candidates → s.underway t = true)
    (hk : ∀ s₁ r s₂, Own t s s₁ → Shared.exec U owner t a r s₁ = some s₂ → (discipline ι U owner).Safe t (k r) s₂) :
    (discipline ι U owner).Safe t (.act a k) s := by
  intro s₁ h₁ hinv r s₂ hallowed hexec
  exact ⟨inv_of_exec hexec hinv hallowed fun candidates ha => h₁.underway.trans (hbegun candidates ha),
    hk s₁ r s₂ h₁ hexec⟩

theorem safe_dropGuard (hw : s.withdrawing t = false) : (discipline ι U owner).Safe t dropGuard s := by
  refine safe_act (by simp) fun s₁ r s₂ h₁ hexec => ?_
  cases hexec
  exact Discipline.Safe.ret ⟨update_self _ _ _, h₁.withdrawing.trans hw⟩

theorem safe_installDerivedRules (connection : Connection) (owned : List Url) (hu : s.underway t = true)
    (hw : s.withdrawing t = false) : (discipline ι U owner).Safe t (installDerivedRules owner connection owned) s := by
  unfold installDerivedRules
  split
  · exact safe_dropGuard hw
  · refine safe_act (by simp) fun s₁ rules s₂ h₁ hexec => ?_
    obtain ⟨-, rfl⟩ := Option.of_guard hexec
    split
    · exact safe_dropGuard (h₁.withdrawing.trans hw)
    · refine safe_act (fun _ _ => h₁.underway.trans hu) fun s₂ r s₃ h₂ hexec => ?_
      cases hexec
      exact safe_dropGuard ((h₂.withdrawing.trans h₁.withdrawing).trans hw)

theorem safe_addConnection (hs : s.underway t = false ∧ s.withdrawing t = false) :
    (discipline ι U owner).Safe t (addConnection owner) s := by
  refine safe_act (by simp) fun s₁ r s₂ h₁ hexec => ?_
  have hquiet : s₂.underway t = false ∧ s₂.withdrawing t = false := by
    cases r <;> cases hexec <;> exact ⟨h₁.underway.trans hs.1, h₁.withdrawing.trans hs.2⟩
  cases r with
  | none => exact Discipline.Safe.ret hquiet
  | some connection =>
    dsimp only
    split_ifs
    · refine safe_act (by simp) fun s₃ _ s₄ h₃ hexec => ?_
      cases hexec
      have hw : s₃.withdrawing t = false := h₃.withdrawing.trans hquiet.2
      refine safe_act (by simp) fun s₅ found s₆ h₅ hexec => ?_
      cases hexec
      have hu : s₅.underway t = true := h₅.underway.trans (update_self _ _ _)
      cases found with
      | none => exact safe_dropGuard (h₅.withdrawing.trans hw)
      | some owned => exact safe_installDerivedRules connection owned hu (h₅.withdrawing.trans hw)
    · exact Discipline.Safe.ret hquiet

theorem safe_removeConnection (hs : s.underway t = false ∧ s.withdrawing t = false) :
    (discipline ι U owner).Safe t removeConnection s := by
  refine safe_act (by simp) fun s₁ r s₂ h₁ hexec => ?_
  cases r with
  | false =>
    cases hexec
    exact Discipline.Safe.ret ⟨h₁.underway.trans hs.1, h₁.withdrawing.trans hs.2⟩
  | true =>
    cases hexec
    refine safe_act (by simp) fun s₃ _ s₄ h₃ hexec => ?_
    cases hexec
    exact Discipline.Safe.ret ⟨(h₃.underway.trans h₁.underway).trans hs.1, update_self _ _ _⟩

end Steps

section Main

variable {ι : Type} [DecidableEq ι] {U : UrlCrate} {owner : ConnectionKey}

/-- In every run of guarded steps, derived rules are there only for a connection that is held,
whenever no call is in progress. -/
theorem derived_rules_owned {trace : List (Step ι)} {s : System ι}
    (h : RunsWhen U owner (fun s l => Revalidates U owner s l ∧ Guarded s l) trace s) (hidle : ∀ t, s.progs t = .ret)
    (hrule : ∃ rule ∈ s.shared.rules.aliases, rule.derivedFrom = some owner) : s.shared.held = true := by
  have hstart : ∀ s : System ι, s.Initial owner → (discipline ι U owner).Kept s := by
    rintro s ⟨shared, rfl, hunderway, hwithdrawing, hrules⟩
    refine ⟨⟨fun h => Or.inl (hrules h), fun t ht => ?_⟩, fun t => Discipline.Safe.ret ⟨?_, ?_⟩⟩
    · simp [Threads.idle, hunderway] at ht
    · simp [Threads.idle, hunderway]
    · simp [Threads.idle, hwithdrawing]
  have hallowed : Run (System.Initial owner) (fun s l s' => s.step U owner l = some s' ∧
        (discipline ι U owner).Allows s l)
      trace s := by
    refine Run.imp h fun s l s' _ h => ⟨h.1, ?_⟩
    cases l with
    | act t a r => cases a <;> first | exact h.2.1 | exact h.2.2
    | _ => trivial
  have hkept := (discipline ι U owner).run
    (fun t op s _ hquiet => by cases op; exacts [safe_addConnection hquiet, safe_removeConnection hquiet])
      hstart hallowed
  rcases hkept.inv.rules hrule with hheld | ⟨t, ht⟩
  · exact hheld
  · have hquiet := hkept.safe t
    rw [hidle t] at hquiet
    rw [hquiet.2] at ht
    cases ht

end Main

/-! ### A removal before the mark -/

/-- The connection `s3/b`. -/
def bucketKey : ConnectionKey := ⟨"s3", "b"⟩

/-- Its row advertises `s3://b/p` for `file://server/share`. -/
def bucketRow : Connection := ⟨some [bucketPart], some shareRoot⟩

/-- The rule that is derived from it. -/
def bucketRule : AliasRule := ⟨bucketPart, shareRoot, some bucketKey⟩

/-- A wrapper without rules, and nothing held. -/
def emptyShared : Shared Bool := ⟨false, ⟨[]⟩, .empty, fun _ => false, fun _ => false⟩

/-- The registration after its inner commit. -/
def derived : List (Step Bool) :=
  [.act true .beginDerivation (),
    .act true .scanInner (some []),
    .act true .currentRules ⟨[]⟩,
    .act true (.installCandidates [bucketRule]) (),
    .act true .dropGuard ()]

/-- The removal. -/
def removed : List (Step Bool) :=
  [.call false .removeConnection,
    .act false .innerRemove true,
    .act false .withdrawDerivedRules ()]

/-- Nothing is left of a call. -/
def ended : Call → Bool
  | .ret => true
  | _ => false

theorem eq_ret_of_ended {k : Call} (h : ended k = true) : k = .ret := by
  cases k with
  | ret => rfl
  | _ => cases h

/-- The conditions on a step, decided. -/
def checkedStep (guarded : Bool) (s : System Bool) (l : Step Bool) : Option (System Bool) :=
  let passes : Bool := match l with
    | .act _ .withdrawDerivedRules _ =>
      decide (validateAliasRules reference (withoutDerived s.shared.rules bucketKey).aliasPairs = .ok ())
    | .act _ .beginDerivation _ => !guarded || s.shared.held
    | .act t .dropGuard _ => !guarded || !s.shared.underway !t
    | _ => true
  if passes then s.step reference bucketKey l else none

theorem checkedStep_spec (guarded : Bool) (s : System Bool) (l : Step Bool) (s' : System Bool)
    (h : checkedStep guarded s l = some s') :
    s.step reference bucketKey l = some s' ∧ Revalidates reference bucketKey s l ∧ (guarded = true → Guarded s l) := by
  obtain ⟨hpasses, hstep⟩ := Option.ite_none_right_eq_some.mp h
  refine ⟨hstep, ?_, ?_⟩
  · cases l with
    | act t a r =>
      cases a with
      | withdrawDerivedRules =>
        have haccepts : validateAliasRules reference (withoutDerived s.shared.rules bucketKey).aliasPairs = .ok () :=
          of_decide_eq_true hpasses
        exact haccepts
      | _ => trivial
    | _ => trivial
  · rintro rfl
    cases l with
    | act t a r =>
      cases a with
      | beginDerivation => exact Or.inl hpasses
      | dropGuard =>
        intro t' ht
        have hother : t' = !t := by
          cases t <;> cases t' <;> simp_all
        rw [hother]
        simpa using hpasses
      | _ => trivial
    | _ => trivial

/-- A run to a state in which no call is in progress and the rule is there. -/
theorem exists_run (C : System Bool → Step Bool → Prop) (guarded held : Bool)
    (hC : ∀ s l, Revalidates reference bucketKey s l ∧ (guarded = true → Guarded s l) → C s l)
    (trace : List (Step Bool))
    (h : (trace.foldlM (checkedStep guarded) (.idle emptyShared)).any
      (fun s => ended (s.progs true) && ended (s.progs false) &&
      decide (s.shared.rules = ⟨[bucketRule]⟩) && s.shared.held == held) = true) :
    ∃ s, RunsWhen reference bucketKey C trace s ∧ (∀ t, s.progs t = .ret) ∧
      (∃ rule ∈ s.shared.rules.aliases, rule.derivedFrom = some bucketKey) ∧ s.shared.held = held := by
  have hinitial : System.Initial bucketKey (.idle emptyShared) := ⟨emptyShared, rfl, rfl, rfl, by simp [emptyShared]⟩
  have hstep : ∀ s l s', checkedStep guarded s l = some s' → s.step reference bucketKey l = some s' ∧ C s l :=
    fun s l s' h => (checkedStep_spec guarded s l s' h).imp_right (hC s l)
  obtain ⟨s, hrun, htest⟩ := Run.of_any hstep hinitial h
  simp only [Bool.and_eq_true, decide_eq_true_eq, beq_iff_eq] at htest
  obtain ⟨⟨⟨htrue, hfalse⟩, hrules⟩, hheld⟩ := htest
  refine ⟨s, hrun, fun t => ?_, ⟨bucketRule, by rw [hrules]; exact List.mem_singleton_self _, rfl⟩, hheld⟩
  cases t
  · exact eq_ret_of_ended hfalse
  · exact eq_ret_of_ended htrue

/-- A registration behind a removal. -/
theorem derived_rules_owned_added :
    ∃ s : System Bool, (∃ rule ∈ s.shared.rules.aliases, rule.derivedFrom = some bucketKey) ∧
    s.shared.held = true := by
  obtain ⟨s, hrun, hidle, hrule, -⟩ :=
      exists_run (fun s l => Revalidates reference bucketKey s l ∧ Guarded s l) true true
    (fun s l h => And.intro h.1 (h.2 rfl))
    (removed ++ [.call true .addConnection, .act true .innerAdd (some bucketRow)] ++ derived) (by decide +kernel)
  exact ⟨s, hrule, derived_rules_owned hrun hidle hrule⟩

/-- The removal finds no derivation to mark, and the registration goes on to install its rules. -/
theorem derived_rule_outlives : ¬ ∀ (trace : List (Step Bool)) (s : System Bool),
    RunsWhen reference bucketKey (Revalidates reference bucketKey) trace s → (∀ t, s.progs t = .ret) →
      (∃ rule ∈ s.shared.rules.aliases, rule.derivedFrom = some bucketKey) → s.shared.held = true := by
  intro h
  obtain ⟨s, hrun, hidle, hrule, hheld⟩ := exists_run (Revalidates reference bucketKey) false false (fun s l h => h.1)
    ([.call true .addConnection, .act true .innerAdd (some bucketRow)] ++ removed ++ derived) (by decide +kernel)
  rw [h _ s hrun hidle hrule] at hheld
  cases hheld

end OvStorage.Alias.Derivation
