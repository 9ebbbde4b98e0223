import OvStorage.Authz.Gate

/-!
# Admission of directory watches

`WatchLimitWrapper` of `watch_limit.rs`: generations of the wrapper, each with the limits of its
configuration, over one `SharedWatchBudget`.

## The model

The budget is read and written under its lock, one step at a time; a lease is dropped with the call
or the stream that holds it. A subtraction that would underflow has no result. `lossy` is
`String::from_utf8_lossy`, and any function will do.
-/

namespace OvStorage.Watch.Admission

open Authz Address Table

/-! ### The configuration -/

/-- `ErrorCode`, as far as the wrapper reports it. -/
inductive ErrorCode
  | InvalidArgument
  | ResourceExhausted
deriving DecidableEq

/-- `Error`. -/
structure Error where
  code : ErrorCode
  message : String
deriving DecidableEq

/-- `ConfigValue`. -/
inductive ConfigValue
  | String (value : String)
  | Int (value : ℤ)
  | Bool (value : Bool)
  | Toml (value : String)

abbrev LayerConfig := Table String ConfigValue

/-- `WatchLimits`. -/
structure WatchLimits where
  perPrincipal : ℕ
  total : ℕ
deriving DecidableEq

/-- `DEFAULT_MAX_WATCHES_PER_PRINCIPAL` and `DEFAULT_MAX_WATCHES_TOTAL`. -/
def WatchLimits.default : WatchLimits := ⟨256, 4096⟩

/-- `usize::MAX`. -/
def usizeMax : ℕ := 2 ^ 64 - 1

/-- `config_limit`. -/
def configLimit (config : LayerConfig) (key : String) (default : ℕ) : Except Error ℕ :=
  match config.get key with
  | none => .ok default
  | some (.Int value) =>
    if 0 < value then
      if value.toNat ≤ usizeMax then .ok value.toNat
      else .error ⟨.InvalidArgument, "layer config `" ++ key ++ "` exceeds the supported maximum"⟩
    else .error ⟨.InvalidArgument, "layer config `" ++ key ++ "` must be a positive integer"⟩
  | some _ => .error ⟨.InvalidArgument, "layer config `" ++ key ++ "` must be a positive integer"⟩

/-- `watch_limits_from`. -/
def watchLimitsFrom (config : LayerConfig) : Except Error WatchLimits := do
  let perPrincipal ← configLimit config "max_watches_per_principal" WatchLimits.default.perPrincipal
  let total ← configLimit config "max_watches_total" WatchLimits.default.total
  return ⟨perPrincipal, total⟩

/-! ### The budget -/

/-- `WatchBudget`. -/
structure WatchBudget where
  total : ℕ
  perPrincipal : Table String ℕ

/-- `WatchBudget::default`. -/
def WatchBudget.default : WatchBudget := ⟨0, .empty⟩

/-- `admit`, for the principal. -/
def WatchLimits.admit (limits : WatchLimits) (principal : String) (budget : WatchBudget) : Except Error WatchBudget :=
  let principalCount := (budget.perPrincipal.get principal).getD 0
  if limits.perPrincipal ≤ principalCount then
    .error ⟨.ResourceExhausted, "watch admission exhausted `max_watches_per_principal` (" ++
      toString limits.perPrincipal ++ ")"⟩
  else if limits.total ≤ budget.total then
    .error ⟨.ResourceExhausted, "watch admission exhausted `max_watches_total` (" ++ toString limits.total ++ ")"⟩
  else .ok ⟨budget.total + 1, budget.perPrincipal.insert principal (principalCount + 1)⟩

/-- `x - 1` on `usize`. -/
def checkedPred : ℕ → Option ℕ
  | 0 => none
  | n + 1 => some n

/-- `Drop for WatchLease`. -/
def WatchBudget.release (budget : WatchBudget) (principal : String) : Option WatchBudget := do
  let total ← checkedPred budget.total
  match budget.perPrincipal.get principal with
  | none => return ⟨total, budget.perPrincipal⟩
  | some count =>
    let count ← checkedPred count
    if count = 0 then return ⟨total, budget.perPrincipal.erase principal⟩
    else return ⟨total, budget.perPrincipal.insert principal count⟩

/-! ### The broker -/

/-- Who holds a lease: a call before and inside the inner layer, or the stream that it returned. -/
inductive Stage
  | admitted
  | opening
  | streaming
deriving DecidableEq

/-- `WatchLease`, in the hands of its call. -/
structure WatchLease where
  principal : String
  stage : Stage

/-- The wrappers of all generations, and what they share. -/
structure Broker where
  generations : List WatchLimits
  budget : WatchBudget
  leases : Table ℕ WatchLease
  /-- The calls that were admitted, and those that reached the inner layer. -/
  admitted : List ℕ
  called : List ℕ

def Broker.new : Broker := ⟨[], .default, .empty, [], []⟩

/-- One step of the broker. -/
inductive Label
  /-- A stack is built, with these settings for its wrapper. -/
  | reload (config : LayerConfig)
  /-- `watch_directory` of a generation, up to the admission. -/
  | watch (w generation : ℕ) (extensions : Extensions)
  /-- `watch_directory` of the inner layer. -/
  | call (w : ℕ)
  | opened (w : ℕ)
  /-- The inner layer fails. -/
  | failed (w : ℕ)
  /-- The future is dropped. -/
  | abandon (w : ℕ)
  /-- An event or an error of the stream. -/
  | item (w : ℕ) (error : Bool)
  | dropStream (w : ℕ)

namespace Broker

variable (lossy : Bytes → String) (b : Broker)

/-- The holder of a lease drops it. -/
def drop (w : ℕ) (stages : List Stage) : Option Broker := do
  let lease ← b.leases.get w
  if lease.stage ∉ stages then none
  else
    let budget ← b.budget.release lease.principal
    return { b with budget, leases := b.leases.erase w }

/-- The holder of a lease goes on. -/
def goOn (w : ℕ) (stage stage' : Stage) : Option Broker := do
  let lease ← b.leases.get w
  if lease.stage = stage then
    return { b with leases := b.leases.modify w fun lease => { lease with stage := stage' } }
  else none

/-- The admission, where there is such a generation and no such call yet. -/
def watch (w generation : ℕ) (extensions : Extensions) : Option Broker := do
  let limits ← b.generations[generation]?
  if w ∈ b.admitted then none
  else
    let principal := stampedPrincipal lossy extensions
    match WatchLimits.admit limits principal b.budget with
    | .error _ => return b
    | .ok budget =>
      return { b with budget, leases := b.leases.insert w ⟨principal, .admitted⟩, admitted := w :: b.admitted }

/-- One step. -/
def step : Label → Option Broker
  | .reload config =>
    match watchLimitsFrom config with
    | .ok limits => some { b with generations := b.generations ++ [limits] }
    | .error _ => some b
  | .watch w generation extensions => b.watch lossy w generation extensions
  | .call w => (b.goOn w .admitted .opening).map fun b' => { b' with called := w :: b'.called }
  | .opened w => b.goOn w .opening .streaming
  | .failed w => b.drop w [.opening]
  | .abandon w => b.drop w [.admitted, .opening]
  | .item w _ => b.goOn w .streaming .streaming
  | .dropStream w => b.drop w [.streaming]

/-- The live leases. -/
def live : ℕ := b.leases.weight fun _ => 1

/-- Those of a principal. -/
def held (principal : String) : ℕ := b.leases.weight fun lease => if lease.principal = principal then 1 else 0

end Broker

/-- Any interleaving of calls, streams and reloads. -/
abbrev Runs (lossy : Bytes → String) : List Label → Broker → Prop :=
  Run (· = Broker.new) fun b l b' => b.step lossy l = some b'

/-! ### The counters -/

/-- The budget counts so many leases, and so many of each principal. -/
def WatchBudget.Counts (budget : WatchBudget) (live : ℕ) (held : String → ℕ) : Prop :=
  budget.total = live ∧ ∀ principal, budget.perPrincipal.get principal = if held principal =
    0 then none else some (held principal)

/-- One more of the principal. -/
def oneMore (held : String → ℕ) (principal : String) : String → ℕ := fun p => (if principal = p then 1 else 0) + held p

namespace WatchBudget

variable {budget budget' : WatchBudget} {live : ℕ} {held : String → ℕ} {principal : String} {limits : WatchLimits}

theorem Counts.getD (h : budget.Counts live held) (principal : String) :
    (budget.perPrincipal.get principal).getD 0 = held principal := by
  rw [h.2 principal]
  split_ifs with hnone
  · exact hnone.symm
  · rfl

/-- An admission succeeds where there is room. -/
theorem Counts.admit_isOk (h : budget.Counts live held) :
    ( WatchLimits.admit limits principal budget).isOk = true ↔ held principal < limits.perPrincipal ∧
      live < limits.total := by
  unfold WatchLimits.admit
  dsimp only
  rw [h.getD, h.1]
  split_ifs with hprincipal htotal
  · exact ⟨nofun, fun hroom => absurd hroom.1 (Nat.not_lt.mpr hprincipal)⟩
  · exact ⟨nofun, fun hroom => absurd hroom.2 (Nat.not_lt.mpr htotal)⟩
  · exact ⟨fun _ => ⟨Nat.lt_of_not_le hprincipal, Nat.lt_of_not_le htotal⟩, fun _ => rfl⟩

theorem Counts.admit (h : budget.Counts live held) (hgrant : WatchLimits.admit limits principal budget = .ok budget') :
    budget'.Counts (1 + live) (oneMore held principal) := by
  unfold WatchLimits.admit at hgrant
  dsimp only at hgrant
  rw [h.getD] at hgrant
  split_ifs at hgrant
  cases hgrant
  refine ⟨by dsimp only; rw [h.1, Nat.add_comm], fun p => ?_⟩
  dsimp only
  unfold oneMore
  by_cases heq : principal = p
  · subst heq
    rw [get_insert_self, if_pos rfl, if_neg (by omega), Nat.add_comm]
  · rw [get_insert_of_ne _ _ (Ne.symm heq), if_neg heq, Nat.zero_add]
    exact h.2 p

/-- A lease that is counted can be dropped. -/
theorem Counts.release (h : budget.Counts (1 + live) (oneMore held principal)) :
    ∃ budget', budget.release principal = some budget' ∧ budget'.Counts live held := by
  have hcount : budget.perPrincipal.get principal = some (1 + held principal) := by
    have hget := h.2 principal
    rwa [oneMore, if_pos rfl, if_neg (by omega)] at hget
  have hothers : ∀ p, p ≠ principal → budget.perPrincipal.get p = if held p = 0 then none else some (held p) :=
      fun p hne => by
    have hget := h.2 p
    rwa [oneMore, if_neg (Ne.symm hne), Nat.zero_add] at hget
  have htotal : checkedPred budget.total = some live := by rw [h.1, Nat.add_comm]; rfl
  have hpred : checkedPred (1 + held principal) = some (held principal) := by rw [Nat.add_comm]; rfl
  unfold WatchBudget.release
  rw [htotal, hcount]
  simp only [Option.bind_eq_bind, Option.bind_some, hpred]
  split_ifs with hlast
  · refine ⟨_, rfl, rfl, fun p => ?_⟩
    by_cases heq : p = principal
    · rw [heq, get_erase_self, if_pos hlast]
    · rw [get_erase_of_ne _ heq, hothers p heq]
  · refine ⟨_, rfl, rfl, fun p => ?_⟩
    by_cases heq : p = principal
    · rw [heq, get_insert_self, if_neg hlast]
    · rw [get_insert_of_ne _ _ heq, hothers p heq]

end WatchBudget

/-! ### Every run -/

namespace Broker

variable {lossy : Bytes → String} {b b' : Broker}

/-- The counters are those of the leases, and only admitted calls went on. -/
structure Inv (b : Broker) : Prop where
  counts : b.budget.Counts b.live b.held
  leases : ∀ w lease, b.leases.get w = some lease → w ∈ b.admitted
  called : ∀ w ∈ b.called, w ∈ b.admitted

theorem inv_new : Broker.new.Inv := ⟨⟨rfl, fun _ => rfl⟩, nofun, nofun⟩

variable {lease : WatchLease} {w : ℕ}

/-- The leases without one of them. -/
theorem counts_of_get (h : b.budget.Counts b.live b.held) (hlease : b.leases.get w = some lease) :
    b.budget.Counts (1 + { b with leases := b.leases.erase w }.live)
      (oneMore { b with leases := b.leases.erase w }.held lease.principal) := by
  have hlive : 1 + { b with leases := b.leases.erase w }.live = b.live := by
    rw [Nat.add_comm]
    exact weight_erase (fun _ => 1) hlease
  have hheld : oneMore { b with leases := b.leases.erase w }.held lease.principal = b.held := by
    funext p
    rw [oneMore, Nat.add_comm]
    exact weight_erase (fun lease => if lease.principal = p then 1 else 0) hlease
  rw [hlive, hheld]
  exact h

/-- No subtraction underflows. -/
theorem Inv.release (h : b.Inv) (hlease : b.leases.get w = some lease) :
    ∃ budget, b.budget.release lease.principal = some budget ∧ { b with budget, leases := b.leases.erase w }.Inv := by
  obtain ⟨budget, hrelease, hcounts⟩ := (counts_of_get h.counts hlease).release
  refine ⟨budget, hrelease, hcounts, fun w' lease' hget => ?_, h.called⟩
  by_cases heq : w' = w
  · rw [heq] at hget
    dsimp only at hget
    rw [get_erase_self] at hget
    cases hget
  · exact h.leases w' lease' (by rwa [← get_erase_of_ne _ heq])

theorem inv_drop (h : b.Inv) {stages : List Stage} (hdrop : b.drop w stages = some b') : b'.Inv := by
  obtain ⟨lease, hlease, hdrop⟩ := Option.bind_eq_some_iff.mp hdrop
  split_ifs at hdrop
  obtain ⟨budget, hrelease, hinv⟩ := h.release hlease
  rw [hrelease] at hdrop
  cases hdrop
  exact hinv

/-- Going on changes no count. -/
theorem inv_goOn (h : b.Inv) {stage stage' : Stage} (hgo : b.goOn w stage stage' = some b') :
    b'.Inv ∧ w ∈ b'.admitted ∧ b'.called = b.called := by
  obtain ⟨lease, hlease, hgo⟩ := Option.bind_eq_some_iff.mp hgo
  split_ifs at hgo
  cases hgo
  refine ⟨⟨?_, fun w' lease' hget => ?_, h.called⟩, h.leases w lease hlease, rfl⟩
  · have hlive : { b with leases := b.leases.modify w fun lease => { lease with stage := stage' } }.live = b.live :=
      weight_modify (fun _ => 1) b.leases w fun _ => rfl
    have hheld : { b with leases := b.leases.modify w fun lease => { lease with stage := stage' } }.held = b.held :=
      funext fun p => weight_modify
        (fun lease : WatchLease => if lease.principal = p then 1 else 0) b.leases w fun _ => rfl
    rw [hlive, hheld]
    exact h.counts
  · by_cases heq : w' = w
    · exact heq ▸ h.leases w lease hlease
    · dsimp only at hget
      rw [get_modify_of_ne _ _ heq] at hget
      exact h.leases w' lease' hget

theorem inv_watch (h : b.Inv) {generation : ℕ} {extensions : Extensions}
    (hwatch : b.watch lossy w generation extensions = some b') :
    b'.Inv := by
  obtain ⟨limits, -, hwatch⟩ := Option.bind_eq_some_iff.mp hwatch
  split_ifs at hwatch with hnew
  dsimp only at hwatch
  split at hwatch
  · cases hwatch
    exact h
  next budget hgrant =>
    cases hwatch
    have hfresh : b.leases.get w = none :=
      Option.eq_none_iff_forall_ne_some.mpr fun lease hlease => hnew (h.leases w lease hlease)
    refine ⟨?_, fun w' lease' hget => ?_, fun w' hw' => List.mem_cons_of_mem _ (h.called w' hw')⟩
    · have hlive : { b with leases := b.leases.erase w }.live = b.live := by rw [erase_of_get_none hfresh]
      have hheld : { b with leases := b.leases.erase w }.held = b.held := by rw [erase_of_get_none hfresh]
      have hcounts := WatchBudget.Counts.admit h.counts hgrant
      rw [← hlive, ← hheld] at hcounts
      exact hcounts
    · by_cases heq : w' = w
      · exact heq ▸ List.mem_cons_self
      · dsimp only at hget
        rw [get_insert_of_ne _ _ heq] at hget
        exact List.mem_cons_of_mem _ (h.leases w' lease' hget)

theorem inv_step (h : b.Inv) {l : Label} (hl : b.step lossy l = some b') : b'.Inv := by
  cases l with
  | reload config =>
    simp only [step] at hl
    split at hl <;> cases hl
    · exact ⟨h.counts, h.leases, h.called⟩
    · exact h
  | watch w generation extensions => exact inv_watch h hl
  | call w =>
    obtain ⟨b₁, hgo, rfl⟩ := Option.map_eq_some_iff.mp hl
    obtain ⟨hinv, hgrantted, -⟩ := inv_goOn h hgo
    refine ⟨hinv.counts, hinv.leases, fun w' hw' => ?_⟩
    rcases List.mem_cons.mp hw' with rfl | hw'
    · exact hgrantted
    · exact hinv.called w' hw'
  | opened w => exact (inv_goOn h hl).1
  | failed w => exact inv_drop h hl
  | abandon w => exact inv_drop h hl
  | item w error => exact (inv_goOn h hl).1
  | dropStream w => exact inv_drop h hl

theorem inv_of_runs {trace : List Label} (h : Runs lossy trace b) : b.Inv :=
  h.stateInvariant (I := Inv) (fun b (hb : b = Broker.new) => hb ▸ inv_new) fun _ _ _ h hl => inv_step h hl

end Broker

/-- The total is the number of live leases, each principal with one has its own number and no other key is held, a lease
that is live can be released, a call of a generation is admitted where both its limits leave room, and only admitted
calls reached the inner layer. -/
theorem admission_exact (lossy : Bytes → String) {trace : List Label} {b : Broker} (h : Runs lossy trace b) :
    b.budget.total = b.live ∧
      (∀ principal, b.budget.perPrincipal.get principal = if b.held principal =
        0 then none else some (b.held principal)) ∧
      (∀ w lease, b.leases.get w = some lease → (b.budget.release lease.principal).isSome = true) ∧
      (∀ w generation extensions limits, b.generations[generation]? = some limits → w ∉ b.admitted →
        ∃ b', b.step lossy (.watch w generation extensions) = some b' ∧
          (w ∈ b'.admitted ↔ b.held (stampedPrincipal lossy extensions) < limits.perPrincipal ∧
            b.live < limits.total)) ∧
      ∀ w ∈ b.called, w ∈ b.admitted := by
  have hinv := Broker.inv_of_runs h
  refine ⟨hinv.counts.1, hinv.counts.2, fun w lease hlease => ?_,
    fun w generation extensions limits hlimits hnew => ?_, hinv.called⟩
  · obtain ⟨budget, hrelease, -⟩ := hinv.release hlease
    rw [hrelease]
    rfl
  · have hroom : ( WatchLimits.admit limits (stampedPrincipal lossy extensions) b.budget).isOk = true ↔
        b.held (stampedPrincipal lossy extensions) < limits.perPrincipal ∧ b.live < limits.total :=
          hinv.counts.admit_isOk
    simp only [Broker.step, Broker.watch, hlimits, Option.bind_eq_bind, Option.bind_some, if_neg hnew]
    cases hgrant : WatchLimits.admit limits (stampedPrincipal lossy extensions) b.budget with
    | error e =>
      rw [hgrant] at hroom
      exact ⟨b, rfl, fun hw => absurd hw hnew, fun h => absurd (hroom.mpr h) nofun⟩
    | ok budget =>
      rw [hgrant] at hroom
      exact ⟨_, rfl, fun _ => hroom.mp rfl, fun _ => List.mem_cons_self⟩

/-- Two watches of a principal that may have two: one goes on, and the other has not reached the inner layer. -/
def watchesTwice : List Label :=
  [.reload (Table.empty.insert "max_watches_per_principal" (.Int 2)), .watch 0 0 .empty, .call 0, .opened 0,
    .watch 1 0 .empty]

/-- A third one is refused. -/
theorem admission_exact_twice : ∃ b, Runs (fun _ => "") watchesTwice b ∧ b.budget.total = 2 ∧
    ∃ b', b.step (fun _ => "") (.watch 2 0 .empty) = some b' ∧ 2 ∉ b'.admitted := by
  have hexec : (watchesTwice.foldlM (Broker.step fun _ => "") Broker.new).any (fun b => b.live == 2 &&
      b.held (stampedPrincipal (fun _ => "") .empty) == 2 && b.generations == [⟨2, 4096⟩] &&
        b.admitted == [1, 0]) = true := by
    decide +kernel
  obtain ⟨b, hb, hends⟩ := @Run.of_any _ _ (· = Broker.new) _ _ (fun _ _ _ hl => hl) _ rfl _ _ hexec
  simp only [Bool.and_eq_true, beq_iff_eq] at hends
  obtain ⟨⟨⟨hlive, hheld⟩, hgenerations⟩, hadmitted⟩ := hends
  obtain ⟨htotal, -, -, hadmits, -⟩ := admission_exact _ hb
  obtain ⟨b', hstep, hiff⟩ := hadmits 2 0 .empty ⟨2, 4096⟩ (by rw [hgenerations]; rfl) (by simp [hadmitted])
  refine ⟨b, hb, htotal.trans hlive, b', hstep, fun hmem => ?_⟩
  exact absurd hheld (Nat.ne_of_lt (hiff.mp hmem).1)

end OvStorage.Watch.Admission
