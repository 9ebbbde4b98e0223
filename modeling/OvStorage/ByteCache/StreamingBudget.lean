import Mathlib.Algebra.BigOperators.Group.Multiset.Basic
import Mathlib.Algebra.Order.BigOperators.Group.Multiset
import Mathlib.Algebra.Order.Group.Nat
import OvStorage.Lib.Transition
import OvStorage.Lib.Word64

/-!
# The budget of the streaming fills

`StreamingBudget` and `StreamingReservation` of `ovstorage-cache/src/byte.rs`: two counters that every fill adds to
before it looks whether it may, and takes back from if not. A call is cut at each of its atomic operations, so the
counters hold at any time what other calls have yet to take back.

## What is proved

* `budget_kept`: what has been admitted is within the budget in every run in which the counters do not run over.
* `budget_overrun`: where the byte counter runs over, more is admitted than the budget has, and a release leaves it
  at what no fill holds.
-/

namespace OvStorage.ByteCache

/-- The limits of `StreamingBudget`. -/
structure StreamingBudget where
  maxFills : ℕ
  maxBytes : ℕ

/-- A fill: `try_acquire` behind its `fetch_add`, a `StreamingReservation`, one with a `charge` behind its `fetch_add`,
and one that is dropped and has yet to give back its slot. `admitted` is what its charges have been granted so far. -/
inductive Fill
  | acquiring (prev : ℕ)
  | live (bytesCharged admitted : ℕ)
  | charging (bytesCharged admitted delta prev : ℕ)
  | released
deriving DecidableEq

/-- The two counters, and the fills of all threads. -/
structure BudgetState where
  inFlight : ℕ
  reservedBytes : ℕ
  fills : Multiset Fill

/-- `StreamingBudget::new`. -/
def BudgetState.new : BudgetState := ⟨0, 0, 0⟩

namespace Fill

/-- What it has added to the byte counter and not taken back. -/
def bytes : Fill → ℕ
  | .acquiring _ | .released => 0
  | .live _ admitted => admitted
  | .charging _ admitted delta _ => admitted + delta

/-- The bytes it holds by charges that are admitted, one whose check is to pass included. -/
def heldBytes (b : StreamingBudget) : Fill → ℕ
  | .acquiring _ | .released => 0
  | .live _ admitted => admitted
  | .charging _ admitted delta prev => admitted + if Word64.saturatingAdd prev delta > b.maxBytes then 0 else delta

/-- The slot it holds, if its check has passed or is to pass. -/
def heldSlots (b : StreamingBudget) : Fill → ℕ
  | .acquiring prev => if prev ≥ b.maxFills then 0 else 1
  | .live _ _ | .charging _ _ _ _ | .released => 1

/-- Its reservation has recorded what it was granted. -/
def Exact : Fill → Prop
  | .acquiring _ | .released => True
  | .live bytesCharged admitted | .charging bytesCharged admitted _ _ => bytesCharged = admitted

/-- What its next `fetch_sub` takes from the byte counter. -/
def returns : Fill → ℕ
  | .acquiring _ | .released => 0
  | .live bytesCharged _ => bytesCharged
  | .charging _ _ delta _ => delta

/-- A call of `try_acquire` that has yet to look. -/
def Acquires : Fill → Prop
  | .acquiring _ => True
  | _ => False

theorem heldBytes_le (b : StreamingBudget) (f : Fill) : f.heldBytes b ≤ f.bytes := by
  cases f with
  | charging c a d prev =>
    simp only [heldBytes, bytes]
    split <;> omega
  | acquiring prev => exact le_rfl
  | live c a => exact le_rfl
  | released => exact le_rfl

theorem heldSlots_le (b : StreamingBudget) (f : Fill) : f.heldSlots b ≤ 1 := by
  cases f with
  | acquiring prev =>
    simp only [heldSlots]
    split <;> omega
  | charging c a d prev => exact le_rfl
  | live c a => exact le_rfl
  | released => exact le_rfl

end Fill

/-- The atomic operations. -/
inductive BudgetLabel
  | acquire
  | refuse
  | grant
  | charge (delta : ℕ)
  | undo
  | charged
  | releaseBytes
  | releaseSlot

/-- One step of some fill. -/
inductive BudgetStep (b : StreamingBudget) : BudgetState → BudgetLabel → BudgetState → Prop
  | acquire (s : BudgetState) :
    BudgetStep b s .acquire
      { s with inFlight := Word64.wrappingAdd s.inFlight 1, fills := .acquiring s.inFlight ::ₘ s.fills }
  | refuse (s : BudgetState) (prev : ℕ) (rest : Multiset Fill) (at_ : s.fills = .acquiring prev ::ₘ rest)
      (full : prev ≥ b.maxFills) :
    BudgetStep b s .refuse { s with inFlight := Word64.wrappingSub s.inFlight 1, fills := rest }
  | grant (s : BudgetState) (prev : ℕ) (rest : Multiset Fill) (at_ : s.fills = .acquiring prev ::ₘ rest)
      (room : ¬ prev ≥ b.maxFills) :
    BudgetStep b s .grant { s with fills := .live 0 0 ::ₘ rest }
  | charge (s : BudgetState) (c a delta : ℕ) (rest : Multiset Fill) (at_ : s.fills = .live c a ::ₘ rest)
      (word : delta < Word64.size) :
    BudgetStep b s (.charge delta)
      { s with
        reservedBytes := Word64.wrappingAdd s.reservedBytes delta
        fills := .charging c a delta s.reservedBytes ::ₘ rest }
  | undo (s : BudgetState) (c a delta prev : ℕ) (rest : Multiset Fill)
    (at_ : s.fills = .charging c a delta prev ::ₘ rest)
      (hover : Word64.saturatingAdd prev delta > b.maxBytes) :
    BudgetStep b s .undo
      { s with reservedBytes := Word64.wrappingSub s.reservedBytes delta, fills := .live c a ::ₘ rest }
  | charged (s : BudgetState) (c a delta prev : ℕ) (rest : Multiset Fill)
    (at_ : s.fills = .charging c a delta prev ::ₘ rest)
      (within : ¬ Word64.saturatingAdd prev delta > b.maxBytes) :
    BudgetStep b s .charged { s with fills := .live (Word64.saturatingAdd c delta) (a + delta) ::ₘ rest }
  | releaseBytes (s : BudgetState) (c a : ℕ) (rest : Multiset Fill) (at_ : s.fills = .live c a ::ₘ rest) :
    BudgetStep b s .releaseBytes
      { s with reservedBytes := Word64.wrappingSub s.reservedBytes c, fills := .released ::ₘ rest }
  | releaseSlot (s : BudgetState) (rest : Multiset Fill) (at_ : s.fills = .released ::ₘ rest) :
    BudgetStep b s .releaseSlot { s with inFlight := Word64.wrappingSub s.inFlight 1, fills := rest }

/-- The fills are few enough, and what they have added little enough, for a word each. -/
def BudgetState.Fits (s : BudgetState) : Prop := s.fills.card < Word64.size ∧ (s.fills.map Fill.bytes).sum < Word64.size

/-- The runs of one budget. -/
abbrev BudgetRun (b : StreamingBudget) : List BudgetLabel → BudgetState → Prop :=
  Run (· = BudgetState.new) (BudgetStep b)

/-- The runs in which no counter runs over. -/
abbrev FittingRun (b : StreamingBudget) : List BudgetLabel → BudgetState → Prop :=
  Run (· = BudgetState.new) fun s l s' => BudgetStep b s l s' ∧ s'.Fits

/-! ### What every run keeps -/

/-- The counters against the fills, and the fills against the limits. -/
structure Kept (b : StreamingBudget) (s : BudgetState) : Prop where
  fits : s.Fits
  inFlight : s.inFlight = s.fills.card
  reservedBytes : s.reservedBytes = (s.fills.map Fill.bytes).sum
  exact_ : ∀ f ∈ s.fills, f.Exact
  slots : (s.fills.map (Fill.heldSlots b)).sum ≤ b.maxFills
  bytes : (s.fills.map (Fill.heldBytes b)).sum ≤ b.maxBytes

theorem sum_heldBytes_le (b : StreamingBudget) (fills : Multiset Fill) :
    (fills.map (Fill.heldBytes b)).sum ≤ (fills.map Fill.bytes).sum :=
  Multiset.sum_map_le_sum_map _ _ fun f _ => f.heldBytes_le b

theorem sum_heldSlots_le (b : StreamingBudget) (fills : Multiset Fill) :
    (fills.map (Fill.heldSlots b)).sum ≤ fills.card := by
  have hle := Multiset.sum_map_le_sum_map (s := fills) (Fill.heldSlots b) (fun _ => 1) fun f _ => f.heldSlots_le b
  simpa using hle

theorem Kept.new (b : StreamingBudget) : Kept b BudgetState.new where
  fits := ⟨by decide, by decide⟩
  inFlight := rfl
  reservedBytes := rfl
  exact_ := by simp [BudgetState.new]
  slots := by simp [BudgetState.new]
  bytes := by simp [BudgetState.new]

variable {b : StreamingBudget} {s : BudgetState} {rest : Multiset Fill} {f : Fill}

/-- The counters with one of the fills by itself. -/
theorem Kept.split (h : Kept b s) (at_ : s.fills = f ::ₘ rest) :
    (rest.card + 1 < Word64.size ∧ f.bytes + (rest.map Fill.bytes).sum < Word64.size) ∧ s.inFlight = rest.card + 1 ∧
      s.reservedBytes = f.bytes + (rest.map Fill.bytes).sum ∧ (f.Exact ∧ ∀ f ∈ rest, f.Exact) ∧
      f.heldSlots b + (rest.map (Fill.heldSlots b)).sum ≤ b.maxFills ∧
      f.heldBytes b + (rest.map (Fill.heldBytes b)).sum ≤ b.maxBytes := by
  obtain ⟨⟨hcard, hsum⟩, hinFlight, hreserved, hexact, hslots, hbytes⟩ := h
  rw [at_] at hcard hsum hinFlight hreserved hexact hslots hbytes
  rw [Multiset.map_cons, Multiset.sum_cons] at hsum hreserved hslots hbytes
  rw [Multiset.card_cons] at hcard hinFlight
  rw [Multiset.forall_mem_cons] at hexact
  exact ⟨⟨hcard, hsum⟩, hinFlight, hreserved, hexact, hslots, hbytes⟩

/-- One fill goes on. -/
theorem Kept.join (at_ : s.fills = f ::ₘ rest) (hfits : s.Fits) (hinFlight : s.inFlight = rest.card + 1)
    (hreserved : s.reservedBytes = f.bytes + (rest.map Fill.bytes).sum) (hexact : f.Exact)
    (hexacts : ∀ f ∈ rest, f.Exact) (hslots : f.heldSlots b + (rest.map (Fill.heldSlots b)).sum ≤ b.maxFills)
    (hbytes : f.heldBytes b + (rest.map (Fill.heldBytes b)).sum ≤ b.maxBytes) : Kept b s where
  fits := hfits
  inFlight := by rw [at_, Multiset.card_cons, hinFlight]
  reservedBytes := by rw [at_, Multiset.map_cons, Multiset.sum_cons, hreserved]
  exact_ := by
    rw [at_]
    exact Multiset.forall_mem_cons.mpr ⟨hexact, hexacts⟩
  slots := by rwa [at_, Multiset.map_cons, Multiset.sum_cons]
  bytes := by rwa [at_, Multiset.map_cons, Multiset.sum_cons]

/-- Each step that leaves the counters within their words. -/
theorem Kept.step {s' : BudgetState} {l : BudgetLabel} (h : Kept b s) (hs : BudgetStep b s l s')
    (hfits : s'.Fits) : Kept b s' := by
  have hcard' := hfits.1
  have hsum' := hfits.2
  cases hs with
  | acquire =>
    obtain ⟨⟨hcard, hsum⟩, hinFlight, hreserved, hexact, hslots, hbytes⟩ := h
    have hlook := sum_heldSlots_le b s.fills
    rw [Multiset.card_cons] at hcard'
    refine .join rfl hfits ?_ ?_ trivial hexact ?_ ?_
    · rw [← hinFlight] at hcard' ⊢
      exact Word64.wrappingAdd_of_lt hcard'
    · simpa [Fill.bytes] using hreserved
    · -- the slots that are held are among those that have been counted
      simp only [Fill.heldSlots]
      split <;> omega
    · simpa [Fill.heldBytes] using hbytes
  | refuse prev rest at_ full =>
    obtain ⟨hfit, hinFlight, hreserved, hexact, hslots, hbytes⟩ := h.split at_
    refine ⟨hfits, ?_, ?_, hexact.2, ?_, ?_⟩
    · rw [hinFlight, Word64.wrappingSub_of_le (by omega) hfit.1, Nat.add_sub_cancel]
    · simpa [Fill.bytes] using hreserved
    · exact (Nat.le_add_left _ _).trans hslots
    · exact (Nat.le_add_left _ _).trans hbytes
  | grant prev rest at_ room =>
    obtain ⟨hfit, hinFlight, hreserved, hexact, hslots, hbytes⟩ := h.split at_
    refine .join rfl hfits hinFlight hreserved rfl hexact.2 ?_ hbytes
    rwa [Fill.heldSlots, if_neg room] at hslots
  | charge c a delta rest at_ word =>
    obtain ⟨hfit, hinFlight, hreserved, hexact, hslots, hbytes⟩ := h.split at_
    have hheld := sum_heldBytes_le b rest
    simp only [Multiset.map_cons, Multiset.sum_cons, Fill.bytes] at hsum' hreserved
    have hadd : s.reservedBytes + delta < Word64.size := by omega
    refine .join rfl hfits hinFlight ?_ hexact.1 hexact.2 hslots ?_
    · simp only [Word64.wrappingAdd_of_lt hadd, Fill.bytes]
      omega
    · -- what is held is among what the counter had before
      simp only [Fill.heldBytes, Word64.saturatingAdd_of_lt hadd] at hbytes ⊢
      split <;> omega
  | undo c a delta prev rest at_ hover =>
    obtain ⟨hfit, hinFlight, hreserved, hexact, hslots, hbytes⟩ := h.split at_
    simp only [Fill.bytes] at hfit hreserved
    refine .join rfl hfits hinFlight ?_ hexact.1 hexact.2 hslots ?_
    · simp only [Fill.bytes]
      rw [Word64.wrappingSub_of_le (by omega) (by omega)]
      omega
    · simpa [Fill.heldBytes, hover] using hbytes
  | charged c a delta prev rest at_ within =>
    obtain ⟨hfit, hinFlight, hreserved, hexact, hslots, hbytes⟩ := h.split at_
    have hcharged : c = a := hexact.1
    simp only [Fill.bytes] at hfit
    refine .join rfl hfits hinFlight hreserved ?_ hexact.2 hslots ?_
    · simp only [Fill.Exact]
      rw [Word64.saturatingAdd_of_lt (by omega), hcharged]
    · simpa [Fill.heldBytes, within] using hbytes
  | releaseBytes c a rest at_ =>
    obtain ⟨hfit, hinFlight, hreserved, hexact, hslots, hbytes⟩ := h.split at_
    have hcharged : c = a := hexact.1
    simp only [Fill.bytes] at hfit hreserved
    refine .join rfl hfits hinFlight ?_ trivial hexact.2 hslots ?_
    · simp only [Fill.bytes]
      rw [Word64.wrappingSub_of_le (by omega) (by omega)]
      omega
    · simp only [Fill.heldBytes] at hbytes ⊢
      omega
  | releaseSlot rest at_ =>
    obtain ⟨hfit, hinFlight, hreserved, hexact, hslots, hbytes⟩ := h.split at_
    refine ⟨hfits, ?_, ?_, hexact.2, ?_, ?_⟩
    · rw [hinFlight, Word64.wrappingSub_of_le (by omega) hfit.1, Nat.add_sub_cancel]
    · simpa [Fill.bytes] using hreserved
    · exact (Nat.le_add_left _ _).trans hslots
    · exact (Nat.le_add_left _ _).trans hbytes

variable {trace : List BudgetLabel}

/-- Every state of a run that fits. -/
theorem FittingRun.kept (h : FittingRun b trace s) : Kept b s := by
  refine h.stateInvariant (I := Kept b) ?_ fun _ _ _ inv hs => inv.step hs.1 hs.2
  rintro s rfl
  exact Kept.new b

theorem Fill.returns_le (h : f.Exact) : f.returns ≤ f.bytes := by
  cases f with
  | acquiring prev => exact le_rfl
  | released => exact le_rfl
  | live c a => exact le_of_eq h
  | charging c a delta prev => exact Nat.le_add_left delta a

/-- Without a reservation nothing has been added to the byte counter. -/
theorem sum_bytes_of_acquires {fills : Multiset Fill} (h : ∀ f ∈ fills, f.Acquires) :
    (fills.map Fill.bytes).sum = 0 := by
  rw [Multiset.sum_eq_zero_iff]
  intro n hn
  obtain ⟨f, hf, rfl⟩ := Multiset.mem_map.mp hn
  cases f with
  | acquiring prev => rfl
  | live c a => exact (h _ hf).elim
  | charging c a delta prev => exact (h _ hf).elim
  | released => exact (h _ hf).elim

/-- In every run in which the counters do not run over: the bytes that are held by admitted charges are within
`max_bytes` and the slots that are held within `max_fills`; a reservation gives back what its charges were granted, and
no `fetch_sub` takes more than there is; without a reservation no bytes are counted, and as many fills as calls of
`try_acquire` that have yet to look. -/
theorem budget_kept {b : StreamingBudget} {trace : List BudgetLabel} {s : BudgetState} (h : FittingRun b trace s) :
    (s.fills.map (Fill.heldBytes b)).sum ≤ b.maxBytes ∧ (s.fills.map (Fill.heldSlots b)).sum ≤ b.maxFills ∧
      (∀ f ∈ s.fills, f.Exact ∧ f.returns ≤ s.reservedBytes ∧ 1 ≤ s.inFlight) ∧
      ((∀ f ∈ s.fills, f.Acquires) → s.reservedBytes = 0 ∧ s.inFlight = s.fills.card) ∧
      (s.fills = 0 → s.reservedBytes = 0 ∧ s.inFlight = 0) := by
  have hkept := h.kept
  refine ⟨hkept.bytes, hkept.slots, fun f hf => ⟨hkept.exact_ f hf, ?_, ?_⟩,
    fun hacquires => ⟨?_, hkept.inFlight⟩, fun hnone => ?_⟩
  · obtain ⟨rest, at_⟩ := Multiset.exists_cons_of_mem hf
    obtain ⟨-, -, hreserved, -⟩ := hkept.split at_
    have hreturns := Fill.returns_le (hkept.exact_ f hf)
    omega
  · obtain ⟨rest, at_⟩ := Multiset.exists_cons_of_mem hf
    obtain ⟨-, hinFlight, -⟩ := hkept.split at_
    omega
  · rw [hkept.reservedBytes, sum_bytes_of_acquires hacquires]
  · rw [hkept.reservedBytes, hkept.inFlight, hnone]
    exact ⟨rfl, rfl⟩

/-- A fill that takes three bytes of a budget of four. -/
theorem budget_kept_one : (({.live 3 3} : Multiset Fill).map (Fill.heldBytes ⟨1, 4⟩)).sum ≤ 4 := by
  have hfits : ∀ s : BudgetState, s.fills.card ≤ 1 → (s.fills.map Fill.bytes).sum ≤ 3 → s.Fits :=
    fun s hcard hsum => ⟨Nat.lt_of_le_of_lt hcard (by decide), Nat.lt_of_le_of_lt hsum (by decide)⟩
  have h₀ : FittingRun ⟨1, 4⟩ [] _ := .start rfl
  have h₁ := h₀.step ⟨.acquire _, hfits _ (by decide) (by decide)⟩
  have h₂ := h₁.step ⟨.grant _ 0 0 rfl (by decide), hfits _ (by decide) (by decide)⟩
  have h₃ := h₂.step ⟨.charge _ 0 0 3 0 rfl (by decide), hfits _ (by decide) (by decide)⟩
  have h₄ := h₃.step ⟨.charged _ 0 0 3 0 0 rfl (by decide), hfits _ (by decide) (by decide)⟩
  exact (budget_kept h₄).1

/-! ### A counter that runs over -/

/-- One fill of a budget that refuses nothing takes four chunks of `2 ^ 62` bytes. -/
def overrun : List BudgetLabel :=
  [.acquire, .grant, .charge (2 ^ 62), .charged, .charge (2 ^ 62), .charged, .charge (2 ^ 62), .charged,
    .charge (2 ^ 62), .charged]

/-- A charge that is admitted, with nothing between its steps. -/
theorem charge_admitted {n r r' c c' a : ℕ} (h : BudgetRun b trace ⟨n, r, {.live c a}⟩) {delta : ℕ}
    (word : delta < Word64.size) (within : ¬ Word64.saturatingAdd r delta > b.maxBytes)
    (hr : Word64.wrappingAdd r delta = r') (hc : Word64.saturatingAdd c delta = c') :
    BudgetRun b (trace ++ [.charge delta] ++ [.charged]) ⟨n, r', {.live c' (a + delta)}⟩ := by
  subst hr hc
  exact (h.step (.charge _ c a delta 0 rfl word)).step (.charged _ c a delta r 0 rfl within)

/-- The run of `overrun`: what is charged runs over. -/
theorem overrun_run :
    BudgetRun ⟨1, Word64.max⟩ overrun ⟨1, 0, {.live Word64.max (0 + 2 ^ 62 + 2 ^ 62 + 2 ^ 62 + 2 ^ 62)}⟩ := by
  have hlive : BudgetRun ⟨1, Word64.max⟩ [.acquire, .grant] ⟨1, 0, {.live 0 0}⟩ :=
    ((Run.start rfl : BudgetRun ⟨1, Word64.max⟩ [] _).step (.acquire _)).step (.grant _ 0 0 rfl (by decide))
  have h₁ := charge_admitted hlive (by decide +kernel : 2 ^ 62 < Word64.size) (by decide +kernel)
    (by decide +kernel : _ = 2 ^ 62) (by decide +kernel : _ = 2 ^ 62)
  have h₂ := charge_admitted h₁ (by decide +kernel : 2 ^ 62 < Word64.size) (by decide +kernel)
    (by decide +kernel : _ = 2 ^ 63) (by decide +kernel : _ = 2 ^ 63)
  have h₃ := charge_admitted h₂ (by decide +kernel : 2 ^ 62 < Word64.size) (by decide +kernel)
    (by decide +kernel : _ = 3 * 2 ^ 62) (by decide +kernel : _ = 3 * 2 ^ 62)
  exact charge_admitted h₃ (by decide +kernel) (by decide +kernel) (by decide +kernel) (by decide +kernel)

/-- The fill is dropped, and the counter is left at one. -/
theorem overrun_released : BudgetRun ⟨1, Word64.max⟩ (overrun ++ [.releaseBytes] ++ [.releaseSlot]) ⟨0, 1, 0⟩ := by
  have hbytes := overrun_run.step (.releaseBytes _ Word64.max _ 0 rfl)
  have hleft : Word64.wrappingSub 0 Word64.max = 1 := by decide +kernel
  rw [hleft] at hbytes
  exact hbytes.step (.releaseSlot _ 0 rfl)

/-- Without a bound on the sums: more is admitted than `max_bytes`, and when the fill is gone the counter is not zero.
-/
theorem budget_overrun :
    (∃ trace s, BudgetRun ⟨1, Word64.max⟩ trace s ∧ (s.fills.map (Fill.heldBytes ⟨1, Word64.max⟩)).sum > Word64.max) ∧
      ∃ trace s, BudgetRun ⟨1, Word64.max⟩ trace s ∧ s.fills = 0 ∧ s.reservedBytes ≠ 0 :=
  ⟨⟨_, _, overrun_run, by decide +kernel⟩, _, _, overrun_released, rfl, Nat.one_ne_zero⟩

end OvStorage.ByteCache
