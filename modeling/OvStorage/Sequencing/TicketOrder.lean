import Mathlib.Algebra.Group.Nat.Defs
import Mathlib.Data.Finset.Card
import Mathlib.Data.Finset.Insert
import Mathlib.Data.List.Pairwise
import Mathlib.Logic.Function.Basic
import Mathlib.Order.Bounds.Basic
import OvStorage.Lib.Transition

/-!
# The ticket line of a deferred channel

`Sequenced` numbers its commits under the write guard and lets each publish in a turn of
its own, in the order of the numbers. `TicketOrder` is the line: which ticket is next,
how far retirement has come, and which tickets retired ahead of it.

## The model

A `Label` is one atomic step of one thread: a poll of `wait_for` is cut at every read of
`closed` and of the watch, a `take` at the hand-over of the obligation to retire, the
owner's drop at the store, the notification and the drop of the senders. A `Deferred` or a
`Turn` that is never dropped is one that takes no further step. Stamping past the last
`u64` panics, so it is no step.

## What is proved

* `ticket_line_safe`: each ticket retires once, the turns come one at a time and in order,
  and so do the batches.
-/

namespace OvStorage.Sequencing

open Function List

/-! ### Handles -/

/-- Where a `Deferred` stands: not polled yet, at a line of `wait_for`, or past it. -/
inductive Pc
  | untaken
  | checkClosed
  | borrow
  | recheckClosed
  | changed
  | refused
  | passed
  | transferring
  | returned
deriving DecidableEq, Repr

/-- A `Deferred` can be dropped while nobody runs it, and when `take` is done with it. In
`passed` the clone of the weak sender may unwind. -/
def Pc.droppable : Pc → Bool
  | .untaken | .changed | .refused | .passed | .returned => true
  | _ => false

/-- A `Deferred` and, once it is polled, the version its receiver has marked seen. -/
structure Deferred where
  armed : Bool
  pc : Pc
  seen : ℕ
deriving DecidableEq, Repr

/-- A `Turn` and whether its `send_all` holds the upgraded sender. -/
structure Turn where
  armed : Bool
  upgraded : Bool
deriving DecidableEq, Repr

/-- How far the owner's drop has come. -/
inductive Owner
  | alive
  | closing
  | closed
  | gone
deriving DecidableEq, Repr

/-- The line, the watch version, the strong senders of the channel, and the handles. -/
structure State where
  next : ℕ
  frontier : ℕ
  version : ℕ
  pending : Finset ℕ
  closed : Bool
  owner : Owner
  senders : ℕ
  deferred : ℕ → Option Deferred
  turn : ℕ → Option Turn

/-- `Sequenced::new`. -/
def State.new : State where
  next := 0
  frontier := 0
  version := 0
  pending := ∅
  closed := false
  owner := .alive
  senders := 1
  deferred _ := none
  turn _ := none

namespace State

/-- Replace the `Deferred` of a ticket. -/
def setDeferred (s : State) (ticket : ℕ) (d : Option Deferred) : State :=
  { s with deferred := update s.deferred ticket d }

/-- Replace the `Turn` of a ticket. -/
def setTurn (s : State) (ticket : ℕ) (x : Option Turn) : State :=
  { s with turn := update s.turn ticket x }

end State

/-! ### The operations -/

/-- The loop of `retire`: the frontier runs on over the tickets that retired early. -/
def absorb (reached : ℕ) (pending : Finset ℕ) : ℕ × Finset ℕ :=
  if reached + 1 ∈ pending then absorb (reached + 1) (pending.erase (reached + 1)) else (reached, pending)
termination_by pending.card
decreasing_by exact Finset.card_erase_lt_of_mem ‹_›

/-- `TicketOrder::retire`. -/
def State.retire (s : State) (ticket : ℕ) : State :=
  if ticket ≠ s.frontier + 1 then
    { s with pending := insert ticket s.pending }
  else
    { s with
      frontier := (absorb ticket s.pending).1
      pending := (absorb ticket s.pending).2
      version := s.version + 1 }

/-- `Commit::defer`: `TicketOrder::stamp` and the handle over it. -/
def State.defer (s : State) : State :=
  { s with next := s.next + 1 }.setDeferred (s.next + 1) (some ⟨true, .untaken, 0⟩)

/-- `Drop for Deferred`. -/
def State.dropDeferred (s : State) (ticket : ℕ) (d : Deferred) : State :=
  if d.armed then (s.setDeferred ticket none).retire ticket else s.setDeferred ticket none

/-- `Drop for Turn`, after the sender that `send_all` holds. -/
def State.dropTurn (s : State) (ticket : ℕ) (x : Turn) : State :=
  let s := { s with senders := if x.upgraded then s.senders - 1 else s.senders }
  if x.armed then (s.setTurn ticket none).retire ticket else s.setTurn ticket none

/-! ### The machine -/

/-- The atomic steps. -/
inductive Label (Event : Type)
  | stamp (ticket : ℕ)
  | dropDeferred (ticket : ℕ) (retires : Bool)
  | poll (ticket : ℕ)
  | checkClosed (ticket : ℕ)
  | borrow (ticket : ℕ)
  | recheckClosed (ticket : ℕ)
  | wake (ticket : ℕ)
  | grant (ticket : ℕ)
  | disarm (ticket : ℕ)
  | upgrade (ticket : ℕ)
  | emit (ticket : ℕ) (event : Event)
  | dropTurn (ticket : ℕ) (retires : Bool)
  | storeClosed
  | publishClosed
  | dropSender

variable {Event : Type}

/-- One step of some thread. -/
inductive Step : State → Label Event → State → Prop
  | stamp (s : State) (alive : s.owner = .alive) (room : s.next + 1 < 2 ^ 64) : Step s (.stamp (s.next + 1)) s.defer
  | dropDeferred (s : State) (t : ℕ) (d : Deferred) (held : s.deferred t = some d) (idle : d.pc.droppable) :
    Step s (.dropDeferred t d.armed) (s.dropDeferred t d)
  | poll (s : State) (t : ℕ) (d : Deferred) (held : s.deferred t = some d) (pc : d.pc = .untaken) :
    Step s (.poll t) (s.setDeferred t (some { d with pc := .checkClosed, seen := s.version }))
  | checkClosed (s : State) (t : ℕ) (d : Deferred) (held : s.deferred t = some d) (pc : d.pc = .checkClosed) :
    Step s (.checkClosed t) (s.setDeferred t (some { d with pc := if s.closed then .refused else .borrow }))
  | borrow (s : State) (t : ℕ) (d : Deferred) (held : s.deferred t = some d) (pc : d.pc = .borrow) :
    Step s (.borrow t)
      (s.setDeferred t
        (some { d with pc := if s.frontier ≥ t - 1 then .passed else .recheckClosed, seen := s.version }))
  | recheckClosed (s : State) (t : ℕ) (d : Deferred) (held : s.deferred t = some d) (pc : d.pc = .recheckClosed) :
    Step s (.recheckClosed t) (s.setDeferred t (some { d with pc := if s.closed then .refused else .changed }))
  | wake (s : State) (t : ℕ) (d : Deferred) (held : s.deferred t = some d) (pc : d.pc = .changed)
      (newer : s.version ≠ d.seen) :
    Step s (.wake t) (s.setDeferred t (some { d with pc := .checkClosed, seen := s.version }))
  | grant (s : State) (t : ℕ) (d : Deferred) (held : s.deferred t = some d) (pc : d.pc = .passed) :
    Step s (.grant t) ((s.setTurn t (some ⟨true, false⟩)).setDeferred t (some { d with pc := .transferring }))
  | disarm (s : State) (t : ℕ) (d : Deferred) (held : s.deferred t = some d) (pc : d.pc = .transferring) :
    Step s (.disarm t) (s.setDeferred t (some { d with armed := false, pc := .returned }))
  -- the caller of `take` has the turn once the `Deferred` is gone
  | upgrade (s : State) (t : ℕ) (x : Turn) (held : s.turn t = some x) (returned : s.deferred t = none)
      (fresh : x.upgraded = false) (strong : 0 < s.senders) :
    Step s (.upgrade t) ({ s with senders := s.senders + 1 }.setTurn t (some { x with upgraded := true }))
  | emit (s : State) (t : ℕ) (x : Turn) (e : Event) (held : s.turn t = some x) (returned : s.deferred t = none)
      (admitted : x.upgraded = true) :
    Step s (.emit t e) s
  | dropTurn (s : State) (t : ℕ) (x : Turn) (held : s.turn t = some x) (returned : s.deferred t = none) :
    Step s (.dropTurn t x.armed) (s.dropTurn t x)
  | storeClosed (s : State) (alive : s.owner = .alive) :
    Step s .storeClosed { s with closed := true, owner := .closing }
  | publishClosed (s : State) (closing : s.owner = .closing) :
    Step s .publishClosed { s with version := s.version + 1, owner := .closed }
  | dropSender (s : State) (closed : s.owner = .closed) :
    Step s .dropSender { s with senders := s.senders - 1, owner := .gone }

/-- The runs of one `Sequenced`. -/
abbrev SequencedRun : List (Label Event) → State → Prop := Run (· = State.new) Step

/-! ### What a trace says -/

namespace Label

/-- The ticket a step stamps. -/
def stamps : Label Event → Option ℕ
  | .stamp t => some t
  | _ => none

/-- The ticket a step retires. -/
def retires : Label Event → Option ℕ
  | .dropDeferred t true | .dropTurn t true => some t
  | _ => none

/-- The ticket a step grants a turn to. -/
def grants : Label Event → Option ℕ
  | .grant t => some t
  | _ => none

/-- The ticket whose turn a step publishes an event of. -/
def emits : Label Event → Option ℕ
  | .emit t _ => some t
  | _ => none

end Label

/-- The stamped tickets, in the order of the commits. -/
def stamped (trace : List (Label Event)) : List ℕ := trace.filterMap Label.stamps

/-- The retired tickets, in the order of retirement. -/
def retired (trace : List (Label Event)) : List ℕ := trace.filterMap Label.retires

/-- The granted turns, in the order they were granted. -/
def granted (trace : List (Label Event)) : List ℕ := trace.filterMap Label.grants

/-- For each published event its ticket, in the order of publication. -/
def published (trace : List (Label Event)) : List ℕ := trace.filterMap Label.emits

/-! ### The line -/

/-- The frontier and the early retirements against the tickets that are still held: below
the frontier none is, right above it one is, and what is missing further up is pending. -/
structure Line (next frontier : ℕ) (pending : Finset ℕ) (live : Set ℕ) : Prop where
  bound : frontier ≤ next
  above : ∀ t ∈ live, frontier < t ∧ t ≤ next
  head : frontier < next → frontier + 1 ∈ live
  pending_iff : ∀ t, t ∈ pending ↔ frontier < t ∧ t ≤ next ∧ t ∉ live

theorem le_absorb (reached : ℕ) (pending : Finset ℕ) : reached ≤ (absorb reached pending).1 := by
  fun_induction absorb reached pending with
  | case1 reached pending h ih => exact (Nat.le_succ _).trans ih
  | case2 => exact le_rfl

/-- The loop stops in front of a ticket that has not retired. -/
theorem absorb_stops (reached : ℕ) (pending : Finset ℕ) : (absorb reached pending).1 + 1 ∉ pending := by
  fun_induction absorb reached pending with
  | case1 reached pending h ih =>
    intro hmem
    have hne : (absorb (reached + 1) (pending.erase (reached + 1))).1 + 1 ≠ reached + 1 := by
      have := le_absorb (reached + 1) (pending.erase (reached + 1))
      omega
    exact ih (Finset.mem_erase.2 ⟨hne, hmem⟩)
  | case2 reached pending h => exact h

variable {t : ℕ}

/-- What the loop runs over had retired. -/
theorem absorb_over (reached : ℕ) (pending : Finset ℕ) (h1 : reached < t)
    (h2 : t ≤ (absorb reached pending).1) : t ∈ pending := by
  fun_induction absorb reached pending with
  | case1 reached pending h ih =>
    rcases Nat.lt_or_eq_of_le (Nat.succ_le_of_lt h1) with hlt | heq
    · exact (Finset.mem_erase.1 (ih hlt h2)).2
    · exact heq ▸ h
  | case2 reached pending h => omega

/-- What the loop leaves in the set. -/
theorem mem_absorb (reached : ℕ) (pending : Finset ℕ) (t : ℕ) :
    t ∈ (absorb reached pending).2 ↔ t ∈ pending ∧ ¬(reached < t ∧ t ≤ (absorb reached pending).1) := by
  fun_induction absorb reached pending with
  | case1 reached pending h ih =>
    have hle := le_absorb (reached + 1) (pending.erase (reached + 1))
    rw [ih, Finset.mem_erase]
    constructor
    · rintro ⟨⟨hne, hmem⟩, hout⟩
      exact ⟨hmem, by omega⟩
    · rintro ⟨hmem, hout⟩
      exact ⟨⟨by omega, hmem⟩, by omega⟩
  | case2 reached pending h => exact ⟨fun hmem => ⟨hmem, by omega⟩, fun hmem => hmem.1⟩

namespace Line

variable {next frontier : ℕ} {pending : Finset ℕ} {live : Set ℕ}

theorem stamp (h : Line next frontier pending live) :
    Line (next + 1) frontier pending (insert (next + 1) live) where
  bound := h.bound.trans (Nat.le_succ _)
  above := by
    rintro t (rfl | ht)
    · exact ⟨Nat.lt_succ_of_le h.bound, le_rfl⟩
    · exact ⟨(h.above t ht).1, (h.above t ht).2.trans (Nat.le_succ _)⟩
  head := by
    intro _
    rcases Nat.lt_or_eq_of_le h.bound with hlt | heq
    · exact Or.inr (h.head hlt)
    · exact Or.inl (by rw [heq])
  pending_iff := by
    intro t
    rw [h.pending_iff, Set.mem_insert_iff, not_or]
    constructor
    · rintro ⟨h1, h2, h3⟩
      exact ⟨h1, h2.trans (Nat.le_succ _), by omega, h3⟩
    · rintro ⟨h1, h2, h3, h4⟩
      exact ⟨h1, by omega, h4⟩

/-- A retirement ahead of the frontier is recorded. -/
theorem record (h : Line next frontier pending live) (ht : t ∈ live) (hne : t ≠ frontier + 1) :
    Line next frontier (insert t pending) (live \ {t}) where
  bound := h.bound
  above u hu := h.above u hu.1
  head hlt := ⟨h.head hlt, fun heq => hne heq.symm⟩
  pending_iff := by
    intro u
    rw [Finset.mem_insert, h.pending_iff, Set.mem_sdiff, Set.mem_singleton_iff]
    have hb := h.above t ht
    constructor
    · rintro (rfl | ⟨h1, h2, h3⟩)
      · exact ⟨hb.1, hb.2, fun hu => hu.2 rfl⟩
      · exact ⟨h1, h2, fun hu => h3 hu.1⟩
    · rintro ⟨h1, h2, h3⟩
      by_cases hu : u = t
      · exact Or.inl hu
      · exact Or.inr ⟨h1, h2, fun hl => h3 ⟨hl, hu⟩⟩

/-- The retirement of the head moves the frontier over all that retired behind it. -/
theorem advance (h : Line next frontier pending live) (ht : frontier + 1 ∈ live) :
    Line next (absorb (frontier + 1) pending).1 (absorb (frontier + 1) pending).2 (live \ {frontier + 1}) := by
  have hle := le_absorb (frontier + 1) pending
  have hover : ∀ u, frontier + 1 < u → u ≤ (absorb (frontier + 1) pending).1 → u ≤ next ∧ u ∉ live :=
    fun u h1 h2 => ((h.pending_iff u).1 (absorb_over _ _ h1 h2)).2
  refine ⟨?_, ?_, ?_, ?_⟩
  · rcases Nat.lt_or_eq_of_le hle with hlt | heq
    · exact (hover _ hlt le_rfl).1
    · exact heq ▸ (h.above _ ht).2
  · rintro u ⟨hu, hne⟩
    have hb := h.above u hu
    have hne' : u ≠ frontier + 1 := hne
    refine ⟨?_, hb.2⟩
    by_contra hge
    exact (hover u (by omega) (by omega)).2 hu
  · intro hlt
    have hstop := absorb_stops (frontier + 1) pending
    rw [h.pending_iff] at hstop
    have hmem : (absorb (frontier + 1) pending).1 + 1 ∈ live := by
      by_contra hno
      exact hstop ⟨by omega, hlt, hno⟩
    exact ⟨hmem, fun heq => by rw [Set.mem_singleton_iff] at heq; omega⟩
  · intro u
    rw [mem_absorb, h.pending_iff, Set.mem_sdiff, Set.mem_singleton_iff]
    constructor
    · rintro ⟨⟨h1, h2, h3⟩, hout⟩
      have hne : u ≠ frontier + 1 := fun heq => h3 (heq ▸ ht)
      exact ⟨by omega, h2, fun hu => h3 hu.1⟩
    · rintro ⟨h1, h2, h3⟩
      exact ⟨⟨by omega, h2, fun hu => h3 ⟨hu, by omega⟩⟩, by omega⟩

end Line

/-! ### The invariant -/

namespace State

/-- The tickets that a `Deferred` or a `Turn` still holds. -/
def live (s : State) : Set ℕ := {t | s.deferred t ≠ none ∨ s.turn t ≠ none}

/-- The tickets with a live `Turn`. -/
def turns (s : State) : Set ℕ := {t | s.turn t ≠ none}

theorem retire_next (s : State) (t : ℕ) : (s.retire t).next = s.next := by
  unfold retire
  split <;> rfl

theorem retire_deferred (s : State) (t : ℕ) : (s.retire t).deferred = s.deferred := by
  unfold retire
  split <;> rfl

theorem retire_turn (s : State) (t : ℕ) : (s.retire t).turn = s.turn := by
  unfold retire
  split <;> rfl

end State

/-- What the handles of a ticket look like, `head` being the ticket behind the frontier:
one of the two is armed, and only the head is past `wait_for`. -/
def Handles (head t : ℕ) : Option Deferred → Option Turn → Prop
  | none, none => True
  | some d, none =>
    d.armed = true ∧ d.pc ≠ .transferring ∧ d.pc ≠ .returned ∧ (d.pc = .passed → t = head)
  | some d, some x =>
    x.armed = true ∧ t = head ∧ (d.pc = .transferring ∧ d.armed = true ∨ d.pc = .returned ∧ d.armed = false)
  | none, some x => x.armed = true ∧ t = head

/-- What does not sit at the head does not depend on where the head is. -/
theorem Handles.of_ne_head {head : ℕ} (head' : ℕ) (hne : t ≠ head) :
    ∀ {d : Option Deferred} {x : Option Turn}, Handles head t d x → Handles head' t d x
  | none, none, _ => trivial
  | some _, none, h => ⟨h.1, h.2.1, h.2.2.1, fun hpc => absurd (h.2.2.2 hpc) hne⟩
  | some _, some _, h => absurd h.2.1 hne
  | none, some _, h => absurd h.2 hne

/-- The invariant of the reachable states. -/
structure Inv (s : State) : Prop where
  line : Line s.next s.frontier s.pending s.live
  handles : ∀ t, Handles (s.frontier + 1) t (s.deferred t) (s.turn t)

theorem Inv.new : Inv State.new where
  line :=
    { bound := le_rfl
      above := fun t ht => by simp [State.live, State.new] at ht
      head := fun h => absurd h (lt_irrefl _)
      pending_iff := fun t => by
        constructor
        · exact fun h => absurd h (Finset.notMem_empty t)
        · rintro ⟨h1, h2, -⟩
          exact absurd (h1.trans_le h2) (lt_irrefl _) }
  handles _ := trivial

variable {s s' s₀ : State}

/-- Only the head has a turn. -/
theorem Inv.turn_head (inv : Inv s) (h : t ∈ s.turns) : t = s.frontier + 1 := by
  have hh := inv.handles t
  cases hx : s.turn t with
  | none => exact absurd hx h
  | some x =>
    rw [hx] at hh
    cases hd : s.deferred t with
    | none => exact (hd ▸ hh).2
    | some d => exact (hd ▸ hh).2.1

/-- A step that leaves the line alone and gives a held ticket other handles. -/
theorem Inv.quiet (inv : Inv s) (s' : State) (d : Option Deferred) (x : Option Turn) (held : t ∈ s.live)
    (hn : s'.next = s.next) (hf : s'.frontier = s.frontier) (hp : s'.pending = s.pending)
    (hd : s'.deferred = update s.deferred t d) (hx : s'.turn = update s.turn t x)
    (hl : d ≠ none ∨ x ≠ none) (hh : Handles (s.frontier + 1) t d x) : Inv s' ∧ s'.live = s.live := by
  have hlive : s'.live = s.live := by
    ext u
    by_cases hu : u = t
    · rw [hu]
      refine iff_of_true ?_ held
      simpa only [State.live, Set.mem_ofPred_eq, hd, hx, update_self] using hl
    · simp only [State.live, Set.mem_ofPred_eq, hd, hx, update_of_ne hu]
  refine ⟨⟨?_, ?_⟩, hlive⟩
  · rw [hn, hf, hp, hlive]
    exact inv.line
  · intro u
    rw [hf, hd, hx]
    by_cases hu : u = t
    · rw [hu, update_self, update_self]
      exact hh
    · rw [update_of_ne hu, update_of_ne hu]
      exact inv.handles u

/-- The retirement of a held ticket, whose handles are gone in `s₀`. -/
theorem Inv.retire (inv : Inv s) (ht : t ∈ s.live) (hn : s₀.next = s.next)
    (hf : s₀.frontier = s.frontier) (hp : s₀.pending = s.pending)
    (hd : s₀.deferred = update s.deferred t none) (hx : s₀.turn = update s.turn t none) :
    Inv (s₀.retire t) ∧ (s₀.retire t).live = s.live \ {t} := by
  have hlive : (s₀.retire t).live = s.live \ {t} := by
    ext u
    by_cases hu : u = t
    · simp [State.live, State.retire_deferred, State.retire_turn, hd, hx, hu]
    · simp [State.live, State.retire_deferred, State.retire_turn, hd, hx, hu]
  refine ⟨⟨?_, ?_⟩, hlive⟩
  · rw [hlive, State.retire_next, hn]
    unfold State.retire
    rw [hf, hp]
    split
    · rename_i hne
      exact hf ▸ inv.line.record ht hne
    · rename_i heq
      obtain rfl : t = s.frontier + 1 := not_not.1 heq
      exact inv.line.advance ht
  · intro u
    rw [State.retire_deferred, State.retire_turn, hd, hx]
    by_cases hu : u = t
    · rw [hu, update_self, update_self]
      trivial
    · rw [update_of_ne hu, update_of_ne hu]
      by_cases hhead : t = s.frontier + 1
      · exact (inv.handles u).of_ne_head _ (hhead ▸ hu)
      · have hkeep : (s₀.retire t).frontier = s.frontier := by
          rw [State.retire, if_pos (hf ▸ hhead)]
          exact hf
        rw [hkeep]
        exact inv.handles u

/-! ### What a step can do -/

/-- The effect of a step on the line, the held tickets and the turns. -/
inductive Effect (s : State) (l : Label Event) (s' : State) : Prop
  | stamp (label : l = .stamp (s.next + 1)) (next : s'.next = s.next + 1) (frontier : s'.frontier = s.frontier)
    (live : s'.live = insert (s.next + 1) s.live) (turns : s'.turns = s.turns)
  | retire (t : ℕ) (label : l = .dropDeferred t true ∨ l = .dropTurn t true) (held : t ∈ s.live)
    (next : s'.next = s.next) (frontier : s.frontier ≤ s'.frontier) (live : s'.live = s.live \ {t})
    (turns : s'.turns = s.turns \ {t})
  | grant (t : ℕ) (label : l = .grant t) (head : t = s.frontier + 1) (none : s.turns = ∅) (next : s'.next = s.next)
    (frontier : s'.frontier = s.frontier) (live : s'.live = s.live) (turns : s'.turns = {t})
  | emit (t : ℕ) (e : Event) (label : l = .emit t e) (turn : t ∈ s.turns) (same : s' = s)
  | quiet (stamps : l.stamps = none) (retires : l.retires = none) (grants : l.grants = none) (emits : l.emits = none)
    (next : s'.next = s.next) (frontier : s'.frontier = s.frontier) (live : s'.live = s.live)
    (turns : s'.turns = s.turns)

variable {d : Deferred}

theorem State.mem_live_of_deferred (h : s.deferred t = some d) : t ∈ s.live :=
  Or.inl fun hnone => by simp [hnone] at h

variable {x : Turn}

theorem State.mem_turns_of_turn (h : s.turn t = some x) : t ∈ s.turns :=
  fun hnone => by simp [hnone] at h

/-- Before the hand-over a `Deferred` is armed and has no turn beside it. -/
theorem Inv.waiting (inv : Inv s) (held : s.deferred t = some d)
    (h1 : d.pc ≠ .transferring) (h2 : d.pc ≠ .returned) : s.turn t = none ∧ d.armed = true := by
  have hh := inv.handles t
  rw [held] at hh
  cases hx : s.turn t with
  | none => exact ⟨rfl, (hx ▸ hh : Handles _ _ (some d) none).1⟩
  | some x =>
    rcases (hx ▸ hh : Handles _ _ (some d) (some x)).2.2 with ⟨hpc, -⟩ | ⟨hpc, -⟩
    · exact absurd hpc h1
    · exact absurd hpc h2

variable {l : Label Event}

/-- A step of `wait_for`. -/
theorem Inv.wait (inv : Inv s) {d' : Deferred}
    (held : s.deferred t = some d) (h1 : d.pc ≠ .transferring ∧ d.pc ≠ .returned) (harmed : d'.armed = d.armed)
    (h2 : d'.pc ≠ .transferring ∧ d'.pc ≠ .returned) (hpassed : d'.pc = .passed → t = s.frontier + 1)
    (hl : l.stamps = none ∧ l.retires = none ∧ l.grants = none ∧ l.emits = none) :
    Inv (s.setDeferred t (some d')) ∧ Effect s l (s.setDeferred t (some d')) := by
  obtain ⟨hturn, hd⟩ := inv.waiting held h1.1 h1.2
  obtain ⟨hinv, hlive⟩ := inv.quiet (s.setDeferred t (some d')) (some d') none
    (State.mem_live_of_deferred held) rfl rfl rfl rfl
    (update_eq_self_iff.2 hturn.symm).symm (Or.inl (Option.some_ne_none d'))
    ⟨harmed.trans hd, h2.1, h2.2, hpassed⟩
  exact ⟨hinv, .quiet hl.1 hl.2.1 hl.2.2.1 hl.2.2.2 rfl rfl hlive rfl⟩

theorem State.turns_update (h : s'.turn = update s.turn t none) : s'.turns = s.turns \ {t} := by
  ext u
  by_cases hu : u = t
  · simp [State.turns, h, hu]
  · simp [State.turns, h, hu]

theorem State.turns_set (h : s'.turn = update s.turn t (some x)) : s'.turns = insert t s.turns := by
  ext u
  by_cases hu : u = t
  · simp [State.turns, h, hu]
  · simp [State.turns, h, hu]

theorem State.retire_frontier (s : State) (t : ℕ) : s.frontier ≤ (s.retire t).frontier := by
  unfold State.retire
  split
  · exact le_rfl
  · rename_i heq
    have := le_absorb t s.pending
    have heq' : t = s.frontier + 1 := not_not.1 heq
    exact le_trans (by omega) this

/-- The drop of an armed handle. -/
theorem Inv.retire_effect (inv : Inv s)
    (label : l = .dropDeferred t true ∨ l = .dropTurn t true) (ht : t ∈ s.live) (hn : s₀.next = s.next)
    (hf : s₀.frontier = s.frontier) (hp : s₀.pending = s.pending)
    (hd : s₀.deferred = update s.deferred t none) (hx : s₀.turn = update s.turn t none) :
    Inv (s₀.retire t) ∧ Effect s l (s₀.retire t) := by
  obtain ⟨hinv, hlive⟩ := inv.retire ht hn hf hp hd hx
  refine ⟨hinv, .retire t label ht ((s₀.retire_next t).trans hn) (hf ▸ s₀.retire_frontier t) hlive ?_⟩
  exact State.turns_update ((s₀.retire_turn t).trans hx)

theorem Inv.defer (inv : Inv s) : Inv s.defer ∧ Effect s (.stamp (s.next + 1) : Label Event) s.defer := by
  have hfree : s.next + 1 ∉ s.live := fun hl => absurd (inv.line.above _ hl).2 (by omega)
  have hturn : s.turn (s.next + 1) = none := by
    by_contra hne
    exact hfree (Or.inr hne)
  have hlive : s.defer.live = insert (s.next + 1) s.live := by
    ext u
    by_cases hu : u = s.next + 1
    · simp [State.live, State.defer, State.setDeferred, hu]
    · simp [State.live, State.defer, State.setDeferred, hu]
  refine ⟨⟨?_, ?_⟩, .stamp rfl rfl rfl hlive rfl⟩
  · rw [hlive]
    exact inv.line.stamp
  · intro u
    by_cases hu : u = s.next + 1
    · rw [hu, show s.defer.deferred (s.next + 1) = some ⟨true, .untaken, 0⟩ from update_self _ _ _,
        show s.defer.turn (s.next + 1) = none from hturn]
      exact ⟨rfl, by decide, by decide, fun h => by cases h⟩
    · rw [show s.defer.deferred u = s.deferred u from update_of_ne hu _ _]
      exact inv.handles u

theorem Inv.dropDeferred (inv : Inv s) (held : s.deferred t = some d) (idle : d.pc.droppable) :
    Inv (s.dropDeferred t d) ∧ Effect s (.dropDeferred t d.armed : Label Event) (s.dropDeferred t d) := by
  have hh := inv.handles t
  rw [held] at hh
  cases hx : s.turn t with
  | none =>
    have harmed : d.armed = true := (hx ▸ hh : Handles _ _ (some d) none).1
    rw [State.dropDeferred, if_pos harmed, harmed]
    refine inv.retire_effect (Or.inl rfl) (State.mem_live_of_deferred held) rfl rfl rfl rfl ?_
    exact (update_eq_self_iff.2 hx.symm).symm
  | some x =>
    rcases (hx ▸ hh : Handles _ _ (some d) (some x)) with ⟨hxarmed, hhead, ⟨hpc, -⟩ | ⟨-, harmed⟩⟩
    · rw [hpc] at idle
      cases idle
    · -- the obligation has moved to the turn, so this drop retires nothing
      rw [State.dropDeferred, harmed, if_neg (by decide)]
      obtain ⟨hinv, hlive⟩ := inv.quiet (s.setDeferred t none) none (some x)
        (State.mem_live_of_deferred held) rfl rfl rfl rfl
        (update_eq_self_iff.2 hx.symm).symm (Or.inr (Option.some_ne_none x)) ⟨hxarmed, hhead⟩
      exact ⟨hinv, .quiet rfl rfl rfl rfl rfl rfl hlive rfl⟩

theorem Inv.dropTurn (inv : Inv s) (held : s.turn t = some x) (returned : s.deferred t = none) :
    Inv (s.dropTurn t x) ∧ Effect s (.dropTurn t x.armed : Label Event) (s.dropTurn t x) := by
  have hh := inv.handles t
  rw [held, returned] at hh
  have harmed : x.armed = true := hh.1
  simp only [State.dropTurn, harmed, if_true]
  refine inv.retire_effect (Or.inr rfl) (Or.inr (State.mem_turns_of_turn held)) rfl rfl rfl ?_ rfl
  exact (update_eq_self_iff.2 returned.symm).symm

/-- `take` past `wait_for`: the turn beside the `Deferred`, both armed. -/
theorem Inv.grant (inv : Inv s) (held : s.deferred t = some d) (pc : d.pc = .passed) :
    Inv ((s.setTurn t (some ⟨true, false⟩)).setDeferred t (some { d with pc := .transferring })) ∧
      Effect s (.grant t : Label Event)
        ((s.setTurn t (some ⟨true, false⟩)).setDeferred t (some { d with pc := .transferring })) := by
  obtain ⟨hturn, harmed⟩ := inv.waiting held (by simp [pc]) (by simp [pc])
  have hhead : t = s.frontier + 1 := by
    have hh := inv.handles t
    rw [held, hturn] at hh
    exact hh.2.2.2 pc
  obtain ⟨hinv, hlive⟩ :=
    inv.quiet ((s.setTurn t (some ⟨true, false⟩)).setDeferred t (some { d with pc := .transferring })) (some _)
      (some ⟨true, false⟩) (State.mem_live_of_deferred held) rfl rfl rfl rfl rfl (Or.inl (Option.some_ne_none _))
        ⟨rfl, hhead, Or.inl ⟨rfl, harmed⟩⟩
  have hnone : s.turns = ∅ := by
    refine Set.eq_empty_of_forall_notMem fun u hu => ?_
    obtain rfl : u = t := (inv.turn_head hu).trans hhead.symm
    exact hu hturn
  refine ⟨hinv, .grant t rfl hhead hnone rfl rfl hlive ?_⟩
  rw [State.turns_set (show State.turn (State.setDeferred _ _ _) = _ from rfl), hnone]
  exact insert_empty_eq t

theorem Inv.disarm (inv : Inv s) (held : s.deferred t = some d) (pc : d.pc = .transferring) :
    Inv (s.setDeferred t (some { d with armed := false, pc := .returned })) ∧
      Effect s (.disarm t : Label Event) (s.setDeferred t (some { d with armed := false, pc := .returned })) := by
  have hh := inv.handles t
  rw [held] at hh
  cases hx : s.turn t with
  | none => exact absurd pc (hx ▸ hh : Handles _ _ (some d) none).2.1
  | some x =>
    obtain ⟨hxarmed, hhead, -⟩ := (hx ▸ hh : Handles _ _ (some d) (some x))
    obtain ⟨hinv, hlive⟩ := inv.quiet (s.setDeferred t (some { d with armed := false, pc := .returned }))
      (some _) (some x) (State.mem_live_of_deferred held) rfl rfl rfl rfl
      (update_eq_self_iff.2 hx.symm).symm (Or.inr (Option.some_ne_none x))
      ⟨hxarmed, hhead, Or.inr ⟨rfl, rfl⟩⟩
    exact ⟨hinv, .quiet rfl rfl rfl rfl rfl rfl hlive rfl⟩

theorem Inv.upgrade (inv : Inv s) (held : s.turn t = some x) (returned : s.deferred t = none) (n : ℕ) :
    Inv ({ s with senders := n }.setTurn t (some { x with upgraded := true })) ∧
      Effect s (.upgrade t : Label Event) ({ s with senders := n }.setTurn t (some { x with upgraded := true })) := by
  have hh := inv.handles t
  rw [held, returned] at hh
  obtain ⟨hinv, hlive⟩ := inv.quiet ({ s with senders := n }.setTurn t (some { x with upgraded := true })) none
    (some { x with upgraded := true }) (Or.inr (State.mem_turns_of_turn held)) rfl rfl rfl
    (update_eq_self_iff.2 returned.symm).symm rfl (Or.inr (Option.some_ne_none _)) hh
  refine ⟨hinv, .quiet rfl rfl rfl rfl rfl rfl hlive ?_⟩
  rw [State.turns_set (show State.turn (State.setTurn _ _ _) = _ from rfl)]
  exact Set.insert_eq_of_mem (State.mem_turns_of_turn held)

/-- Every step keeps the invariant and has one of the five effects. -/
theorem step_spec (inv : Inv s) (h : Step s l s') : Inv s' ∧ Effect s l s' := by
  cases h with
  | stamp alive room => exact inv.defer
  | dropDeferred t d held idle => exact inv.dropDeferred held idle
  | poll t d held pc =>
    exact inv.wait held (by simp [pc]) rfl (by simp) (fun h => by cases h) ⟨rfl, rfl, rfl, rfl⟩
  | checkClosed t d held pc =>
    refine inv.wait held (by simp [pc]) rfl ?_ ?_ ⟨rfl, rfl, rfl, rfl⟩
    · cases s.closed <;> exact ⟨by simp, by simp⟩
    · cases s.closed <;> exact fun h => by cases h
  | borrow t d held pc =>
    have habove := (inv.line.above t (State.mem_live_of_deferred held)).1
    refine inv.wait held (by simp [pc]) rfl ?_ ?_ ⟨rfl, rfl, rfl, rfl⟩
    · dsimp only
      split <;> decide
    · dsimp only
      split
      · intro _
        omega
      · exact fun h => by cases h
  | recheckClosed t d held pc =>
    refine inv.wait held (by simp [pc]) rfl ?_ ?_ ⟨rfl, rfl, rfl, rfl⟩
    · cases s.closed <;> exact ⟨by simp, by simp⟩
    · cases s.closed <;> exact fun h => by cases h
  | wake t d held pc newer =>
    exact inv.wait held (by simp [pc]) rfl (by simp) (fun h => by cases h) ⟨rfl, rfl, rfl, rfl⟩
  | grant t d held pc => exact inv.grant held pc
  | disarm t d held pc => exact inv.disarm held pc
  | upgrade t x held returned fresh strong => exact inv.upgrade held returned _
  | emit t x e held returned admitted => exact ⟨inv, .emit t e rfl (State.mem_turns_of_turn held) rfl⟩
  | dropTurn t x held returned => exact inv.dropTurn held returned
  | storeClosed alive => exact ⟨⟨inv.line, inv.handles⟩, .quiet rfl rfl rfl rfl rfl rfl rfl rfl⟩
  | publishClosed closing => exact ⟨⟨inv.line, inv.handles⟩, .quiet rfl rfl rfl rfl rfl rfl rfl rfl⟩
  | dropSender closed => exact ⟨⟨inv.line, inv.handles⟩, .quiet rfl rfl rfl rfl rfl rfl rfl rfl⟩

variable {trace : List (Label Event)}

/-- Every reachable state keeps the invariant. -/
theorem SequencedRun.inv (h : SequencedRun trace s) : Inv s := by
  refine h.stateInvariant (I := Inv) ?_ fun _ _ _ inv hs => (step_spec inv hs).1
  rintro s rfl
  exact Inv.new

/-! ### The ledger -/

/-- The stamped, retired, granted and published tickets against the line, the held tickets
and the turns. -/
structure Ledger (stamped retired granted published : List ℕ) (next frontier : ℕ) (live turns : Set ℕ) : Prop where
  stamped_eq : stamped = List.range' 1 next
  retired_iff : ∀ t, t ∈ retired ↔ 1 ≤ t ∧ t ≤ next ∧ t ∉ live
  retired_nodup : retired.Nodup
  granted_le : ∀ t ∈ granted, t ≤ frontier ∨ t ∈ turns
  granted_turn : ∀ t ∈ turns, t ∈ granted
  granted_lt : granted.Pairwise (· < ·)
  published_granted : ∀ t ∈ published, t ∈ granted
  published_le : published.Pairwise (· ≤ ·)

namespace Ledger

variable {stamped retired granted published : List ℕ} {next frontier t : ℕ} {pending : Finset ℕ} {live turns : Set ℕ}

theorem stamp (led : Ledger stamped retired granted published next frontier live turns) :
    Ledger (stamped ++ [next + 1]) retired granted published (next + 1) frontier (insert (next + 1) live) turns :=
  { led with
    stamped_eq := by rw [led.stamped_eq, List.range'_concat, Nat.one_mul, Nat.add_comm]
    retired_iff := by
      intro t
      rw [led.retired_iff, Set.mem_insert_iff, not_or]
      constructor
      · rintro ⟨h1, h2, h3⟩
        exact ⟨h1, by omega, by omega, h3⟩
      · rintro ⟨h1, h2, h3, h4⟩
        exact ⟨h1, by omega, h4⟩ }

/-- A retirement: the ticket was held until now, and a turn that ends leaves its ticket
behind the frontier. -/
theorem retire {frontier' : ℕ} {pending' : Finset ℕ}
    (led : Ledger stamped retired granted published next frontier live turns)
    (line : Line next frontier pending live) (line' : Line next frontier' pending' (live \ {t})) (held : t ∈ live)
    (hle : frontier ≤ frontier') (hhead : ∀ u ∈ turns, u = frontier + 1) :
    Ledger stamped (retired ++ [t]) granted published next frontier' (live \ {t}) (turns \ {t}) :=
  { led with
    retired_iff := by
      intro u
      have hb := line.above t held
      rw [mem_append, mem_singleton, led.retired_iff, Set.mem_sdiff, Set.mem_singleton_iff]
      constructor
      · rintro (⟨h1, h2, h3⟩ | rfl)
        · exact ⟨h1, h2, fun hu => h3 hu.1⟩
        · exact ⟨by omega, hb.2, fun hu => hu.2 rfl⟩
      · rintro ⟨h1, h2, h3⟩
        by_cases hu : u = t
        · exact Or.inr hu
        · exact Or.inl ⟨h1, h2, fun hl => h3 ⟨hl, hu⟩⟩
    retired_nodup := by
      have hnew : t ∉ retired := fun hmem => ((led.retired_iff t).1 hmem).2.2 held
      exact led.retired_nodup.append (nodup_singleton t) (by simpa using hnew)
    granted_le := by
      intro u hu
      rcases led.granted_le u hu with hu' | hu'
      · exact Or.inl (hu'.trans hle)
      · by_cases hut : u = t
        · refine Or.inl ?_
          by_contra hlt
          have hhead' := hhead u hu'
          have hnext := (line.above t held).2
          -- a frontier that did not move would have `t` right above it
          have heq : frontier' + 1 = t := by omega
          exact (line'.head (by omega)).2 heq
        · exact Or.inr ⟨hu', hut⟩
    granted_turn := fun u hu => led.granted_turn u hu.1 }

theorem grant (led : Ledger stamped retired granted published next frontier live ∅) (head : t = frontier + 1) :
    Ledger stamped retired (granted ++ [t]) published next frontier live {t} :=
  { led with
    granted_le := by
      intro u hu
      rcases mem_append.1 hu with hu | hu
      · exact Or.inl ((led.granted_le u hu).resolve_right (Set.notMem_empty u))
      · exact Or.inr (mem_singleton.1 hu)
    granted_turn := fun u hu => mem_append.2 (Or.inr (mem_singleton.2 hu))
    granted_lt := by
      refine pairwise_append.2 ⟨led.granted_lt, pairwise_singleton _ _, ?_⟩
      intro u hu v hv
      have := (led.granted_le u hu).resolve_right (Set.notMem_empty u)
      rw [mem_singleton.1 hv]
      omega
    published_granted := fun u hu => mem_append.2 (Or.inl (led.published_granted u hu)) }

theorem emit (led : Ledger stamped retired granted published next frontier live turns) (turn : t ∈ turns)
    (hhead : ∀ u ∈ turns, u = frontier + 1) :
    Ledger stamped retired granted (published ++ [t]) next frontier live turns :=
  { led with
    published_granted := by
      intro u hu
      rcases mem_append.1 hu with hu | hu
      · exact led.published_granted u hu
      · exact mem_singleton.1 hu ▸ led.granted_turn t turn
    published_le := by
      refine pairwise_append.2 ⟨led.published_le, pairwise_singleton _ _, ?_⟩
      intro u hu v hv
      rw [mem_singleton.1 hv]
      rcases led.granted_le u (led.published_granted u hu) with hle | hu'
      · exact hle.trans (hhead t turn ▸ Nat.le_succ _)
      · exact le_of_eq ((hhead u hu').trans (hhead t turn).symm) }

end Ledger

/-- The ledger of a trace that led to a state. -/
abbrev LedgerOf (trace : List (Label Event)) (s : State) : Prop :=
  Ledger (stamped trace) (retired trace) (granted trace) (published trace) s.next s.frontier s.live s.turns

/-- One more label, of which a map sees nothing or one ticket. -/
theorem filterMap_snoc (f : Label Event → Option ℕ) (trace : List (Label Event)) (l : Label Event) :
    (trace ++ [l]).filterMap f = trace.filterMap f ++ (f l).toList := by
  rw [filterMap_append]
  cases h : f l <;> simp [h]

theorem LedgerOf.step (inv : Inv s) (inv' : Inv s')
    (led : LedgerOf trace s) (h : Effect s l s') : LedgerOf (trace ++ [l]) s' := by
  have hst : stamped (trace ++ [l]) = stamped trace ++ l.stamps.toList := filterMap_snoc _ _ _
  have hre : retired (trace ++ [l]) = retired trace ++ l.retires.toList := filterMap_snoc _ _ _
  have hgr : granted (trace ++ [l]) = granted trace ++ l.grants.toList := filterMap_snoc _ _ _
  have hpu : published (trace ++ [l]) = published trace ++ l.emits.toList := filterMap_snoc _ _ _
  have hhead : ∀ u ∈ s.turns, u = s.frontier + 1 := fun u hu => inv.turn_head hu
  unfold LedgerOf at led ⊢
  rw [hst, hre, hgr, hpu]
  cases h with
  | stamp label next frontier live turns =>
    subst label
    rw [next, frontier, live, turns]
    simpa [Label.stamps, Label.retires, Label.grants, Label.emits] using led.stamp
  | retire t label held next frontier live turns =>
    have hline := inv'.line
    rw [next, live] at hline
    have hled := led.retire inv.line hline held frontier hhead
    rw [next, live, turns]
    rcases label with rfl | rfl
    · simpa [Label.stamps, Label.retires, Label.grants, Label.emits] using hled
    · simpa [Label.stamps, Label.retires, Label.grants, Label.emits] using hled
  | grant t label head none next frontier live turns =>
    subst label
    rw [none] at led
    rw [next, frontier, live, turns]
    simpa [Label.stamps, Label.retires, Label.grants, Label.emits] using led.grant head
  | emit t e label turn same =>
    subst label same
    simpa [Label.stamps, Label.retires, Label.grants, Label.emits] using led.emit turn hhead
  | quiet stamps retires grants emits next frontier live turns =>
    rw [next, frontier, live, turns, stamps, retires, grants, emits]
    simpa using led

/-- Every run keeps its ledger. -/
theorem SequencedRun.ledger (h : SequencedRun trace s) : LedgerOf trace s := by
  refine h.invariant (I := LedgerOf) ?_ ?_
  · rintro s rfl
    have hlive : State.new.live = ∅ := by simp [State.live, State.new]
    have hturns : State.new.turns = ∅ := by simp [State.turns, State.new]
    unfold LedgerOf
    rw [hlive, hturns]
    exact
      { stamped_eq := rfl
        retired_iff := fun t => iff_of_false not_mem_nil fun ht => by
          have := ht.1.trans ht.2.1
          exact absurd this (by decide)
        retired_nodup := nodup_nil
        granted_le := fun t h => absurd h not_mem_nil
        granted_turn := fun t h => absurd h (Set.notMem_empty t)
        granted_lt := List.Pairwise.nil
        published_granted := fun t h => absurd h not_mem_nil
        published_le := List.Pairwise.nil }
  · intro trace s l s' hr led hs
    have inv := SequencedRun.inv hr
    obtain ⟨inv', heff⟩ := step_spec inv hs
    exact LedgerOf.step inv inv' led heff

/-! ### Safety -/

/-- Below the head of the line everything has retired. -/
theorem retired_below_head (h : SequencedRun trace s) {u : ℕ} (h1 : 1 ≤ u) (h2 : u ≤ s.frontier) :
    u ∈ retired trace := by
  have line := h.inv.line
  exact (h.ledger.retired_iff u).2 ⟨h1, h2.trans line.bound, fun hl => absurd (line.above u hl).1 (not_lt.2 h2)⟩

theorem frontier_isGreatest (h : SequencedRun trace s) :
    IsGreatest {n | ∀ t, 1 ≤ t → t ≤ n → t ∈ retired trace} s.frontier := by
  refine ⟨fun t h1 h2 => retired_below_head h h1 h2, fun n hn => ?_⟩
  by_contra hlt
  have hmem := (h.ledger.retired_iff (s.frontier + 1)).1 (hn (s.frontier + 1) (by omega) (by omega))
  exact hmem.2.2 (h.inv.line.head hmem.2.1)

theorem pending_iff_retired (h : SequencedRun trace s) (t : ℕ) :
    t ∈ s.pending ↔ t ∈ retired trace ∧ s.frontier < t := by
  rw [h.inv.line.pending_iff, h.ledger.retired_iff]
  constructor
  · rintro ⟨h1, h2, h3⟩
    exact ⟨⟨by omega, h2, h3⟩, h1⟩
  · rintro ⟨⟨-, h2, h3⟩, h1⟩
    exact ⟨h1, h2, h3⟩

/-- Over every interleaving: each ticket retires at most once, the frontier is the end of
the unbroken run of retired tickets and `pending` is what retired above it; at most one
turn is live, turns are granted in the order of the tickets, each after everything before
it has retired; and the events are published in that order, each inside its own turn. -/
theorem ticket_line_safe (trace : List (Label Event)) (s : State) (h : SequencedRun trace s) :
    ((retired trace).Nodup ∧ IsGreatest {n | ∀ t, 1 ≤ t → t ≤ n → t ∈ retired trace} s.frontier ∧
      ∀ t, t ∈ s.pending ↔ t ∈ retired trace ∧ s.frontier < t) ∧
    ((∀ t u, s.turn t ≠ none → s.turn u ≠ none → t = u) ∧ (granted trace).Pairwise (· < ·) ∧
      ∀ pre post t, trace = pre ++ .grant t :: post → ∀ u, 1 ≤ u → u < t → u ∈ retired pre) ∧
    (stamped trace = List.range' 1 s.next ∧ (published trace).Pairwise (· ≤ ·) ∧
      ∀ pre post t e, trace = pre ++ .emit t e :: post →
        t ∈ granted pre ∧ t ∉ retired pre ∧ ∀ u, 1 ≤ u → u < t → u ∈ retired pre) := by
  have inv := h.inv
  have led := h.ledger
  refine ⟨⟨led.retired_nodup, frontier_isGreatest h, pending_iff_retired h⟩,
    ⟨fun t u ht hu => (inv.turn_head ht).trans (inv.turn_head hu).symm, led.granted_lt, ?_⟩,
    led.stamped_eq, led.published_le, ?_⟩
  · rintro pre post t rfl u h1 h2
    obtain ⟨s₀, s₁, (hpre : SequencedRun pre s₀), hstep⟩ := h.split
    cases hstep with
    | grant _ d held pc =>
      obtain ⟨hturn, -⟩ := hpre.inv.waiting held (by simp [pc]) (by simp [pc])
      have hh := hpre.inv.handles t
      rw [held, hturn] at hh
      exact retired_below_head hpre h1 (by have := hh.2.2.2 pc; omega)
  · rintro pre post t e rfl
    obtain ⟨s₀, s₁, (hpre : SequencedRun pre s₀), hstep⟩ := h.split
    cases hstep with
    | emit _ x _ held returned admitted =>
      have hturn := State.mem_turns_of_turn held
      have hhead := hpre.inv.turn_head hturn
      refine ⟨hpre.ledger.granted_turn t hturn, ?_, fun u h1 h2 => retired_below_head hpre h1 (by omega)⟩
      exact fun hmem => ((hpre.ledger.retired_iff t).1 hmem).2.2 (Or.inr hturn)

/-- Three commits; the second is abandoned while the first is publishing, and the frontier
passes both when the first ends its turn. -/
def abandonedTrace : List (Label Bool) :=
  [.stamp 1, .stamp 2, .stamp 3, .poll 1, .checkClosed 1, .borrow 1, .grant 1, .disarm 1, .dropDeferred 1 false,
    .upgrade 1, .emit 1 true, .dropDeferred 2 true, .dropTurn 1 true]

theorem ticket_line_safe_abandoned :
    ∃ s, SequencedRun abandonedTrace s ∧ s.frontier = 2 ∧ s.pending = ∅ ∧ (retired abandonedTrace).Nodup ∧
      1 ∈ granted (abandonedTrace.take 10) := by
  have hrun : ∃ s, SequencedRun abandonedTrace s ∧ s.frontier = 2 ∧ s.pending = ∅ := by
    have h0 : SequencedRun ([] : List (Label Bool)) State.new := Run.start rfl
    have h3 := ((h0.step (Step.stamp _ rfl (by decide))).step (Step.stamp _ rfl (by decide))).step
      (Step.stamp _ rfl (by decide))
    have h6 := ((h3.step (Step.poll _ 1 _ rfl rfl)).step (Step.checkClosed _ 1 _ rfl rfl)).step
      (Step.borrow _ 1 _ rfl rfl)
    have h9 := ((h6.step (Step.grant _ 1 _ rfl rfl)).step (Step.disarm _ 1 _ rfl rfl)).step
      (Step.dropDeferred _ 1 _ rfl rfl)
    have h11 := (h9.step (Step.upgrade _ 1 _ rfl rfl rfl (by decide))).step (Step.emit _ 1 _ true rfl rfl rfl)
    have h13 := (h11.step (Step.dropDeferred _ 2 _ rfl rfl)).step (Step.dropTurn _ 1 _ rfl rfl)
    refine ⟨_, h13, ?_, ?_⟩
    · change (absorb 1 {2}).1 = 2
      simp [absorb]
    · change (absorb 1 {2}).2 = ∅
      simp [absorb]
  obtain ⟨s, h, hf, hp⟩ := hrun
  have safe := ticket_line_safe abandonedTrace s h
  exact ⟨s, h, hf, hp, safe.1.1, (safe.2.2.2.2 _ _ 1 true rfl).1⟩

end OvStorage.Sequencing
