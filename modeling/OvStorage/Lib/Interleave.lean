import Mathlib.Logic.Function.Basic
import OvStorage.Lib.Transition

/-!
# Threads over a shared state

## The model

A `Prog` is what is left of a call: atomic actions on the shared state, each with what the
caller does with its answer, and choices that the shared state does not decide (a cancellation,
a failure elsewhere). `Threads` runs any number of calls over one shared state, one atomic
action or one choice at a time. What an action may answer and what it does to the state is
`exec`.

## The rules

A `Discipline` fixes an invariant of the shared state, what a thread may rely on while the
others act, and what a thread is left with between calls. `Discipline.Safe` says that a program
keeps the invariant from here on, whatever the others do, and `Discipline.run` gives the invariant in
every state of every run of any number of safe programs.
-/

namespace Interleave

/-- What is left of a call. -/
inductive Prog {A : Type*} (R : A → Type*)
  | ret
  | act (a : A) (k : R a → Prog R)
  | alt (p q : Prog R)

/-- The shared state, and what is left of each thread's call. -/
structure Threads (ι S : Type*) {A : Type*} (R : A → Type*) where
  shared : S
  progs : ι → Prog R

/-- One step: a thread calls an operation, chooses, or acts and gets an answer. -/
inductive Event (ι P : Type*) {A : Type*} (R : A → Type*)
  | call (t : ι) (op : P)
  | left (t : ι)
  | right (t : ι)
  | act (t : ι) (a : A) (r : R a)

variable {ι P S A : Type*} {R : A → Type*} {exec : ι → (a : A) → R a → S → Option S}

/-- Nobody is in a call. -/
def Threads.idle (shared : S) : Threads ι S R := ⟨shared, fun _ => .ret⟩

/-- What an action does, and the answer that the caller goes on with. -/
def Threads.step [DecidableEq ι] [DecidableEq A] (exec : ι → (a : A) → R a → S → Option S) (prog : P → Prog R)
    (s : Threads ι S R) : Event ι P R → Option (Threads ι S R)
  | .call t op =>
    match s.progs t with
    | .ret => some { s with progs := Function.update s.progs t (prog op) }
    | _ => none
  | .left t =>
    match s.progs t with
    | .alt p _ => some { s with progs := Function.update s.progs t p }
    | _ => none
  | .right t =>
    match s.progs t with
    | .alt _ q => some { s with progs := Function.update s.progs t q }
    | _ => none
  | .act t a r =>
    match s.progs t with
    | .act a' k =>
      if h : a = a' then (exec t a r s.shared).map fun s' => ⟨s', Function.update s.progs t (k (h ▸ r))⟩ else none
    | _ => none

variable {s' s : Threads ι S R} {prog : P → Prog R} {l : Event ι P R}

/-- A step is an action on the shared state, or leaves it. -/
theorem Threads.shared_of_step [DecidableEq ι] [DecidableEq A] (h : s.step exec prog l = some s') :
    s'.shared = s.shared ∨ ∃ t a r, l = .act t a r ∧ exec t a r s.shared = some s'.shared := by
  cases l with
  | act t a r =>
    simp only [Threads.step] at h
    split at h
    next a' k hact =>
      split_ifs at h with ha
      subst ha
      obtain ⟨s₂, hexec, rfl⟩ := Option.map_eq_some_iff.mp h
      exact .inr ⟨t, a, r, rfl, hexec⟩
    next => cases h
  | _ =>
    simp only [Threads.step] at h
    split at h
    · cases h
      exact .inl rfl
    · cases h

/-- The step leaves the shared state. -/
def Event.Silent : Event ι P R → Prop
  | .act _ _ _ => False
  | _ => True

theorem Threads.exec_of_step [DecidableEq ι] [DecidableEq A] {t : ι} {a : A} {r : R a}
    (h : s.step exec prog (.act t a r) = some s') : exec t a r s.shared = some s'.shared := by
  simp only [Threads.step] at h
  split at h
  next a' k hact =>
    split_ifs at h with ha
    subst ha
    obtain ⟨s₂, hexec, rfl⟩ := Option.map_eq_some_iff.mp h
    exact hexec
  next => cases h

theorem Threads.shared_of_silent [DecidableEq ι] [DecidableEq A]
    (hl : l.Silent) (h : s.step exec prog l = some s') : s'.shared = s.shared := by
  rcases Threads.shared_of_step h with hsame | ⟨t, a, r, rfl, -⟩
  · exact hsame
  · exact hl.elim

/-- The calls that the runs in question start. -/
def Event.Asks (good : P → Prop) : Event ι P R → Prop
  | .call _ op => good op
  | _ => True

theorem Event.asks_any (l : Event ι P R) : l.Asks fun _ => True := by
  cases l <;> trivial

/-- What the steps of all threads keep, and what each thread may rely on. -/
structure Discipline (exec : ι → (a : A) → R a → S → Option S) where
  /-- The steps that the runs in question take. -/
  allowed : ι → (a : A) → R a → S → Prop
  inv : S → Prop
  /-- What thread `t` may rely on while the others act. -/
  rely : ι → S → S → Prop
  /-- What thread `t` has between its calls. -/
  quiet : ι → S → Prop
  rely_refl : ∀ t s, rely t s s
  rely_trans : ∀ {t s₁ s₂ s₃}, rely t s₁ s₂ → rely t s₂ s₃ → rely t s₁ s₃
  rely_of_exec : ∀ {t t' a r s s'}, t' ≠ t → exec t a r s = some s' → rely t' s s'
  quiet_of_rely : ∀ {t s s'}, rely t s s' → quiet t s → quiet t s'

namespace Discipline

variable (D : Discipline exec) {t : ι} {p q : Prog R} {s s' : S}

/-- The program keeps the invariant from here on, whatever the others do. -/
def Safe (t : ι) : Prog R → S → Prop
  | .ret, s => D.quiet t s
  | .act a k, s => ∀ s₁, D.rely t s s₁ → D.inv s₁ → ∀ r s₂, D.allowed t a r s₁ → exec t a r s₁ = some s₂ →
      D.inv s₂ ∧ Safe t (k r) s₂
  | .alt p q, s => Safe t p s ∧ Safe t q s

variable {D}

/-- Safety is kept while the others act. -/
theorem Safe.mono (h : D.Safe t p s) (hs : D.rely t s s') : D.Safe t p s' := by
  induction p with
  | ret => exact D.quiet_of_rely hs h
  | act a k _ => exact fun s₁ h₁ => h s₁ (D.rely_trans hs h₁)
  | alt p q ihp ihq => exact ⟨ihp h.1, ihq h.2⟩

theorem Safe.ret (h : D.quiet t s) : D.Safe t .ret s := h

theorem Safe.alt (hp : D.Safe t p s) (hq : D.Safe t q s) : D.Safe t (.alt p q) s := ⟨hp, hq⟩

variable (D) in
/-- Whatever the others do first, the action keeps the invariant and leaves `Q` of its answer. -/
def Ensures (t : ι) (a : A) (s : S) (Q : R a → S → Prop) : Prop :=
  ∀ s₁, D.rely t s s₁ → D.inv s₁ → ∀ r s₂, D.allowed t a r s₁ → exec t a r s₁ = some s₂ → D.inv s₂ ∧ Q r s₂

theorem Ensures.mono {a : A} {Q Q' : R a → S → Prop} (h : D.Ensures t a s Q) (hQ : ∀ r s', Q r s' → Q' r s') :
    D.Ensures t a s Q' :=
  fun s₁ h₁ hinv r s₂ hr hexec => (h s₁ h₁ hinv r s₂ hr hexec).imp_right (hQ r s₂)

/-- An action is safe when the caller goes on safely from what the action ensures. -/
theorem Safe.act {a : A} {k : R a → Prog R} {Q : R a → S → Prop} (h : D.Ensures t a s Q)
    (hk : ∀ r s', Q r s' → D.Safe t (k r) s') : D.Safe t (.act a k) s :=
  h.mono hk

/-- The steps of the runs in question. -/
def Allows (D : Discipline exec) (s : Threads ι S R) : Event ι P R → Prop
  | .act t a r => D.allowed t a r s.shared
  | _ => True

/-- The invariant holds, and every call is safe. -/
structure Kept (D : Discipline exec) (s : Threads ι S R) : Prop where
  inv : D.inv s.shared
  safe : ∀ t, D.Safe t (s.progs t) s.shared

section Steps

variable [DecidableEq ι] [DecidableEq A] {prog : P → Prog R}

omit [DecidableEq A] in
/-- A choice of a thread, or its call, leaves the shared state and the others' programs. -/
private theorem Kept.update {s : Threads ι S R} (hs : D.Kept s) (h : D.Safe t p s.shared) :
    D.Kept { s with progs := Function.update s.progs t p } where
  inv := hs.inv
  safe t' := by
    by_cases ht : t' = t
    · subst ht
      simpa using h
    · simpa [Function.update_of_ne ht] using hs.safe t'

variable {good : P → Prop}

/-- One step of a thread keeps the invariant and the safety of every call. -/
theorem Kept.step (hprog : ∀ t op s, good op → D.inv s → D.quiet t s → D.Safe t (prog op) s)
    {s s' : Threads ι S R} (hs : D.Kept s) (hl : D.Allows s l) (hasks : l.Asks good)
    (h : s.step exec prog l = some s') : D.Kept s' := by
  cases l with
  | call t op =>
    simp only [Threads.step] at h
    split at h
    next hret =>
      cases h
      have hquiet := hs.safe t
      rw [hret] at hquiet
      exact hs.update (hprog t op _ hasks hs.inv hquiet)
    next => cases h
  | left t =>
    simp only [Threads.step] at h
    split at h
    next p q halt =>
      cases h
      have hsafe := hs.safe t
      rw [halt] at hsafe
      exact hs.update hsafe.1
    next => cases h
  | right t =>
    simp only [Threads.step] at h
    split at h
    next p q halt =>
      cases h
      have hsafe := hs.safe t
      rw [halt] at hsafe
      exact hs.update hsafe.2
    next => cases h
  | act t a r =>
    simp only [Threads.step] at h
    split at h
    next a' k hact =>
      split_ifs at h with ha
      subst ha
      obtain ⟨s₂, hexec, rfl⟩ := Option.map_eq_some_iff.mp h
      have hsafe := hs.safe t
      rw [hact] at hsafe
      obtain ⟨hinv, hk⟩ := hsafe s.shared (D.rely_refl t _) hs.inv r s₂ hl hexec
      refine ⟨hinv, fun t' => ?_⟩
      by_cases ht : t' = t
      · subst ht
        simpa using hk
      · simpa [Function.update_of_ne ht] using (hs.safe t').mono (D.rely_of_exec ht hexec)
    next => cases h

variable {init : Threads ι S R → Prop} {trace : List (Event ι P R)}

/-- In every run of allowed steps and calls the invariant holds, and every call is safe. -/
theorem run_of_calls (hprog : ∀ t op s, good op → D.inv s → D.quiet t s → D.Safe t (prog op) s)
    (h0 : ∀ s, init s → D.Kept s) {s : Threads ι S R}
    (h : Run init (fun s l s' => s.step exec prog l = some s' ∧ D.Allows s l ∧ l.Asks good) trace s) : D.Kept s :=
  h.stateInvariant h0 fun _ _ _ hs hstep => hs.step hprog hstep.2.1 hstep.2.2 hstep.1

/-- In every run of allowed steps the invariant holds, and every call is safe. -/
theorem run (hprog : ∀ t op s, D.inv s → D.quiet t s → D.Safe t (prog op) s)
    (h0 : ∀ s, init s → D.Kept s) {s : Threads ι S R}
    (h : Run init (fun s l s' => s.step exec prog l = some s' ∧ D.Allows s l) trace s) : D.Kept s :=
  run_of_calls (fun t op s (_ : True) => hprog t op s) h0
    (h.imp fun _ l _ _ hstep => ⟨hstep.1, hstep.2, l.asks_any⟩)

end Steps

end Discipline

end Interleave
