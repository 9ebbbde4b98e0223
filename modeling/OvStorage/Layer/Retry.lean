import OvStorage.Lib.Stateful

/-!
# Retries

`with_http_retry_async` over an operation with a state. The time between two attempts, and the number
of the attempt that the operation is told, are of no effect on what its callers do.
-/

namespace OvStorage.Layer

open Stateful

/-- `RetryConfig`. -/
structure RetryConfig where
  maxAttempts : ℕ

/-- `RetryStep`. -/
inductive RetryStep (ε α : Type) where
  | done (value : α)
  | failed (error : ε)
  | retryAfter (error : ε)

variable {σ ε α : Type}

/-- The loop of `with_http_retry_async`, with the attempts that are left after this one. -/
def retryLoop (operation : StateM σ (RetryStep ε α)) : ℕ → StateM σ (Except ε α)
  | 0 => do
    match ← operation with
    | .done value => pure (.ok value)
    | .failed error => pure (.error error)
    | .retryAfter error => pure (.error error)
  | left + 1 => do
    match ← operation with
    | .done value => pure (.ok value)
    | .failed error => pure (.error error)
    | .retryAfter _ => retryLoop operation left

/-- `with_http_retry_async`. -/
def withHttpRetryAsync (config : RetryConfig) (operation : StateM σ (RetryStep ε α)) : StateM σ (Except ε α) :=
  retryLoop operation (max config.maxAttempts 1 - 1)

/-- What an attempt leaves: `inv` where it is tried again, and what holds of the values and of the errors. -/
def RetryStep.Leaves (inv : σ → Prop) (ok : α → σ → Prop) (error : ε → σ → Prop) : RetryStep ε α → σ → Prop
  | .done value, t => ok value t
  | .failed e, t => error e t
  | .retryAfter e, t => inv t ∧ error e t

/-- What holds of the values and of the errors. -/
def Returns (ok : α → σ → Prop) (error : ε → σ → Prop) : Except ε α → σ → Prop
  | .ok value, t => ok value t
  | .error e, t => error e t

variable {operation : StateM σ (RetryStep ε α)} {inv : σ → Prop} {ok : α → σ → Prop} {error : ε → σ → Prop}

/-- What every attempt keeps where it is tried again holds of the last one. -/
theorem ends_retryLoop (hstep : ∀ s, inv s → Ends operation s (RetryStep.Leaves inv ok error)) (left : ℕ) {s : σ}
    (hinv : inv s) :
    Ends (retryLoop operation left) s (Returns ok error) := by
  induction left generalizing s with
  | zero =>
    rw [retryLoop, ends_bind]
    refine (hstep s hinv).imp fun step t hpost => ?_
    cases step with
    | done value => exact hpost
    | failed e => exact hpost
    | retryAfter e => exact hpost.2
  | succ left ih =>
    rw [retryLoop, ends_bind]
    refine (hstep s hinv).imp fun step t hpost => ?_
    cases step with
    | done value => exact hpost
    | failed e => exact hpost
    | retryAfter e => exact ih hpost.1

theorem ends_withHttpRetryAsync {config : RetryConfig}
    (hstep : ∀ s, inv s → Ends operation s (RetryStep.Leaves inv ok error)) {s : σ} (hinv : inv s) :
    Ends (withHttpRetryAsync config operation) s (Returns ok error) :=
  ends_retryLoop hstep _ hinv

/-- An operation that is done at once is not tried again. -/
theorem ends_retryLoop_done {post : Except ε α → σ → Prop} {left : ℕ} {s : σ}
    (h : Ends operation s fun step t => ∃ value, step = .done value ∧ post (.ok value) t) :
    Ends (retryLoop operation left) s post := by
  cases left with
  | zero =>
    rw [retryLoop, ends_bind]
    refine h.imp ?_
    rintro step t ⟨value, rfl, hpost⟩
    exact hpost
  | succ left =>
    rw [retryLoop, ends_bind]
    refine h.imp ?_
    rintro step t ⟨value, rfl, hpost⟩
    exact hpost

end OvStorage.Layer
