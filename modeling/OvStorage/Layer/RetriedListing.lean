import Mathlib.Data.Seq.Defs
import OvStorage.Layer.Errors
import OvStorage.Layer.Retry

/-!
# A retried listing

`RetryWrapper::list_stream`: a stream is opened under one budget of attempts, and its first item is
established, when the consumer asks for it, under another. What it gives is one inner stream
(`listStream_gives`). The layer that is wrapped is what its `list_stream` calls give, in their order; the
time between two attempts is left out.
-/

namespace OvStorage.Layer

open Stateful
open Stream' (Seq)

section Loop

variable {σ α : Type}

/-- The loop of `with_retry_async`, with the attempts that are left after this one. -/
def retryAsyncLoop (operation : StateM σ (Except Error α)) : ℕ → StateM σ (Except Error α)
  | 0 => operation
  | left + 1 => do
    match ← operation with
    | .ok value => pure (.ok value)
    | .error error => if error.code.retryable then retryAsyncLoop operation left else pure (.error error)

/-- `with_retry_async`. -/
def withRetryAsync (config : RetryConfig) (operation : StateM σ (Except Error α)) : StateM σ (Except Error α) :=
  retryAsyncLoop operation (max config.maxAttempts 1 - 1)

/-- Of attempts one after another, all but the last end with an error that may be retried. -/
theorem ends_retryAsyncLoop {operation : StateM σ (Except Error α)} {f : ℕ → Except Error α} {s : ℕ → σ} (left n : ℕ)
    (hop : ∀ i, n ≤ i → operation.run (s i) = (f i, s (i + 1))) :
    Ends (retryAsyncLoop operation left) (s n) fun r t => ∃ m, n ≤ m ∧ m ≤ n + left ∧ r = f m ∧ t = s (m + 1) ∧
      (∀ i, n ≤ i → i < m → ∃ error, f i = .error error ∧ error.code.retryable = true) ∧
      ∀ error, f m = .error error → error.code.retryable = false ∨ m = n + left := by
  induction left generalizing n with
  | zero =>
    rw [Ends, retryAsyncLoop, hop n le_rfl]
    exact ⟨n, le_rfl, le_rfl, rfl, rfl, fun i hi hlt => absurd hlt (Nat.not_lt.mpr hi), fun _ _ => .inr rfl⟩
  | succ left ih =>
    rw [retryAsyncLoop, ends_bind, Ends, hop n le_rfl]
    dsimp only
    cases hf : f n with
    | ok value =>
      refine ⟨n, le_rfl, Nat.le_add_right _ _, hf.symm, rfl, fun i hi hlt => absurd hlt (Nat.not_lt.mpr hi),
        fun error h => ?_⟩
      cases hf.symm.trans h
    | error error =>
      dsimp only
      split_ifs with hretryable
      · refine (ih (n + 1) fun i hi => hop i (Nat.le_of_succ_le hi)).imp ?_
        rintro r t ⟨m, hle, hlast, hr, ht, habandoned, hended⟩
        refine ⟨m, Nat.le_of_succ_le hle,
          by omega, hr, ht, fun i hi hlt => ?_, fun e he => (hended e he).imp_right fun h => by omega⟩
        rcases Nat.eq_or_lt_of_le hi with rfl | hi
        · exact ⟨error, hf, hretryable⟩
        · exact habandoned i hi hlt
      · refine ⟨n, le_rfl, Nat.le_add_right _ _, hf.symm, rfl, fun i hi hlt => absurd hlt (Nat.not_lt.mpr hi),
          fun e he => .inl ?_⟩
        cases hf.symm.trans he
        simpa using hretryable

end Loop

variable {ι : Type}

/-- `ListStream`: what it yields until it ends. -/
abbrev ListStream (ι : Type) := Seq (Except Error ι)

/-- What the calls of the inner layer give. -/
abbrev Opens (ι : Type) := ℕ → Except Error (ListStream ι)

/-- The inner streams that have been opened, and the one that is yet to be polled. -/
structure Opening (ι : Type) where
  opens : ℕ
  initialStream : Option (ListStream ι)

/-- `list_stream` of the inner layer. -/
def innerListStream (inner : Opens ι) : StateM (Opening ι) (Except Error (ListStream ι)) := do
  let s ← get
  set ({ s with opens := s.opens + 1 } : Opening ι)
  pure (inner s.opens)

/-- The first item, put back in front of the rest. -/
def firstItem : Except Error (ListStream ι) → Except Error (ListStream ι)
  | .error error => .error error
  | .ok stream =>
    match stream.destruct with
    | some (.ok first, rest) => .ok (.cons (.ok first) rest)
    | some (.error error, _) => .error error
    | none => .ok .nil

/-- An attempt at a first item: on the stream that is open, if there is one still. -/
def establish (inner : Opens ι) : StateM (Opening ι) (Except Error (ListStream ι)) := do
  let s ← get
  set ({ s with initialStream := none } : Opening ι)
  let opened ← match s.initialStream with
    | some stream => pure (.ok stream)
    | none => innerListStream inner
  pure (firstItem opened)

/-- What the attempts at a first item come to, as a stream. -/
def established : Except Error (ListStream ι) → ListStream ι
  | .ok stream => stream
  | .error error => .cons (.error error) .nil

/-- The stream that is returned: its future is not run before the first poll. -/
inductive RetriedStream (ι : Type)
  | once (initialStream : ListStream ι)
  | flatten (stream : ListStream ι)

/-- `next` of the stream that is returned. -/
def RetriedStream.next (config : RetryConfig) (inner : Opens ι) :
    RetriedStream ι → StateM (Opening ι) (Option (Except Error ι) × RetriedStream ι)
  | .once initialStream => do
    modify fun s => { s with initialStream := some initialStream }
    let stream := established (← withRetryAsync config (establish inner))
    pure (stream.head, .flatten stream.tail)
  | .flatten stream => pure (stream.head, .flatten stream.tail)

/-- The options that a stream does not take. -/
structure ListOptions where
  maxResults : Option ℕ
  pageToken : Option String

/-- `RetryWrapper::list_stream`. -/
def listStream (config : RetryConfig) (inner : Opens ι) (options : ListOptions) :
    StateM (Opening ι) (Except Error (RetriedStream ι)) := do
  if options.maxResults.isSome ∨ options.pageToken.isSome then
    pure (.error ⟨.InvalidArgument, "list_stream does not accept max_results or page_token"⟩)
  else
    match ← withRetryAsync config (innerListStream inner) with
    | .ok stream => pure (.ok (.once stream))
    | .error error => pure (.error error)

/-- What a consumer is given that polls so often. -/
def polls (config : RetryConfig) (inner : Opens ι) :
    ℕ → RetriedStream ι → StateM (Opening ι) (List (Option (Except Error ι)))
  | 0, _ => pure []
  | k + 1, stream => do
    let (item, stream) ← stream.next config inner
    let items ← polls config inner k stream
    pure (item :: items)

/-! ### What it gives -/

/-- An attempt that ends with an error: at the open, or at the first item. -/
def Fails (attempt : Except Error (ListStream ι)) (error : Error) : Prop :=
  attempt = .error error ∨ ∃ rest, attempt = .ok (.cons (.error error) rest)

/-- An attempt after which another one may be made. -/
def Abandoned (attempt : Except Error (ListStream ι)) : Prop :=
  ∃ error, Fails attempt error ∧ error.code.retryable = true

/-- The items: those of the stream of the last attempt, none, or the error that ended it. -/
inductive Gives (last : Except Error (ListStream ι)) (exhausted : Prop) : (ℕ → Option (Except Error ι)) → Prop
  | items {stream first} : last = .ok stream → stream.get? 0 = some (.ok first) → Gives last exhausted stream.get?
  | empty : last = .ok .nil → Gives last exhausted fun _ => none
  | error {error} : Fails last error → error.code.retryable = false ∨ exhausted →
    Gives last exhausted fun k => if k = 0 then some (.error error) else none

variable {attempt : Except Error (ListStream ι)}

theorem fails_firstItem {error : Error} (h : firstItem attempt = .error error) : Fails attempt error := by
  cases attempt with
  | error e => exact .inl h
  | ok stream =>
    cases stream using Stream'.Seq.recOn with
    | nil => cases h
    | cons item rest =>
      cases item with
      | ok first => simp [firstItem] at h
      | error e =>
        obtain rfl : e = error := by simpa [firstItem] using h
        exact .inr ⟨rest, rfl⟩

theorem gives_established {exhausted : Prop}
    (h : ∀ error, firstItem attempt = .error error → error.code.retryable = false ∨ exhausted) :
    Gives attempt exhausted (established (firstItem attempt)).get? := by
  cases hfirst : firstItem attempt with
  | error error =>
    have hgives : Gives attempt exhausted _ := .error (fails_firstItem hfirst) (h error hfirst)
    convert hgives using 2 with k
    cases k <;> rfl
  | ok stream =>
    cases attempt with
    | error e => cases hfirst
    | ok opened =>
      cases opened using Stream'.Seq.recOn with
      | nil =>
        obtain rfl : .nil = stream := Except.ok.inj hfirst
        exact .empty rfl
      | cons item rest =>
        cases item with
        | ok first =>
          obtain rfl : .cons (.ok first) rest = stream := by simpa [firstItem] using hfirst
          exact .items rfl rfl
        | error e => simp [firstItem] at hfirst

variable {config : RetryConfig} {inner : Opens ι}

/-- The attempts at a first item begin with the stream that is open. -/
theorem run_establish {n i : ℕ} {stream : ListStream ι} (hopen : inner n = .ok stream) (hi : n ≤ i) :
    (establish inner).run (if i = n then ⟨n + 1, some stream⟩ else ⟨i, none⟩) =
      (firstItem (inner i), if i + 1 = n then ⟨n + 1, some stream⟩ else ⟨i + 1, none⟩) := by
  rw [if_neg (Nat.ne_of_gt (Nat.lt_succ_of_le hi))]
  split_ifs with heq
  · rw [heq, hopen]
    rfl
  · rfl

/-- What is established is forwarded, and nothing is opened any more. -/
theorem polls_flatten (k : ℕ) (stream : ListStream ι) (s : Opening ι) :
    (polls config inner k (.flatten stream)).run s = ((List.range k).map stream.get?, s) := by
  induction k generalizing stream with
  | zero => rfl
  | succ k ih =>
    change (stream.head :: ((polls config inner k (.flatten stream.tail)).run s).1,
      ((polls config inner k (.flatten stream.tail)).run s).2) = _
    rw [ih, List.range_succ_eq_map, List.map_cons, List.map_map]
    rfl

/-- A call that is refused opens nothing; one that fails ends with the error of its last open, which is not retried or
is the last of its attempts; and the stream of one that succeeds gives what one attempt gives, the last one, however
often it is polled. -/
theorem listStream_gives (config : RetryConfig) (inner : Opens ι) (options : ListOptions) :
    Ends (listStream config inner options) ⟨0, none⟩ fun r s =>
      if options.maxResults.isSome ∨ options.pageToken.isSome then
        r = .error ⟨.InvalidArgument, "list_stream does not accept max_results or page_token"⟩ ∧ s.opens = 0
      else ∃ n, s.opens = n + 1 ∧ n + 1 ≤ max config.maxAttempts 1 ∧ (∀ i < n, Abandoned (inner i)) ∧
        ((∃ error, r = .error error ∧ inner n = .error error ∧
          (error.code.retryable = false ∨ n + 1 = max config.maxAttempts 1)) ∨
          ∃ stream, r = .ok stream ∧ ∃ m given, n ≤ m ∧ m + 1 ≤ 2 * max config.maxAttempts 1 - 1 ∧
          (∀ i < m, Abandoned (inner i)) ∧
            Gives (inner m) (m + 1 = n + max config.maxAttempts 1) given ∧
            ∀ k, 0 < k → Ends (polls config inner k stream) s fun items s' => items = (List.range k).map given ∧
            s'.opens = m + 1) := by
  rw [listStream]
  split_ifs with hoptions
  · exact ⟨rfl, rfl⟩
  have hpos : 0 < max config.maxAttempts 1 := by omega
  rw [ends_bind]
  refine (ends_retryAsyncLoop (f := inner) (s := fun i => (⟨i, none⟩ : Opening ι)) _ 0 fun _ _ => rfl).imp ?_
  rintro r s ⟨n, -, hlast, rfl, rfl, habandoned, hended⟩
  have hbefore : ∀ i < n, Abandoned (inner i) :=
    fun i hi => (habandoned i (Nat.zero_le i) hi).imp fun _ h => ⟨.inl h.1, h.2⟩
  cases hn : inner n with
  | error error =>
    exact ⟨n, rfl, by omega, hbefore, .inl ⟨error, rfl, hn, (hended error hn).imp_right fun h => by omega⟩⟩
  | ok opened =>
    refine ⟨n, rfl, by omega, hbefore, .inr ⟨.once opened, rfl, ?_⟩⟩
    obtain ⟨m, hle, hbound, hr, hs, hfirst, hgives⟩ :=
      ends_retryAsyncLoop (f := fun i => firstItem (inner i)) (max config.maxAttempts 1 - 1) n fun i hi =>
        run_establish hn hi
    refine ⟨m, _, hle, by omega, fun i hi => ?_,
      gives_established fun e he => (hgives e he).imp_right fun h => by omega, fun k hk => ?_⟩
    · rcases Nat.lt_or_ge i n with hi' | hi'
      · exact hbefore i hi'
      · exact (hfirst i hi' hi).imp fun _ h => ⟨fails_firstItem h.1, h.2⟩
    · obtain ⟨k, rfl⟩ := Nat.exists_eq_succ_of_ne_zero (Nat.ne_of_gt hk)
      have hrun : (withRetryAsync config (establish inner)).run ⟨n + 1, some opened⟩ =
          (firstItem (inner m), ⟨m + 1, none⟩) := by
        rw [if_pos rfl] at hr hs
        exact Prod.ext hr (hs.trans (if_neg (Nat.ne_of_gt (Nat.lt_succ_of_le hle))))
      change Ends (polls config inner (k + 1) (.once opened)) ⟨n + 1, none⟩ _
      rw [polls, ends_bind, RetriedStream.next, ends_bind, ends_modify, ends_bind, Ends, hrun, ends_pure, ends_bind,
        Ends, polls_flatten]
      refine ⟨?_, rfl⟩
      rw [List.range_succ_eq_map, List.map_cons, List.map_map]
      rfl

end OvStorage.Layer
