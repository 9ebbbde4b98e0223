import OvStorage.ByteCache.TeeGenerations

/-!
# What a tee does to its stream, and when it commits

The caller of `tee_into_cache` gets what the inner stream gives (`Served`). The fill is committed where the stream
ended while all was staged, with the size that was declared and no bump of the address up to there (`Ready`).

A tee that goes on without its fill passes on what follows an error, where one with a fill ends the stream. And the
check of the generation is one thing and the commit another: a mutation between them does not stop the commit
(`fidelity_fails`).
-/

namespace OvStorage.ByteCache.Tees

open List

variable {ι ε : Type*} [DecidableEq ι]

/-! ### The properties -/

section Properties

variable (t : ι) (request : TeeRequest) (during : List (TeeStep ι ε))

/-- What the inner stream answers the tee with. -/
def answers : List (Next ε) :=
  during.filterMap fun
    | .next t' _ _ answer => if t' = t then some answer else none
    | _ => none

/-- All the chunks, one after another. -/
def body (answers : List (Next ε)) : List UInt8 :=
  answers.flatMap fun
    | some (.ok chunk) => chunk
    | _ => []

/-- The staging of a chunk, where the step passes one on. -/
def stageChunk (put : StreamingPut) : TeeStep ι ε → Option StreamingPut
  | .next t' reservedBytes written (some (.ok chunk)) =>
    if t' = t then put.writeChunk reservedBytes written chunk else some put
  | _ => some put

/-- The fill with all the chunks, unless the staging of one fails. -/
def staged : Option StreamingPut := during.foldlM (stageChunk t) request.beginStreamingPut

/-- The stream ends with all of it staged, the declared size and no bump of the address up to there. -/
def Ready : Prop :=
  ∃ upTo reservedBytes written since, during = upTo ++ .next t reservedBytes written none :: since ∧
    (staged t request upTo).isSome ∧
      (∀ size ∈ request.expectedSize, min (body (answers t upTo)).length Word64.max = size) ∧
    ∀ l ∈ upTo, ¬l.Bumps request.address

/-- The commit waits to be made, or its record to be written. -/
def Finishing : TeeStage → Prop
  | .committing _ => True
  | .recording _ => True
  | _ => False

/-- No more is asked of a stream after its end, nor after an error by a tee that has its fill. -/
structure Stops (intact : Prop) (answers : List (Next ε)) : Prop where
  ended : ∀ before after, answers = before ++ none :: after → after = []
  stopped : intact → ∀ before error after, answers = before ++ some (.error error) :: after → after = []

/-- What the caller has been given, by what the inner stream has answered. -/
structure Served (stage : TeeStage) (given : List (Next ε)) : Prop where
  /-- Each answer; the end after an error; all but the end, while the commit holds it back or since the stream
  was dropped meanwhile. -/
  given : given = answers t during ∨
    (given = answers t during ++ [none] ∧ (staged t request during).isSome ∧
      ∃ error, (answers t during).getLast? = some (some (.error error))) ∨
    (answers t during = given ++ [none] ∧ (Finishing stage ∨ .drop t ∈ during))
  stops : Stops (staged t request during).isSome (answers t during)

/-- The tee has its fill, and neither an error, nor its end, nor a drop has come. -/
def Live (given : List (Next ε)) : Prop :=
  (staged t request during).isSome ∧ (∀ error, some (.error error) ∉ answers t during) ∧ none ∉ given ∧ .drop t ∉ during

/-- The commit of the fill is made once, of a fill that is ready, and gives the row all the chunks. -/
structure Commits (w : Tees ι ε) : Prop where
  enabled : (∃ w', w.step (.commit t true) = some w') ↔ Ready t request during ∧
    ∀ committed, .commit t committed ∉ during
  ready : ∀ committed, .commit t committed ∈ during → Ready t request during
  row : ∀ w', w.step (.commit t true) = some w' → w'.entries request.resolvedTarget = some (body (answers t during))

end Properties

/-! ### A step more -/

section Append

variable {t : ι} {request : TeeRequest} {during : List (TeeStep ι ε)} {l : TeeStep ι ε} {put : StreamingPut}

theorem answers_append : answers t (during ++ [l]) = answers t during ++ answers t [l] := filterMap_append

theorem staged_append : staged t request (during ++ [l]) = (staged t request during).bind (stageChunk t · l) := by
  rw [staged, foldlM_append]
  exact congrArg _ (funext fun put => bind_pure _)

theorem answers_other (h : l.who ≠ some t) : answers t [l] = [] := by
  cases l with
  | next t' reservedBytes written answer =>
    have hne : t' ≠ t := fun heq => h (congrArg some heq)
    simp [answers, hne]
  | _ => rfl

theorem stageChunk_other (h : l.who ≠ some t) : stageChunk t put l = some put := by
  cases l with
  | next t' reservedBytes written answer =>
    have hne : t' ≠ t := fun heq => h (congrArg some heq)
    match answer with
    | some (.ok chunk) => exact if_neg hne
    | some (.error error) => rfl
    | none => rfl
  | _ => rfl

theorem body_append {xs ys : List (Next ε)} : body (xs ++ ys) = body xs ++ body ys := flatMap_append

variable {put' : StreamingPut}

omit [DecidableEq ι] in
theorem writeChunk_eq_some {reservedBytes : ℕ} {written : Bool} {chunk : List UInt8}
    (h : put.writeChunk reservedBytes written chunk = some put') :
    ∃ staged reservation, put.file = some staged ∧ put' = { put with
      file := some (staged ++ chunk), size := Word64.saturatingAdd put.size chunk.length, reservation } := by
  unfold StreamingPut.writeChunk at h
  split at h
  · cases h
  · next staged hstaged =>
    dsimp only at h
    split_ifs at h
    · split at h
      · cases h
      · next reservation _ => exact ⟨staged, reservation, hstaged, (Option.some.inj h).symm⟩
    · split at h
      · cases h
      · cases h

/-- The staging of a step's chunk, if it has one. -/
theorem stageChunk_cases (h : stageChunk t put l = some put') :
    (put' = put ∧ body (answers t [l]) = []) ∨ ∃ reservedBytes written chunk,
      l = .next t reservedBytes written (some (.ok chunk)) ∧
      put.writeChunk reservedBytes written chunk = some put' := by
  by_cases hl : l.who = some t
  · cases l with
    | next t' reservedBytes written answer =>
      cases hl
      match answer, h with
      | some (.ok chunk), h => exact .inr ⟨reservedBytes, written, chunk, rfl, (if_pos rfl).symm.trans h⟩
      | some (.error error), h => exact .inl ⟨(Option.some.inj h).symm, by simp [answers, body]⟩
      | none, h => exact .inl ⟨(Option.some.inj h).symm, by simp [answers, body]⟩
    | _ => exact .inl ⟨(Option.some.inj h).symm, rfl⟩
  · rw [stageChunk_other hl] at h
    exact .inl ⟨(Option.some.inj h).symm, by rw [answers_other hl]; rfl⟩

/-- What is staged is what has been passed on. -/
theorem staged_spec (h : staged t request during = some put) :
    put.resolvedTarget = request.resolvedTarget ∧ put.file = some (body (answers t during)) ∧
      put.stagedLen = min (body (answers t during)).length Word64.max := by
  induction during using List.reverseRecOn generalizing put with
  | nil =>
    cases h
    exact ⟨rfl, rfl, (Nat.zero_min _).symm⟩
  | append_singleton during l ih =>
    rw [staged_append] at h
    obtain ⟨put₀, hput₀, hchunk⟩ := Option.bind_eq_some_iff.mp h
    obtain ⟨htarget, hfile, hlen⟩ := ih hput₀
    rw [answers_append, body_append]
    rcases stageChunk_cases hchunk with ⟨rfl, hbody⟩ | ⟨reservedBytes, written, chunk, rfl, hwrite⟩
    · rw [hbody, append_nil]
      exact ⟨htarget, hfile, hlen⟩
    · obtain ⟨before, reservation, hbefore, rfl⟩ := writeChunk_eq_some hwrite
      cases hbefore.symm.trans hfile
      have hbody : body (answers t [(.next t reservedBytes written (some (.ok chunk)) : TeeStep ι ε)]) = chunk := by
        simp [answers, body]
      refine ⟨htarget, by rw [hbody], ?_⟩
      change Word64.saturatingAdd put₀.stagedLen chunk.length = _
      rw [hlen, hbody, length_append, Word64.saturatingAdd]
      omega

theorem ready_append : Ready t request (during ++ [l]) ↔ Ready t request during ∨
    (∃ reservedBytes written, l = .next t reservedBytes written none) ∧ (staged t request during).isSome ∧
      (∀ size ∈ request.expectedSize, min (body (answers t during)).length Word64.max = size) ∧
      ∀ l ∈ during, ¬l.Bumps request.address := by
  constructor
  · rintro ⟨upTo, reservedBytes, written, since, hsplit, hready⟩
    rcases eq_nil_or_concat since with rfl | ⟨since, l', rfl⟩
    · obtain ⟨rfl, hlast⟩ := append_inj' hsplit rfl
      exact .inr ⟨⟨reservedBytes, written, singleton_inj.mp hlast⟩, hready⟩
    · have hsplit' : during ++ [l] = (upTo ++ .next t reservedBytes written none :: since) ++
        [l'] := by simpa using hsplit
      exact .inl ⟨upTo, reservedBytes, written, since, (append_inj' hsplit' rfl).1, hready⟩
  · rintro (⟨upTo, reservedBytes, written, since, rfl, hready⟩ | ⟨⟨reservedBytes, written, rfl⟩, hready⟩)
    · exact ⟨upTo, reservedBytes, written, since ++ [l], by simp, hready⟩
    · exact ⟨during, reservedBytes, written, [], rfl, hready⟩

theorem ready_other (h : ∀ reservedBytes written, l ≠ .next t reservedBytes written none) :
    Ready t request (during ++ [l]) ↔ Ready t request during := by
  refine ready_append.trans (or_iff_left ?_)
  rintro ⟨⟨reservedBytes, written, hl⟩, -⟩
  exact h reservedBytes written hl

end Append

/-! ### The life of a tee -/

section Life

variable {t : ι} {request : TeeRequest} {during : List (TeeStep ι ε)} {given : List (Next ε)} {l : TeeStep ι ε}

def Chunks (answers : List (Next ε)) : Prop := ∀ answer ∈ answers, ∃ chunk, answer = some (.ok chunk)

/-- A tee that has come to its end, one way or another. -/
structure Over (t : ι) (request : TeeRequest) (during : List (TeeStep ι ε)) (given : List (Next ε))
    (put : Option StreamingPut) :
    Prop where
  served : Served t request during (.over put) given
  dead : ¬Live t request during given
  pending : ∀ p ∈ put, staged t request during = some p ∧ Ready t request during ∧
    ∀ committed, .commit t committed ∉ during
  settled : put = none → Ready t request during → ∃ committed, .commit t committed ∈ during
  ready : ∀ committed, .commit t committed ∈ during → Ready t request during

/-- Where a tee is, by what it has done. -/
def Phase (t : ι) (request : TeeRequest) (during : List (TeeStep ι ε)) (given : List (Next ε)) : TeeStage → Prop
  | .teeing tee => tee.address = request.address ∧ tee.expectedSize = request.expectedSize ∧
      staged t request during = some tee.put ∧ given = answers t during ∧ Chunks given ∧
      .drop t ∉ during ∧ ∀ committed, .commit t committed ∉ during
  | .committing tee => staged t request during = some tee.put ∧ answers t during = given ++ [none] ∧ Chunks given ∧
      Ready t request during ∧ .drop t ∉ during ∧ ∀ committed, .commit t committed ∉ during
  | .recording tee => staged t request during = some tee.put ∧ answers t during = given ++ [none] ∧ Chunks given ∧
      Ready t request during ∧ .drop t ∉ during ∧ .commit t true ∈ during
  | .passthrough => staged t request during = none ∧ given = answers t during ∧ none ∉ given ∧
      ∀ committed, .commit t committed ∉ during
  | .done => (staged t request during).isSome ∧ given = answers t during ∧
      (∃ chunks error, Chunks chunks ∧ given = chunks ++ [some (.error error)]) ∧
        ∀ committed, .commit t committed ∉ during
  | .over put => Over t request during given put
  | _ => False

omit [DecidableEq ι] in
theorem mem_other {x : TeeStep ι ε} (h : l.who ≠ some t) (hx : x.who = some t) : x ∈ during ++ [l] ↔ x ∈ during := by
  refine mem_append.trans (or_iff_left fun hlast => h ?_)
  rwa [← mem_singleton.mp hlast]

/-- A step of another leaves a tee where it is. -/
theorem phase_other {stage : TeeStage} (h : l.who ≠ some t) (hphase : Phase t request during given stage) :
    Phase t request (during ++ [l]) given stage := by
  have hanswers : answers t (during ++ [l]) = answers t during := by
    rw [answers_append, answers_other h, append_nil]
  have hstaged : staged t request (during ++ [l]) = staged t request during := by
    rw [staged_append]
    cases staged t request during with
    | none => rfl
    | some put => exact stageChunk_other h
  have hready : Ready t request (during ++ [l]) ↔ Ready t request during := by
    refine ready_other fun reservedBytes written hl => h ?_
    rw [hl]
    rfl
  have hcommit : ∀ committed, TeeStep.commit t committed ∈ during ++ [l] ↔ .commit t committed ∈ during :=
    fun committed => mem_other h rfl
  have hdrop : TeeStep.drop t ∈ during ++ [l] ↔ .drop t ∈ during := mem_other h rfl
  match stage, hphase with
  | .teeing tee, hphase => simpa only [Phase, hanswers, hstaged, hcommit, hdrop] using hphase
  | .committing tee, hphase => simpa only [Phase, hanswers, hstaged, hready, hcommit, hdrop] using hphase
  | .recording tee, hphase => simpa only [Phase, hanswers, hstaged, hready, hcommit, hdrop] using hphase
  | .passthrough, hphase => simpa only [Phase, hanswers, hstaged, hcommit] using hphase
  | .done, hphase => simpa only [Phase, hanswers, hstaged, hcommit] using hphase
  | .over put, hphase =>
    obtain ⟨⟨hgiven, hstops⟩, hdead, hpending, hsettled, hready'⟩ := hphase
    refine ⟨⟨?_, ?_⟩, ?_, ?_, ?_, ?_⟩
    · simpa only [hanswers, hstaged, hdrop] using hgiven
    · simpa only [hanswers, hstaged] using hstops
    · simpa only [Live, hanswers, hstaged, hdrop] using hdead
    · simpa only [hstaged, hready, hcommit] using hpending
    · simpa only [hready, hcommit] using hsettled
    · simpa only [hready, hcommit] using hready'

/-! ### The steps of a tee -/

section Stops

variable {xs : List (Next ε)} {intact : Prop}

theorem Chunks.none_notMem (h : Chunks xs) : none ∉ xs := fun hmem => by
  obtain ⟨chunk, hchunk⟩ := h _ hmem
  cases hchunk

theorem Chunks.error_notMem (h : Chunks xs) (error : ε) : some (.error error) ∉ xs := fun hmem => by
  obtain ⟨chunk, hchunk⟩ := h _ hmem
  cases hchunk

theorem Stops.of_items (hnone : none ∉ xs) (herror : intact → ∀ error, some (.error error) ∉ xs) : Stops intact xs :=
  ⟨fun _ _ hsplit => absurd (hsplit ▸ by simp) hnone, fun hintact _ error _ hsplit =>
    absurd (hsplit ▸ by simp) (herror hintact error)⟩

/-- What is not among the first items is at most the last. -/
private theorem last_of_notMem {α : Type*} {xs before after : List α} {x y : α}
    (hsplit : xs ++ [y] = before ++ x :: after) (hx : x ∉ xs) : after = [] := by
  rcases eq_nil_or_concat after with rfl | ⟨after, z, rfl⟩
  · rfl
  · have hsplit' : xs ++ [y] = (before ++ x :: after) ++ [z] := by simpa using hsplit
    exact absurd ((append_inj' hsplit' rfl).1 ▸ by simp) hx

theorem Stops.of_last {answer : Next ε} (hnone : none ∉ xs) (herror : intact → ∀ error, some (.error error) ∉ xs) :
    Stops intact (xs ++ [answer]) :=
  ⟨fun _ _ hsplit => last_of_notMem hsplit hnone, fun hintact _ error _ hsplit =>
    last_of_notMem hsplit (herror hintact error)⟩

end Stops

/-- A stream that has not ended is not ready. -/
theorem not_ready (h : none ∉ answers t during) : ¬Ready t request during := by
  rintro ⟨upTo, reservedBytes, written, since, rfl, -⟩
  exact h (by simp [answers])

theorem not_live (h : .drop t ∈ during) : ¬Live t request during given := fun hlive => hlive.2.2.2 h

section Quiet

/-- The step asks nothing of the inner stream. -/
def Quiet : TeeStep ι ε → Prop
  | .next _ _ _ _ => False
  | _ => True

variable (h : Quiet l)
include h

theorem answers_quiet : answers t (during ++ [l]) = answers t during := by
  rw [answers_append]
  cases l with
  | next _ _ _ _ => exact h.elim
  | _ => exact append_nil _

theorem staged_quiet : staged t request (during ++ [l]) = staged t request during := by
  rw [staged_append]
  cases l with
  | next _ _ _ _ => exact h.elim
  | _ => exact Option.bind_fun_some _

theorem ready_quiet : Ready t request (during ++ [l]) ↔ Ready t request during :=
  ready_other fun _ _ hl => by rwa [hl] at h

end Quiet

section Next

variable {reservedBytes : ℕ} {written : Bool} {chunk : List UInt8} {error : ε} {item : Except ε (List UInt8)}
  {answer : Next ε}
  {tee : TeeState} {put : StreamingPut}

theorem answers_next : answers t (during ++ [.next t reservedBytes written answer]) = answers t during ++ [answer] := by
  simp [answers]

theorem staged_chunk : staged t request (during ++ [.next t reservedBytes written (some (.ok chunk))]) =
    (staged t request during).bind (·.writeChunk reservedBytes written chunk) := by
  simp [staged_append, stageChunk]

theorem staged_error : staged t request (during ++ [.next t reservedBytes written (some (.error error))]) =
    staged t request during :=
  staged_append.trans (Option.bind_fun_some _)

theorem staged_end :
    staged t request (during ++ [(.next t reservedBytes written none : TeeStep ι ε)]) = staged t request during :=
  staged_append.trans (Option.bind_fun_some _)

theorem Chunks.snoc {xs : List (Next ε)} (h : Chunks xs) : Chunks (xs ++ [some (.ok chunk)]) := by
  intro answer hanswer
  rcases mem_append.mp hanswer with hmem | hmem
  · exact h answer hmem
  · exact ⟨chunk, mem_singleton.mp hmem⟩

omit [DecidableEq ι] in
theorem drop_next : .drop t ∈ during ++ [.next t reservedBytes written answer] ↔ .drop t ∈ during := by simp

omit [DecidableEq ι] in
theorem not_commit_next (h : ∀ committed, .commit t committed ∉ during) (committed : Bool) :
    .commit t committed ∉ during ++ [.next t reservedBytes written answer] := by simpa using h committed

theorem Phase.pass (hphase : Phase t request during given (.teeing tee))
    (write : tee.put.writeChunk reservedBytes written chunk = some put) :
    Phase t request (during ++ [.next t reservedBytes written (some (.ok chunk))]) (given ++ [some (.ok chunk)])
      (.teeing { tee with put }) := by
  obtain ⟨haddress, hsize, hstaged, rfl, hchunks, hdrop, hcommit⟩ := hphase
  refine ⟨haddress, hsize, ?_, answers_next.symm, hchunks.snoc, ?_, not_commit_next hcommit⟩
  · rw [staged_chunk, hstaged]
    exact write
  · rwa [drop_next]

theorem Phase.abandon (hphase : Phase t request during given (.teeing tee))
    (write : tee.put.writeChunk reservedBytes written chunk = none) :
    Phase t request (during ++ [.next t reservedBytes written (some (.ok chunk))]) (given ++ [some (.ok chunk)])
      .passthrough := by
  obtain ⟨-, -, hstaged, rfl, hchunks, -, hcommit⟩ := hphase
  refine ⟨?_, answers_next.symm, hchunks.snoc.none_notMem, not_commit_next hcommit⟩
  · rw [staged_chunk, hstaged]
    exact write

theorem Phase.fail (hphase : Phase t request during given (.teeing tee)) :
    Phase t request (during ++ [.next t reservedBytes written (some (.error error))])
      (given ++ [some (.error error)]) .done := by
  obtain ⟨-, -, hstaged, rfl, hchunks, -, hcommit⟩ := hphase
  refine ⟨?_, answers_next.symm, ⟨_, error, hchunks, rfl⟩, not_commit_next hcommit⟩
  · rw [staged_error, hstaged, Option.isSome_some]

/-- The size check, by what has been passed on. -/
theorem sizeOk_iff (hphase : Phase t request during given (.teeing tee)) :
    tee.sizeOk = true ↔ ∀ size ∈ request.expectedSize, min (body (answers t during)).length Word64.max = size := by
  obtain ⟨-, hsize, hstaged, -⟩ := hphase
  rw [TeeState.sizeOk, hsize, (staged_spec hstaged).2.2]
  cases request.expectedSize <;> simp

theorem Phase.accept (hphase : Phase t request during given (.teeing tee)) (size : tee.sizeOk = true)
    (hquiet : ∀ l ∈ during, ¬l.Bumps request.address) :
    Phase t request (during ++ [(.next t reservedBytes written none : TeeStep ι ε)]) given (.committing tee) := by
  have hsize := (sizeOk_iff hphase).mp size
  obtain ⟨-, -, hstaged, rfl, hchunks, hdrop, hcommit⟩ := hphase
  refine ⟨staged_end.trans hstaged, answers_next, hchunks, ?_, ?_, not_commit_next hcommit⟩
  · exact ready_append.mpr (.inr ⟨⟨_, _, rfl⟩, by rw [hstaged, Option.isSome_some], hsize, hquiet⟩)
  · rwa [drop_next]

theorem Phase.discard (hphase : Phase t request during given (.teeing tee))
    (stale : ¬(tee.sizeOk = true ∧ ∀ l ∈ during, ¬l.Bumps request.address)) :
    Phase t request (during ++ [(.next t reservedBytes written none : TeeStep ι ε)]) (given ++ [none])
      (.over none) := by
  have hsize := sizeOk_iff hphase
  obtain ⟨-, -, hstaged, rfl, hchunks, hdrop, hcommit⟩ := hphase
  have hready : ¬Ready t request (during ++ [(.next t reservedBytes written none : TeeStep ι ε)]) := by
    rw [ready_append]
    rintro (hbefore | ⟨-, -, hlen, hquiet⟩)
    · exact not_ready hchunks.none_notMem hbefore
    · exact stale ⟨hsize.mpr hlen, hquiet⟩
  refine ⟨⟨.inl answers_next.symm, ?_⟩, fun hlive => hlive.2.2.1 (by simp), nofun, fun _ h => absurd h hready,
    fun committed h => absurd h (not_commit_next hcommit committed)⟩
  rw [answers_next]
  exact .of_last hchunks.none_notMem fun _ => hchunks.error_notMem

theorem Phase.forward (hphase : Phase t request during given .passthrough) :
    Phase t request (during ++ [.next t reservedBytes written (some item)]) (given ++ [some item]) .passthrough := by
  obtain ⟨hstaged, rfl, hnone, hcommit⟩ := hphase
  refine ⟨?_, answers_next.symm, by simpa using hnone, not_commit_next hcommit⟩
  · rw [staged_append, hstaged]
    rfl

theorem Phase.forwardEnd (hphase : Phase t request during given .passthrough) :
    Phase t request (during ++ [(.next t reservedBytes written none : TeeStep ι ε)]) (given ++ [none])
      (.over none) := by
  obtain ⟨hstaged, rfl, hnone, hcommit⟩ := hphase
  have hready : ¬Ready t request (during ++ [(.next t reservedBytes written none : TeeStep ι ε)]) := by
    rw [ready_append, hstaged]
    rintro (hbefore | ⟨-, hnot, -⟩)
    · exact not_ready hnone hbefore
    · cases hnot
  refine ⟨⟨.inl answers_next.symm, ?_⟩, fun hlive => hlive.2.2.1 (by simp), nofun, fun _ h => absurd h hready,
    fun committed h => absurd h (not_commit_next hcommit committed)⟩
  rw [answers_next, staged_end, hstaged]
  exact .of_last hnone nofun

end Next

section Rest

variable {tee : TeeState} {put : StreamingPut} {committed : Bool}

/-- The stream of a tee goes that had come to its clean end. -/
theorem over_of_end {given₀ : List (Next ε)} (hanswers : answers t during = given₀ ++ [none]) (hchunks : Chunks given₀)
    (hready : Ready t request during) (hcommit : ∃ committed, .commit t committed ∈ during)
    (hgiven : given = given₀ ++ [none] ∨ given = given₀ ∧ .drop t ∈ during) : Over t request during given none := by
  refine ⟨⟨?_, ?_⟩, ?_, nofun, fun _ _ => hcommit, fun _ _ => hready⟩
  · rcases hgiven with rfl | ⟨rfl, hdrop⟩
    · exact .inl hanswers.symm
    · exact .inr (.inr ⟨hanswers, .inr hdrop⟩)
  · rw [hanswers]
    exact .of_last hchunks.none_notMem fun _ => hchunks.error_notMem
  · rcases hgiven with rfl | ⟨rfl, hdrop⟩
    · exact fun hlive => hlive.2.2.1 (by simp)
    · exact not_live hdrop

/-- The stream of a tee is dropped before its end. -/
theorem over_of_drop (hgiven : given = answers t during) (hnone : none ∉ given) (hdrop : .drop t ∈ during)
    (hcommit : ∀ committed, .commit t committed ∉ during) (hstops : Stops (staged t request during).isSome given) :
    Over t request during given none := by
  subst hgiven
  exact ⟨⟨.inl rfl, hstops⟩, not_live hdrop, nofun, fun _ hready => absurd hready (not_ready hnone),
    fun committed h => absurd h (hcommit committed)⟩

theorem Phase.finish (hphase : Phase t request during given .done) :
    Phase t request (during ++ [.finish t]) (given ++ [none]) (.over none) := by
  obtain ⟨hstaged, rfl, ⟨chunks, error, hchunks, hgiven⟩, hcommit⟩ := hphase
  have hnone : none ∉ answers t during := by
    rw [hgiven]
    simpa using hchunks.none_notMem
  refine ⟨⟨.inr (.inl ⟨?_, ?_, error, ?_⟩), ?_⟩, fun hlive => hlive.2.2.1 (by simp), nofun, fun _ h => ?_,
    fun committed h => ?_⟩
  · rw [answers_quiet (by trivial)]
  · rwa [staged_quiet (by trivial)]
  · rw [answers_quiet (by trivial), hgiven, List.getLast?_concat]
  · rw [answers_quiet (by trivial), hgiven]
    exact .of_last hchunks.none_notMem fun _ => hchunks.error_notMem
  · exact absurd ((ready_quiet (by trivial)).mp h) (not_ready hnone)
  · exact absurd (by simpa using h) (hcommit committed)

theorem Phase.commit (hphase : Phase t request during given (.committing tee)) :
    Phase t request (during ++ [.commit t true]) given (.recording tee) := by
  obtain ⟨hstaged, hanswers, hchunks, hready, hdrop, hcommit⟩ := hphase
  exact ⟨(staged_quiet (by trivial)).trans hstaged, (answers_quiet (by trivial)).trans hanswers, hchunks,
    (ready_quiet (by trivial)).mpr hready,
    by simpa using hdrop, by simp⟩

theorem Phase.commitFails (hphase : Phase t request during given (.committing tee)) :
    Phase t request (during ++ [.commit t false]) (given ++ [none]) (.over none) := by
  obtain ⟨hstaged, hanswers, hchunks, hready, hdrop, hcommit⟩ := hphase
  exact over_of_end ((answers_quiet (by trivial)).trans hanswers) hchunks
    ((ready_quiet (by trivial)).mpr hready) ⟨false, by simp⟩ (.inl rfl)

theorem Phase.commitAlone (hphase : Phase t request during given (.over (some put))) :
    Phase t request (during ++ [.commit t committed]) given (.over none) := by
  obtain ⟨⟨hgiven, hstops⟩, hdead, hpending, -, -⟩ := hphase
  obtain ⟨hstaged, hready, hcommit⟩ := hpending put rfl
  have hquiet : Quiet (.commit t committed : TeeStep ι ε) := trivial
  have hready' := (ready_quiet hquiet).mpr hready
  refine ⟨⟨?_, ?_⟩, ?_, nofun, fun _ _ => ⟨committed, by simp⟩, fun _ _ => hready'⟩
  · simpa [answers_quiet hquiet, staged_quiet hquiet, Finishing] using hgiven
  · rwa [answers_quiet (by trivial), staged_quiet (by trivial)]
  · simpa [Live, answers_quiet hquiet, staged_quiet hquiet] using hdead

theorem Phase.record (hphase : Phase t request during given (.recording tee)) :
    Phase t request (during ++ [.record t]) (given ++ [none]) (.over none) := by
  obtain ⟨hstaged, hanswers, hchunks, hready, hdrop, hcommit⟩ := hphase
  exact over_of_end ((answers_quiet (by trivial)).trans hanswers) hchunks
    ((ready_quiet (by trivial)).mpr hready) ⟨true, by simpa using hcommit⟩ (.inl rfl)

theorem Phase.dropTeeing (hphase : Phase t request during given (.teeing tee)) :
    Phase t request (during ++ [.drop t]) given (.over none) := by
  obtain ⟨-, -, hstaged, rfl, hchunks, hdrop, hcommit⟩ := hphase
  exact over_of_drop (answers_quiet (by trivial)).symm hchunks.none_notMem (by simp) (by simpa using hcommit)
    (.of_items hchunks.none_notMem fun _ => hchunks.error_notMem)

theorem Phase.dropCommitting (hphase : Phase t request during given (.committing tee)) :
    Phase t request (during ++ [.drop t]) given (.over (some tee.put)) := by
  obtain ⟨hstaged, hanswers, hchunks, hready, -, hcommit⟩ := hphase
  have hanswers' : answers t (during ++ [.drop t]) = given ++ [none] := (answers_quiet (by trivial)).trans hanswers
  refine ⟨⟨.inr (.inr ⟨hanswers', .inr (by simp)⟩), ?_⟩, not_live (by simp), ?_, nofun, fun committed h => ?_⟩
  · rw [hanswers']
    exact .of_last hchunks.none_notMem fun _ => hchunks.error_notMem
  · rintro put ⟨⟩
    exact ⟨(staged_quiet (by trivial)).trans hstaged, (ready_quiet (by trivial)).mpr hready, by simpa using hcommit⟩
  · exact absurd (by simpa using h) (hcommit committed)

theorem Phase.dropRecording (hphase : Phase t request during given (.recording tee)) :
    Phase t request (during ++ [.drop t]) given (.over none) := by
  obtain ⟨hstaged, hanswers, hchunks, hready, -, hcommit⟩ := hphase
  exact over_of_end ((answers_quiet (by trivial)).trans hanswers) hchunks
    ((ready_quiet (by trivial)).mpr hready) ⟨true, by simpa using hcommit⟩ (.inr ⟨rfl, by simp⟩)

theorem Phase.dropPassthrough (hphase : Phase t request during given .passthrough) :
    Phase t request (during ++ [.drop t]) given (.over none) := by
  obtain ⟨hstaged, rfl, hnone, hcommit⟩ := hphase
  refine over_of_drop (answers_quiet (by trivial)).symm hnone (by simp) (by simpa using hcommit) (.of_items hnone ?_)
  rw [staged_quiet (by trivial), hstaged]
  nofun

theorem Phase.dropDone (hphase : Phase t request during given .done) :
    Phase t request (during ++ [.drop t]) given (.over none) := by
  obtain ⟨hstaged, rfl, ⟨chunks, error, hchunks, hgiven⟩, hcommit⟩ := hphase
  have hnone : none ∉ answers t during := by
    rw [hgiven]
    simpa using hchunks.none_notMem
  refine over_of_drop (answers_quiet (by trivial)).symm hnone (by simp) (by simpa using hcommit) ?_
  rw [hgiven]
  exact .of_last hchunks.none_notMem fun _ => hchunks.error_notMem

end Rest

variable {w w' : Tees ι ε} {trace : List (TeeStep ι ε)} {a b : String} {start : ℕ}

omit [DecidableEq ι] in
/-- A tee that is registered sees whether its address has been bumped. -/
theorem Counted.current_iff (h : w.Counted t a (during.countP (TeeStep.Bumps a ·)))
    (hheld : w.registration t = some (b, start)) :
    w.generations.current b = start ↔ ∀ l ∈ during, ¬l.Bumps a := by
  obtain ⟨rfl, hcurrent⟩ := h b start hheld
  rw [hcurrent, Nat.add_eq_left, countP_eq_zero]
  simp only [decide_eq_true_eq]

/-- Each step of a tee leads from where it is to where it is then. -/
theorem phase_step (h : Takes w l w') (hwho : l.who = some t)
    (hcounted : w.Counted t request.address (during.countP (TeeStep.Bumps request.address ·)))
    (hphase : Phase t request during (w.given t) (w.stage t)) :
    Phase t request (during ++ [l]) (w'.given t) (w'.stage t) := by
  have hat : ∀ {stage}, w.stage t = stage → Phase t request during (w.given t) stage := fun h => h ▸ hphase
  cases h with
  | bumpKey => cases hwho
  | bumpUnderPrefix => cases hwho
  | tee stage | write stage | written stage =>
    cases hwho
    exact (hat stage).elim
  | stage stage write =>
    cases hwho
    simpa using (hat stage).pass write
  | abandon stage write =>
    cases hwho
    simpa [unregister] using (hat stage).abandon write
  | fail stage =>
    cases hwho
    simpa [unregister] using (hat stage).fail
  | accept stage size unmutated =>
    cases hwho
    have hquiet := (hcounted.current_iff (registration_eq stage)).mp unmutated
    simpa using (hat stage).accept size hquiet
  | discard stage stale =>
    cases hwho
    rw [hcounted.current_iff (registration_eq stage)] at stale
    simpa [unregister] using (hat stage).discard stale
  | forward stage =>
    cases hwho
    simpa using (hat stage).forward
  | forwardEnd stage =>
    cases hwho
    simpa using (hat stage).forwardEnd
  | finish stage =>
    cases hwho
    simpa using (hat stage).finish
  | commit stage =>
    cases hwho
    simpa [publish] using (hat stage).commit
  | commitFails stage =>
    cases hwho
    simpa [unregister] using (hat stage).commitFails
  | @commitAlone t put committed stage =>
    cases hwho
    have hover : Phase t request (during ++ [.commit t committed]) (w.given t) (.over none) := (hat stage).commitAlone
    cases committed <;> simpa [publish] using hover
  | record stage =>
    cases hwho
    simpa [unregister] using (hat stage).record
  | dropTeeing stage =>
    cases hwho
    simpa [unregister] using (hat stage).dropTeeing
  | dropCommitting stage =>
    cases hwho
    simpa [unregister] using (hat stage).dropCommitting
  | dropRecording stage =>
    cases hwho
    simpa [unregister] using (hat stage).dropRecording
  | dropIdle stage =>
    cases hwho
    rcases stage with stage | stage
    · simpa using (hat stage).dropPassthrough
    · simpa using (hat stage).dropDone

/-- A tee that has not been started has given nothing. -/
theorem given_of_absent (run : Runs trace w) : ∀ t, w.stage t = .absent → w.given t = [] := by
  refine run.stateInvariant (I := fun w => ∀ t, w.stage t = .absent → w.given t = []) ?_ fun w l w' ih h t habsent => ?_
  · rintro w rfl t -
    rfl
  have hframe : Frame t w w' := by
    rcases moves_step h with ⟨u, hu, hmoves⟩ | ⟨-, hframe⟩
    · exact hmoves.others t fun htu => hmoves.present (htu ▸ habsent)
    · exact hframe t
  rw [hframe.2]
  exact ih t (hframe.1 ▸ habsent)

/-- Where the tees of a run are. -/
theorem phase (run : Runs trace w) : ∀ before t request during, trace = before ++ .tee t request :: during →
    Phase t request during (w.given t) (w.stage t) := by
  refine run.invariant (I := fun trace w => ∀ before t request during, trace = before ++ .tee t request :: during →
    Phase t request during (w.given t) (w.stage t)) ?_ fun trace w l w' hrun ih h => ?_
  · intro w _ before t request during htrace
    simp at htrace
  intro before t request during htrace
  rcases eq_nil_or_concat during with rfl | ⟨during, l', rfl⟩
  · obtain ⟨-, hlast⟩ := append_inj' htrace rfl
    obtain rfl : l = .tee t request := by simpa using hlast
    cases takes_step h with
    | tee stage =>
      rw [start, stage_setStage]
      change Phase t request [] (w.given t) _
      rw [given_of_absent hrun t stage]
      exact ⟨rfl, rfl, rfl, rfl, by rintro _ ⟨⟩, by rintro ⟨⟩, by rintro _ ⟨⟩⟩
  · have hsplit : trace ++ [l] = (before ++ .tee t request :: during) ++ [l'] := by simpa using htrace
    obtain ⟨rfl, hlast⟩ := append_inj' hsplit rfl
    obtain rfl : l = l' := by simpa using hlast
    have hih := ih before t request during rfl
    rw [concat_eq_append]
    by_cases hwho : l.who = some t
    · exact phase_step (takes_step h) hwho (counted hrun before _ during t _ rfl ⟨rfl, rfl⟩) hih
    · obtain ⟨hstage, hgiven⟩ : Frame t w w' := by
        rcases moves_step h with ⟨u, hu, hmoves⟩ | ⟨-, hframe⟩
        · exact hmoves.others t fun htu => hwho (htu ▸ hu)
        · exact hframe t
      rw [hstage, hgiven]
      exact phase_other hwho hih

end Life

/-! ### The properties, by where the tee is -/

section Results

variable {t : ι} {request : TeeRequest} {during : List (TeeStep ι ε)} {given : List (Next ε)} {stage : TeeStage}
  {w w' : Tees ι ε} {trace : List (TeeStep ι ε)}

theorem served_of_phase (h : Phase t request during given stage) : Served t request during stage given := by
  match stage, h with
  | .teeing tee, ⟨_, _, _, hgiven, hchunks, _⟩ =>
    exact ⟨.inl hgiven, hgiven ▸ .of_items hchunks.none_notMem fun _ => hchunks.error_notMem⟩
  | .committing tee, ⟨_, hanswers, hchunks, _⟩ =>
    exact ⟨.inr (.inr ⟨hanswers, .inl trivial⟩), hanswers ▸ .of_last hchunks.none_notMem fun _ => hchunks.error_notMem⟩
  | .recording tee, ⟨_, hanswers, hchunks, _⟩ =>
    exact ⟨.inr (.inr ⟨hanswers, .inl trivial⟩), hanswers ▸ .of_last hchunks.none_notMem fun _ => hchunks.error_notMem⟩
  | .passthrough, ⟨hstaged, hgiven, hnone, _⟩ =>
    refine ⟨.inl hgiven, hgiven ▸ .of_items hnone fun hintact => ?_⟩
    rw [hstaged] at hintact
    cases hintact
  | .done, ⟨_, hgiven, ⟨chunks, error, hchunks, hlast⟩, _⟩ =>
    refine ⟨.inl hgiven, ?_⟩
    rw [← hgiven, hlast]
    exact .of_last hchunks.none_notMem fun _ => hchunks.error_notMem
  | .over put, h => exact h.served

theorem live_iff (h : Phase t request during given stage) :
    stage.registration.isSome ↔ Live t request during given := by
  match stage, h with
  | .teeing tee, ⟨_, _, hstaged, hgiven, hchunks, hdrop, _⟩ =>
    refine iff_of_true rfl ⟨by rw [hstaged,
      Option.isSome_some], hgiven ▸ hchunks.error_notMem, hchunks.none_notMem, hdrop⟩
  | .committing tee, ⟨hstaged, hanswers, hchunks, _, hdrop, _⟩ =>
    refine iff_of_true rfl ⟨by rw [hstaged, Option.isSome_some], fun error => ?_, hchunks.none_notMem, hdrop⟩
    simpa [hanswers] using hchunks.error_notMem error
  | .recording tee, ⟨hstaged, hanswers, hchunks, _, hdrop, _⟩ =>
    refine iff_of_true rfl ⟨by rw [hstaged, Option.isSome_some], fun error => ?_, hchunks.none_notMem, hdrop⟩
    simpa [hanswers] using hchunks.error_notMem error
  | .passthrough, ⟨hstaged, _⟩ =>
    refine iff_of_false nofun fun hlive => ?_
    rw [Live, hstaged] at hlive
    cases hlive.1
  | .done, ⟨_, hgiven, ⟨chunks, error, _, hlast⟩, _⟩ =>
    refine iff_of_false nofun fun hlive => hlive.2.1 error ?_
    rw [← hgiven, hlast]
    simp
  | .over put, h => exact iff_of_false nofun h.dead

omit [DecidableEq ι] in
/-- The fill that a commit would publish. -/
def pendingPut : TeeStage → Option StreamingPut
  | .committing tee => some tee.put
  | .over put => put
  | _ => none

theorem commit_enabled_iff : (∃ w', w.step (.commit t true) = some w') ↔ (pendingPut (w.stage t)).isSome := by
  simp only [step]
  split
  · next tee hstage => simp [hstage, pendingPut]
  · next put hstage => simp [hstage, pendingPut]
  · next hcommitting hover =>
    refine iff_of_false (by simp) ?_
    unfold pendingPut
    split
    · next tee hstage => exact absurd hstage (hcommitting tee)
    · next put hstage =>
      cases put with
      | some put => exact absurd hstage (hover put)
      | none => rintro ⟨⟩
    · rintro ⟨⟩

theorem entries_commit (h : w.step (.commit t true) = some w') :
    ∃ put, pendingPut (w.stage t) = some put ∧ w'.entries = Function.update w.entries put.resolvedTarget put.file := by
  cases takes_step h with
  | commit stage => exact ⟨_, by rw [stage]; rfl, rfl⟩
  | commitAlone stage => exact ⟨_, by rw [stage]; rfl, rfl⟩

/-- Nothing but a commit writes a row. -/
theorem entries_step {l : TeeStep ι ε} (h : w.step l = some w') (hl : ∀ t, l ≠ .commit t true) :
    w'.entries = w.entries := by
  cases takes_step h with
  | commit stage => exact absurd rfl (hl _)
  | @commitAlone t put committed stage =>
    cases committed with
    | true => exact absurd rfl (hl t)
    | false => rfl
  | _ => rfl

theorem pending_iff (h : Phase t request during given stage) :
    (pendingPut stage).isSome ↔ Ready t request during ∧ ∀ committed, .commit t committed ∉ during := by
  match stage, h with
  | .teeing tee, ⟨_, _, _, hgiven, hchunks, _⟩ =>
    exact iff_of_false nofun fun hready => not_ready (hgiven ▸ hchunks.none_notMem) hready.1
  | .committing tee, ⟨_, _, _, hready, _, hcommit⟩ => exact iff_of_true rfl ⟨hready, hcommit⟩
  | .recording tee, ⟨_, _, _, _, _, hcommit⟩ => exact iff_of_false nofun fun hready => hready.2 true hcommit
  | .passthrough, ⟨_, hgiven, hnone, _⟩ => exact iff_of_false nofun fun hready => not_ready (hgiven ▸ hnone) hready.1
  | .done, ⟨_, hgiven, ⟨chunks, error, hchunks, hlast⟩, _⟩ =>
    refine iff_of_false nofun fun hready => not_ready ?_ hready.1
    rw [← hgiven, hlast]
    simpa using hchunks.none_notMem
  | .over (some put), h =>
    obtain ⟨-, hready, hcommit⟩ := h.pending put rfl
    exact iff_of_true rfl ⟨hready, hcommit⟩
  | .over none, h =>
    refine iff_of_false nofun fun hready => ?_
    obtain ⟨committed, hcommit⟩ := h.settled rfl hready.1
    exact hready.2 committed hcommit

theorem ready_of_commit (h : Phase t request during given stage) {committed : Bool}
    (hcommit : .commit t committed ∈ during) :
    Ready t request during := by
  match stage, h with
  | .teeing tee, ⟨_, _, _, _, _, _, hnone⟩ => exact absurd hcommit (hnone committed)
  | .committing tee, ⟨_, _, _, hready, _⟩ => exact hready
  | .recording tee, ⟨_, _, _, hready, _⟩ => exact hready
  | .passthrough, ⟨_, _, _, hnone⟩ => exact absurd hcommit (hnone committed)
  | .done, ⟨_, _, _, hnone⟩ => exact absurd hcommit (hnone committed)
  | .over put, h => exact h.ready committed hcommit

theorem staged_of_pending (h : Phase t request during given stage) {put : StreamingPut}
    (hput : pendingPut stage = some put) :
    staged t request during = some put := by
  match stage, h, hput with
  | .committing tee, ⟨hstaged, _⟩, hput => exact hstaged.trans hput
  | .over (some _), h, hput => exact (h.pending put hput).1

theorem commits_of_phase (h : Phase t request during (w.given t) (w.stage t)) : Commits t request during w := by
  refine ⟨commit_enabled_iff.trans (pending_iff h), fun _ hcommit => ready_of_commit h hcommit, fun w' hstep => ?_⟩
  obtain ⟨put, hput, hentries⟩ := entries_commit hstep
  obtain ⟨htarget, hfile, -⟩ := staged_spec (staged_of_pending h hput)
  rw [hentries, htarget, Function.update_self, hfile]

end Results

/-! ### The results -/

section Fidelity

/-- The caller of a tee is given what the inner stream gives, and its fill is committed where it is ready. Its
registration lives for as long as the tee does with its fill, the map holds the addresses of the registrations, and a
tee sees that its generation is another where its address has been bumped. -/
theorem tee_fidelity {trace : List (TeeStep ι ε)} {w : Tees ι ε} (run : Runs trace w) :
    (∀ before t request during, trace = before ++ .tee t request :: during →
      Served t request during (w.stage t) (w.given t) ∧ Commits t request during w ∧
      ((w.registration t).isSome ↔ Live t request during (w.given t))) ∧
    (∀ l w', w.step l = some w' → (∀ t, l ≠ .commit t true) → w'.entries = w.entries) ∧
    (∀ address, (w.generations address).isSome ↔
      ∃ t startGeneration, w.registration t = some (address, startGeneration)) ∧
    ∀ before l during t address registered startGeneration, trace = before ++ l :: during → l.Registers t address →
      w.registration t = some (registered, startGeneration) →
      registered = address ∧ (w.generations.current address ≠ startGeneration ↔ ∃ l ∈ during, l.Bumps address) := by
  refine ⟨fun before t request during htrace => ?_, fun l w' h hl => entries_step h hl,
    fun address => (tracks run).isSome_iff,
    fun before l during t address registered startGeneration htrace hl hheld => ?_⟩
  · have hphase := phase run before t request during htrace
    exact ⟨served_of_phase hphase, commits_of_phase hphase, live_iff hphase⟩
  · have hcounted := counted run before l during t address htrace hl
    obtain ⟨rfl, -⟩ := hcounted registered startGeneration hheld
    refine ⟨rfl, ?_⟩
    rw [ne_eq, hcounted.current_iff hheld]
    push Not
    rfl

/-- A fill of two chunks, of which another address's mutation takes nothing. -/
theorem tee_fidelity_two_chunks : ∃ w : Tees ℕ Unit,
    Runs ([] ++ .tee 0 ⟨"key", none, 100, "mem:///a", some 3⟩ ::
      [.next 0 0 true (some (.ok [1, 2])), .bumpKey "mem:///b",
      .next 0 2 true (some (.ok [3])), .next 0 3 true none, .commit 0 true]) w ∧
    Ready 0 ⟨"key", none, 100, "mem:///a", some 3⟩
      [(.next 0 0 true (some (.ok [1, 2])) : TeeStep ℕ Unit), .bumpKey "mem:///b",
      .next 0 2 true (some (.ok [3])), .next 0 3 true none, .commit 0 true] ∧
    w.entries "key" = some [1, 2, 3] := by
  obtain ⟨w, hrun, hrow⟩ := @runs_of_any ℕ Unit _
    ([] ++ .tee 0 ⟨"key", none, 100, "mem:///a", some 3⟩ :: [.next 0 0 true (some (.ok [1, 2])), .bumpKey "mem:///b",
      .next 0 2 true (some (.ok [3])), .next 0 3 true none, .commit 0 true])
    (fun w => w.entries "key" = some [1, 2, 3]) (by decide +kernel)
  obtain ⟨-, hcommits, -⟩ := (tee_fidelity hrun).1 [] 0 _ _ rfl
  exact ⟨w, hrun, hcommits.ready true (by simp), by simpa using hrow⟩

/-- A tee without its fill passes on an item after an error, a mutation does not stop a commit that is under way, and
the commit of a fill that is ready may fail. -/
theorem fidelity_fails :
    (∃ w : Tees ℕ Unit, Runs [.tee 0 ⟨"key", some 1, 100, "mem:///a", none⟩, .next 0 0 true (some (.ok [1, 2])),
        .next 0 0 true (some (.error ())), .next 0 0 true (some (.ok [3]))] w ∧
      w.given 0 = [some (.ok [1, 2]), some (.error ()), some (.ok [3])]) ∧
    (∃ w : Tees ℕ Unit, Runs [.tee 0 ⟨"key", none, 100, "mem:///a", none⟩, .next 0 0 true (some (.ok [1])),
        .next 0 1 true none, .bumpKey "mem:///a", .commit 0 true] w ∧ w.entries "key" = some [1]) ∧
    ∃ w : Tees ℕ Unit, Runs [.tee 0 ⟨"key", none, 100, "mem:///a", none⟩, .next 0 0 true (some (.ok [1])),
        .next 0 1 true none, .commit 0 false] w ∧ w.given 0 = [some (.ok [1]), none] ∧ w.entries "key" = none := by
  refine ⟨?_, ?_, ?_⟩
  · obtain ⟨w, hrun, hw⟩ := @runs_of_any ℕ Unit _
      [.tee 0 ⟨"key", some 1, 100, "mem:///a", none⟩, .next 0 0 true (some (.ok [1, 2])),
        .next 0 0 true (some (.error ())), .next 0 0 true (some (.ok [3]))]
      (fun w => w.given 0 = [some (.ok [1, 2]), some (.error ()), some (.ok [3])]) (by decide +kernel)
    exact ⟨w, hrun, by simpa using hw⟩
  · obtain ⟨w, hrun, hw⟩ := @runs_of_any ℕ Unit _
      [.tee 0 ⟨"key", none, 100, "mem:///a", none⟩, .next 0 0 true (some (.ok [1])), .next 0 1 true none,
        .bumpKey "mem:///a",
        .commit 0 true] (fun w => w.entries "key" = some [1]) (by decide +kernel)
    exact ⟨w, hrun, by simpa using hw⟩
  · obtain ⟨w, hrun, hw⟩ := @runs_of_any ℕ Unit _
      [.tee 0 ⟨"key", none, 100, "mem:///a", none⟩, .next 0 0 true (some (.ok [1])),
        .next 0 1 true none, .commit 0 false]
      (fun w => w.given 0 = [some (.ok [1]), none] ∧ w.entries "key" = none) (by decide +kernel)
    exact ⟨w, hrun, by simpa using hw⟩

end Fidelity

end OvStorage.ByteCache.Tees
