import Mathlib.Algebra.GroupWithZero.Nat
import OvStorage.Redirect.Uploads

/-!
# The parts of a streamed upload

What `follow_streaming_write_redirects` sends as the parts of a body, however the body is cut into chunks and however
many of them the origin lets the client pull. A source stands in the body where it has consumed up to (`Holds`), and a
part moves it by what it hands out.

## What is proved

* `parts_never_mix`: each part is sent as a prefix of its slice of the body, and the parts cover it.
-/

namespace OvStorage.Redirect

open OvStorage.Layer Slice Course Validate List

variable {body : Bytes} {failure : Option Error} {target : ℕ} {p p' : PartStream} {source : CarrySource}

/-! ### One part -/

/-- A source that stands in a body, while a part is read that ends at `target`; it has lost the error of the body only
if the body ends before the part. -/
structure Holds (body : Bytes) (failure : Option Error) (target : ℕ) (source : CarrySource) : Prop where
  le : source.consumed ≤ body.length
  rest : source.carry ++ source.stream.chunks.flatten = body.drop source.consumed
  error : source.stream.error = failure ∨ (source.consumed = body.length ∧ body.length < target)

/-- A part that ends at `target`. -/
structure Reads (body : Bytes) (failure : Option Error) (target : ℕ) (p : PartStream) : Prop where
  holds : Holds body failure target p.source
  le : p.produced ≤ p.len
  target : p.source.consumed + (p.len - p.produced) = target

variable {item : Option (Except Error Bytes)} {stream : BodyStream} {chunk bytes carry : Bytes}

/-- A chunk that is handed out is the next slice of the body. -/
theorem yield_eq_ok (h : Reads body failure target p) (hyield : p.yield chunk carry stream = .ok (item, p'))
    (hfront : chunk ++ (carry ++ stream.chunks.flatten) = body.drop p.source.consumed)
    (hlen : chunk.length ≤ p.len - p.produced) (herror : stream.error = p.source.stream.error) :
    item = some (.ok chunk) ∧ Reads body failure target p' ∧ p'.len = p.len ∧ p'.source.stream = stream ∧
    p'.source.carry = carry ∧
      p'.produced = p.produced + chunk.length ∧ p.source.consumed ≤ p'.source.consumed ∧
      chunk = slice body p.source.consumed p'.source.consumed := by
  unfold PartStream.yield at hyield
  obtain ⟨produced, hproduced, hyield⟩ := bind_eq_ok.mp hyield
  obtain ⟨consumed, hconsumed, hyield⟩ := bind_eq_ok.mp hyield
  obtain ⟨-, rfl⟩ := plus_eq_ok.mp hproduced
  obtain ⟨-, rfl⟩ := plus_eq_ok.mp hconsumed
  cases hyield
  obtain ⟨⟨hle, hrest, hfailure⟩, hprod, htarget⟩ := h
  have hat : At body p.source.consumed (chunk ++ (carry ++ stream.chunks.flatten)) := hfront ▸ prefix_rfl
  have hbody : p.source.consumed + chunk.length ≤ body.length := by
    have := congrArg List.length hfront
    rw [length_append, length_drop] at this
    omega
  refine ⟨rfl, ⟨⟨hbody, ?_, ?_⟩, ?_, ?_⟩, rfl, rfl, rfl, rfl, Nat.le_add_right _ _, (at_append.mp hat).1.eq_slice⟩
  · change carry ++ stream.chunks.flatten = body.drop (p.source.consumed + chunk.length)
    rw [← drop_drop, ← hfront, drop_left]
  · change stream.error = failure ∨ p.source.consumed + chunk.length = body.length ∧ body.length < target
    rw [herror]
    exact hfailure.imp_right fun ⟨heq, hlt⟩ => ⟨by omega, hlt⟩
  · change p.produced + chunk.length ≤ p.len
    omega
  · change p.source.consumed + chunk.length + (p.len - (p.produced + chunk.length)) = target
    omega

/-- What one turn of a part's stream does. -/
theorem nextChunk_spec (h : Reads body failure target p) (hnext : p.nextChunk = .ok (item, p')) :
    Reads body failure target p' ∧ p'.len = p.len ∧ p.source.consumed ≤ p'.source.consumed ∧
      match item with
      | none => p' = p ∧ p.len ≤ p.produced
      | some (.error _) => p'.source.consumed = body.length ∧ p.source.consumed = body.length ∧ p'.produced < p'.len
      | some (.ok chunk) => chunk = slice body p.source.consumed p'.source.consumed := by
  unfold PartStream.nextChunk at hnext
  split_ifs at hnext with hdone hcarry
  · cases hnext
    exact ⟨h, rfl, Nat.le_refl _, rfl, hdone⟩
  · -- the carry is in front
    obtain ⟨remaining, hremaining, hnext⟩ := bind_eq_ok.mp hnext
    obtain ⟨-, rfl⟩ := minus_eq_ok.mp hremaining
    have hfront : p.source.carry.take (p.len - p.produced) ++ (p.source.carry.drop (p.len - p.produced) ++
        p.source.stream.chunks.flatten) = body.drop p.source.consumed := by
      rw [← append_assoc, take_append_drop, h.holds.rest]
    obtain ⟨rfl, hreads, hlen, -, -, -, hle, hslice⟩ := yield_eq_ok h hnext hfront (length_take_le _ _) rfl
    exact ⟨hreads, hlen, hle, hslice⟩
  · obtain ⟨remaining, hremaining, hnext⟩ := bind_eq_ok.mp hnext
    obtain ⟨-, rfl⟩ := minus_eq_ok.mp hremaining
    have hrest := h.holds.rest
    rw [not_not.mp hcarry, nil_append] at hrest
    cases hchunks : p.source.stream.chunks with
    | cons chunk chunks =>
      have hstream : p.source.stream.nextChunk = (some (.ok chunk), ⟨chunks, p.source.stream.error⟩) := by
        rw [BodyStream.nextChunk, hchunks]
      rw [hstream] at hnext
      rw [hchunks, flatten_cons] at hrest
      have hfront : chunk.take (p.len - p.produced) ++ (chunk.drop (p.len - p.produced) ++ chunks.flatten) =
          body.drop p.source.consumed := by
        rw [← append_assoc, take_append_drop, hrest]
      have hyield : p.yield (chunk.take (p.len - p.produced)) (chunk.drop (p.len - p.produced))
            ⟨chunks, p.source.stream.error⟩ =
          .ok (item, p') := hnext
      obtain ⟨rfl, hreads, hlen, -, -, -, hle, hslice⟩ := yield_eq_ok h hyield hfront (length_take_le _ _) rfl
      exact ⟨hreads, hlen, hle, hslice⟩
    | nil =>
      -- the body ends before the part
      rw [hchunks, flatten_nil] at hrest
      have hend : p.source.consumed = body.length := Nat.le_antisymm h.holds.le (drop_eq_nil_iff.mp hrest.symm)
      have hshort : body.length < target := by
        have := h.target
        omega
      have hbreak : ∀ e stream, stream.chunks = [] → Reads body failure target (p.break e stream).2 :=
          fun e stream hnil =>
        ⟨⟨h.holds.le, by
          change p.source.carry ++ stream.chunks.flatten = body.drop p.source.consumed
          rw [not_not.mp hcarry, hnil]
          exact hrest, .inr ⟨hend, hshort⟩⟩, h.le, h.target⟩
      cases herror : p.source.stream.error with
      | none =>
        have hstream : p.source.stream.nextChunk = (none, p.source.stream) := by
          rw [BodyStream.nextChunk, hchunks, herror]
        rw [hstream] at hnext
        cases hnext
        exact ⟨hbreak _ _ hchunks, rfl, Nat.le_refl _, hend, hend, Nat.not_le.mp hdone⟩
      | some e =>
        have hstream : p.source.stream.nextChunk = (some (.error e), ⟨[], none⟩) := by
          rw [BodyStream.nextChunk, hchunks, herror]
        rw [hstream] at hnext
        cases hnext
        exact ⟨hbreak _ _ rfl, rfl, Nat.le_refl _, hend, hend, Nat.not_le.mp hdone⟩

variable {remaining pulls : ℕ}

/-- What is pulled of a part is the slice of the body that the source moves over. -/
theorem pull_spec (h : Reads body failure target p) {pulled : Pulled} (hpull : p.pull pulls = .ok pulled) :
    Reads body failure target pulled.part ∧ pulled.part.len = p.len ∧ p.source.consumed ≤ pulled.part.source.consumed ∧
      pulled.chunks.flatten = slice body p.source.consumed pulled.part.source.consumed ∧
      match pulled.ending with
      | .stopped => True
      | .whole => pulled.part.len ≤ pulled.part.produced
      | .failed _ => pulled.part.source.consumed = body.length ∧ pulled.part.produced < pulled.part.len := by
  induction pulls generalizing p pulled with
  | zero =>
    cases hpull
    exact ⟨h, rfl, Nat.le_refl _, (slice_of_le (Nat.le_refl _)).symm, trivial⟩
  | succ pulls ih =>
    rw [PartStream.pull] at hpull
    obtain ⟨⟨item, p'⟩, hnext, hpull⟩ := bind_eq_ok.mp hpull
    obtain ⟨hreads, hlen, hle, hitem⟩ := nextChunk_spec h hnext
    match item with
    | none =>
      cases hpull
      obtain ⟨rfl, hdone⟩ := hitem
      exact ⟨h, rfl, Nat.le_refl _, (slice_of_le (Nat.le_refl _)).symm, hdone⟩
    | some (.error e) =>
      cases hpull
      obtain ⟨hend, hend', hlt⟩ := hitem
      refine ⟨hreads, hlen, hle, (slice_of_le ?_).symm, hend, hlt⟩
      exact Nat.le_of_eq (hend.trans hend'.symm)
    | some (.ok chunk) =>
      obtain ⟨rest, hrest, hpull⟩ := bind_eq_ok.mp hpull
      cases hpull
      obtain ⟨hreads', hlen', hle', hbytes, hending⟩ := ih hreads hrest
      refine ⟨hreads', hlen'.trans hlen, Nat.le_trans hle hle', ?_, hending⟩
      change (chunk :: rest.chunks).flatten = _
      rw [flatten_cons, hbytes, hitem]
      exact slice_append_slice hle hle'

/-! ### A part that the body has -/

/-- How many turns a stream takes at most from here on. -/
def PartStream.left (p : PartStream) : ℕ := p.source.stream.chunks.length + (if p.source.carry = [] then 0 else 1) + 1

theorem left_le_turns : p.left ≤ p.turns := by
  unfold PartStream.left PartStream.turns
  split_ifs <;> omega

theorem yield_ok (h : Reads body failure target p) (htarget : target < Word64.size) (hsize : p.len < Word64.size)
    (hlen : chunk.length ≤ p.len - p.produced) : ∃ result, p.yield chunk carry stream = .ok result := by
  have hle := h.le
  have hsum := h.target
  have hproduced : plus p.produced chunk.length = .ok (p.produced + chunk.length) := Word64.plainAdd_of_lt (by omega)
  have hconsumed : plus p.source.consumed chunk.length = .ok (p.source.consumed + chunk.length) :=
    Word64.plainAdd_of_lt (by omega)
  rw [PartStream.yield, hproduced, ok_bind, hconsumed]
  exact ⟨_, rfl⟩

/-- A part whose end is a word overflows nothing. -/
theorem nextChunk_ok (h : Reads body failure target p) (htarget : target < Word64.size) (hsize : p.len < Word64.size) :
    ∃ result, p.nextChunk = .ok result := by
  unfold PartStream.nextChunk
  split_ifs with hdone hcarry
  · exact ⟨_, rfl⟩
  all_goals
    have hminus : minus p.len p.produced = .ok (p.len - p.produced) := Word64.plainSub_of_le (Nat.le_of_not_le hdone)
    rw [hminus, ok_bind]
  · exact yield_ok h htarget hsize (length_take_le _ _)
  · split
    · exact ⟨_, rfl⟩
    · exact ⟨_, rfl⟩
    · exact yield_ok h htarget hsize (length_take_le _ _)

theorem pull_ok (h : Reads body failure target p) (htarget : target < Word64.size) (hsize : p.len < Word64.size)
    (pulls : ℕ) :
    ∃ pulled, p.pull pulls = .ok pulled := by
  induction pulls generalizing p with
  | zero => exact ⟨_, rfl⟩
  | succ pulls ih =>
    obtain ⟨⟨item, p'⟩, hnext⟩ := nextChunk_ok h htarget hsize
    obtain ⟨hreads, hlen, -, -⟩ := nextChunk_spec h hnext
    rw [PartStream.pull, hnext, ok_bind]
    match item with
    | none => exact ⟨_, rfl⟩
    | some (.error e) => exact ⟨_, rfl⟩
    | some (.ok chunk) =>
      obtain ⟨rest, hrest⟩ := ih hreads (hlen ▸ hsize)
      simp only [hrest, ok_bind]
      exact ⟨_, rfl⟩

/-- A chunk leaves fewer turns, or is the last one of its part. -/
theorem yield_left (hyield : p.yield (chunk.take remaining) (chunk.drop remaining) stream = .ok (item, p'))
    (hremaining : remaining = p.len - p.produced) :
    p'.left ≤ stream.chunks.length + 1 ∨ p'.len ≤ p'.produced := by
  unfold PartStream.yield at hyield
  obtain ⟨produced, hproduced, hyield⟩ := bind_eq_ok.mp hyield
  obtain ⟨consumed, -, hyield⟩ := bind_eq_ok.mp hyield
  obtain ⟨-, rfl⟩ := plus_eq_ok.mp hproduced
  cases hyield
  by_cases hrest : chunk.drop remaining = []
  · left
    simp [PartStream.left, hrest]
  · right
    rw [drop_eq_nil_iff, Nat.not_le] at hrest
    change p.len ≤ p.produced + (chunk.take remaining).length
    rw [length_take, Nat.min_eq_left (Nat.le_of_lt hrest)]
    omega

theorem nextChunk_left (hnext : p.nextChunk = .ok (some (.ok chunk), p')) :
    p'.left < p.left ∨ (p'.len ≤ p'.produced ∧ 2 ≤ p.left) := by
  unfold PartStream.nextChunk at hnext
  split_ifs at hnext with hdone hcarry
  · cases hnext
  all_goals
    obtain ⟨remaining, hremaining, hnext⟩ := bind_eq_ok.mp hnext
    obtain ⟨-, hremaining⟩ := minus_eq_ok.mp hremaining
  · have hleft : p.left = p.source.stream.chunks.length + 2 := by
      simp [PartStream.left, if_neg hcarry]
    exact (yield_left hnext hremaining.symm).imp (fun h => by omega) fun h => ⟨h, by omega⟩
  · split at hnext
    · cases hnext
    · cases hnext
    next chunk stream hstream =>
      have hchunks : p.source.stream.chunks.length = stream.chunks.length + 1 := by
        unfold BodyStream.nextChunk at hstream
        split at hstream
        next hchunks =>
          cases hstream
          rw [hchunks]
          rfl
        · cases hstream
        · cases hstream
      have hleft : p.left = stream.chunks.length + 2 := by
        rw [PartStream.left, if_pos (not_not.mp hcarry), hchunks]
      exact (yield_left hnext hremaining.symm).imp (fun h => by omega) fun h => ⟨h, by omega⟩

/-- Pulling as often as there are turns comes to an end. -/
theorem pull_ends (hpulls : p.left ≤ pulls) {pulled : Pulled} (hpull : p.pull pulls = .ok pulled) :
    pulled.ending ≠ .stopped := by
  induction pulls generalizing p pulled with
  | zero => simp [PartStream.left] at hpulls
  | succ pulls ih =>
    rw [PartStream.pull] at hpull
    obtain ⟨⟨item, p'⟩, hnext, hpull⟩ := bind_eq_ok.mp hpull
    match item with
    | none =>
      cases hpull
      nofun
    | some (.error e) =>
      cases hpull
      nofun
    | some (.ok chunk) =>
      obtain ⟨rest, hrest, hpull⟩ := bind_eq_ok.mp hpull
      cases hpull
      rcases nextChunk_left hnext with hlt | ⟨hdone, htwo⟩
      · have hle : p'.left ≤ pulls := by omega
        have hends := ih hle hrest
        exact hends
      · obtain ⟨n, rfl⟩ : ∃ n, pulls = n + 1 := ⟨pulls - 1, by omega⟩
        rw [PartStream.pull, PartStream.nextChunk, if_pos hdone] at hrest
        cases hrest
        nofun

/-- A part that the body has can be pulled as a whole. -/
theorem pull_whole (h : Reads body failure target p) (htarget : target < Word64.size) (hsize : p.len < Word64.size)
    (hbody : target ≤ body.length) : ∃ pulled, p.pull p.turns = .ok pulled ∧ pulled.ending = .whole := by
  obtain ⟨pulled, hpull⟩ := pull_ok h htarget hsize p.turns
  obtain ⟨hreads, -, -, -, hending⟩ := pull_spec h hpull
  have hends := pull_ends left_le_turns hpull
  refine ⟨pulled, hpull, ?_⟩
  cases hend : pulled.ending with
  | stopped => exact (hends hend).elim
  | whole => rfl
  | failed e =>
    rw [hend] at hending
    have := hreads.target
    omega

/-! ### From part to part -/

/-- A source between two parts. -/
structure Stands (body : Bytes) (failure : Option Error) (cursor : ℕ) (source : CarrySource) : Prop where
  consumed : source.consumed = cursor
  le : cursor ≤ body.length
  rest : source.carry ++ source.stream.chunks.flatten = body.drop cursor
  error : source.stream.error = failure

variable {cursor len : ℕ} {source' : CarrySource}

theorem Stands.reads (h : Stands body failure cursor source) (len : ℕ) :
    Reads body failure (cursor + len) (carryPartStream source len) where
  holds := ⟨h.consumed ▸ h.le, h.consumed ▸ h.rest, .inl h.error⟩
  le := Nat.zero_le _
  target := by
    change source.consumed + (len - 0) = _
    rw [h.consumed, Nat.sub_zero]

/-- A source that was drained stands behind the part. -/
theorem drain_spec (h : Holds body failure target source) (hle : source.consumed ≤ target)
    (hdrain : drainCarrySourceTo source target = .ok source') : Stands body failure target source' := by
  have hstands : ∀ source, Holds body failure target source → source.consumed = target →
      Stands body failure target source := by
    intro source hholds hconsumed
    refine ⟨hconsumed, hconsumed ▸ hholds.le, hconsumed ▸ hholds.rest, hholds.error.resolve_right fun ⟨heq, hlt⟩ => ?_⟩
    omega
  unfold drainCarrySourceTo at hdrain
  dsimp only at hdrain
  have hreads : Reads body failure target (carryPartStream source (target - source.consumed)) := by
    refine ⟨h, Nat.zero_le _, ?_⟩
    change source.consumed + (target - source.consumed - 0) = target
    omega
  split_ifs at hdrain with hzero
  · cases hdrain
    have hzero : target - source.consumed = 0 := hzero
    exact hstands _ h (by omega)
  · obtain ⟨pulled, hpull, hdrain⟩ := bind_eq_ok.mp hdrain
    obtain ⟨hpulled, -, -, -, hending⟩ := pull_spec hreads hpull
    have hends := pull_ends left_le_turns hpull
    cases hend : pulled.ending with
    | stopped => exact (hends hend).elim
    | whole =>
      rw [hend] at hdrain hending
      cases hdrain
      have hdone : pulled.part.len ≤ pulled.part.produced := hending
      have := hpulled.target
      exact hstands _ hpulled.holds (by omega)
    | failed e =>
      rw [hend] at hdrain
      cases hdrain

/-- A source that is at its end has given the whole body. -/
theorem ensureCarrySourceEof_spec (h : Stands body failure cursor source) {message : String}
    (heof : ensureCarrySourceEof source message = .ok ()) : cursor = body.length ∧ failure = none := by
  have hprobe : ∀ {error : Option Error} {chunks : List Bytes}, probeEof message error chunks = .ok () →
      chunks.flatten = [] ∧ error = none := by
    intro error chunks hprobe
    induction chunks with
    | nil =>
      cases error with
      | none => exact ⟨rfl, rfl⟩
      | some e => cases hprobe
    | cons chunk chunks ih =>
      rw [probeEof] at hprobe
      split_ifs at hprobe with hempty
      · obtain ⟨hflat, herror⟩ := ih hprobe
        exact ⟨by rw [flatten_cons, hempty, hflat, nil_append], herror⟩
      · cases hprobe
  unfold ensureCarrySourceEof at heof
  split_ifs at heof with hcarry
  · cases heof
  · obtain ⟨hflat, herror⟩ := hprobe heof
    have hrest := h.rest
    rw [not_not.mp hcarry, hflat] at hrest
    exact ⟨Nat.le_antisymm h.le (drop_eq_nil_iff.mp hrest.symm), h.error ▸ herror⟩

/-! ### Rules for courses -/

namespace Course

variable {α β : Type} {c : Course α} {f : α → Course β} {P : Sent → Prop} {Q : List Sent → α → Prop}
  {R : List Sent → β → Prop}

/-- What is sent is `P` each, and what is sent and returned in the end is `Q`. -/
def Keeps (c : Course α) (P : Sent → Prop) (Q : List Sent → α → Prop) : Prop :=
  (∀ s ∈ c.sent, P s) ∧ ∀ a, c.result = .ok a → Q c.sent a

theorem keeps_of {result : Except Fault α} (h : ∀ a, result = .ok a → Q [] a) : Keeps (of result) P Q :=
  ⟨fun _ hs => absurd hs not_mem_nil, h⟩

theorem keeps_fail {code : ErrorCode} {message : String} : Keeps (of (fail code message : Except Fault α)) P Q :=
  keeps_of nofun

theorem keeps_pure {a : α} (h : Q [] a) : Keeps (pure a) P Q := keeps_of fun _ heq => Except.ok.inj heq ▸ h

theorem keeps_send {s : Sent} {Q : List Sent → Unit → Prop} (hs : P s) (h : Q [s] ()) : Keeps (send s) P Q :=
  ⟨fun _ hmem => mem_singleton.mp hmem ▸ hs, fun _ _ => h⟩

theorem keeps_raise {x : Except Error α} (h : ∀ a, x = .ok a → Q [] a) : Keeps (raise x) P Q := by
  refine keeps_of fun a heq => h a ?_
  cases x with
  | error e => cases heq
  | ok b =>
    cases heq
    rfl

theorem keeps_error {e : Error} : Keeps (raise (.error e : Except Error α)) P Q := keeps_raise nofun

theorem bind_of_error {fault : Fault} (h : c.result = .error fault) : c >>= f = ⟨c.sent, .error fault⟩ := by
  simp only [bind, h]

theorem bind_of_ok {a : α} (h : c.result = .ok a) : c >>= f = ⟨c.sent ++ (f a).sent, (f a).result⟩ := by
  simp only [bind, h]

theorem Keeps.bind (h : Keeps c P Q) (hf : ∀ sent a, Q sent a → Keeps (f a) P fun sent' b => R (sent ++ sent') b) :
    Keeps (c >>= f) P R := by
  cases hresult : c.result with
  | error fault =>
    rw [bind_of_error hresult]
    exact ⟨h.1, by rintro _ ⟨⟩⟩
  | ok a =>
    rw [bind_of_ok hresult]
    obtain ⟨hsent, hdone⟩ := hf _ a (h.2 a hresult)
    exact ⟨fun s hs => (mem_append.mp hs).elim (h.1 s) (hsent s), hdone⟩

end Course

/-! ### Batches -/

/-- The parts of the body in a batch begin where the ones before end, the first one at a cursor. -/
def Contiguous : ℕ → List WriteRedirect → Prop
  | _, [] => True
  | cursor, ⟨.userBytes offset len⟩ :: redirects => offset.toNat = cursor ∧ Contiguous (cursor + len.toNat) redirects
  | cursor, ⟨.empty⟩ :: redirects => Contiguous cursor redirects
  | cursor, ⟨.inline _⟩ :: redirects => Contiguous cursor redirects

/-- The length that a redirect declares of the body. -/
def WriteRedirect.declared (redirect : WriteRedirect) : ℕ :=
  match redirect.bodySource with
  | .userBytes _ len => len.toNat
  | _ => 0

/-- Whether a redirect sends a part of the body. -/
def WriteRedirect.sendsUserBytes (redirect : WriteRedirect) : Bool :=
  match redirect.bodySource with
  | .userBytes _ _ => true
  | _ => false

/-- The length of a body that a batch is for. -/
def summedLength (batch : List WriteRedirect) : ℕ := (batch.map WriteRedirect.declared).sum

/-- A part of the body is sent as a prefix of its slice, and as the slice if it is sent as a whole. -/
def Slices (body : Bytes) (s : Sent) : Prop :=
  match s.bodySource with
  | .userBytes offset len =>
    s.bytes <+: slice body offset.toNat (offset.toNat + len.toNat) ∧
      (s.whole → s.bytes = slice body offset.toNat (offset.toNat + len.toNat) ∧ s.bytes.length = len.toNat)
  | _ => True

/-- The bytes that a request was offered: what was sent, or all that is to pull. -/
def Offers (s : Sent) (bytes : Bytes) : Prop :=
  match s.handed with
  | none => s.bytes = bytes
  | some part => ∃ pulled, part.pull part.turns = .ok pulled ∧ pulled.ending = .whole ∧ pulled.chunks.flatten = bytes

variable {ρ : Type} {origin : Origin ρ} {index : ℕ} {offset wide : UInt64} {redirect : WriteRedirect}

/-- A request that was answered, for a redirect of a batch, and that was offered what the other executors send for it.
-/
structure Carries (origin : Origin ρ) (body : Bytes) (index : ℕ) (redirect : WriteRedirect) (s : Sent) (result : ρ) :
    Prop where
  valid : origin.valid index = .ok ()
  outcome : (origin.answer index).outcome = .ok result
  bodySource : s.bodySource = redirect.bodySource
  offers : ∃ bytes, Offers s bytes ∧ redirectBodyBytes body redirect.bodySource = .ok bytes

/-- A part of the body that a source stands in front of can be pulled as its slice. -/
theorem Stands.pull_whole (h : Stands body failure cursor source) (htarget : cursor + len < Word64.size)
    (hbody : cursor + len ≤ body.length) :
    ∃ pulled, (carryPartStream source len).pull (carryPartStream source len).turns = .ok pulled ∧
    pulled.ending = .whole ∧
      pulled.chunks.flatten = slice body cursor (cursor + len) := by
  have hsize : (carryPartStream source len).len < Word64.size := Nat.lt_of_le_of_lt (Nat.le_add_left len cursor) htarget
  obtain ⟨pulled, hpull, hwhole⟩ := Redirect.pull_whole (h.reads len) htarget hsize hbody
  obtain ⟨hreads, -, -, hbytes, hending⟩ := pull_spec (h.reads len) hpull
  rw [hwhole] at hending
  have hconsumed : pulled.part.source.consumed = cursor + len := by
    have hdone : pulled.part.len ≤ pulled.part.produced := hending
    have := hreads.target
    omega
  refine ⟨pulled, hpull, hwhole, ?_⟩
  rw [hbytes, hconsumed]
  change slice body source.consumed _ = _
  rw [h.consumed]

theorem redirectBodyBytes_eq_ok : redirectBodyBytes body (.userBytes offset wide) = .ok bytes ↔
      offset.toNat + wide.toNat < Word64.size ∧ offset.toNat + wide.toNat ≤ body.length ∧
        slice body offset.toNat (offset.toNat + wide.toNat) = bytes := by
  rw [redirectBodyBytes, Word64.checkedAdd]
  split_ifs with htarget
  · dsimp only
    split_ifs with hbody
    · simp [htarget, hbody]
    · simp [hbody, fail]
  · simp [htarget, fail]

variable {bodySource : RedirectBodySource}

/-- A request with a body in memory sends it. -/
theorem executeRedirectRequest_keeps (hslices : Slices body ⟨bodySource, bytes, true, none⟩) :
    (executeRedirectRequest origin index bodySource bytes).Keeps (Slices body) fun sent result =>
      sent = [⟨bodySource, bytes, true, none⟩] ∧ (origin.answer index).outcome = .ok result := by
  refine Keeps.bind (Q := fun sent _ => sent = [⟨bodySource, bytes, true, none⟩]) (keeps_send hslices rfl) ?_
  rintro sent _ rfl
  exact keeps_raise fun result hresult => ⟨rfl, hresult⟩

/-- A request with a part of the stream sends a prefix of the slice, and leaves the source in the part. -/
theorem executeStreamingRequest_keeps (h : Stands body failure offset.toNat source) :
    (executeStreamingRequest origin index (.userBytes offset wide)
      (carryPartStream source wide.toNat)).Keeps (Slices body)
      fun sent (result, source') =>
        ∃ s, sent = [s] ∧ s.bodySource = .userBytes offset wide ∧ s.handed = some (carryPartStream source wide.toNat) ∧
          (origin.answer index).outcome = .ok result ∧ Holds body failure (offset.toNat + wide.toNat) source' ∧
          source'.consumed ≤ offset.toNat + wide.toNat := by
  refine Keeps.bind (Q := fun sent pulled => sent = [] ∧
    (carryPartStream source wide.toNat).pull (origin.answer index).pulls = .ok pulled)
      (keeps_of fun _ hpull => ⟨rfl, hpull⟩) ?_
  rintro _ pulled ⟨rfl, hpull⟩
  obtain ⟨hreads, hlen, -, hbytes, hending⟩ := pull_spec (h.reads wide.toNat) hpull
  have hconsumed : pulled.part.source.consumed ≤ offset.toNat + wide.toNat := by
    have := hreads.target
    omega
  have hslice : pulled.chunks.flatten = slice body offset.toNat pulled.part.source.consumed := h.consumed ▸ hbytes
  -- a part that was pulled as a whole is its slice
  have hslices : Slices body ⟨.userBytes offset wide, pulled.chunks.flatten, pulled.ending.isWhole,
      some (carryPartStream source wide.toNat)⟩ := by
    refine ⟨?_, fun hwhole => ?_⟩
    · change pulled.chunks.flatten <+: _
      rw [hslice]
      exact slice_isPrefix hconsumed
    · change pulled.chunks.flatten = _ ∧ pulled.chunks.flatten.length = _
      have hend : pulled.ending = .whole := by
        cases hcase : pulled.ending with
        | whole => rfl
        | stopped => simp [hcase, PullEnd.isWhole] at hwhole
        | failed e => simp [hcase, PullEnd.isWhole] at hwhole
      rw [hend] at hending
      have hdone : pulled.part.len ≤ pulled.part.produced := hending
      have htarget : pulled.part.source.consumed = offset.toNat + wide.toNat := by
        have := hreads.target
        omega
      have hle := hreads.holds.le
      rw [hslice, htarget, length_slice]
      exact ⟨rfl, by omega⟩
  refine Keeps.bind (Q := fun sent _ => sent = [_]) (keeps_send hslices rfl) ?_
  rintro _ _ rfl
  split
  next result hresult => exact keeps_pure ⟨_, rfl, rfl, rfl, hresult, hreads.holds, hconsumed⟩
  next e hresult => exact keeps_error

variable {result : ρ}

/-- A part of the body that was answered and drained. -/
theorem Stands.carries (h : Stands body failure offset.toNat source)
    (hdrained : Stands body failure (offset.toNat + wide.toNat) source')
    (htarget : offset.toNat + wide.toNat < Word64.size) {s : Sent} (hvalid : origin.valid index = .ok ())
    (hs : s.bodySource = .userBytes offset wide) (hhanded : s.handed = some (carryPartStream source wide.toNat))
    (houtcome : (origin.answer index).outcome = .ok result) :
    Carries origin body index ⟨.userBytes offset wide⟩ s result where
  valid := hvalid
  outcome := houtcome
  bodySource := hs
  offers := by
    refine ⟨_, ?_, redirectBodyBytes_eq_ok.mpr ⟨htarget, hdrained.le, rfl⟩⟩
    rw [Offers, hhanded]
    exact h.pull_whole htarget hdrained.le

/-- A request with a body in memory that was answered. -/
theorem carries_of_memory (hvalid : origin.valid index = .ok ())
    (houtcome : (origin.answer index).outcome = .ok result) (hbytes : redirectBodyBytes body bodySource = .ok bytes) :
    Carries origin body index ⟨bodySource⟩ ⟨bodySource, bytes, true, none⟩ result where
  valid := hvalid
  outcome := houtcome
  bodySource := rfl
  offers := ⟨bytes, rfl, hbytes⟩

/-- What one redirect of a batch does to the loop over it. -/
structure FollowedPart (body : Bytes) (failure : Option Error) (m m' : Multipart) (redirect : WriteRedirect) :
    Prop where
  stands : Stands body failure m'.cursor m'.source
  declared : m'.cursor = m.cursor + redirect.declared
  contiguous : ∀ {redirects}, Contiguous m'.cursor redirects → Contiguous m.cursor (redirect :: redirects)
  sawUserBytes : m'.sawUserBytes = (m.sawUserBytes || redirect.sendsUserBytes)

theorem followPart_keeps {m : Multipart} (h : Stands body failure m.cursor m.source) :
    (followPart origin index m redirect).Keeps (Slices body) fun sent (result, m') =>
      ∃ s, sent = [s] ∧ Carries origin body index redirect s result ∧ FollowedPart body failure m m' redirect := by
  refine Keeps.bind (Q := fun sent _ => sent = [] ∧ origin.valid index = .ok ())
    (keeps_raise fun _ hvalid => ⟨rfl, hvalid⟩) ?_
  rintro _ _ ⟨rfl, hvalid⟩
  obtain ⟨bodySource⟩ := redirect
  cases bodySource with
  | empty =>
    refine Keeps.bind (executeRedirectRequest_keeps trivial) ?_
    rintro _ result ⟨rfl, houtcome⟩
    exact keeps_pure ⟨_, rfl, carries_of_memory hvalid houtcome rfl, h, rfl, id, (Bool.or_false _).symm⟩
  | inline bytes =>
    refine Keeps.bind (executeRedirectRequest_keeps trivial) ?_
    rintro _ result ⟨rfl, houtcome⟩
    exact keeps_pure ⟨_, rfl, carries_of_memory hvalid houtcome rfl, h, rfl, id, (Bool.or_false _).symm⟩
  | userBytes offset wide =>
    dsimp only
    split_ifs with hcursor
    · exact keeps_fail
    · have hcursor : offset.toNat = m.cursor := not_not.mp hcursor
      rw [← hcursor] at h
      refine Keeps.bind (executeStreamingRequest_keeps h) ?_
      rintro _ ⟨result, source'⟩ ⟨s, rfl, hs, hhanded, houtcome, hholds, hle⟩
      refine Keeps.bind (Q := fun sent cursor => sent = [] ∧ plus m.cursor wide.toNat = .ok cursor)
        (keeps_of fun _ hplus => ⟨rfl, hplus⟩) ?_
      rintro _ cursor ⟨rfl, hplus⟩
      obtain ⟨htarget, rfl⟩ := plus_eq_ok.mp hplus
      rw [← hcursor] at htarget
      refine Keeps.bind (Q := fun sent drained => sent = [] ∧
        drainCarrySourceTo source' (m.cursor + wide.toNat) = .ok drained)
        (keeps_of fun _ hdrain => ⟨rfl, hdrain⟩) ?_
      rintro _ drained ⟨rfl, hdrain⟩
      rw [← hcursor] at hdrain
      have hdrained := drain_spec hholds hle hdrain
      refine keeps_pure ⟨s, rfl, h.carries hdrained htarget hvalid hs hhanded houtcome, hcursor ▸ hdrained, rfl, ?_, ?_⟩
      · intro redirects hrest
        exact ⟨hcursor, hcursor ▸ hrest⟩
      · exact (Bool.or_true _).symm

/-- The requests of a batch that were answered, from a position of it on. -/
inductive Carried (origin : Origin ρ) (body : Bytes) : ℕ → List WriteRedirect → List Sent → List ρ → Prop
  | nil {index : ℕ} : Carried origin body index [] [] []
  | cons {index : ℕ} {redirect : WriteRedirect} {redirects : List WriteRedirect} {s : Sent}
    {sent : List Sent} {result : ρ}
      {results : List ρ} (first : Carries origin body index redirect s result)
      (rest : Carried origin body (index + 1) redirects sent results) :
      Carried origin body index (redirect :: redirects) (s :: sent) (result :: results)

/-- What a run of the loop over a batch does. -/
theorem followParts_keeps {m : Multipart} {redirects : List WriteRedirect} (h : Stands body failure m.cursor m.source) :
    (followParts origin index m redirects).Keeps (Slices body) fun sent (results, m') =>
      Carried origin body index redirects sent results ∧ Stands body failure m'.cursor m'.source ∧
        m'.cursor = m.cursor + summedLength redirects ∧ Contiguous m.cursor redirects ∧
        m'.sawUserBytes = (m.sawUserBytes || redirects.any WriteRedirect.sendsUserBytes) := by
  induction redirects generalizing index m with
  | nil => exact keeps_pure ⟨.nil, h, rfl, trivial, (Bool.or_false _).symm⟩
  | cons redirect redirects ih =>
    refine Keeps.bind (followPart_keeps h) ?_
    rintro _ ⟨result, m'⟩ ⟨s, rfl, hcarries, hfollows⟩
    refine Keeps.bind (ih hfollows.stands) ?_
    rintro sent ⟨results, m''⟩ ⟨hcarried, hstands, hcursor, hcontiguous, hsaw⟩
    refine keeps_pure ?_
    rw [append_nil]
    refine ⟨.cons hcarries hcarried, hstands, ?_, hfollows.contiguous hcontiguous, ?_⟩
    · rw [hcursor, hfollows.declared, Nat.add_assoc]
      rfl
    · rw [hsaw, hfollows.sawUserBytes, Bool.or_assoc]
      rfl

/-- The batch of one redirect is a loop of one turn, and the source is at its end if it was drawn from. -/
theorem followSingle_keeps (origin : Origin ρ) (redirect : WriteRedirect) (h : Stands body failure 0 (.new stream)) :
    (followSingle origin stream redirect).Keeps (Slices body) fun sent results =>
      Carried origin body 0 [redirect] sent results ∧
        (redirect.sendsUserBytes → Contiguous 0 [redirect] ∧ body.length = summedLength [redirect] ∧
          failure = none) := by
  refine Keeps.bind (Q := fun sent _ => sent = [] ∧ origin.valid 0 = .ok ())
    (keeps_raise fun _ hvalid => ⟨rfl, hvalid⟩) ?_
  rintro _ _ ⟨rfl, hvalid⟩
  obtain ⟨bodySource⟩ := redirect
  cases bodySource with
  | empty =>
    refine Keeps.bind (executeRedirectRequest_keeps trivial) ?_
    rintro _ result ⟨rfl, houtcome⟩
    exact keeps_pure ⟨.cons (carries_of_memory hvalid houtcome rfl) .nil, nofun⟩
  | inline bytes =>
    refine Keeps.bind (executeRedirectRequest_keeps trivial) ?_
    rintro _ result ⟨rfl, houtcome⟩
    exact keeps_pure ⟨.cons (carries_of_memory hvalid houtcome rfl) .nil, nofun⟩
  | userBytes offset wide =>
    dsimp only
    split_ifs with hoffset
    · exact keeps_fail
    · have hoffset : offset.toNat = 0 := by rw [not_not.mp hoffset, UInt64.toNat_zero]
      have htarget : offset.toNat + wide.toNat < Word64.size := by
        rw [hoffset, Nat.zero_add]
        exact wide.toNat_lt
      rw [← hoffset] at h
      refine Keeps.bind (executeStreamingRequest_keeps h) ?_
      rintro _ ⟨result, source'⟩ ⟨s, rfl, hs, hhanded, houtcome, hholds, hle⟩
      refine Keeps.bind (Q := fun sent drained => sent = [] ∧ drainCarrySourceTo source' wide.toNat = .ok drained)
        (keeps_of fun _ hdrain => ⟨rfl, hdrain⟩) ?_
      rintro _ drained ⟨rfl, hdrain⟩
      have hsum : wide.toNat = offset.toNat + wide.toNat := by rw [hoffset, Nat.zero_add]
      rw [hsum] at hdrain
      have hdrained := drain_spec hholds hle hdrain
      refine Keeps.bind (Q := fun sent _ => sent = [] ∧ ensureCarrySourceEof drained _ = .ok ())
        (keeps_of fun _ heof => ⟨rfl, heof⟩) ?_
      rintro _ _ ⟨rfl, heof⟩
      obtain ⟨hend, hfailure⟩ := ensureCarrySourceEof_spec hdrained heof
      refine keeps_pure ⟨.cons (h.carries hdrained htarget hvalid hs hhanded houtcome) .nil,
        fun _ => ⟨⟨hoffset, trivial⟩, ?_, hfailure⟩⟩
      change body.length = wide.toNat + 0
      omega

/-! ### The other executors -/

/-- The file stream of a part that the file has gives the slice, in as many chunks as it has bytes at most. -/
theorem boundedFileStream_spec {reads : ℕ → Except Error ℕ} (hreads : ∀ turn, ∃ amount, reads turn = .ok amount)
    {turns position : ℕ} (hturns : remaining ≤ turns) (hfile : position + remaining ≤ body.length) :
    ∃ chunks, boundedFileStream body reads turns position remaining = .ok ⟨chunks, none⟩ ∧
      chunks.flatten = slice body position (position + remaining) ∧ chunks.length ≤ remaining := by
  induction turns generalizing position remaining with
  | zero =>
    obtain rfl : remaining = 0 := Nat.le_zero.mp hturns
    exact ⟨[], rfl, (slice_of_le (Nat.le_refl _)).symm, Nat.le_refl _⟩
  | succ turns ih =>
    rw [boundedFileStream]
    split_ifs with hzero
    · rw [hzero]
      exact ⟨[], rfl, (slice_of_le (Nat.le_refl _)).symm, Nat.le_refl _⟩
    · obtain ⟨amount, hamount⟩ := hreads turns
      rw [hamount]
      dsimp only
      obtain ⟨n, hn⟩ : ∃ n, min (min remaining (64 * 1024)) (max amount 1) = n := ⟨_, rfl⟩
      rw [hn]
      have hlength : (slice body position (position + n)).length = n := by
        rw [length_slice]
        omega
      have hne : slice body position (position + n) ≠ [] := by
        intro heq
        rw [heq, length_nil] at hlength
        omega
      have hminus : minus remaining n = .ok (remaining - n) := Word64.plainSub_of_le (by omega)
      have hturns' : remaining - n ≤ turns := by omega
      have hfile' : position + n + (remaining - n) ≤ body.length := by omega
      obtain ⟨chunks, hrest, hflat, hcount⟩ := ih hturns' hfile'
      rw [if_neg hne, hlength, hminus, ok_bind, hrest, ok_bind]
      refine ⟨_, rfl, ?_, ?_⟩
      · rw [flatten_cons, hflat, slice_append_slice (by omega) (by omega)]
        congr 1
        omega
      · change chunks.length + 1 ≤ remaining
        omega

variable {redirects : List WriteRedirect} {sent : List Sent} {results : List ρ}

/-- What the answered requests of a batch were offered is what `redirect_body_bytes` gives. -/
theorem Carried.parts (h : Carried origin body index redirects sent results) :
    ∃ parts, List.Forall₂ Offers sent parts ∧
      List.Forall₂ (fun redirect bytes => redirectBodyBytes body redirect.bodySource = .ok bytes) redirects parts := by
  induction h with
  | nil => exact ⟨[], .nil, .nil⟩
  | cons first rest ih =>
    obtain ⟨bytes, hoffers, hbytes⟩ := first.offers
    obtain ⟨parts, hsent, hparts⟩ := ih
    exact ⟨bytes :: parts, .cons hoffers hsent, .cons hbytes hparts⟩

theorem Carried.bodySources (h : Carried origin body index redirects sent results) :
    sent.map Sent.bodySource = redirects.map WriteRedirect.bodySource := by
  induction h with
  | nil => rfl
  | cons first rest ih => rw [map_cons, map_cons, first.bodySource, ih]

namespace Course

variable {α β : Type} {c : Course α} {f : α → Course β} {a : α} {b : β} {parts parts' : List Bytes}

/-- The course returns, and the request bodies are these. -/
structure Yields (c : Course α) (parts : List Bytes) (a : α) : Prop where
  result : c.result = .ok a
  sent : c.sent.map Sent.bytes = parts

theorem yields_pure : (pure a : Course α).Yields [] a := ⟨rfl, rfl⟩

theorem yields_of {result : Except Fault α} (h : result = .ok a) : (of result).Yields [] a := ⟨h, rfl⟩

theorem yields_raise {x : Except Error α} (h : x = .ok a) : (raise x).Yields [] a := by
  rw [h]
  exact ⟨rfl, rfl⟩

theorem yields_send {s : Sent} : (send s).Yields [s.bytes] () := ⟨rfl, rfl⟩

theorem Yields.bind (h : c.Yields parts a) (hf : (f a).Yields parts' b) : (c >>= f).Yields (parts ++ parts') b := by
  rw [bind_of_ok h.result]
  refine ⟨hf.result, ?_⟩
  change (c.sent ++ (f a).sent).map Sent.bytes = _
  rw [map_append, h.sent, hf.sent]

theorem Yields.map (h : c.Yields parts a) {g : α → β} : (c >>= fun a => pure (g a)).Yields parts (g a) := by
  have hbind := h.bind (f := fun a => pure (g a)) yields_pure
  rwa [append_nil] at hbind

end Course

theorem executeRedirectRequest_yields (houtcome : (origin.answer index).outcome = .ok result) :
    (executeRedirectRequest origin index bodySource bytes).Yields [bytes] result :=
  yields_send.bind (yields_raise houtcome)

/-- The parts of a batch, as `redirect_body_bytes` gives them. -/
abbrev PartsOf (body : Bytes) : List WriteRedirect → List Bytes → Prop :=
  List.Forall₂ fun redirect bytes => redirectBodyBytes body redirect.bodySource = .ok bytes

variable {parts : List Bytes}

/-- The buffered executor sends the parts of a batch that was answered. -/
theorem Carried.buffered (h : Carried origin body index redirects sent results)
    (hparts : PartsOf body redirects parts) :
    (followBufferedWriteRedirects origin body index redirects).Yields parts results := by
  induction h generalizing parts with
  | nil =>
    cases hparts
    exact yields_pure
  | cons first rest ih =>
    cases hparts with
    | cons hbytes hparts =>
      refine (yields_raise first.valid).bind ((yields_of hbytes).bind ?_)
      exact (executeRedirectRequest_yields first.outcome).bind (ih hparts).map

/-- An origin that answers as another one, and pulls this often before. -/
def Origin.patient (origin : Origin ρ) (pulls : ℕ) : Origin ρ :=
  { origin with answer := fun index => ⟨pulls, (origin.answer index).outcome⟩ }

/-- The seekable executor sends the parts of a batch that was answered to a client that pulls all of them. -/
theorem Carried.seekable (h : Carried origin body index redirects sent results) (hparts : PartsOf body redirects parts)
    {reads : ℕ → ℕ → Except Error ℕ} (hreads : ∀ index turn, ∃ amount, reads index turn = .ok amount) :
    (followSeekableWriteRedirects (origin.patient (body.length + 1)) body reads index
      redirects).Yields parts results := by
  induction h generalizing parts with
  | nil =>
    cases hparts
    exact yields_pure
  | @cons index redirect redirects s sent result results first rest ih =>
    cases hparts with
    | @cons _ bytes _ parts hbytes hparts =>
      have hoffer : ((origin.patient (body.length + 1)).answer index).outcome = .ok result := first.outcome
      refine (yields_raise (x := (origin.patient (body.length + 1)).valid index) first.valid).bind ?_
      obtain ⟨bodySource⟩ := redirect
      cases bodySource with
      | empty =>
        cases hbytes
        exact (executeRedirectRequest_yields hoffer).bind (ih hparts).map
      | inline bytes =>
        cases hbytes
        exact (executeRedirectRequest_yields hoffer).bind (ih hparts).map
      | userBytes offset wide =>
        dsimp only
        obtain ⟨htarget, hbody, rfl⟩ := redirectBodyBytes_eq_ok.mp hbytes
        rw [Word64.checkedAdd, if_pos htarget]
        dsimp only
        rw [if_neg (Nat.not_lt.mpr hbody)]
        obtain ⟨chunks, hstream, hflat, hcount⟩ := boundedFileStream_spec (hreads index) (Nat.le_refl _) hbody
        have htake : chunks.take (body.length + 1) = chunks := take_of_length_le (by omega)
        have hsent : (chunks.take (body.length + 1)).flatten = slice body offset.toNat (offset.toNat + wide.toNat) := by
          rw [htake, hflat]
        refine (yields_of hstream).bind ?_
        exact hsent ▸ yields_send.bind ((yields_raise hoffer).bind (ih hparts).map)

/-! ### Every batch -/

theorem Stands.new (stream : BodyStream) : Stands stream.chunks.flatten stream.error 0 (.new stream) where
  consumed := rfl
  le := Nat.zero_le _
  rest := rfl
  error := rfl

theorem followStreamingWriteRedirects_keeps (origin : Origin ρ) (stream : BodyStream) (batch : List WriteRedirect) :
    (followStreamingWriteRedirects origin stream batch).Keeps (Slices stream.chunks.flatten) fun sent results =>
      Carried origin stream.chunks.flatten 0 batch sent results ∧
        (batch.any WriteRedirect.sendsUserBytes →
          Contiguous 0 batch ∧ stream.chunks.flatten.length = summedLength batch ∧ stream.error = none) := by
  unfold followStreamingWriteRedirects
  split
  · exact keeps_pure ⟨.nil, nofun⟩
  next redirect =>
    have hsingle := followSingle_keeps origin redirect (.new stream)
    exact ⟨hsingle.1, fun results hresult => by simpa using hsingle.2 results hresult⟩
  · refine Keeps.bind (followParts_keeps (.new stream)) ?_
    rintro sent ⟨results, m⟩ ⟨hcarried, hstands, hcursor, hcontiguous, hsaw⟩
    have hsaw : m.sawUserBytes = batch.any WriteRedirect.sendsUserBytes := hsaw.trans (Bool.false_or _)
    dsimp only
    split_ifs with huser
    · refine Keeps.bind (Q := fun sent _ => sent = [] ∧ ensureCarrySourceEof m.source _ = .ok ())
        (keeps_of fun _ heof => ⟨rfl, heof⟩) ?_
      rintro _ _ ⟨rfl, heof⟩
      obtain ⟨hend, herror⟩ := ensureCarrySourceEof_spec hstands heof
      refine keeps_pure ?_
      rw [append_nil, append_nil]
      refine ⟨hcarried, fun _ => ⟨hcontiguous, ?_, herror⟩⟩
      rw [← hend, hcursor]
      exact Nat.zero_add _
    · refine keeps_pure ?_
      rw [append_nil]
      exact ⟨hcarried, fun hany => absurd (hsaw.trans hany) huser⟩

/-- Each part is sent as a prefix of its slice, and where the upload succeeds the parts cover the body and each was
offered what the two other executors send. -/
theorem parts_never_mix (origin : Origin ρ) (stream : BodyStream) (batch : List WriteRedirect) :
    (∀ s ∈ (followStreamingWriteRedirects origin stream batch).sent, Slices stream.chunks.flatten s) ∧
      ∀ results, (followStreamingWriteRedirects origin stream batch).result = .ok results →
        (batch.any WriteRedirect.sendsUserBytes →
          Contiguous 0 batch ∧ stream.chunks.flatten.length = summedLength batch ∧ stream.error = none) ∧
        (followStreamingWriteRedirects origin stream batch).sent.map Sent.bodySource =
          batch.map WriteRedirect.bodySource ∧
        ∃ parts, List.Forall₂ Offers (followStreamingWriteRedirects origin stream batch).sent parts ∧
          (followBufferedWriteRedirects origin stream.chunks.flatten 0 batch).Yields parts results ∧
          ∀ reads : ℕ → ℕ → Except Error ℕ, (∀ index turn, ∃ amount, reads index turn = .ok amount) →
            (followSeekableWriteRedirects (origin.patient (stream.chunks.flatten.length + 1))
              stream.chunks.flatten reads 0
              batch).Yields parts results := by
  obtain ⟨hslices, hok⟩ := followStreamingWriteRedirects_keeps origin stream batch
  refine ⟨hslices, fun results hresult => ?_⟩
  obtain ⟨hcarried, hcovers⟩ := hok results hresult
  obtain ⟨parts, hoffers, hparts⟩ := hcarried.parts
  exact ⟨hcovers, hcarried.bodySources, parts, hoffers, hcarried.buffered hparts,
    fun _ hreads => hcarried.seekable hparts hreads⟩

/-- An origin that accepts everything unread. -/
def accepting : Origin Unit := ⟨fun _ => .ok (), fun _ => ⟨0, .ok ()⟩⟩

/-- A batch that sends nothing of the body succeeds with any body. -/
theorem empty_batch_unread : (followStreamingWriteRedirects accepting ⟨[[0]], none⟩ [⟨.empty⟩]).result = .ok [()] ∧
    [[(0 : UInt8)]].flatten.length ≠ summedLength [⟨.empty⟩] := ⟨rfl, by decide⟩

end OvStorage.Redirect
