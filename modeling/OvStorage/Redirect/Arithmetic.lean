import OvStorage.Redirect.Completeness

/-!
# The arithmetic of a redirected read

Which numbers of an origin make an addition or a subtraction of a read overflow. The checked and the saturating ones are
safe, and so are the subtractions, each of which stands behind a comparison; what is left are the length of the range
that a `206` states, and the position in a body.
-/

namespace OvStorage.Redirect

open OvStorage.Layer Slice Stateful Word64 Validate List

/-! ### Computations that fit -/

section Fits

variable {α β : Type} {x : Except Fault α} {f : α → Except Fault β} {a b : ℕ}

/-- No arithmetic overflows. -/
def Fits (x : Except Fault α) : Prop := x ≠ .error .overflow

theorem fits_ok {a : α} : Fits (.ok a) := nofun

theorem fits_error {e : Error} : Fits (.error (.error e) : Except Fault α) := nofun

theorem fits_fail {code : ErrorCode} {message : String} : Fits (fail code message : Except Fault α) := nofun

theorem Fits.bind (h : Fits x) (hf : ∀ a, x = .ok a → Fits (f a)) : Fits (x >>= f) := by
  cases x with
  | error fault => exact fun heq => h (congrArg Except.error (Except.error.inj heq))
  | ok a => exact hf a rfl

theorem fits_plus (h : a + b < Word64.size) : Fits (plus a b) := by
  rw [plus, plainAdd_of_lt h]
  exact fits_ok

theorem fits_minus (h : b ≤ a) : Fits (minus a b) := by
  rw [minus, plainSub_of_le h]
  exact fits_ok

end Fits

/-! ### The range that a response states -/

theorem parseContentRange_total {value : Text} {parsed : ParsedContentRange}
    (h : parseContentRange value = some parsed) :
    ∀ total ∈ parsed.total, total < Word64.size := by
  simp only [parseContentRange, Option.bind_eq_bind, Option.bind_eq_some_iff, Option.ite_none_right_eq_some,
    Option.ite_none_left_eq_some, Option.some.injEq, Prod.exists] at h
  obtain ⟨_, _, -, -, _, totalText, -, _, _, -, start, -, last, -, -, total, htotal, rfl⟩ := h
  intro n hn
  unfold parseTotal at htotal
  split_ifs at htotal with hstar
  · cases htotal
    cases hn
  · simp only [Option.bind_eq_bind, Option.bind_eq_some_iff, Option.ite_none_left_eq_some] at htotal
    obtain ⟨m, hm, -, heq⟩ := htotal
    cases heq
    cases hn
    exact parseU64_lt hm

variable {r : Response} {parsed : ParsedContentRange} {start : ℕ} {requestedEnd : Option ℕ} {phase : String}

/-- A range that a response states is one of words. -/
structure Stated (parsed : ParsedContentRange) : Prop where
  le : parsed.start ≤ parsed.last
  lt : parsed.last < Word64.size
  total : ∀ total ∈ parsed.total, parsed.last < total ∧ total < Word64.size

theorem stated (h : r.contentRange = some parsed) : Stated parsed := by
  obtain ⟨value, -, hparse⟩ := Option.bind_eq_some_iff.mp h
  obtain ⟨hle, hlt, htotal⟩ := parseContentRange_eq_some hparse
  exact ⟨hle, hlt, fun total hmem => ⟨htotal total hmem, parseContentRange_total hparse total hmem⟩⟩

/-- A range of all the bytes that there can be has no total. -/
theorem Stated.total_none (h : Stated parsed) (hlast : parsed.last = Word64.max) : parsed.total = none := by
  cases htotal : parsed.total with
  | none => rfl
  | some total =>
    obtain ⟨hlt, hsize⟩ := h.total total htotal
    rw [size_eq] at hsize
    omega

/-- The range whose length is no word. -/
theorem Stated.eq_all (h : Stated parsed) (hover : Word64.size ≤ parsed.last - parsed.start + 1) :
    parsed = ⟨0, Word64.max, none⟩ := by
  obtain ⟨first, last, total⟩ := parsed
  have hle : first ≤ last := h.le
  have hlt : last < Word64.size := h.lt
  have hlen : Word64.size ≤ last - first + 1 := hover
  rw [size_eq] at hlt hlen
  obtain rfl : first = 0 := by omega
  obtain rfl : last = Word64.max := by omega
  obtain rfl : total = none := h.total_none rfl
  rfl

/-- A range that goes up to the greatest word, or the one before, ends where the object ends. -/
theorem Stated.expectedEnd_none (h : Stated parsed) (hlast : Word64.max ≤ parsed.last + 1) :
    expectedEnd none parsed = .ok parsed.last := by
  unfold expectedEnd
  cases htotal : parsed.total with
  | none => rfl
  | some total =>
    obtain ⟨hlt, hsize⟩ := h.total total htotal
    rw [size_eq] at hsize
    have hlen : total - 1 = parsed.last := by omega
    change minus total 1 = _
    rw [minus, plainSub_of_le (by omega), hlen]

theorem fits_expectedEnd (h : Stated parsed) : Fits (expectedEnd requestedEnd parsed) := by
  have hminus : ∀ total ∈ parsed.total, Fits (minus total 1) := fun total hmem => fits_minus (by
    have := (h.total total hmem).1
    omega)
  unfold expectedEnd
  split
  next htotal => exact (hminus _ htotal).bind fun _ _ => fits_ok
  · exact fits_ok
  next htotal => exact hminus _ htotal
  · exact fits_ok

/-- A `206` that states all the bytes that there can be, in one range. -/
def SpansAll (r : Response) : Prop := r.isMultipart = false ∧ r.contentRange = some ⟨0, Word64.max, none⟩

theorem fits_validateSingleRange206
    (h : ¬(SpansAll r ∧ start = 0 ∧ (requestedEnd = none ∨ requestedEnd = some Word64.max))) :
    Fits (validateSingleRange206 r start requestedEnd phase) := by
  unfold validateSingleRange206
  dsimp only
  split_ifs with hmultipart
  · exact fits_fail
  cases hparsed : r.contentRange with
  | none => exact fits_fail
  | some parsed =>
    have hstated := stated hparsed
    dsimp only
    split_ifs with hstart
    · exact fits_fail
    refine (fits_expectedEnd hstated).bind fun expected hexpected => ?_
    split_ifs with hlast
    · exact fits_fail
    refine (fits_minus hstated.le).bind fun span hspan => ?_
    obtain ⟨-, rfl⟩ := minus_eq_ok.mp hspan
    have hfits : parsed.last - parsed.start + 1 < Word64.size := by
      refine Nat.not_le.mp fun hover => ?_
      obtain rfl := hstated.eq_all hover
      refine h ⟨⟨by simpa using hmultipart, hparsed⟩, (not_not.mp hstart).symm, ?_⟩
      rw [← not_not.mp hlast] at hexpected
      cases requestedEnd with
      | none => exact .inl rfl
      | some asked => exact .inr (congrArg some (Except.ok.inj hexpected))
    refine (fits_plus hfits).bind fun declared _ => ?_
    split_ifs
    · exact fits_fail
    · exact fits_ok

theorem validateSingleRange206_overflows_iff :
    validateSingleRange206 r start requestedEnd phase = .error .overflow ↔
      SpansAll r ∧ start = 0 ∧ (requestedEnd = none ∨ requestedEnd = some Word64.max) := by
  constructor
  · intro h
    exact of_not_not fun hnot => fits_validateSingleRange206 hnot h
  · rintro ⟨⟨hmultipart, hparsed⟩, rfl, hend⟩
    have hexpected : expectedEnd requestedEnd ⟨0, Word64.max, none⟩ = .ok Word64.max := by
      rcases hend with rfl | rfl <;> rfl
    have hover : plus (Word64.max - 0) 1 = .error .overflow := plainAdd_of_le (Nat.le_refl _)
    have hminus : minus Word64.max 0 = .ok (Word64.max - 0) := plainSub_of_le (Nat.zero_le _)
    unfold validateSingleRange206
    rw [if_neg (by simp [hmultipart]), hparsed]
    simp only [ne_eq, not_true_eq_false, if_false, hexpected, ok_bind, hminus, hover]
    rfl

/-! ### Cutting a full body down -/

variable {consumed : ℕ} {chunk : Bytes} {chunks : List Bytes}

theorem cutChunk_ok (start : ℕ) {bound : ℕ} (h : consumed + chunk.length < Word64.size) (hopen : consumed < bound) :
    ∃ result, cutChunk start bound consumed chunk = .ok result := by
  have hplus : plus consumed chunk.length = .ok (consumed + chunk.length) := plainAdd_of_lt h
  have hlo : ∃ lo, sliceLo start consumed = .ok lo := by
    unfold sliceLo
    split_ifs with hlt
    · exact ⟨_, plainSub_of_le (Nat.le_of_lt hlt)⟩
    · exact ⟨_, rfl⟩
  have hhi : ∃ hi, sliceHi bound (consumed + chunk.length) chunk.length = .ok hi := by
    unfold sliceHi
    split_ifs with hlt
    · have hover : minus (consumed + chunk.length) bound = .ok (consumed + chunk.length - bound) :=
        plainSub_of_le (Nat.le_of_lt hlt)
      rw [hover, ok_bind]
      exact ⟨_, plainSub_of_le (by omega)⟩
    · exact ⟨_, rfl⟩
  obtain ⟨lo, hlo⟩ := hlo
  obtain ⟨hi, hhi⟩ := hhi
  rw [cutChunk, hplus, ok_bind]
  split_ifs
  · exact ⟨_, rfl⟩
  · rw [hlo, ok_bind, hhi, ok_bind]
    exact ⟨_, rfl⟩

/-- What a filter reads that stops at a bound overflows at the first chunk that ends behind the greatest word. -/
theorem filterChunks_overflows_iff (start bound consumed : ℕ) (chunks : List Bytes) {ending : Ending}
    (hending : ending ≠ .fault .overflow) :
    (filterChunks start bound ending consumed chunks).ending = .fault .overflow ↔
      ∃ before chunk after, chunks = before ++ chunk :: after ∧ consumed + before.flatten.length < bound ∧
        Word64.size ≤ consumed + before.flatten.length + chunk.length := by
  induction chunks generalizing consumed with
  | nil =>
    have hnot : ¬∃ before chunk after, ([] : List Bytes) = before ++ chunk :: after ∧
          consumed + before.flatten.length < bound ∧
        Word64.size ≤ consumed + before.flatten.length + chunk.length := by
      rintro ⟨before, chunk, after, heq, -⟩
      cases before <;> cases heq
    refine iff_of_false ?_ hnot
    unfold filterChunks
    split_ifs
    · rintro ⟨⟩
    · rintro ⟨⟩
    · exact hending
  | cons chunk chunks ih =>
    rw [filterChunks]
    by_cases hbound : bound ≤ consumed
    · rw [if_pos hbound]
      refine iff_of_false (by rintro ⟨⟩) ?_
      rintro ⟨before, chunk, after, -, hlt, -⟩
      omega
    rw [if_neg hbound]
    by_cases hover : Word64.size ≤ consumed + chunk.length
    · refine iff_of_true ?_ ⟨[], chunk, chunks, rfl, Nat.not_le.mp hbound, hover⟩
      rw [cutChunk, plus, plainAdd_of_le hover]
      rfl
    obtain ⟨⟨next, out⟩, hcut⟩ := cutChunk_ok start (Nat.not_le.mp hover) (Nat.not_le.mp hbound)
    obtain ⟨rfl, -⟩ := cutChunk_eq_ok hcut
    rw [hcut]
    refine (ih _).trans ?_
    constructor
    · rintro ⟨before, last, after, rfl, hlt, hsize⟩
      refine ⟨chunk :: before, last, after, rfl, ?_⟩
      rw [flatten_cons, length_append]
      omega
    · rintro ⟨before, last, after, heq, hlt, hsize⟩
      cases before with
      | nil =>
        cases heq
        exact (hover hsize).elim
      | cons first before =>
        cases heq
        refine ⟨before, last, after, rfl, ?_⟩
        rw [flatten_cons, length_append] at hlt hsize
        omega

/-! ### The body of one response -/

variable {W : World} {init : ℕ} {bound : Option ℕ} {s s' : Cursor} {out : Bytes} {reachedEnd : Bool} {ending : BodyEnd}

/-- A body that ends before the greatest word, or whose range does. -/
def WithinWords (s : Cursor) (len : ℕ) : Prop :=
  s.responseCursor + len < Word64.size ∨ ∃ e ∈ s.responseEndExclusive, e < Word64.max

theorem fits_onChunk (h : WithinWords s chunk.length) : Fits (onChunk bound s chunk) := by
  unfold onChunk
  dsimp only
  split_ifs with hover
  · exact fits_fail
  -- a chunk that passes the check against the stated range ends at a word
  have hfits : s.responseCursor + chunk.length < Word64.size := by
    rcases h with h | ⟨e, he, hlt⟩
    · exact h
    · by_contra hsize
      have hsum : Word64.saturatingAdd s.responseCursor chunk.length = Word64.max :=
        saturatingAdd_of_le (Nat.not_lt.mp hsize)
      refine hover ?_
      rw [Option.mem_def.mp he, hsum]
      exact decide_eq_true hlt
  have hskip : Fits (skipDelivered s chunk) := by
    unfold skipDelivered
    split_ifs with hlt
    · refine (fits_minus (Nat.le_of_lt hlt)).bind fun ahead _ => (fits_plus ?_).bind fun _ _ => fits_ok
      omega
    · exact fits_ok
  refine hskip.bind fun next hnext => ?_
  obtain ⟨cursor, fresh⟩ := next
  obtain ⟨n, hn, -, rfl, rfl⟩ := skipDelivered_eq_ok hnext
  dsimp only
  split_ifs
  · exact fits_ok
  have hrest : s.responseCursor + n + (chunk.drop n).length < Word64.size := by
    rw [length_drop]
    omega
  have hclip : Fits (clipToEnd bound (s.responseCursor + n) (chunk.drop n)) := by
    unfold clipToEnd
    split
    · exact fits_ok
    split_ifs with hle
    · exact fits_ok
    refine (fits_plus hrest).bind fun last _ => ?_
    split_ifs
    · exact (fits_minus (Nat.le_of_not_le hle)).bind fun _ _ => fits_ok
    · exact fits_ok
  refine hclip.bind fun next hnext => ?_
  obtain ⟨clipped, reached⟩ := next
  obtain ⟨m, rfl, -⟩ := clipToEnd_eq_ok hnext
  have hdeliver : Fits (s.deliver (s.responseCursor + n) ((chunk.drop n).take m)) := by
    unfold Cursor.deliver
    split_ifs
    · exact fits_ok
    · refine (fits_plus ?_).bind fun _ _ => fits_ok
      have := length_take_le' m (chunk.drop n)
      omega
  exact hdeliver.bind fun _ _ => fits_ok

theorem onChunk_mark (hsize : s.deliveredHwm < Word64.size) (h : onChunk bound s chunk = .ok (s', out, reachedEnd)) :
    s'.deliveredHwm < Word64.size := by
  unfold onChunk at h
  dsimp only at h
  split_ifs at h with hover
  · cases h
  obtain ⟨⟨cursor, fresh⟩, -, h⟩ := bind_eq_ok.mp h
  dsimp only at h
  split_ifs at h with hall
  · cases h
    exact hsize
  obtain ⟨⟨clipped, reached⟩, -, h⟩ := bind_eq_ok.mp h
  obtain ⟨next, hdeliver, h⟩ := bind_eq_ok.mp h
  cases h
  unfold Cursor.deliver at hdeliver
  split_ifs at hdeliver with hnil
  · cases hdeliver
    exact hsize
  · obtain ⟨last, hlast, hdeliver⟩ := bind_eq_ok.mp hdeliver
    cases hdeliver
    obtain ⟨hlt, rfl⟩ := plus_eq_ok.mp hlast
    exact Nat.max_lt.mpr ⟨hsize, hlt⟩

theorem finalize_ne_overflow (verifier : StreamingVerifier) : verifier.finalize W ≠ .fault .overflow := by
  unfold StreamingVerifier.finalize
  split
  · nofun
  · split_ifs <;> nofun

theorem onEnd_ne_overflow : s.onEnd W ≠ .fault .overflow := by
  unfold Cursor.onEnd
  split_ifs
  · nofun
  · exact finalize_ne_overflow _

/-- A chunk stands in what is read, with anything before it. -/
theorem at_replicate (n : ℕ) (chunk : Bytes) : At (List.replicate n 0 ++ chunk) n chunk := by
  have hdrop : (List.replicate n 0 ++ chunk).drop n = chunk := drop_left' length_replicate
  simp [At, hdrop]

/-- A body within the words does not overflow, and neither does the mark. -/
theorem readBody_fits (W : World) (ending : BodyEnd) (hplaced : Placed init bound s)
    (hsize : s.deliveredHwm < Word64.size) (hwithin : WithinWords s chunks.flatten.length) :
    ∃ mark < Word64.size, s.deliveredHwm + (readBody W bound ending s chunks).1.flatten.length ≤ mark ∧
      match (readBody W bound ending s chunks).2 with
      | .failed s' _ => Placed init bound s' ∧ s'.deliveredHwm = mark
      | .ended e => e ≠ .fault .overflow := by
  induction chunks generalizing s with
  | nil =>
    refine ⟨s.deliveredHwm, hsize, ?_, ?_⟩
    · cases ending <;> exact Nat.le_refl _
    · cases ending with
      | closed => exact onEnd_ne_overflow
      | failed message => exact ⟨hplaced, rfl⟩
      | pending => nofun
  | cons chunk chunks ih =>
    rw [flatten_cons, length_append] at hwithin
    have hfits : Fits (onChunk bound s chunk) := fits_onChunk (hwithin.imp_left fun h => by omega)
    rw [readBody]
    cases hchunk : onChunk bound s chunk with
    | error fault =>
      refine ⟨s.deliveredHwm, hsize, Nat.le_refl _, fun heq => hfits ?_⟩
      rw [hchunk, Ending.fault.inj heq]
    | ok result =>
      obtain ⟨s', out, reachedEnd⟩ := result
      obtain ⟨hplaced', hle, hout, hend, hreached⟩ := onChunk_spec hplaced (at_replicate _ _) hchunk
      have hsize' := onChunk_mark hsize hchunk
      have hlen : s.deliveredHwm + (if out = [] then [] else [out]).flatten.length ≤ s'.deliveredHwm := by
        have hlen : out.length ≤ s'.deliveredHwm - s.deliveredHwm := by
          rw [hout, length_slice]
          omega
        split_ifs with hnil
        · exact hle
        · rw [flatten_singleton]
          omega
      cases reachedEnd with
      | true => exact ⟨s'.deliveredHwm, hsize', hlen, finalize_ne_overflow _⟩
      | false =>
        rw [if_neg Bool.false_ne_true] at hreached
        have hwithin' : WithinWords s' chunks.flatten.length := by
          rw [WithinWords, hreached.1, hend, Nat.add_assoc]
          exact hwithin
        obtain ⟨mark, hmark, hbytes, hexit⟩ := ih hplaced' hsize' hwithin'
        refine ⟨mark, hmark, ?_, hexit⟩
        change s.deliveredHwm + ((if out = [] then [] else [out]) ++
          (readBody W bound ending s' chunks).1).flatten.length ≤ mark
        rw [flatten_append, length_append]
        omega

/-- A body that ends behind the greatest word overflows, where its range does not end before. -/
theorem readBody_overflows (W : World) (ending : BodyEnd) (hskip : s.skipUntil ≤ s.responseCursor)
    (hcursor : s.responseCursor < Word64.size) (hend : ∀ e ∈ s.responseEndExclusive, Word64.max ≤ e)
    (hsize : Word64.size ≤ s.responseCursor + chunks.flatten.length) :
    (readBody W none ending s chunks).2 = .ended (.fault .overflow) := by
  induction chunks generalizing s with
  | nil =>
    rw [flatten_nil, length_nil] at hsize
    omega
  | cons chunk chunks ih =>
    rw [flatten_cons, length_append] at hsize
    rw [readBody]
    by_cases hover : Word64.size ≤ s.responseCursor + chunk.length
    · have hne : chunk ≠ [] := by
        rintro rfl
        rw [length_nil] at hover
        omega
      have hdeliver : s.deliver s.responseCursor chunk = .error .overflow := by
        rw [Cursor.deliver, if_neg hne, plus, plainAdd_of_le hover]
        rfl
      have hchunk : onChunk none s chunk = .error .overflow := by
        rw [onChunk_ahead hskip fun last hlast => Nat.le_trans saturatingAdd_le_max (hend last hlast), hdeliver]
        rfl
      rw [hchunk]
    · have hfits := Nat.not_le.mp hover
      obtain ⟨s', hchunk, hcursor', hend', hskip', -⟩ := onChunk_live hskip hfits fun last hlast => by
        have := hend last hlast
        rw [size_eq] at hfits
        omega
      rw [hchunk]
      refine ih ?_ ?_ ?_ ?_
      · omega
      · omega
      · rw [hend']
        exact hend
      · omega

/-! ### The whole read -/

/-- A response whose range or body goes behind the greatest word: a `206` that states all the bytes that there can be, a
`206` whose stated range stops no body before the greatest word and whose body goes over it, and a full body of that
length. -/
def Oversized (r : Response) : Prop :=
  r.status = 206 ∧ SpansAll r ∨
    (r.status = 206 ∧ r.isMultipart = false ∧ ∃ parsed, r.contentRange = some parsed ∧
      (∀ n ∈ r.contentLength, n = parsed.last - parsed.start + 1) ∧ Word64.max ≤ parsed.last + 1 ∧
      Word64.size ≤ parsed.start + r.body.chunks.flatten.length) ∨
    (r.isSuccess ∧ r.status ≠ 206 ∧ Word64.size ≤ r.body.chunks.flatten.length)

variable {redirect : ReadRedirect} {session : Session} {ctx : ResumeContext} {range : Option ByteRange}
  {ifMatchWasSet : Bool}
  {retryCfg : RetryConfig}

theorem fits_validate (hsmall : ¬Oversized r) (hpart : r.status = 206) :
    Fits (validateSingleRange206 r start requestedEnd phase) :=
  fits_validateSingleRange206 fun h => hsmall (.inl ⟨hpart, h.1⟩)

/-- A `206` that is taken, and is not oversized, is a body within the words. -/
theorem withinWords_of_part (hsmall : ¬Oversized r) (hpart : r.status = 206)
    (hvalid : validateSingleRange206 r start requestedEnd phase = .ok parsed) (hcursor : s.responseCursor = start)
    (hend : s.responseEndExclusive = some (endExclusive parsed.last)) : WithinWords s r.body.chunks.flatten.length := by
  obtain ⟨hparsed, hstart, -, hmultipart, hlength⟩ := validateSingleRange206_eq_ok hvalid
  rw [WithinWords, hcursor, hend]
  by_cases hlast : Word64.max ≤ parsed.last + 1
  · refine .inl (Nat.not_le.mp fun hsize =>
      hsmall (.inr (.inl ⟨hpart, hmultipart, parsed, hparsed, hlength, hlast, ?_⟩)))
    rwa [hstart]
  · refine .inr ⟨_, rfl, ?_⟩
    exact Nat.lt_of_le_of_lt saturatingAdd_le (Nat.not_le.mp hlast)

theorem withinWords_of_full (hsmall : ¬Oversized r) (hsuccess : r.isSuccess) (hfull : r.status ≠ 206)
    (hcursor : s.responseCursor = 0) :
    WithinWords s r.body.chunks.flatten.length := by
  refine .inl (Nat.not_le.mp fun hsize => hsmall (.inr (.inr ⟨hsuccess, hfull, ?_⟩)))
  rwa [hcursor, Nat.zero_add] at hsize

variable {validator : Text}

theorem Resumed.withinWords (hsmall : ¬Oversized r) (h : Resumed W ctx s.deliveredHwm validator r) :
    WithinWords (s.resumed r) r.body.chunks.flatten.length := by
  obtain ⟨-, hsuccess, haccept⟩ := h
  unfold acceptResumed at haccept
  split_ifs at haccept with hother hpart
  · split at haccept
    · cases haccept
    next parsed hvalid =>
      obtain ⟨hparsed, -⟩ := validateSingleRange206_eq_ok hvalid
      refine withinWords_of_part hsmall hpart hvalid ?_ ?_
      · rw [Cursor.resumed, if_pos hpart]
      · rw [Cursor.resumed, if_pos hpart, hparsed]
        rfl
  · exact withinWords_of_full hsmall hsuccess hpart (by rw [Cursor.resumed, if_neg hpart])

theorem error_ne_overflow {e : Error} : Fault.error e ≠ .overflow := nofun

/-- How an operation that is tried again leaves the engine where the responses are not oversized. -/
abbrev Attempted (good : Response → Prop) : RetryStep Fault Response → Session → Prop :=
  RetryStep.Leaves (fun _ => True) (fun r _ => good r) fun fault _ => fault ≠ .overflow

theorem remint_attempted {good : Response → Prop} (mint : List Call → Except Error ReadRedirect) (message : String) :
    Ends (remint mint message) session (Attempted good) := by
  rw [remint, ends_bind]
  exact ends_mintRedirect (fun e _ => error_ne_overflow) fun fresh _ => ⟨trivial, error_ne_overflow⟩

theorem headerAttempt_attempted : Ends (headerAttempt W range) session (Attempted W.Gives) := by
  rw [headerAttempt, ends_bind]
  refine Ends.of_forall fun result t => ?_
  cases result with
  | error e => exact error_ne_overflow
  | ok =>
    rw [sendStreamingRequest]
    simp only [ends_bind, ends_get, ends_ask]
    cases hsend : W.send t.calls (streamingRequest t.current.request range none) with
    | error message => exact ⟨trivial, error_ne_overflow⟩
    | ok response =>
      simp only [ends_bind, ends_get]
      split_ifs with hrejected hretry
      · cases W.mint with
        | none => exact ⟨_, _, hsend⟩
        | some mint => exact remint_attempted mint _
      · exact ⟨trivial, error_ne_overflow⟩
      · exact ⟨_, _, hsend⟩

theorem settleResumed_attempted (hsmall : ∀ r, W.Gives r → ¬Oversized r) (hgives : W.Gives r) :
    Attempted (Resumed W ctx start validator) (settleResumed ctx start validator r) session := by
  have haccept : Attempted (fun r' => r' = r ∧ acceptResumed ctx start validator r = .done r)
      (acceptResumed ctx start validator r) session := by
    unfold acceptResumed
    split_ifs with hother hpart
    · exact error_ne_overflow
    · have hfits : Fits (validateSingleRange206 r start ctx.requestedEnd "resume") :=
        fits_validate (hsmall r hgives) hpart
      cases hvalid : validateSingleRange206 r start ctx.requestedEnd "resume" with
      | error fault => exact fun heq => hfits (heq ▸ hvalid)
      | ok parsed => exact ⟨rfl, rfl⟩
    · exact ⟨rfl, rfl⟩
  unfold settleResumed
  split_ifs with hretry hsuccess
  · exact ⟨trivial, error_ne_overflow⟩
  · exact error_ne_overflow
  · revert haccept
    cases hstep : acceptResumed ctx start validator r with
    | done r' =>
      rintro ⟨rfl, -⟩
      exact ⟨hgives, by simpa using hsuccess, hstep⟩
    | failed fault => exact id
    | retryAfter fault => exact id

theorem resumeAttempt_attempted (hsmall : ∀ r, W.Gives r → ¬Oversized r) :
    Ends (resumeAttempt W ctx start validator) session (Attempted (Resumed W ctx start validator)) := by
  rw [resumeAttempt, ends_bind]
  refine Ends.of_forall fun result t => ?_
  cases result with
  | error e => exact error_ne_overflow
  | ok =>
    rw [sendStreamingRequest]
    generalize hrequest : streamingRequest t.current.request (some ⟨start, ctx.requestedEnd⟩)
      ctx.httpEntityTag = request
    simp only [ends_bind, ends_get, ends_ask, hrequest]
    cases hsend : W.send t.calls request with
    | error message => exact ⟨trivial, error_ne_overflow⟩
    | ok response =>
      dsimp only
      split_ifs with hchanged
      · exact error_ne_overflow
      rw [ends_bind, ends_get]
      split
      next mint _ => exact remint_attempted mint _
      next => exact settleResumed_attempted hsmall ⟨_, _, hsend⟩

/-- The whole loop, with any number of resumes. -/
theorem resumeLoop_fits (hsmall : ∀ r, W.Gives r → ¬Oversized r) (resumesLeft : ℕ)
    (hplaced : Placed init (ctx.requestedEnd.map endExclusive) s) (hsize : s.deliveredHwm < Word64.size)
    (hwithin : WithinWords s r.body.chunks.flatten.length) :
    Ends (resumeLoop W ctx resumesLeft s r.body) session fun d _ =>
      d.ending ≠ .fault .overflow ∧ s.deliveredHwm + d.bytes.length < Word64.size := by
  induction resumesLeft using Nat.strongRecOn generalizing s r session with
  | ind resumesLeft ih =>
    obtain ⟨mark, hmark, hbytes, hexit⟩ := readBody_fits W r.body.ending hplaced hsize hwithin
    unfold resumeLoop
    rcases hread : readBody W (ctx.requestedEnd.map endExclusive) r.body.ending s r.body.chunks with ⟨chunks, exit⟩
    rw [hread] at hbytes hexit
    have hlen : s.deliveredHwm + chunks.flatten.length < Word64.size := Nat.lt_of_le_of_lt hbytes hmark
    have herror : ∀ fault ≠ Fault.overflow, (⟨chunks, .fault fault⟩ : Delivery).ending ≠ .fault .overflow ∧
        s.deliveredHwm + (⟨chunks, .fault fault⟩ : Delivery).bytes.length < Word64.size := fun fault hfault =>
      ⟨fun heq => hfault (Ending.fault.inj heq), hlen⟩
    cases exit with
    | ended ending => exact ⟨hexit, hlen⟩
    | failed s' message =>
      obtain ⟨hplaced', hhwm⟩ := hexit
      dsimp only
      split
      · exact herror _ error_ne_overflow
      · exact herror _ error_ne_overflow
      next left hidempotent =>
        split
        · exact herror _ error_ne_overflow
        next validator hvalidator =>
          rw [ends_bind]
          refine (ends_withHttpRetryAsync (fun _ _ => resumeAttempt_attempted hsmall) trivial).imp
            fun result t hresult => ?_
          cases result with
          | error fault => exact herror fault hresult
          | ok response =>
            have hresumed : Resumed W ctx s'.deliveredHwm validator response := hresult
            have hsize' : (s'.resumed response).deliveredHwm < Word64.size := by
              rw [resumed_deliveredHwm, hhwm]
              exact hmark
            rw [ends_bind]
            refine (ih left (Nat.lt_succ_self _) (hplaced'.resumed response) hsize'
              (hresumed.withinWords (hsmall response hresumed.1))).imp fun d t hd => ?_
            obtain ⟨hending, hrest⟩ := hd
            refine ⟨hending, ?_⟩
            change s.deliveredHwm + (chunks ++ d.chunks).flatten.length < Word64.size
            rw [resumed_deliveredHwm, hhwm, Delivery.bytes] at hrest
            rw [flatten_append, length_append]
            change s.deliveredHwm + chunks.flatten.length ≤ mark at hbytes
            omega

/-- A filter over a stream within the words does not overflow. -/
theorem rangeFilterStream_fits {inner : Delivery} {range : ByteRange} (hending : inner.ending ≠ .fault .overflow)
    (hlen : inner.bytes.length < Word64.size) : (rangeFilterStream inner range).ending ≠ .fault .overflow := by
  intro hover
  obtain ⟨before, chunk, after, hchunks, -, hsize⟩ := (filterChunks_overflows_iff _ _ _ _ hending).mp hover
  rw [Delivery.bytes, hchunks, flatten_append, flatten_cons, length_append, length_append] at hlen
  omega

/-- What a read comes to, where no arithmetic overflows. -/
def Spared (result : Except Fault StreamedReadRedirect) : Prop :=
  Fits result ∧ ∀ streamed, result = .ok streamed → streamed.first.isSome → streamed.stream.ending ≠ .fault .overflow

theorem streamFirst_fits (hsmall : ∀ r, W.Gives r → ¬Oversized r) (hgives : W.Gives r)
    {parsed : Option ParsedContentRange} (haccept : acceptFirst ifMatchWasSet range r = .ok parsed)
    (idempotent : Bool) :
    Ends (streamFirst W range retryCfg idempotent r parsed) session fun streamed _ =>
      streamed.stream.ending ≠ .fault .overflow := by
  obtain ⟨hsuccess, hfull, hpart⟩ := acceptFirst_eq_ok haccept
  rw [streamFirst, ends_bind, ends_get]
  dsimp only
  rw [ends_bind, resumableBodyStream]
  generalize hk : Cursor.mk _ _ _ _ _ = k
  have hplaced : Placed (initialOffset range r) ((range.bind ByteRange.endInclusive).map endExclusive) k := by
    rw [← hk]
    exact ⟨Nat.le_refl _, Nat.le_refl _, Nat.le_refl _, fun _ => rfl, fun _ _ => Nat.le_max_left _ _⟩
  have hwithin : k.deliveredHwm < Word64.size ∧ WithinWords k r.body.chunks.flatten.length := by
    rw [← hk]
    by_cases h : r.status = 206
    · obtain ⟨p, rfl, hstart, hvalid⟩ := hpart h
      have hstated := stated (validateSingleRange206_eq_ok hvalid).1
      refine ⟨?_, withinWords_of_part (hsmall r hgives) h hvalid ?_ rfl⟩
      · change (if r.status = 206 then (range.map ByteRange.start).getD 0 else 0) < Word64.size
        rw [if_pos h, ← hstart]
        exact Nat.lt_of_le_of_lt hstated.le hstated.lt
      · change (if r.status = 206 then (range.map ByteRange.start).getD 0 else 0) = p.start
        rw [if_pos h, hstart]
    · refine ⟨?_, withinWords_of_full (hsmall r hgives) hsuccess h ?_⟩
      · change (if r.status = 206 then (range.map ByteRange.start).getD 0 else 0) < Word64.size
        rw [if_neg h]
        decide
      · exact if_neg h
  refine (resumeLoop_fits hsmall _ hplaced hwithin.1 hwithin.2).imp fun d t hd => ?_
  obtain ⟨hending, hlen⟩ := hd
  change (sliceClientSide range r d).ending ≠ _
  unfold sliceClientSide
  split
  · split_ifs
    · exact rangeFilterStream_fits hending (by omega)
    · exact hending
  · exact hending

theorem spared_error {fault : Fault} (h : fault ≠ .overflow) : Spared (.error fault) :=
  ⟨fun heq => h (Except.error.inj heq), fun _ heq => nomatch heq⟩

theorem followHttpReadRedirectStreaming_fits (hsmall : ∀ r, W.Gives r → ¬Oversized r) :
    Ends (followHttpReadRedirectStreaming W ifMatchWasSet range retryCfg) session fun result _ => Spared result := by
  rw [followHttpReadRedirectStreaming, ends_bind, ends_get, ends_bind]
  have hheader : Ends (headerPhase W range retryCfg) session
      (Returns (fun r _ => W.Gives r) fun fault _ => fault ≠ .overflow) := by
    rw [headerPhase, ends_bind, ends_get]
    split_ifs
    · exact ends_withHttpRetryAsync (fun _ _ => headerAttempt_attempted) trivial
    · rw [sendStreamingRequest]
      simp only [ends_bind, ends_get, ends_ask]
      cases hsend : W.send session.calls (streamingRequest session.current.request range none) with
      | error message => exact error_ne_overflow
      | ok response => exact ⟨_, _, hsend⟩
  refine hheader.imp fun result t hresult => ?_
  cases result with
  | error fault => exact spared_error hresult
  | ok response =>
    have hgives : W.Gives response := hresult
    have hfits : Fits (acceptFirst ifMatchWasSet range response) := by
      unfold acceptFirst
      split_ifs with hsuccess hpart
      · exact fits_error
      · exact (fits_validate (hsmall response hgives) hpart).bind fun _ _ => fits_ok
      · exact fits_ok
    dsimp only
    cases haccept : acceptFirst ifMatchWasSet range response with
    | error fault => exact spared_error fun heq => hfits (heq ▸ haccept)
    | ok parsed =>
      dsimp only
      rw [ends_bind]
      refine (streamFirst_fits hsmall hgives haccept _).imp fun streamed t hstream => ⟨fits_ok, ?_⟩
      rintro _ heq -
      exact Except.ok.inj heq ▸ hstream

theorem followFileReadRedirectStreaming_fits :
    Ends (followFileReadRedirectStreaming W range) session fun result _ => Spared result := by
  have hfile : ∀ d redirect, Spared (.ok ⟨d, none, redirect⟩) := fun d redirect =>
    ⟨fits_ok, fun streamed heq hfirst => by
      cases heq
      cases hfirst⟩
  rw [followFileReadRedirectStreaming, ends_bind, ends_get]
  dsimp only
  split_ifs with hmethod
  · exact spared_error error_ne_overflow
  rw [ends_bind, ends_ask]
  cases W.openFile session.calls session.current with
  | error e => exact spared_error error_ne_overflow
  | ok body =>
    cases range with
    | none => exact hfile _ _
    | some range => exact hfile _ _

/-- A read from an origin without oversized responses does not overflow. -/
theorem followReadRedirectStreaming_fits (hsmall : ∀ r, W.Gives r → ¬Oversized r) :
    Ends (followReadRedirectStreaming W ifMatchWasSet range retryCfg) session fun result _ => Spared result := by
  unfold followReadRedirectStreaming
  have hrange : Fits (range.elim (.ok ()) validateRange) := by
    cases range with
    | none => exact fits_ok
    | some range =>
      simp only [Option.elim, validateRange]
      split
      · split_ifs
        · exact fits_fail
        · exact fits_ok
      · exact fits_ok
  cases hvalid : range.elim (.ok ()) validateRange with
  | error fault => exact spared_error fun heq => hrange (heq ▸ hvalid)
  | ok =>
    dsimp only
    rw [ends_bind]
    refine Ends.of_forall fun result t => ?_
    cases result with
    | error e => exact spared_error error_ne_overflow
    | ok =>
      dsimp only
      rw [ends_bind, ends_get]
      split
      · exact spared_error error_ne_overflow
      · exact followHttpReadRedirectStreaming_fits hsmall
      · exact followFileReadRedirectStreaming_fits
      · exact spared_error error_ne_overflow

/-- A first response whose body goes behind the greatest word overflows, where nothing stops it before. -/
theorem streamFirst_overflows {parsed : Option ParsedContentRange} (hrange : range.bind ByteRange.endInclusive = none)
    (hslice : ∀ d, sliceClientSide range r d = d) (hcursor : initialOffset range r < Word64.size)
    (hlast : ∀ p ∈ parsed, Word64.max ≤ endExclusive p.last)
    (hsize : Word64.size ≤ initialOffset range r + r.body.chunks.flatten.length) (idempotent : Bool) :
    Ends (streamFirst W range retryCfg idempotent r parsed) session fun streamed _ => ¬Spared (.ok streamed) := by
  rw [streamFirst, ends_bind, ends_get]
  dsimp only
  rw [ends_bind, resumableBodyStream]
  generalize hk : Cursor.mk _ _ _ _ _ = k
  have hend : ∀ e ∈ k.responseEndExclusive, Word64.max ≤ e := by
    rw [← hk]
    intro e he
    cases parsed with
    | none => cases he
    | some p =>
      cases he
      exact hlast p rfl
  have hskip : k.skipUntil ≤ k.responseCursor := by
    simp [← hk]
  have hstart : k.responseCursor = initialOffset range r := by
    rw [← hk]
    rfl
  have hover := readBody_overflows W r.body.ending hskip (hstart ▸ hcursor) hend (hstart ▸ hsize)
  have hbound : (resumeContext session.current range retryCfg idempotent r).requestedEnd.map endExclusive = none := by
    change (range.bind ByteRange.endInclusive).map endExclusive = none
    rw [hrange]
    rfl
  rw [← hbound] at hover
  refine ends_resumeLoop_ended (Prod.ext rfl hover) ?_
  rw [hslice]
  exact fun hspared => hspared.2 _ rfl rfl rfl

/-- A read that is answered with all the bytes that there can be overflows. -/
theorem overflows_of_spansAll (hpart : r.status = 206) (hspans : SpansAll r) :
    Ends (followReadRedirectStreaming (scripted [r]) false (some ⟨0, none⟩) ⟨1⟩)
      ⟨plainRedirect none, false, []⟩ fun result _ =>
      ¬Spared result := by
  have hsuccess : r.isSuccess := by simp [Response.isSuccess, hpart]
  have haccept : acceptFirst false (some ⟨0, none⟩) r = .error .overflow := by
    have hvalid : validateSingleRange206 r 0 none "initial" = .error .overflow :=
      validateSingleRange206_overflows_iff.mpr ⟨hspans, rfl, .inl rfl⟩
    rw [acceptFirst, if_neg (by simp [hsuccess]), if_pos hpart]
    change validateSingleRange206 r 0 none "initial" >>= _ = _
    rw [hvalid]
    rfl
  refine ends_scripted hsuccess rfl fun t => ?_
  rw [haccept]
  exact fun hspared => hspared.1 rfl

/-- An oversized response makes the read of it overflow. -/
theorem overflows_of_oversized (h : Oversized r) :
    ∃ range, Ends (followReadRedirectStreaming (scripted [r]) false range ⟨1⟩)
      ⟨plainRedirect none, false, []⟩ fun result _ =>
      ¬Spared result := by
  rcases h with ⟨hpart, hspans⟩ | ⟨hpart, hmultipart, parsed, hparsed, hlength, hlast, hsize⟩ | ⟨hsuccess, hfull, hsize⟩
  · exact ⟨_, overflows_of_spansAll hpart hspans⟩
  · by_cases hspans : SpansAll r
    · exact ⟨_, overflows_of_spansAll hpart hspans⟩
    have hsuccess : r.isSuccess := by simp [Response.isSuccess, hpart]
    have hstated := stated hparsed
    have hfits : parsed.last - parsed.start + 1 < Word64.size :=
      Nat.not_le.mp fun hover => hspans ⟨hmultipart, hparsed.trans (congrArg some (hstated.eq_all hover))⟩
    have hvalid : validateSingleRange206 r parsed.start none "initial" = .ok parsed :=
      validateSingleRange206_of_expected hmultipart hparsed (hstated.expectedEnd_none hlast) hfits hlength _
    have haccept : acceptFirst false (some ⟨parsed.start, none⟩) r = .ok (some parsed) := by
      simp [acceptFirst, hsuccess, hpart, hvalid, ok_bind, pure, Except.pure]
    have hoffset : initialOffset (some ⟨parsed.start, none⟩) r = parsed.start := if_pos hpart
    refine ⟨some ⟨parsed.start, none⟩, ends_scripted hsuccess rfl fun t => ?_⟩
    rw [haccept]
    refine streamFirst_overflows rfl (fun d => if_neg (not_not.mpr hpart)) ?_ ?_ ?_
    · rw [hoffset]
      exact Nat.lt_of_le_of_lt hstated.le hstated.lt
    · rintro _ ⟨⟩
      exact Nat.le_min.mpr ⟨hlast, Nat.le_refl _⟩
    · rwa [hoffset]
  · have haccept : acceptFirst false none r = .ok none := by simp [acceptFirst, hsuccess, hfull, pure, Except.pure]
    have hoffset : initialOffset none r = 0 := if_neg hfull
    refine ⟨none, ends_scripted hsuccess rfl fun t => ?_⟩
    rw [haccept]
    refine streamFirst_overflows rfl (fun d => rfl) ?_ (by rintro _ ⟨⟩) ?_
    · rw [hoffset]
      decide
    · rwa [hoffset, Nat.zero_add]

/-! ### Every read -/

/-- The reads by this redirect do not overflow, as far as they are of responses. -/
def Spares (W : World) (redirect : ReadRedirect) : Prop :=
  ∀ (ifMatchWasSet : Bool) (range : Option ByteRange) (retryCfg : RetryConfig),
    Ends (followReadRedirectStreaming W ifMatchWasSet range retryCfg) ⟨redirect, false, []⟩
      fun result _ => Spared result

/-- The reads from an origin overflow for no redirect, if and only if none of its responses is oversized. -/
theorem reads_spared_iff {gives : Response → Prop} {configures : Text → Prop} :
    (∀ W redirect, Within W redirect gives configures → Spares W redirect) ↔ ∀ r, gives r → ¬Oversized r := by
  constructor
  · intro hspares r hgives hover
    obtain ⟨range, hover⟩ := overflows_of_oversized hover
    have hwithin : Within (scripted [r]) (plainRedirect none) gives configures := by
      refine ⟨fun r' hr' => ?_, fun name hname => ?_⟩
      · obtain rfl := mem_singleton.mp (mem_of_scripted hr')
        exact hgives
      · rcases hname with hname | ⟨mint, -, -, hmint, -⟩
        · cases hname
        · cases hmint
    exact hover (hspares _ _ hwithin false range ⟨1⟩)
  · intro hsmall W redirect hwithin ifMatchWasSet range retryCfg
    exact followReadRedirectStreaming_fits fun r hr => hsmall r (hwithin.1 r hr)

end OvStorage.Redirect
