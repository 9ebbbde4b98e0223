import OvStorage.Redirect.Arithmetic
import OvStorage.Redirect.Parts

/-!
# Where the redirect engine overflows

The arithmetic of the uploads, and with that of the reads, all that the engine does with the numbers of origins and
backends.

## What is proved

* `arithmetic_overflows_iff`: for each of the functions, the inputs that it overflows on.
-/

namespace OvStorage.Redirect

open OvStorage.Layer Slice Stateful

/-! ### Uploads -/

section Uploads

variable {ρ α β : Type} {origin : Origin ρ} {index : ℕ} {c : Course α} {f : α → Course β} {body : Bytes}
  {failure : Option Error}
  {m : Multipart} {redirect : WriteRedirect} {redirects : List WriteRedirect} {source : CarrySource}
    {cursor len target : ℕ}

/-- No arithmetic of a course overflows. -/
def Course.Fits (c : Course α) : Prop := Redirect.Fits c.result

theorem Course.fits_of {result : Except Fault α} (h : Redirect.Fits result) : (Course.of result).Fits := h

theorem Course.fits_pure {a : α} : (pure a : Course α).Fits := fits_ok

theorem Course.fits_send {s : Sent} : (Course.send s).Fits := fits_ok

theorem Course.fits_raise {x : Except Error α} : (raise x).Fits := by
  cases x with
  | error e => exact fits_error
  | ok a => exact fits_ok

theorem Course.Fits.bind (h : c.Fits) (hf : ∀ a, c.result = .ok a → (f a).Fits) : (c >>= f).Fits := by
  cases hresult : c.result with
  | error fault =>
    rw [bind_of_error hresult]
    intro heq
    refine h ?_
    rw [hresult, Except.error.inj heq]
  | ok a =>
    rw [bind_of_ok hresult]
    exact hf a hresult

theorem fits_executeRedirectRequest {bodySource : RedirectBodySource} {bytes : Bytes} :
    (executeRedirectRequest origin index bodySource bytes).Fits :=
  Course.Fits.bind (Course.fits_of fits_ok) fun _ _ => Course.fits_raise

/-- Somewhere in the batch a part that begins where the parts before it end goes behind the greatest word. -/
def EndsBeyond : ℕ → List WriteRedirect → Prop
  | _, [] => False
  | cursor, ⟨.userBytes offset len⟩ :: redirects =>
    offset.toNat = cursor ∧ (Word64.size ≤ cursor + len.toNat ∨ EndsBeyond (cursor + len.toNat) redirects)
  | cursor, ⟨.empty⟩ :: redirects => EndsBeyond cursor redirects
  | cursor, ⟨.inline _⟩ :: redirects => EndsBeyond cursor redirects

theorem fits_ensureCarrySourceEof {message : String} : Fits (ensureCarrySourceEof source message) := by
  have hprobe : ∀ (error : Option Error) (chunks : List Bytes), Fits (probeEof message error chunks) := by
    intro error chunks
    induction chunks with
    | nil =>
      cases error with
      | none => exact fits_ok
      | some e => exact fits_error
    | cons chunk chunks ih =>
      rw [probeEof]
      split_ifs
      · exact ih
      · exact fits_fail
  unfold ensureCarrySourceEof
  split_ifs
  · exact fits_fail
  · exact hprobe _ _

theorem fits_drain (h : Holds body failure target source) (htarget : target < Word64.size) :
    Fits (drainCarrySourceTo source target) := by
  unfold drainCarrySourceTo
  dsimp only
  split_ifs with hzero
  · exact fits_ok
  have hlen : target - source.consumed ≠ 0 := hzero
  have hreads : Reads body failure target (carryPartStream source (target - source.consumed)) := by
    refine ⟨h, Nat.zero_le _, ?_⟩
    change source.consumed + (target - source.consumed - 0) = target
    omega
  have hsize : (carryPartStream source (target - source.consumed)).len < Word64.size :=
    Nat.lt_of_le_of_lt (Nat.sub_le _ _) htarget
  obtain ⟨pulled, hpull⟩ := pull_ok hreads htarget hsize (carryPartStream source (target - source.consumed)).turns
  rw [hpull, Validate.ok_bind]
  split
  · exact fits_error
  · exact fits_ok

variable {offset wide : UInt64}

theorem fits_executeStreamingRequest (h : Stands body failure offset.toNat source)
    (htarget : offset.toNat + wide.toNat < Word64.size) :
    (executeStreamingRequest origin index (.userBytes offset wide) (carryPartStream source wide.toNat)).Fits := by
  obtain ⟨pulled, hpull⟩ := pull_ok (h.reads wide.toNat) htarget wide.toNat_lt (origin.answer index).pulls
  refine Course.Fits.bind (Course.fits_of ?_) fun pulled _ => Course.Fits.bind (Course.fits_of fits_ok) fun _ _ => ?_
  · rw [hpull]
    exact fits_ok
  · split
    · exact Course.fits_pure
    · exact Course.fits_raise

theorem fits_followPart (h : Stands body failure m.cursor m.source)
    (hword : ∀ offset wide, redirect = ⟨.userBytes offset wide⟩ → offset.toNat = m.cursor →
      m.cursor + wide.toNat < Word64.size) :
    (followPart origin index m redirect).Fits := by
  refine Course.fits_raise.bind fun _ _ => ?_
  obtain ⟨bodySource⟩ := redirect
  cases bodySource with
  | empty => exact fits_executeRedirectRequest.bind fun _ _ => Course.fits_pure
  | inline bytes => exact fits_executeRedirectRequest.bind fun _ _ => Course.fits_pure
  | userBytes offset wide =>
    dsimp only
    split_ifs with hcursor
    · exact Course.fits_of fits_fail
    have hcursor : offset.toNat = m.cursor := not_not.mp hcursor
    have hfits := hword offset wide rfl hcursor
    rw [← hcursor] at h hfits
    refine (fits_executeStreamingRequest h hfits).bind fun answered hanswered => ?_
    obtain ⟨result, source'⟩ := answered
    obtain ⟨-, -, -, -, -, hholds, -⟩ := (executeStreamingRequest_keeps h).2 _ hanswered
    rw [hcursor] at hholds hfits
    refine (Course.fits_of (fits_plus hfits)).bind fun cursor hplus => ?_
    obtain ⟨-, rfl⟩ := plus_eq_ok.mp hplus
    exact (Course.fits_of (fits_drain hholds hfits)).bind fun _ _ => Course.fits_pure

theorem fits_followParts (h : Stands body failure m.cursor m.source) (hwords : ¬EndsBeyond m.cursor redirects) :
    (followParts origin index m redirects).Fits := by
  induction redirects generalizing index m with
  | nil => exact Course.fits_pure
  | cons redirect redirects ih =>
    have hword : ∀ offset wide, redirect = ⟨.userBytes offset wide⟩ → offset.toNat = m.cursor →
        m.cursor + wide.toNat < Word64.size := by
      rintro offset wide rfl hcursor
      exact Nat.not_le.mp fun hle => hwords ⟨hcursor, .inl hle⟩
    refine (fits_followPart h hword).bind fun answered hanswered => ?_
    obtain ⟨result, m'⟩ := answered
    obtain ⟨s, -, -, hfollowed⟩ := (followPart_keeps h).2 _ hanswered
    have hwords' : ¬EndsBeyond m'.cursor redirects := by
      rw [hfollowed.declared]
      obtain ⟨bodySource⟩ := redirect
      cases bodySource with
      | empty => exact hwords
      | inline bytes => exact hwords
      | userBytes offset wide =>
        have hcontiguous : Contiguous m.cursor [⟨.userBytes offset wide⟩] := hfollowed.contiguous trivial
        exact fun hbeyond => hwords ⟨hcontiguous.1, .inr hbeyond⟩
    exact (ih hfollowed.stands hwords').bind fun _ _ => Course.fits_pure

/-- An upload of one redirect at most does not overflow, and neither does one whose parts end at words. -/
theorem fits_followStreamingWriteRedirects (stream : BodyStream) (h : redirects.length ≤ 1 ∨ ¬EndsBeyond 0 redirects) :
    (followStreamingWriteRedirects origin stream redirects).Fits := by
  unfold followStreamingWriteRedirects
  split
  · exact Course.fits_pure
  next redirect =>
    refine Course.fits_raise.bind fun _ _ => ?_
    obtain ⟨bodySource⟩ := redirect
    cases bodySource with
    | empty => exact fits_executeRedirectRequest.bind fun _ _ => Course.fits_pure
    | inline bytes => exact fits_executeRedirectRequest.bind fun _ _ => Course.fits_pure
    | userBytes offset wide =>
      dsimp only
      split_ifs with hoffset
      · exact Course.fits_of fits_fail
      have hoffset : offset.toNat = 0 := by rw [not_not.mp hoffset, UInt64.toNat_zero]
      have htarget : offset.toNat + wide.toNat < Word64.size := by
        rw [hoffset, Nat.zero_add]
        exact wide.toNat_lt
      have hstands : Stands stream.chunks.flatten stream.error offset.toNat (.new stream) := hoffset ▸ .new stream
      refine (fits_executeStreamingRequest hstands htarget).bind fun answered hanswered => ?_
      obtain ⟨result, source'⟩ := answered
      obtain ⟨-, -, -, -, -, hholds, -⟩ := (executeStreamingRequest_keeps hstands).2 _ hanswered
      rw [hoffset, Nat.zero_add] at hholds
      refine (Course.fits_of (fits_drain hholds wide.toNat_lt)).bind fun drained _ => ?_
      exact (Course.fits_of fits_ensureCarrySourceEof).bind fun _ _ => Course.fits_pure
  next hempty hsingle =>
    have hwords : ¬EndsBeyond 0 redirects := by
      refine h.resolve_left fun hle => ?_
      cases redirects with
      | nil => exact hempty rfl
      | cons redirect rest =>
        obtain rfl : rest = [] := List.length_eq_zero_iff.mp (Nat.le_zero.mp (Nat.le_of_succ_le_succ hle))
        exact hsingle redirect rfl
    refine (fits_followParts (.new stream) hwords).bind fun answered _ => ?_
    obtain ⟨results, m⟩ := answered
    dsimp only
    split_ifs
    · exact (Course.fits_of fits_ensureCarrySourceEof).bind fun _ _ => Course.fits_pure
    · exact Course.fits_pure

/-- A part of the body that is there, and that nothing was pulled of, is drained. -/
theorem Stands.drained (h : Stands body failure cursor source) (htarget : cursor + len < Word64.size)
    (hbody : cursor + len ≤ body.length) :
    ∃ drained, drainCarrySourceTo source (cursor + len) = .ok drained ∧ Stands body failure (cursor + len) drained := by
  have hlen : cursor + len - source.consumed = len := by
    rw [h.consumed]
    omega
  have hdrain : ∃ drained, drainCarrySourceTo source (cursor + len) = .ok drained := by
    unfold drainCarrySourceTo
    dsimp only
    rw [hlen]
    split_ifs
    · exact ⟨_, rfl⟩
    · obtain ⟨pulled, hpull, hwhole, -⟩ := h.pull_whole htarget hbody
      rw [hpull, Validate.ok_bind, hwhole]
      exact ⟨_, rfl⟩
  obtain ⟨drained, hdrain⟩ := hdrain
  refine ⟨drained, hdrain, drain_spec (h.reads len).holds ?_ hdrain⟩
  change source.consumed ≤ cursor + len
  rw [h.consumed]
  exact Nat.le_add_right _ _

theorem Course.result_bind {a : α} (h : c.result = .ok a) : (c >>= f).result = (f a).result := by
  rw [bind_of_ok h]

theorem Course.result_bind_error {fault : Fault} (h : c.result = .error fault) : (c >>= f).result = .error fault := by
  rw [bind_of_error h]

/-- A part that is accepted unread. -/
theorem followPart_accepting (hcursor : offset.toNat = m.cursor) :
    (followPart accepting index m ⟨.userBytes offset wide⟩).result =
      (do
        let cursor ← Course.of (plus m.cursor wide.toNat)
        let source ← Course.of (drainCarrySourceTo m.source cursor)
        return ((), Multipart.mk source cursor true) : Course (Unit × Multipart)).result := by
  have hanswer : (executeStreamingRequest accepting index (.userBytes offset wide)
        (carryPartStream m.source wide.toNat)).result =
      .ok ((), m.source) := rfl
  change (if offset.toNat ≠ m.cursor then _ else _ : Course (Unit × Multipart)).result = _
  rw [if_neg (not_not.mpr hcursor)]
  exact Course.result_bind hanswer

/-- Against an origin that accepts everything unread, a batch with a part that goes behind the greatest word overflows.
-/
theorem overflows_of_endsBeyond (index : ℕ) (h : Stands body failure m.cursor m.source)
    (hbody : m.cursor + summedLength redirects ≤ body.length) (hbeyond : EndsBeyond m.cursor redirects) :
    (followParts accepting index m redirects).result = .error .overflow := by
  induction redirects generalizing index m with
  | nil => exact hbeyond.elim
  | cons redirect redirects ih =>
    obtain ⟨bodySource⟩ := redirect
    have hsum : summedLength (⟨bodySource⟩ :: redirects) =
      WriteRedirect.declared ⟨bodySource⟩ + summedLength redirects := rfl
    rw [hsum] at hbody
    cases bodySource with
    | empty =>
      have hpart : (followPart accepting index m ⟨.empty⟩).result = .ok ((), m) := rfl
      have hle : m.cursor + summedLength redirects ≤ body.length := (Nat.zero_add (summedLength redirects)) ▸ hbody
      have hrest := ih (index + 1) h hle hbeyond
      exact (Course.result_bind hpart).trans (Course.result_bind_error hrest)
    | inline bytes =>
      have hpart : (followPart accepting index m ⟨.inline bytes⟩).result = .ok ((), m) := rfl
      have hle : m.cursor + summedLength redirects ≤ body.length := (Nat.zero_add (summedLength redirects)) ▸ hbody
      have hrest := ih (index + 1) h hle hbeyond
      exact (Course.result_bind hpart).trans (Course.result_bind_error hrest)
    | userBytes offset wide =>
      obtain ⟨hcursor, hbeyond⟩ := hbeyond
      by_cases hover : Word64.size ≤ m.cursor + wide.toNat
      · have hplus : plus m.cursor wide.toNat = .error .overflow := Word64.plainAdd_of_le hover
        refine Course.result_bind_error ((followPart_accepting hcursor).trans (Course.result_bind_error ?_))
        exact hplus
      · have hplus : plus m.cursor wide.toNat = .ok (m.cursor + wide.toNat) :=
          Word64.plainAdd_of_lt (Nat.not_le.mp hover)
        have hle : m.cursor + wide.toNat + summedLength redirects ≤ body.length := by
          rw [Nat.add_assoc]
          exact hbody
        obtain ⟨drained, hdrain, hstands⟩ := h.drained (Nat.not_le.mp hover) (Nat.le_trans (Nat.le_add_right _ _) hle)
        have hpart : (followPart accepting index m ⟨.userBytes offset wide⟩).result =
            .ok ((), ⟨drained, m.cursor + wide.toNat, true⟩) := by
          rw [followPart_accepting hcursor, Course.result_bind hplus, Course.result_bind hdrain]
          rfl
        have hrest : (followParts accepting (index + 1) ⟨drained, m.cursor + wide.toNat, true⟩ redirects).result =
            .error .overflow :=
          ih _ hstands hle (hbeyond.resolve_left hover)
        exact (Course.result_bind hpart).trans (Course.result_bind_error hrest)

/-- The uploads of a batch overflow for no stream and no origin, if and only if it is of one redirect at most or its
parts end at words. -/
theorem uploads_fit_iff {batch : List WriteRedirect} :
    (∀ (ρ : Type) (origin : Origin ρ) (stream : BodyStream),
      (followStreamingWriteRedirects origin stream batch).result ≠ .error .overflow) ↔
      batch.length ≤ 1 ∨ ¬EndsBeyond 0 batch := by
  constructor
  · intro hfits
    by_contra h
    obtain ⟨hlen, hbeyond⟩ := not_or.mp h
    rw [not_not] at hbeyond
    have hbody : 0 + summedLength batch ≤ [List.replicate (summedLength batch) (0 : UInt8)].flatten.length := by simp
    refine hfits Unit accepting ⟨[List.replicate (summedLength batch) 0], none⟩ ?_
    unfold followStreamingWriteRedirects
    split
    · exact hbeyond.elim
    · exact (hlen (Nat.le_refl _)).elim
    · exact Course.result_bind_error (overflows_of_endsBeyond 0 (.new _) hbody hbeyond)
  · intro h ρ origin stream
    exact fits_followStreamingWriteRedirects stream h

/-! ### Uploads of a file -/

theorem fits_boundedFileStream {file : Bytes} {reads : ℕ → Except Error ℕ} (turns position remaining : ℕ) :
    Fits (boundedFileStream file reads turns position remaining) := by
  induction turns generalizing position remaining with
  | zero => exact fits_ok
  | succ turns ih =>
    rw [boundedFileStream]
    split_ifs
    · exact fits_ok
    split
    · exact fits_ok
    dsimp only
    split_ifs
    · exact fits_ok
    · refine (fits_minus ?_).bind fun left _ => (ih _ _).bind fun _ _ => fits_ok
      rw [length_slice]
      omega

/-- An upload of a file does not overflow. -/
theorem fits_followSeekableWriteRedirects {file : Bytes} {reads : ℕ → ℕ → Except Error ℕ} :
    (followSeekableWriteRedirects origin file reads index redirects).Fits := by
  induction redirects generalizing index with
  | nil => exact Course.fits_pure
  | cons redirect redirects ih =>
    obtain ⟨bodySource⟩ := redirect
    refine Course.fits_raise.bind fun _ _ => ?_
    cases bodySource with
    | empty => exact fits_executeRedirectRequest.bind fun _ _ => ih.bind fun _ _ => Course.fits_pure
    | inline bytes => exact fits_executeRedirectRequest.bind fun _ _ => ih.bind fun _ _ => Course.fits_pure
    | userBytes offset wide =>
      dsimp only
      split
      · exact Course.fits_of fits_fail
      split_ifs
      · exact Course.fits_of fits_fail
      · refine (Course.fits_of (fits_boundedFileStream _ _ _)).bind fun stream _ => ?_
        refine Course.fits_send.bind fun _ _ => ?_
        refine Course.fits_raise.bind fun _ _ => ?_
        exact ih.bind fun _ _ => Course.fits_pure

end Uploads

/-! ### The engine -/

/-- Where the arithmetic of the engine overflows: on a `206` that states all the bytes that there can be, in the reads
from an origin with an oversized response, on a chunk of a full body that ends behind the greatest word and before the
bound, nowhere in the upload of a file, and in the uploads of a batch with a part that goes behind the greatest word. -/
theorem arithmetic_overflows_iff (r : Response) (start : ℕ) (requestedEnd : Option ℕ) (phase : String)
    (gives : Response → Prop) (configures : Text → Prop) (inner : Delivery) (range : ByteRange) (ρ : Type)
    (origin : Origin ρ) (file : Bytes) (reads : ℕ → ℕ → Except Error ℕ) (batch : List WriteRedirect) :
    (validateSingleRange206 r start requestedEnd phase = .error .overflow ↔
      SpansAll r ∧ start = 0 ∧ (requestedEnd = none ∨ requestedEnd = some Word64.max)) ∧
    ((∀ W redirect, Within W redirect gives configures → Spares W redirect) ↔ ∀ r, gives r → ¬Oversized r) ∧
    (inner.ending ≠ .fault .overflow →
      ((rangeFilterStream inner range).ending = .fault .overflow ↔
        ∃ before chunk after, inner.chunks = before ++ chunk :: after ∧
          before.flatten.length < (range.endInclusive.map endExclusive).getD Word64.max ∧
          Word64.size ≤ before.flatten.length + chunk.length)) ∧
    (followSeekableWriteRedirects origin file reads 0 batch).result ≠ .error .overflow ∧
    ((∀ (ρ : Type) (origin : Origin ρ) (stream : BodyStream),
      (followStreamingWriteRedirects origin stream batch).result ≠ .error .overflow) ↔
      batch.length ≤ 1 ∨ ¬EndsBeyond 0 batch) := by
  refine ⟨validateSingleRange206_overflows_iff, reads_spared_iff, fun hending => ?_,
    fits_followSeekableWriteRedirects, uploads_fit_iff⟩
  have hfilter :=
    filterChunks_overflows_iff range.start ((range.endInclusive.map endExclusive).getD Word64.max) 0
      inner.chunks hending
  simp only [Nat.zero_add] at hfilter
  exact hfilter

/-- A `206` to a request for the whole object. -/
def wholeWord : Response :=
  ⟨206, [("content-range".toList, some "bytes 0-18446744073709551615/*".toList)], none, ⟨[], .pending⟩⟩

/-- Ten bytes at the end of all that there can be, as the origin states them. -/
def lastTen : Response :=
  ⟨206, [("content-range".toList, some "bytes 18446744073709551606-18446744073709551615/*".toList)], some 10,
    ⟨[List.replicate 10 0], .closed⟩⟩

/-- The length of a range, the position in a body, and the cursor of an upload overflow. -/
theorem arithmetic_overflows :
    validateSingleRange206 wholeWord 0 none "initial" = .error .overflow ∧
    ¬Spares (scripted [lastTen]) (plainRedirect none) ∧
      (followStreamingWriteRedirects accepting ⟨[[0]], none⟩
        [⟨.userBytes 0 1⟩, ⟨.userBytes 1 18446744073709551615⟩]).result =
        .error .overflow := by
  refine ⟨by decide +kernel, fun hspares => ?_, rfl⟩
  have hover : Oversized lastTen := by
    refine .inr (.inl ⟨rfl, rfl, ⟨18446744073709551606, 18446744073709551615, none⟩, ?_, ?_⟩)
    · decide +kernel
    · decide +kernel
  obtain ⟨range, hover⟩ := overflows_of_oversized hover
  exact hover (hspares false range ⟨1⟩)

end OvStorage.Redirect
