import OvStorage.Layer.Errors
import OvStorage.Lib.Slice
import OvStorage.Lib.Validate
import OvStorage.Lib.Word64

/-!
# Ranges of a redirected read

What the redirect engine makes of byte ranges: the range that a caller asks for, the one that a `206`
states in its `Content-Range`, and the filter that cuts a full body down to a range. The plain additions
and subtractions of the source leave by a fault where they overflow.

A stream is what it yields until it ends, or until the moment up to which it is looked at.
-/

namespace OvStorage.Redirect

open OvStorage.Layer Slice

abbrev Bytes := List UInt8

abbrev Text := List Char

/-- How a function of the engine leaves without a value. -/
inductive Fault where
  | error (e : Error)
  /-- The arithmetic overflows. -/
  | overflow
deriving DecidableEq

/-- `a + b`. -/
def plus : ℕ → ℕ → Except Fault ℕ := Word64.plainAdd .overflow

/-- `a - b`. -/
def minus : ℕ → ℕ → Except Fault ℕ := Word64.plainSub .overflow

/-- `Error::new`. -/
def fail {α : Type} (code : ErrorCode) (message : String) : Except Fault α := .error (.error ⟨code, message⟩)

/-! ### The range that is asked for -/

/-- `ByteRange`. -/
structure ByteRange where
  start : ℕ
  endInclusive : Option ℕ
deriving DecidableEq

/-- `validate_range`. -/
def validateRange (range : ByteRange) : Except Fault Unit :=
  match range.endInclusive with
  | some last =>
    if last < range.start then
      fail .InvalidArgument s!"range end_inclusive {last} is less than start {range.start}"
    else .ok ()
  | none => .ok ()

/-- The bytes of an object that a range asks for, up to its end; all of them where there is no range. -/
def requested (range : Option ByteRange) (content : Bytes) : Bytes :=
  match range with
  | none => content
  | some ⟨start, none⟩ => content.drop start
  | some ⟨start, some last⟩ => slice content start (last + 1)

/-! ### Responses -/

/-- How a body ends. -/
inductive BodyEnd where
  | closed
  /-- The transport fails, with the text of its error. -/
  | failed (message : String)
  /-- It has not ended yet. -/
  | pending
deriving DecidableEq

/-- `bytes_stream()`: the chunks of a body and its end. -/
structure Body where
  chunks : List Bytes
  ending : BodyEnd
deriving DecidableEq

/-- `reqwest::Response`; a header has a text where its value is one (`to_str`). -/
structure Response where
  status : ℕ
  headers : List (Text × Option Text)
  contentLength : Option ℕ
  body : Body
deriving DecidableEq

/-- `eq_ignore_ascii_case`. -/
def eqIgnoreAsciiCase (a b : Text) : Bool := a.map Char.toLower == b.map Char.toLower

/-- `headers().get(name).and_then(|value| value.to_str().ok())`. -/
def Response.header (response : Response) (name : Text) : Option Text :=
  (response.headers.find? fun header => eqIgnoreAsciiCase header.1 name).bind Prod.snd

/-- `captured_headers`. -/
def Response.capturedHeaders (response : Response) : List (Text × Text) :=
  response.headers.filterMap fun (name, value) => value.map (name, ·)

/-- `header_value`. -/
def headerValue (headers : List (Text × Text)) (name : Option Text) : Option Text :=
  name.bind fun name => (headers.find? fun header => eqIgnoreAsciiCase header.1 name).map Prod.snd

/-- `status().is_success()`. -/
def Response.isSuccess (response : Response) : Bool := decide (200 ≤ response.status ∧ response.status < 300)

/-! ### The range that a response states -/

/-- `char::is_whitespace`. -/
def isWhitespace (c : Char) : Bool :=
  let n := c.toNat
  decide (9 ≤ n ∧ n ≤ 13) || n == 0x20 || n == 0x85 || n == 0xA0 || n == 0x1680 || decide (0x2000 ≤ n ∧ n ≤ 0x200A) ||
    n == 0x2028 || n == 0x2029 || n == 0x202F || n == 0x205F || n == 0x3000

/-- `trim`. -/
def trim (text : Text) : Text := ((text.dropWhile isWhitespace).reverse.dropWhile isWhitespace).reverse

/-- `split_once`. -/
def splitOnce (separator : Char → Bool) : Text → Option (Text × Text)
  | [] => none
  | c :: text =>
    if separator c then some ([], text) else (splitOnce separator text).map fun (before, after) => (c :: before, after)

/-- The digits of `parse::<u64>`, read after a number. -/
def parseDigits : ℕ → Text → Option ℕ
  | n, [] => some n
  | n, c :: text =>
    if c.isDigit ∧ 10 * n + (c.toNat - 48) < Word64.size then parseDigits (10 * n + (c.toNat - 48)) text else none

/-- `parse::<u64>`, which takes one leading `+`. -/
def parseU64 (text : Text) : Option ℕ :=
  match text with
  | [] => none
  | '+' :: digits => if digits = [] then none else parseDigits 0 digits
  | digits => parseDigits 0 digits

/-- `ParsedContentRange`. -/
structure ParsedContentRange where
  start : ℕ
  last : ℕ
  total : Option ℕ
deriving DecidableEq

/-- The total of a `Content-Range`. -/
def parseTotal (last : ℕ) (total : Text) : Option (Option ℕ) :=
  if total = ['*'] then some none
  else do
    let total ← parseU64 total
    if total = 0 ∨ total ≤ last then none else some (some total)

/-- `parse_content_range`. -/
def parseContentRange (value : Text) : Option ParsedContentRange := do
  let (unit, rest) ← splitOnce isWhitespace (trim value)
  if eqIgnoreAsciiCase unit "bytes".toList then
    let (span, total) ← splitOnce (· == '/') (trim rest)
    let (start, last) ← splitOnce (· == '-') (trim span)
    let start ← parseU64 (trim start)
    let last ← parseU64 (trim last)
    if last < start then none
    else
      let total ← parseTotal last (trim total)
      some ⟨start, last, total⟩
  else none

/-- The range that a response states. -/
def Response.contentRange (response : Response) : Option ParsedContentRange :=
  (response.header "content-range".toList).bind parseContentRange

/-- A response in several parts. -/
def Response.isMultipart (response : Response) : Bool :=
  (response.header "content-type".toList).any fun value =>
    "multipart/byteranges".toList.isPrefixOf ((value.dropWhile isWhitespace).map Char.toLower)

/-- The last byte that a `206` has to end with. -/
def expectedEnd (requestedEnd : Option ℕ) (parsed : ParsedContentRange) : Except Fault ℕ :=
  match requestedEnd, parsed.total with
  | some asked, some total => do return min asked (← minus total 1)
  | some asked, none => pure asked
  | none, some total => minus total 1
  | none, none => pure parsed.last

/-- `validate_single_range_206`. -/
def validateSingleRange206 (response : Response) (expectedStart : ℕ) (requestedEnd : Option ℕ) (phase : String) :
    Except Fault ParsedContentRange := do
  if response.isMultipart then
    fail .Internal s!"{phase} response answered with a multipart/byteranges 206; cannot consume a multi-range response"
  match response.contentRange with
  | none => fail .Internal s!"{phase} 206 has a missing or malformed Content-Range; cannot verify byte alignment"
  | some parsed =>
    if parsed.start ≠ expectedStart then
      fail .Internal s!"{phase} 206 started at byte {parsed.start}, expected {expectedStart}"
    let expected ← expectedEnd requestedEnd parsed
    if parsed.last ≠ expected then
      fail .Internal
        s!"{phase} 206 ended at byte {parsed.last}, expected {expected}; refusing a partially satisfied range"
    let declaredSpan ← plus (← minus parsed.last parsed.start) 1
    if response.contentLength.any (· ≠ declaredSpan) then
      fail .Internal s!"{phase} 206 Content-Length disagrees with its {declaredSpan}-byte Content-Range"
    return parsed

theorem parseU64_lt {text : Text} {n : ℕ} (h : parseU64 text = some n) : n < Word64.size := by
  have hdigits : ∀ (text : Text) (m : ℕ), m < Word64.size → parseDigits m text = some n → n < Word64.size := by
    intro text
    induction text with
    | nil =>
      intro m hm h
      exact Option.some.inj h ▸ hm
    | cons c text ih =>
      intro m hm h
      rw [parseDigits] at h
      split_ifs at h with hdigit
      exact ih _ hdigit.2 h
  unfold parseU64 at h
  split at h
  · cases h
  · split_ifs at h
    exact hdigits _ 0 (by decide) h
  · exact hdigits _ 0 (by decide) h

/-- What a `Content-Range` that is taken says. -/
theorem parseContentRange_eq_some {value : Text} {parsed : ParsedContentRange}
    (h : parseContentRange value = some parsed) :
    parsed.start ≤ parsed.last ∧ parsed.last < Word64.size ∧ ∀ total ∈ parsed.total, parsed.last < total := by
  simp only [parseContentRange, Option.bind_eq_bind, Option.bind_eq_some_iff, Option.ite_none_right_eq_some,
    Option.ite_none_left_eq_some, Option.some.injEq, Prod.exists] at h
  obtain ⟨_, _, -, -, _, totalText, -, _, _, -, start, -, last, hlast, hle, total, htotal, rfl⟩ := h
  refine ⟨Nat.not_lt.mp hle, parseU64_lt hlast, fun n hn => ?_⟩
  unfold parseTotal at htotal
  split_ifs at htotal with hstar
  · cases htotal
    cases hn
  · simp only [Option.bind_eq_bind, Option.bind_eq_some_iff, Option.ite_none_left_eq_some] at htotal
    obtain ⟨m, -, hm, heq⟩ := htotal
    cases heq
    cases hn
    change last < n
    omega

/-! ### Cutting a full body down to a range -/

/-- How a stream ends. -/
inductive Ending where
  | closed
  | fault (fault : Fault)
  | pending
deriving DecidableEq

/-- `ReadStream`: the chunks that it yields and its end. -/
structure Delivery where
  chunks : List Bytes
  ending : Ending
deriving DecidableEq

/-- The bytes that a stream yields. -/
def Delivery.bytes (d : Delivery) : Bytes := d.chunks.flatten

/-- `lo` of a chunk. -/
def sliceLo (start chunkStart : ℕ) : Except Fault ℕ := if chunkStart < start then minus start chunkStart else .ok 0

/-- `hi` of a chunk. -/
def sliceHi (endExclusive chunkEnd chunkLen : ℕ) : Except Fault ℕ :=
  if endExclusive < chunkEnd then do minus chunkLen (← minus chunkEnd endExclusive) else .ok chunkLen

/-- What `range_filter_stream` takes of a chunk, and where the chunk ends. -/
def cutChunk (start endExclusive consumed : ℕ) (chunk : Bytes) : Except Fault (ℕ × List Bytes) := do
  let chunkEnd ← plus consumed chunk.length
  if chunkEnd ≤ start then return (chunkEnd, [])
  return (chunkEnd, [slice chunk (← sliceLo start consumed) (← sliceHi endExclusive chunkEnd chunk.length)])

/-- The loop of `range_filter_stream`, from what it has consumed. -/
def filterChunks (start endExclusive : ℕ) (ending : Ending) : ℕ → List Bytes → Delivery
  | consumed, [] =>
    if endExclusive ≤ consumed then ⟨[], .closed⟩
    else if ending = .closed ∧ consumed < start then
      ⟨[], .fault (.error ⟨.InvalidArgument, s!"range start {start} beyond response body length {consumed}"⟩)⟩
    else ⟨[], ending⟩
  | consumed, chunk :: chunks =>
    if endExclusive ≤ consumed then ⟨[], .closed⟩
    else
      match cutChunk start endExclusive consumed chunk with
      | .error fault => ⟨[], .fault fault⟩
      | .ok (consumed, out) =>
        let rest := filterChunks start endExclusive ending consumed chunks
        { rest with chunks := out ++ rest.chunks }

/-- The exclusive end of a range, as far as it is a word. -/
def endExclusive (last : ℕ) : ℕ := Word64.saturatingAdd last 1

/-- `range_filter_stream`. -/
def rangeFilterStream (inner : Delivery) (range : ByteRange) : Delivery :=
  filterChunks range.start ((range.endInclusive.map endExclusive).getD Word64.max) inner.ending 0 inner.chunks

variable {consumed start bound a b c : ℕ}

theorem plus_eq_ok : plus a b = .ok c ↔ a + b < Word64.size ∧ a + b = c := Word64.plainAdd_eq_ok

theorem minus_eq_ok : minus a b = .ok c ↔ b ≤ a ∧ a - b = c := Word64.plainSub_eq_ok

theorem sliceLo_eq_ok {chunkStart lo : ℕ} (h : sliceLo start chunkStart = .ok lo) : lo = start - chunkStart := by
  unfold sliceLo at h
  split_ifs at h with hlt
  · exact (minus_eq_ok.mp h).2.symm
  · cases h
    omega

theorem sliceHi_eq_ok {len hi : ℕ} (h : sliceHi bound (consumed + len) len = .ok hi) :
    hi = min (bound - consumed) len := by
  unfold sliceHi at h
  split_ifs at h with hlt
  · obtain ⟨excess, hexcess, h⟩ := Validate.bind_eq_ok.mp h
    obtain ⟨-, rfl⟩ := minus_eq_ok.mp hexcess
    obtain ⟨hle, rfl⟩ := minus_eq_ok.mp h
    omega
  · cases h
    omega

/-- A chunk is cut at the range, counted from where the chunk begins. -/
theorem cutChunk_eq_ok {chunk : Bytes} {next : ℕ} {out : List Bytes}
    (h : cutChunk start bound consumed chunk = .ok (next, out)) :
    next = consumed + chunk.length ∧ out.flatten = slice chunk (start - consumed) (bound - consumed) := by
  unfold cutChunk at h
  obtain ⟨chunkEnd, hplus, h⟩ := Validate.bind_eq_ok.mp h
  obtain ⟨-, rfl⟩ := plus_eq_ok.mp hplus
  split_ifs at h with hbefore
  · cases h
    refine ⟨rfl, (List.length_eq_zero_iff.mp ?_).symm⟩
    rw [length_slice]
    omega
  · obtain ⟨lo, hlo, h⟩ := Validate.bind_eq_ok.mp h
    obtain ⟨hi, hhi, h⟩ := Validate.bind_eq_ok.mp h
    cases h
    exact ⟨rfl, by rw [List.flatten_singleton, sliceLo_eq_ok hlo, sliceHi_eq_ok hhi, slice_min_length]⟩

/-- What a filter yields is the range of what it has read. -/
theorem filterChunks_spec (start bound consumed : ℕ) (ending : Ending) (chunks : List Bytes) :
    ∃ read, read <+: chunks ∧
      (filterChunks start bound ending consumed chunks).bytes =
        slice read.flatten (start - consumed) (bound - consumed) ∧
      ((filterChunks start bound ending consumed chunks).ending = .closed →
        bound ≤ consumed + read.flatten.length ∨
          (read = chunks ∧ ending = .closed ∧ start ≤ consumed + read.flatten.length)) := by
  induction chunks generalizing consumed with
  | nil =>
    refine ⟨[], List.nil_prefix, ?_, fun hclosed => ?_⟩
    · unfold filterChunks
      split_ifs <;> simp [Delivery.bytes, slice_nil]
    · unfold filterChunks at hclosed
      split_ifs at hclosed with hbound hstart
      · exact .inl hbound
      · cases hclosed
        simp only [true_and] at hstart
        exact .inr ⟨rfl, rfl, Nat.not_lt.mp hstart⟩
  | cons chunk chunks ih =>
    rw [filterChunks]
    by_cases hbound : bound ≤ consumed
    · rw [if_pos hbound]
      exact ⟨[], List.nil_prefix, by simp [Delivery.bytes, slice_nil], fun _ => .inl hbound⟩
    rw [if_neg hbound]
    cases hcut : cutChunk start bound consumed chunk with
    | error fault => exact ⟨[], List.nil_prefix, by simp [Delivery.bytes, slice_nil], fun h => by cases h⟩
    | ok next =>
      obtain ⟨next, out⟩ := next
      obtain ⟨rfl, hout⟩ := cutChunk_eq_ok hcut
      obtain ⟨read, hread, hbytes, hclosed⟩ := ih (consumed + chunk.length)
      refine ⟨chunk :: read, List.cons_prefix_cons.mpr ⟨rfl, hread⟩, ?_, fun h => ?_⟩
      · rw [Delivery.bytes, List.flatten_append, hout, List.flatten_cons, slice_append, Nat.sub_sub,
          Nat.sub_sub, ← hbytes]
        rfl
      · rw [List.flatten_cons, List.length_append, ← Nat.add_assoc]
        refine (hclosed h).imp_right fun ⟨hall, hend, hstart⟩ => ⟨by rw [hall], hend, hstart⟩

end OvStorage.Redirect
