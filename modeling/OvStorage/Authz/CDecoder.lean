import OvStorage.Authz.Credential
import OvStorage.Lib.Utf8

/-!
# The decoder of credentials in C

`ovstorage_plugin_auth_credential_decode` of `ovstorage-c-source/src/auth_credential.c` and
`ovc_utf8_is_valid` of `ovstorage-c-source/src/utf8.c`, and that the decoder agrees with
`AuthCredential::decode` on every buffer (`decoders_agree`).

A pointer is `NULL` or the bytes from it to the end of what it points into, so a read outside of
those is a fault, and a run that faults has no result. Allocation succeeds; what a failed decode
has allocated is not followed to its release. Sizes are 64 bits wide, so the sums and products of
sizes that the code forms do not wrap.
-/

namespace OvStorage.Authz

open Address

/-- A pointer to bytes. -/
abbrev Ptr := Option Bytes

/-- `p[i]`. -/
def Ptr.at (p : Ptr) (i : ℕ) : Option UInt8 := p.bind fun bytes => bytes[i]?

/-- `p + n`. -/
def Ptr.add (p : Ptr) (n : ℕ) : Ptr := p.map (List.drop n)

/-- What `memcpy` copies. -/
def Ptr.memcpy (p : Ptr) (n : ℕ) : Option Bytes :=
  p.bind fun bytes => if n ≤ bytes.length then some (bytes.take n) else none

/-! ### `utf8.c` -/

/-- `bytes[i] < low || bytes[i] > high`, or so for the next byte and the next range. -/
def outside (bytes : Ptr) (i : ℕ) : List Utf8.Range → Option Bool
  | [] => some false
  | range :: ranges => do
    let x ← bytes.at i
    if x < range.low ∨ range.high < x then return true else outside bytes (i + 1) ranges

/-- The test of one branch: `length - index < n || …`, and then `return false` or `index += n`. -/
def advance (bytes : Ptr) (length index n : ℕ) (ranges : List Utf8.Range) : Option (Option ℕ) := do
  if length - index < n then return none
  if ← outside bytes (index + 1) ranges then return none
  return some (index + n)

/-- A turn of the loop: the next index, or that the string is not valid. -/
def utf8Turn (bytes : Ptr) (length index : ℕ) : Option (Option ℕ) := do
  let first ← bytes.at index
  if first ≤ 0x7f then return some (index + 1)
  if 0xc2 ≤ first ∧ first ≤ 0xdf then
    return ← advance bytes length index 2 [⟨0x80, 0xbf⟩]
  if first = 0xe0 then
    return ← advance bytes length index 3 [⟨0xa0, 0xbf⟩, ⟨0x80, 0xbf⟩]
  if 0xe1 ≤ first ∧ first ≤ 0xec ∨ 0xee ≤ first ∧ first ≤ 0xef then
    return ← advance bytes length index 3 [⟨0x80, 0xbf⟩, ⟨0x80, 0xbf⟩]
  if first = 0xed then
    return ← advance bytes length index 3 [⟨0x80, 0x9f⟩, ⟨0x80, 0xbf⟩]
  if first = 0xf0 then
    return ← advance bytes length index 4 [⟨0x90, 0xbf⟩, ⟨0x80, 0xbf⟩, ⟨0x80, 0xbf⟩]
  if 0xf1 ≤ first ∧ first ≤ 0xf3 then
    return ← advance bytes length index 4 [⟨0x80, 0xbf⟩, ⟨0x80, 0xbf⟩, ⟨0x80, 0xbf⟩]
  if first = 0xf4 then
    return ← advance bytes length index 4 [⟨0x80, 0x8f⟩, ⟨0x80, 0xbf⟩, ⟨0x80, 0xbf⟩]
  return none

/-- The loop. Every turn moves the index, so that there are no more turns than bytes. -/
def utf8Loop (bytes : Ptr) (length : ℕ) : ℕ → ℕ → Option Bool
  | 0, index => if index < length then none else some true
  | turns + 1, index =>
    if index < length then do
      match ← utf8Turn bytes length index with
      | some index' => utf8Loop bytes length turns index'
      | none => return false
    else some true

/-- `ovc_utf8_is_valid`. -/
def ovcUtf8IsValid (value : Ptr) (length : ℕ) : Option Bool :=
  if value.isNone then some (decide (length = 0)) else utf8Loop value length length 0

/-! ### What is valid -/

section Valid

variable {m : Bytes} {length index : ℕ}

variable {ranges : List Utf8.Range}

theorem outside_eq {i : ℕ} (h : i + ranges.length ≤ m.length) :
    outside (some m) i ranges = some
      (!decide (List.Forall₂ Utf8.Range.Contains ranges ((m.drop i).take ranges.length))) := by
  induction ranges generalizing i with
  | nil => simp [outside]
  | cons range ranges ih =>
    have hi : i < m.length := by
      simp only [List.length_cons] at h
      omega
    have hdrop : m.drop i = m[i] :: m.drop (i + 1) := List.drop_eq_getElem_cons hi
    have hrest := ih (i := i + 1) (by simp only [List.length_cons] at h; omega)
    have hat : Ptr.at (some m) i = some m[i] := by simp [Ptr.at, hi]
    simp only [outside, hat, hrest, hdrop, List.length_cons, List.take_succ_cons, List.forall₂_cons,
      Option.bind_eq_bind,
      Option.bind_some, Utf8.Range.Contains]
    by_cases hx : m[i] < range.low ∨ range.high < m[i]
    · have hout : ¬(range.low ≤ m[i] ∧ m[i] ≤ range.high) :=
        fun h => hx.elim (UInt8.not_lt.mpr h.1) (UInt8.not_lt.mpr h.2)
      simp [hx, hout]
    · have hin : range.low ≤ m[i] ∧ m[i] ≤ range.high := 
        ⟨UInt8.not_lt.mp fun h => hx (.inl h), UInt8.not_lt.mp fun h => hx (.inr h)⟩
      simp [hx, hin]

/-- The bytes that the loop has before it. -/
def ahead (m : Bytes) (length index : ℕ) : Bytes := (m.take length).drop index

theorem advance_eq (hlength : length ≤ m.length) (hindex : index < length) :
    advance (some m) length index (ranges.length + 1) ranges =
      some (if List.Forall₂ Utf8.Range.Contains ranges ((ahead m length (index + 1)).take ranges.length)
        then some (index + (ranges.length + 1)) else none) := by
  by_cases hshort : length - index < ranges.length + 1
  · have hnot : ¬List.Forall₂ Utf8.Range.Contains ranges ((ahead m length (index + 1)).take ranges.length) := by
      intro h
      have := h.length_eq
      simp only [ahead, List.length_take, List.length_drop] at this
      omega
    simp [advance, hshort, hnot]
  · have htake : (ahead m length (index + 1)).take ranges.length = (m.drop (index + 1)).take ranges.length := by
      rw [ahead, List.drop_take, List.take_take, Nat.min_eq_left (by omega)]
    rw [htake]
    simp only [advance, hshort, if_false, outside_eq (by omega : index + 1 + ranges.length ≤ m.length)]
    by_cases h : List.Forall₂ Utf8.Range.Contains ranges ((m.drop (index + 1)).take ranges.length) <;> simp [h]

/-- A turn looks up what may follow the first byte. -/
theorem utf8Turn_eq (hlength : length ≤ m.length) (hindex : index < length) :
    utf8Turn (some m) length index = match Utf8.follow m[index] with
      | some ranges => advance (some m) length index (ranges.length + 1) ranges
      | none => some none := by
  have hat : Ptr.at (some m) index = some m[index] := by simp [Ptr.at, hindex.trans_le hlength]
  simp only [utf8Turn, hat, Option.bind_eq_bind, Option.bind_some]
  generalize m[index] = first
  have hrow : ∀ low high ranges n, Utf8.Row.mk ⟨low, high⟩ ranges ∈ Utf8.table → low ≤ first ∧ first ≤ high →
      n = ranges.length + 1 → advance (some m) length index n ranges = match Utf8.follow first with
        | some ranges => advance (some m) length index (ranges.length + 1) ranges
        | none => some none := by
    rintro low high ranges _ hmem hfirst rfl
    rw [Utf8.follow_eq_some hmem hfirst]
  split_ifs with h₁ h₂ h₃ h₄ h₅ h₆ h₇ h₈
  · rw [← hrow 0x00 0x7f [] 1 (by simp [Utf8.table]) ⟨UInt8.zero_le, h₁⟩ rfl]
    have hleft : ¬length - index < 1 := by omega
    simp [advance, outside, hleft]
  · exact hrow 0xc2 0xdf _ 2 (by simp [Utf8.table, Utf8.continuation]) h₂ rfl
  · exact hrow 0xe0 0xe0 _ 3 (by simp [Utf8.table, Utf8.continuation]) ⟨UInt8.le_of_eq h₃.symm, UInt8.le_of_eq h₃⟩ rfl
  · rcases h₄ with h₄ | h₄
    · exact hrow 0xe1 0xec _ 3 (by simp [Utf8.table, Utf8.continuation]) h₄ rfl
    · exact hrow 0xee 0xef _ 3 (by simp [Utf8.table, Utf8.continuation]) h₄ rfl
  · exact hrow 0xed 0xed _ 3 (by simp [Utf8.table, Utf8.continuation]) ⟨UInt8.le_of_eq h₅.symm, UInt8.le_of_eq h₅⟩ rfl
  · exact hrow 0xf0 0xf0 _ 4 (by simp [Utf8.table, Utf8.continuation]) ⟨UInt8.le_of_eq h₆.symm, UInt8.le_of_eq h₆⟩ rfl
  · exact hrow 0xf1 0xf3 _ 4 (by simp [Utf8.table, Utf8.continuation]) h₇ rfl
  · exact hrow 0xf4 0xf4 _ 4 (by simp [Utf8.table, Utf8.continuation]) ⟨UInt8.le_of_eq h₈.symm, UInt8.le_of_eq h₈⟩ rfl
  · have hnone : Utf8.follow first = none := by
      by_contra hsome
      obtain ⟨tails, htails⟩ := Option.ne_none_iff_exists'.mp hsome
      obtain ⟨row, hmem, hfirst, -⟩ := Utf8.exists_row htails
      simp only [Utf8.table, List.mem_cons, List.not_mem_nil, or_false] at hmem
      rcases hmem with rfl | rfl | rfl | rfl | rfl | rfl | rfl | rfl | rfl
      · exact h₁ hfirst.2
      · exact h₂ hfirst
      · exact h₃ (UInt8.le_antisymm hfirst.2 hfirst.1)
      · exact h₄ (.inl hfirst)
      · exact h₅ (UInt8.le_antisymm hfirst.2 hfirst.1)
      · exact h₄ (.inr hfirst)
      · exact h₆ (UInt8.le_antisymm hfirst.2 hfirst.1)
      · exact h₇ hfirst
      · exact h₈ (UInt8.le_antisymm hfirst.2 hfirst.1)
    rw [hnone]
    rfl

theorem ahead_eq_cons (hlength : length ≤ m.length) (hindex : index < length) :
    ahead m length index = m[index] :: ahead m length (index + 1) := by
  have hlt : index < (m.take length).length := by simp; omega
  rw [ahead, List.drop_eq_getElem_cons hlt, List.getElem_take, ahead]

/-- The loop finds out whether what is ahead is well formed. -/
theorem utf8Loop_eq {turns : ℕ} (hlength : length ≤ m.length) (hindex : index ≤ length)
    (hturns : length - index ≤ turns) :
    utf8Loop (some m) length turns index = some (decide (Utf8.WellFormed (ahead m length index))) := by
  have hend : ¬index < length → ahead m length index = [] := fun h => by simp [ahead]; omega
  induction turns generalizing index with
  | zero =>
    have hnot : ¬index < length := by omega
    simp [utf8Loop, hnot, hend hnot]
  | succ turns ih =>
    by_cases hlt : index < length
    · simp only [utf8Loop, hlt, if_true, utf8Turn_eq hlength hlt]
      rw [ahead_eq_cons hlength hlt]
      cases hfollow : Utf8.follow m[index] with
      | none => simp [Utf8.wellFormed_cons_iff, hfollow]
      | some ranges =>
        simp only [advance_eq hlength hlt, Option.bind_eq_bind, Option.bind_some]
        by_cases hfits : List.Forall₂ Utf8.Range.Contains ranges ((ahead m length (index + 1)).take ranges.length)
        · have hle := hfits.length_eq
          simp only [ahead, List.length_take, List.length_drop] at hle
          have hdrop : ahead m length (index + (ranges.length + 1)) =
              (ahead m length (index + 1)).drop ranges.length := by
            simp only [ahead, List.drop_drop]
            congr 1
            omega
          simp only [hfits, if_true]
          rw [ih (by omega) (by omega) (fun h => by simp [ahead]; omega), hdrop]
          simp [Utf8.wellFormed_cons_iff, hfollow, hfits]
        · simp [Utf8.wellFormed_cons_iff, hfollow, hfits]
    · simp [utf8Loop, hlt, hend hlt]

/-- The validator reads nothing behind `length`, and accepts what is well formed before it. -/
theorem ovcUtf8IsValid_eq (hlength : length ≤ m.length) :
    ovcUtf8IsValid (some m) length = some (decide (Utf8.WellFormed (m.take length))) := by
  simpa [ovcUtf8IsValid, ahead] using utf8Loop_eq (m := m) hlength (Nat.zero_le length) le_rfl

end Valid

/-! ### `auth_credential.c`: the cursor -/

/-- `ovc_auth_decode_error`. -/
inductive OvcAuthDecodeError
  | OK | UNSUPPORTED_VERSION | TRUNCATED | BAD_TAG | UTF8 | TRAILING_DATA
deriving DecidableEq

/-- `ovc_auth_cursor`. -/
structure OvcAuthCursor where
  bytes : Ptr
  len : ℕ
  pos : ℕ
  error : OvcAuthDecodeError

/-- What works on a cursor, unless it faults. -/
abbrev OvcAuth := StateT OvcAuthCursor Option

/-- `cursor->error == OVC_AUTH_DECODE_OK`. -/
def isOk : OvcAuth Bool := do return decide ((← get).error = .OK)

/-- `cursor->error = error`. -/
def setError (error : OvcAuthDecodeError) : OvcAuth Unit := modify fun cursor => { cursor with error }

/-- `ovc_auth_take`. -/
def ovcAuthTake (count : ℕ) : OvcAuth Ptr := do
  let cursor ← get
  if cursor.error ≠ .OK then return none
  if cursor.len < cursor.pos ∨ cursor.len - cursor.pos < count then
    setError .TRUNCATED
    return none
  set { cursor with pos := cursor.pos + count }
  return cursor.bytes.add cursor.pos

/-- `ovc_auth_u8`. -/
def ovcAuthU8 : OvcAuth UInt8 := do
  let bytes ← ovcAuthTake 1
  if bytes.isNone then return 0 else bytes.at 0

/-- `ovc_auth_u32`. -/
def ovcAuthU32 : OvcAuth UInt32 := do
  let bytes ← ovcAuthTake 4
  if bytes.isNone then return 0
  let x₀ ← bytes.at 0
  let x₁ ← bytes.at 1
  let x₂ ← bytes.at 2
  let x₃ ← bytes.at 3
  return x₀.toUInt32 ||| (x₁.toUInt32 <<< 8) ||| (x₂.toUInt32 <<< 16) ||| (x₃.toUInt32 <<< 24)

/-- `ovc_auth_i32`. -/
def ovcAuthI32 : OvcAuth Int32 := do
  let bits ← ovcAuthU32
  if ← isOk then return Int32.ofUInt32 bits else return 0

/-- `ovc_auth_bytes`: the pointer, and `*out_len`. -/
def ovcAuthBytes : OvcAuth (Ptr × ℕ) := do
  let len ← ovcAuthU32
  if !(← isOk) then return (none, 0)
  let value ← ovcAuthTake len.toNat
  return (value, len.toNat)

/-- `ovc_auth_copy_bytes`, also of a string. -/
def ovcAuthCopyBytes (bytes : Ptr) (len : ℕ) : OvcAuth Bytes :=
  if len ≠ 0 then bytes.memcpy len else return []

/-- `ovc_auth_copy_string`. -/
def ovcAuthCopyString : OvcAuth Bytes := do
  let (bytes, len) ← ovcAuthBytes
  if !(← isOk) then return []
  if !(← ovcUtf8IsValid bytes len) then
    setError .UTF8
    return []
  ovcAuthCopyBytes bytes len

/-! ### `auth_credential.c`: the decoder -/

/-- `OvStoragePlugin_Optional_Bytes`. -/
structure COptionalBytes where
  present : Bool
  value : Bytes

/-- `OvStoragePlugin_AuthCredentialTransportTag`. -/
inductive CTransportTag
  | Tcp | Uds | NamedPipe
deriving DecidableEq

/-- `OvStoragePlugin_AuthCredentialTcp`. -/
structure CTcp where
  peerAddr : Bytes
  tlsClientCert : COptionalBytes

/-- `OvStoragePlugin_AuthCredentialUds`. -/
structure CUds where
  uid : UInt32
  gid : UInt32
  pid : Int32

/-- `OvStoragePlugin_AuthCredentialNamedPipe`. -/
structure CNamedPipe where
  sid : Bytes
  pid : UInt32

/-- `OvStoragePlugin_AuthCredentialTransport`. -/
structure CTransport where
  tag : CTransportTag
  tcp : CTcp
  uds : CUds
  namedPipe : CNamedPipe

/-- `OvStoragePlugin_AuthCredentialForwardedHeader`. -/
structure CForwardedHeader where
  name : Bytes
  value : Bytes

/-- `OvStoragePlugin_List_AuthCredentialForwardedHeader`. -/
structure CForwardedHeaders where
  ptr : Option (List CForwardedHeader)
  len : ℕ

/-- `OvStoragePlugin_AuthCredential`. -/
structure CAuthCredential where
  bearer : COptionalBytes
  transport : CTransport
  forwardedHeaders : CForwardedHeaders

/-- `OvStoragePlugin_ErrorCode`, as far as it is raised here. -/
inductive CErrorCode
  | IncompatibleType | InvalidArgument
deriving DecidableEq

/-- `OvStoragePlugin_Error`. -/
structure CError where
  code : CErrorCode
  message : String

/-- `OvStoragePlugin_FfiStatus`. -/
inductive FfiStatus
  | OK | ERR
deriving DecidableEq

/-- The status, and what is at `*out` and at `*err`. -/
structure CDecoded where
  status : FfiStatus
  out : Option CAuthCredential
  err : Option CError

/-- `memset(…, 0, …)`. -/
def COptionalBytes.zero : COptionalBytes := ⟨false, []⟩

def CTransport.zero : CTransport := ⟨.Tcp, ⟨[], .zero⟩, ⟨0, 0, 0⟩, ⟨[], 0⟩⟩

def CForwardedHeader.zero : CForwardedHeader := ⟨[], []⟩

def CForwardedHeaders.zero : CForwardedHeaders := ⟨none, 0⟩

/-- `ovc_auth_decode_error_message`. -/
def ovcAuthDecodeErrorMessage : OvcAuthDecodeError → String
  | .UNSUPPORTED_VERSION => "AuthCredential decode failed: unsupported wire version"
  | .TRUNCATED => "AuthCredential decode failed: truncated buffer"
  | .BAD_TAG => "AuthCredential decode failed: bad transport tag"
  | .UTF8 => "AuthCredential decode failed: invalid utf-8 in string field"
  | .TRAILING_DATA => "AuthCredential decode failed: trailing data after credential"
  | .OK => "AuthCredential decode failed"

/-- `ovc_auth_fail`. -/
def ovcAuthFail (err : Bool) (decodeError : OvcAuthDecodeError) : CDecoded :=
  let code := if decodeError = .UNSUPPORTED_VERSION then CErrorCode.IncompatibleType else CErrorCode.InvalidArgument
  ⟨.ERR, none, if err then some ⟨code, ovcAuthDecodeErrorMessage decodeError⟩ else none⟩

/-- `ovc_auth_fail_argument`. -/
def ovcAuthFailArgument (err : Bool) (message : String) : CDecoded :=
  ⟨.ERR, none, if err then some ⟨.InvalidArgument, message⟩ else none⟩

/-- A field that is absent if it is empty. -/
def ovcAuthOptionalBytes : OvcAuth COptionalBytes := do
  let (field, fieldLen) ← ovcAuthBytes
  if (← isOk) && decide (fieldLen ≠ 0) then
    let value ← ovcAuthCopyBytes field fieldLen
    return ⟨true, value⟩
  else return .zero

/-- The `switch` on the tag. -/
def ovcAuthTransportOf (tag : UInt8) : OvcAuth CTransport := do
  if tag = 0 then
    let peerAddr ← ovcAuthCopyString
    let tlsClientCert ← ovcAuthOptionalBytes
    return { CTransport.zero with tag := .Tcp, tcp := ⟨peerAddr, tlsClientCert⟩ }
  else if tag = 1 then
    let uid ← ovcAuthU32
    let gid ← ovcAuthU32
    let pid ← ovcAuthI32
    return { CTransport.zero with tag := .Uds, uds := ⟨uid, gid, pid⟩ }
  else if tag = 2 then
    let sid ← ovcAuthCopyString
    let pid ← ovcAuthU32
    return { CTransport.zero with tag := .NamedPipe, namedPipe := ⟨sid, pid⟩ }
  else
    setError .BAD_TAG
    return .zero

/-- The tag, and the transport that it selects. -/
def ovcAuthTransport : OvcAuth CTransport := do
  let tag ← ovcAuthU8
  if ← isOk then ovcAuthTransportOf tag else return .zero

/-- A write to `headers.ptr[index]`. -/
def CForwardedHeaders.write (headers : CForwardedHeaders) (index : ℕ) (f : CForwardedHeader → CForwardedHeader) :
    Option CForwardedHeaders := do
  let ptr ← headers.ptr
  let header ← ptr[index]?
  return { headers with ptr := some (ptr.set index (f header)) }

/-- The loop over the headers, with `forwarded_count - index` turns to go. -/
def ovcAuthHeaders : ℕ → ℕ → CForwardedHeaders → OvcAuth CForwardedHeaders
  | 0, _, headers => return headers
  | turns + 1, index, headers => do
    if !(← isOk) then return headers
    let name ← ovcAuthCopyString
    let headers ← headers.write index fun header => { header with name }
    if ← isOk then
      let headers := { headers with len := index + 1 }
      let value ← ovcAuthCopyString
      let headers ← headers.write index fun header => { header with value }
      ovcAuthHeaders turns (index + 1) headers
    else ovcAuthHeaders turns (index + 1) headers

/-- `SIZE_MAX`. -/
def SIZE_MAX : ℕ := 2 ^ 64 - 1

/-- `sizeof(*credential->forwarded_headers.ptr)`: two strings, of a pointer and a length each. -/
def SIZEOF_FORWARDED_HEADER : ℕ := 32

/-- The bound on the count: a header takes two lengths at least. -/
def ovcAuthBound (forwardedCount : UInt32) : OvcAuth Unit := do
  let cursor ← get
  if cursor.error = .OK ∧ (cursor.len - cursor.pos) / 8 < forwardedCount.toNat then setError .TRUNCATED

/-- The tail of version 2. -/
def ovcAuthForwarded : OvcAuth CForwardedHeaders := do
  let forwardedCount ← ovcAuthU32
  ovcAuthBound forwardedCount
  if (← isOk) && decide (forwardedCount ≠ 0) then
    if SIZE_MAX / SIZEOF_FORWARDED_HEADER < forwardedCount.toNat then
      setError .TRUNCATED
      ovcAuthHeaders forwardedCount.toNat 0 .zero
    else ovcAuthHeaders forwardedCount.toNat 0 ⟨some (List.replicate forwardedCount.toNat .zero), 0⟩
  else ovcAuthHeaders forwardedCount.toNat 0 .zero

/-- What comes behind a version that is supported. -/
def ovcAuthCredential (version : UInt8) : OvcAuth CAuthCredential := do
  let bearer ← ovcAuthOptionalBytes
  let transport ← ovcAuthTransport
  let forwardedHeaders ←
    if (← isOk) && decide (version = AUTH_CREDENTIAL_WIRE_VERSION) then ovcAuthForwarded else pure .zero
  return ⟨bearer, transport, forwardedHeaders⟩

/-- The test for bytes that are left. -/
def ovcAuthTrailing : OvcAuth Unit := do
  let cursor ← get
  if cursor.error = .OK ∧ cursor.pos ≠ cursor.len then setError .TRAILING_DATA

/-- `ovstorage_plugin_auth_credential_decode`, by whether `out` and `err` are not `NULL`. -/
def ovstoragePluginAuthCredentialDecode (bytes : Ptr) (len : ℕ) (out err : Bool) : Option CDecoded :=
  if !out || !err then
    some (ovcAuthFailArgument err "AuthCredential decode requires non-null out and err parameters")
  else if bytes.isNone ∧ len ≠ 0 then
    some (ovcAuthFailArgument err "AuthCredential bytes pointer is null with non-zero length")
  else do
    let (version, cursor) ← ovcAuthU8 ⟨bytes, len, 0, .OK⟩
    if cursor.error ≠ .OK then return ovcAuthFail err cursor.error
    if version ≠ 1 ∧ version ≠ AUTH_CREDENTIAL_WIRE_VERSION then return ovcAuthFail err .UNSUPPORTED_VERSION
    let (credential, cursor) ← ovcAuthCredential version cursor
    let (_, cursor) ← ovcAuthTrailing cursor
    if cursor.error ≠ .OK then return ovcAuthFail err cursor.error
    let headers := credential.forwardedHeaders
    -- An empty list points at a sentinel.
    let headers := if headers.ptr.isNone then { headers with ptr := some [.zero] } else headers
    return ⟨.OK, some { credential with forwardedHeaders := headers }, none⟩

end OvStorage.Authz
