import OvStorage.Address.Percent
import OvStorage.Lib.Wire

/-!
# The wire format of credentials

`AuthCredential::encode` and `AuthCredential::decode` of `ovstorage-authz-context/src/lib.rs`, over
the readers of `OvStorage.Lib.Wire`.

A `String` and its bytes are those of Lean, whose strings are valid UTF-8 as those of Rust are. A
cursor is the bytes that it has yet to read; lengths do not overflow a `usize`.
-/

namespace OvStorage.Authz

open Address

/-- `Transport`. -/
inductive Transport
  | Tcp (peerAddr : String) (tlsClientCert : Option Bytes)
  | Uds (uid gid : UInt32) (pid : Int32)
  | NamedPipe (sid : String) (pid : UInt32)
deriving DecidableEq

/-- `ForwardedHeaders`. -/
structure ForwardedHeaders where
  values : List (String × String)
deriving DecidableEq

/-- `AuthCredential`. -/
structure AuthCredential where
  bearer : Option Bytes
  transport : Transport
  forwarded : Option ForwardedHeaders
deriving DecidableEq

/-- `DecodeError`. -/
inductive DecodeError
  | UnsupportedVersion | Truncated | BadTag | Utf8 | TrailingData
deriving DecidableEq

/-- `AUTH_CREDENTIAL_WIRE_VERSION`. -/
def AUTH_CREDENTIAL_WIRE_VERSION : UInt8 := 2

/-- `LEGACY_AUTH_CREDENTIAL_WIRE_VERSION`. -/
def LEGACY_AUTH_CREDENTIAL_WIRE_VERSION : UInt8 := 1

/-! ### Encoding -/

/-- `put_opt_bytes`. -/
def putOptBytes (bytes : Option Bytes) : Bytes := Wire.putBytes (bytes.getD [])

def Transport.encode : Transport → Bytes
  | .Tcp peerAddr tlsClientCert => 0 :: (Wire.putBytes (utf8 peerAddr) ++ putOptBytes tlsClientCert)
  | .Uds uid gid pid => 1 :: (Wire.leBytes uid ++ (Wire.leBytes gid ++ Wire.leBytes pid.toUInt32))
  | .NamedPipe sid pid => 2 :: (Wire.putBytes (utf8 sid) ++ Wire.leBytes pid)

def putHeader (header : String × String) : Bytes := Wire.putBytes (utf8 header.1) ++ Wire.putBytes (utf8 header.2)

def putForwarded : Option ForwardedHeaders → Bytes
  | some forwarded => Wire.leBytes (UInt32.ofNat forwarded.values.length) ++ forwarded.values.flatMap putHeader
  | none => Wire.leBytes 0

/-- `encode`. -/
def AuthCredential.encode (c : AuthCredential) : Bytes :=
  AUTH_CREDENTIAL_WIRE_VERSION :: (putOptBytes c.bearer ++ (c.transport.encode ++ putForwarded c.forwarded))

/-! ### Decoding -/

/-- A read of a buffer. -/
abbrev Cursor := Wire.Reader DecodeError

namespace Cursor

/-- `u8`. -/
def u8 : Cursor UInt8 := Wire.byte .Truncated

/-- `u32`. -/
def u32 : Cursor UInt32 := Wire.word .Truncated

/-- `i32`. -/
def i32 : Cursor Int32 := Int32.ofUInt32 <$> u32

/-- `bytes`. -/
def bytes : Cursor Bytes := Wire.prefixed .Truncated

/-- `opt_bytes`. -/
def optBytes : Cursor (Option Bytes) := do
  let b ← bytes
  return if b.isEmpty then none else some b

/-- `string`. -/
def string : Cursor String := do
  let b ← bytes
  match String.fromUTF8? ⟨b.toArray⟩ with
  | some s => return s
  | none => throw .Utf8

def transport : Cursor Transport := do
  let tag ← u8
  if tag = 0 then
    let peerAddr ← string
    let tlsClientCert ← optBytes
    return .Tcp peerAddr tlsClientCert
  else if tag = 1 then
    let uid ← u32
    let gid ← u32
    let pid ← i32
    return .Uds uid gid pid
  else if tag = 2 then
    let sid ← string
    let pid ← u32
    return .NamedPipe sid pid
  else throw .BadTag

def header : Cursor (String × String) := do
  let name ← string
  let value ← string
  return (name, value)

/-- The tail of version 2. -/
def forwarded : Cursor (Option ForwardedHeaders) := do
  let valueCount ← u32
  let values ← Wire.times header valueCount.toNat
  return if values.isEmpty then none else some ⟨values⟩

/-- What comes behind the version. -/
def credential (version : UInt8) : Cursor AuthCredential := do
  let bearer ← optBytes
  let transport ← transport
  let forwarded ← if version = AUTH_CREDENTIAL_WIRE_VERSION then forwarded else pure none
  return ⟨bearer, transport, forwarded⟩

/-- The credential at the front of a buffer. -/
def versioned : Cursor AuthCredential := do
  let version ← u8
  if version = LEGACY_AUTH_CREDENTIAL_WIRE_VERSION ∨ version = AUTH_CREDENTIAL_WIRE_VERSION then credential version
  else throw .UnsupportedVersion

end Cursor

/-- `decode`. -/
def AuthCredential.decode (bytes : Bytes) : Except DecodeError AuthCredential :=
  match Cursor.versioned bytes with
  | .ok (c, rest) => if rest.isEmpty then .ok c else .error .TrailingData
  | .error error => .error error

/-! ### What fits, and what reads as absent -/

/-- The string fits a length prefix. -/
def Fits (bytes : Bytes) : Prop := bytes.length < 2 ^ 32

/-- The byte strings of the transport fit. -/
def Transport.Fits : Transport → Prop
  | .Tcp peerAddr tlsClientCert => Authz.Fits (utf8 peerAddr) ∧ Authz.Fits (tlsClientCert.getD [])
  | .Uds _ _ _ => True
  | .NamedPipe sid _ => Authz.Fits (utf8 sid)

/-- The byte strings and the count of the headers fit. -/
structure AuthCredential.Fits (c : AuthCredential) : Prop where
  bearer : Authz.Fits (c.bearer.getD [])
  transport : c.transport.Fits
  count : ∀ forwarded, c.forwarded = some forwarded → forwarded.values.length < 2 ^ 32
  headers : ∀ forwarded, c.forwarded = some forwarded → ∀ header ∈ forwarded.values, Authz.Fits (utf8 header.1) ∧
    Authz.Fits (utf8 header.2)

/-- An empty byte string reads as absent. -/
def optNormal (bytes : Option Bytes) : Option Bytes := bytes.filter fun b => !b.isEmpty

def Transport.normal : Transport → Transport
  | .Tcp peerAddr tlsClientCert => .Tcp peerAddr (optNormal tlsClientCert)
  | t => t

/-- An empty bearer, an empty certificate and an empty list of headers read as absent. -/
def AuthCredential.normal (c : AuthCredential) : AuthCredential :=
  ⟨optNormal c.bearer, c.transport.normal, c.forwarded.filter fun forwarded => !forwarded.values.isEmpty⟩

/-! ### What the readers accept -/

theorem optNormal_eq_self_iff {o : Option Bytes} : optNormal o = o ↔ o ≠ some [] := by
  cases o with
  | none => simp [optNormal]
  | some b => cases b <;> simp [optNormal]

@[simp] theorem putOptBytes_optNormal (o : Option Bytes) : putOptBytes (optNormal o) = putOptBytes o := by
  cases o with
  | none => rfl
  | some b => cases b <;> rfl

@[simp] theorem getD_optNormal (o : Option Bytes) : (optNormal o).getD [] = o.getD [] := by
  cases o with
  | none => rfl
  | some b => cases b <;> rfl

namespace Cursor

open Wire (Reads)

theorem reads_bytes : Reads bytes fun a w => Fits a ∧ w = Wire.putBytes a := Wire.reads_prefixed _

theorem reads_optBytes : Reads optBytes fun o w => (Fits (o.getD []) ∧ optNormal o = o) ∧ w = putOptBytes o := by
  refine ((reads_bytes).bind fun b => Reads.pure _).congr fun o w => ?_
  constructor
  · rintro ⟨b, _, _, ⟨hfits, rfl⟩, ⟨rfl, rfl⟩, rfl⟩
    cases b with
    | nil => exact ⟨⟨hfits, rfl⟩, by simp [putOptBytes]⟩
    | cons x b => exact ⟨⟨hfits, rfl⟩, by simp [putOptBytes]⟩
  · rintro ⟨⟨hfits, hnormal⟩, rfl⟩
    refine ⟨o.getD [], _, [], ⟨hfits, rfl⟩, ⟨?_, rfl⟩, by simp [putOptBytes]⟩
    cases o with
    | none => rfl
    | some b => cases b with
      | nil => exact absurd rfl (optNormal_eq_self_iff.mp hnormal)
      | cons x b => rfl

theorem reads_string : Reads string fun s w => Fits (utf8 s) ∧ w = Wire.putBytes (utf8 s) := by
  have hdecoded : ∀ b : Bytes, Reads (match String.fromUTF8? ⟨b.toArray⟩ with
      | some s => pure s
      | none => throw .Utf8 : Cursor String) fun s w => b = utf8 s ∧ w = [] := by
    intro b
    cases hs : String.fromUTF8? ⟨b.toArray⟩ with
    | none =>
      refine (Reads.fail _).congr fun s w => ?_
      rw [← fromUTF8?_eq_some_iff, hs]
      simp
    | some s' =>
      refine (Reads.pure s').congr fun s w => ?_
      rw [← fromUTF8?_eq_some_iff, hs, Option.some_inj, eq_comm]
  refine ((reads_bytes).bind hdecoded).congr fun s w => ?_
  constructor
  · rintro ⟨_, _, _, ⟨hfits, rfl⟩, ⟨rfl, rfl⟩, rfl⟩
    exact ⟨hfits, by simp⟩
  · rintro ⟨hfits, rfl⟩
    exact ⟨_, _, [], ⟨hfits, rfl⟩, ⟨rfl, rfl⟩, by simp⟩

theorem reads_u8 : Reads u8 fun a w => w = [a] := Wire.reads_byte _

theorem reads_u32 : Reads u32 fun n w => w = Wire.leBytes n := Wire.reads_word _

theorem reads_i32 : Reads i32 fun n w => w = Wire.leBytes n.toUInt32 := by
  refine ((reads_u32).map Int32.ofUInt32).congr fun n w => ?_
  constructor
  · rintro ⟨m, rfl, rfl⟩
    rfl
  · rintro rfl
    exact ⟨n.toUInt32, rfl, rfl⟩

theorem reads_transport : Reads transport fun t w => (t.Fits ∧ t.normal = t) ∧ w = t.encode := by
  have htcp := (reads_string).bind fun peerAddr => (reads_optBytes).bind fun tlsClientCert =>
    Reads.pure (ε := DecodeError) (Transport.Tcp peerAddr tlsClientCert)
  have huds := (reads_u32).bind fun uid => (reads_u32).bind fun gid => (reads_i32).bind fun pid =>
    Reads.pure (ε := DecodeError) (Transport.Uds uid gid pid)
  have hpipe :=
    (reads_string).bind fun sid => (reads_u32).bind fun pid =>
      Reads.pure (ε := DecodeError) (Transport.NamedPipe sid pid)
  refine ((reads_u8).bind fun tag => htcp.ite (p := tag = 0)
    (huds.ite (p := tag = 1) (hpipe.ite (p := tag = 2) (Reads.fail .BadTag)))).congr fun t w => ?_
  constructor
  · rintro ⟨tag, _, w, rfl, hw, rfl⟩
    split_ifs at hw with h₀ h₁ h₂
    · obtain ⟨peerAddr, _, _, ⟨haddr, rfl⟩, ⟨cert, _, _, ⟨⟨hcert, hnormal⟩, rfl⟩, ⟨rfl, rfl⟩, rfl⟩, rfl⟩ := hw
      exact ⟨⟨⟨haddr, hcert⟩, by rw [Transport.normal, hnormal]⟩, by simp [Transport.encode, h₀]⟩
    · obtain ⟨uid, _, _, rfl, ⟨gid, _, _, rfl, ⟨pid, _, _, rfl, ⟨rfl, rfl⟩, rfl⟩, rfl⟩, rfl⟩ := hw
      exact ⟨⟨trivial, rfl⟩, by simp [Transport.encode, h₁]⟩
    · obtain ⟨sid, _, _, ⟨hsid, rfl⟩, ⟨pid, _, _, rfl, ⟨rfl, rfl⟩, rfl⟩, rfl⟩ := hw
      exact ⟨⟨hsid, rfl⟩, by simp [Transport.encode, h₂]⟩
  · rintro ⟨⟨hfits, hnormal⟩, rfl⟩
    cases t with
    | Tcp peerAddr cert =>
      refine ⟨0, [0], _, rfl, ?_, rfl⟩
      have hcert : optNormal cert = cert := by simpa [Transport.normal] using hnormal
      exact ⟨peerAddr, _, _, ⟨hfits.1, rfl⟩, ⟨cert, _, [], ⟨⟨hfits.2, hcert⟩, rfl⟩, ⟨rfl, rfl⟩, by simp⟩, rfl⟩
    | Uds uid gid pid =>
      refine ⟨1, [1], _, rfl, ?_, rfl⟩
      exact ⟨uid, _, _, rfl, ⟨gid, _, _, rfl, ⟨pid, _, [], rfl, ⟨rfl, rfl⟩, (List.append_nil _).symm⟩, rfl⟩, rfl⟩
    | NamedPipe sid pid =>
      refine ⟨2, [2], _, rfl, ?_, rfl⟩
      exact ⟨sid, _, _, ⟨hfits, rfl⟩, ⟨pid, _, [], rfl, ⟨rfl, rfl⟩, by simp⟩, rfl⟩

theorem reads_header : Reads header fun h w => (Fits (utf8 h.1) ∧ Fits (utf8 h.2)) ∧ w = putHeader h := by
  refine ((reads_string).bind fun name => (reads_string).bind fun value => Reads.pure (name, value)).congr fun h w => ?_
  constructor
  · rintro ⟨name, _, _, ⟨hname, rfl⟩, ⟨value, _, _, ⟨hvalue, rfl⟩, ⟨rfl, rfl⟩, rfl⟩, rfl⟩
    exact ⟨⟨hname, hvalue⟩, by simp [putHeader]⟩
  · rintro ⟨⟨hname, hvalue⟩, rfl⟩
    exact ⟨h.1, _, _, ⟨hname, rfl⟩, ⟨h.2, _, [], ⟨hvalue, rfl⟩, ⟨rfl, rfl⟩, by simp⟩, rfl⟩

/-- The tail is the count and the headers, where no headers are absent ones. -/
theorem reads_forwarded : Reads forwarded fun f w =>
    ((∀ headers, f = some headers → headers.values.length < 2 ^ 32 ∧ ∀ h ∈ headers.values, Fits (utf8 h.1) ∧
      Fits (utf8 h.2)) ∧
      f.filter (fun headers => !headers.values.isEmpty) = f) ∧ w = putForwarded f := by
  have hvalues := fun count : UInt32 => (reads_header.times count.toNat).congr fun values w =>
    and_congr_right fun _ => Wire.each_iff (fun _ _ => Iff.rfl) values w
  refine ((reads_u32).bind fun count => (hvalues count).bind fun values => Reads.pure _).congr fun f w => ?_
  constructor
  · rintro ⟨count, _, _, rfl, ⟨values, _, _, ⟨hlength, hfits, rfl⟩, ⟨rfl, rfl⟩, rfl⟩, rfl⟩
    have hcount : count = UInt32.ofNat values.length := by rw [hlength, UInt32.ofNat_toNat]
    have hlt : values.length < 2 ^ 32 := hlength ▸ count.toNat_lt
    cases values with
    | nil => exact ⟨⟨(fun _ h => by cases h), rfl⟩, by simp [putForwarded, hcount]⟩
    | cons value values =>
      refine ⟨⟨?_, rfl⟩, by simp [putForwarded, hcount]⟩
      rintro _ ⟨⟩
      exact ⟨hlt, hfits⟩
  · rintro ⟨⟨hfits, hnormal⟩, rfl⟩
    cases f with
    | none => exact ⟨0, _, [], rfl, ⟨[], _, [], ⟨rfl, by simp, rfl⟩, ⟨rfl, rfl⟩, by simp⟩, by simp [putForwarded]⟩
    | some headers =>
      obtain ⟨hlength, hheaders⟩ := hfits headers rfl
      have hempty : headers.values.isEmpty = false := by
        simp only [Option.filter_eq_some_iff] at hnormal
        simpa using hnormal.2
      refine ⟨UInt32.ofNat headers.values.length, _, _, rfl,
        ⟨headers.values, _, [], ⟨?_, hheaders, rfl⟩, ⟨?_, rfl⟩, by simp⟩, rfl⟩
      · rw [UInt32.toNat_ofNat']
        exact (Nat.mod_eq_of_lt hlength).symm
      · simp [hempty]

/-- Version 2 is what `encode` writes, of the credentials that read as themselves. -/
theorem reads_credential : Reads (credential AUTH_CREDENTIAL_WIRE_VERSION) fun c w =>
    (c.Fits ∧ c.normal = c) ∧ AUTH_CREDENTIAL_WIRE_VERSION :: w = c.encode := by
  have hread := (reads_optBytes).bind fun bearer => (reads_transport).bind fun transport =>
      (reads_forwarded).bind fun forwarded =>
    Reads.pure (ε := DecodeError) (AuthCredential.mk bearer transport forwarded)
  refine Reads.congr hread fun c w => ?_
  constructor
  · rintro ⟨bearer, _, _, ⟨⟨hbearer, hbearer'⟩, rfl⟩, ⟨transport, _, _, ⟨⟨htransport, htransport'⟩, rfl⟩,
      ⟨forwarded, _, _, ⟨⟨hforwarded, hforwarded'⟩, rfl⟩, ⟨rfl, rfl⟩, rfl⟩, rfl⟩, rfl⟩
    refine ⟨⟨⟨hbearer, htransport, fun f hf => (hforwarded f hf).1, fun f hf => (hforwarded f hf).2⟩, ?_⟩, ?_⟩
    · simp only [AuthCredential.normal, hbearer', htransport', hforwarded']
    · simp [AuthCredential.encode]
  · rintro ⟨⟨hfits, hnormal⟩, hw⟩
    obtain ⟨bearer, transport, forwarded⟩ := c
    obtain ⟨hbearer, htransport, hforwarded⟩ := AuthCredential.mk.inj hnormal
    have htail : w = putOptBytes bearer ++ (transport.encode ++ putForwarded forwarded) := by
      simpa [AuthCredential.encode] using hw
    exact ⟨bearer, _, _, ⟨⟨hfits.bearer, hbearer⟩, rfl⟩, ⟨transport, _, _, ⟨⟨hfits.transport, htransport⟩, rfl⟩,
      ⟨forwarded, _, [], ⟨⟨fun f hf => ⟨hfits.count f hf, hfits.headers f hf⟩, hforwarded⟩, rfl⟩, ⟨rfl, rfl⟩,
        (List.append_nil _).symm⟩, rfl⟩, htail⟩

/-- Version 1 has no tail. -/
theorem reads_legacy : Reads (credential LEGACY_AUTH_CREDENTIAL_WIRE_VERSION) fun c w =>
    (c.Fits ∧ c.normal = c) ∧ c.forwarded = none ∧ w = putOptBytes c.bearer ++ c.transport.encode := by
  have hread := (reads_optBytes).bind fun bearer => (reads_transport).bind fun transport =>
      (Reads.pure none).bind fun forwarded =>
    Reads.pure (ε := DecodeError) (AuthCredential.mk bearer transport forwarded)
  refine Reads.congr hread fun c w => ?_
  constructor
  · rintro ⟨bearer, _, _, ⟨⟨hbearer, hbearer'⟩, rfl⟩, ⟨transport, _, _, ⟨⟨htransport, htransport'⟩, rfl⟩,
      ⟨_, _, _, ⟨rfl, rfl⟩, ⟨rfl, rfl⟩, rfl⟩, rfl⟩, rfl⟩
    refine ⟨⟨⟨hbearer, htransport, (fun f hf => by cases hf), (fun f hf => by cases hf)⟩, ?_⟩, rfl, by simp⟩
    simp only [AuthCredential.normal, hbearer', htransport']
    rfl
  · rintro ⟨⟨hfits, hnormal⟩, hnone, rfl⟩
    obtain ⟨bearer, transport, forwarded⟩ := c
    obtain ⟨hbearer, htransport, -⟩ := AuthCredential.mk.inj hnormal
    subst hnone
    exact ⟨bearer, _, _, ⟨⟨hfits.bearer, hbearer⟩, rfl⟩, ⟨transport, _, [], ⟨⟨hfits.transport, htransport⟩, rfl⟩,
      ⟨none, [], [], ⟨rfl, rfl⟩, ⟨rfl, rfl⟩, rfl⟩, by simp⟩, rfl⟩

/-- What comes behind a version byte, of either version. -/
theorem reads_behind (version : UInt8) :
    Reads (if version = LEGACY_AUTH_CREDENTIAL_WIRE_VERSION ∨
      version = AUTH_CREDENTIAL_WIRE_VERSION then credential version
      else throw .UnsupportedVersion) fun c w => (c.Fits ∧ c.normal = c) ∧
        (version :: w = c.encode ∨ version = LEGACY_AUTH_CREDENTIAL_WIRE_VERSION ∧ c.forwarded = none ∧
          w = putOptBytes c.bearer ++ c.transport.encode) := by
  by_cases hcurrent : version = AUTH_CREDENTIAL_WIRE_VERSION
  · subst hcurrent
    rw [if_pos (.inr rfl)]
    refine reads_credential.congr fun c w => ⟨fun h => ⟨h.1, .inl h.2⟩, fun h => ⟨h.1, h.2.resolve_right ?_⟩⟩
    exact fun h => absurd h.1 (by decide)
  by_cases hlegacy : version = LEGACY_AUTH_CREDENTIAL_WIRE_VERSION
  · subst hlegacy
    rw [if_pos (.inl rfl)]
    refine reads_legacy.congr fun c w => ⟨fun h => ⟨h.1, .inr ⟨rfl, h.2⟩⟩, fun h => ⟨h.1, (h.2.resolve_left ?_).2⟩⟩
    exact fun h => absurd (List.cons.inj h).1 (by decide)
  · rw [if_neg (not_or.mpr ⟨hlegacy, hcurrent⟩)]
    refine (Reads.fail _).congr fun c w => ⟨False.elim, ?_⟩
    rintro ⟨-, h | ⟨h, -⟩⟩
    · exact hcurrent (List.cons.inj h).1
    · exact hlegacy h

/-- The credential at the front of a buffer is written in either version. -/
theorem reads_versioned : Reads versioned fun c w => (c.Fits ∧ c.normal = c) ∧
    (w = c.encode ∨ c.forwarded = none ∧
      w = LEGACY_AUTH_CREDENTIAL_WIRE_VERSION :: (putOptBytes c.bearer ++ c.transport.encode)) := by
  refine ((reads_u8).bind reads_behind).congr fun c w => ?_
  constructor
  · rintro ⟨version, _, w, rfl, ⟨hc, h | ⟨rfl, hnone, rfl⟩⟩, rfl⟩
    · exact ⟨hc, .inl h⟩
    · exact ⟨hc, .inr ⟨hnone, rfl⟩⟩
  · rintro ⟨hc, rfl | ⟨hnone, rfl⟩⟩
    · exact ⟨_, _, _, rfl, ⟨hc, .inl rfl⟩, rfl⟩
    · exact ⟨_, _, _, rfl, ⟨hc, .inr ⟨rfl, hnone, rfl⟩⟩, rfl⟩

end Cursor

namespace AuthCredential

variable {b : Bytes} {c : AuthCredential}

theorem decode_eq_ok_iff_read : decode b = .ok c ↔ Cursor.versioned b = .ok (c, []) := by
  simp only [decode]
  split
  next c' rest h =>
    rw [h]
    cases rest <;> simp
  next error h =>
    rw [h]
    simp

/-- What `decode` accepts, and as what. -/
theorem decode_eq_ok_iff : decode b = .ok c ↔ (c.Fits ∧ c.normal = c) ∧
    (b = c.encode ∨ c.forwarded = none ∧
      b = LEGACY_AUTH_CREDENTIAL_WIRE_VERSION :: (putOptBytes c.bearer ++ c.transport.encode)) := by
  rw [decode_eq_ok_iff_read, Cursor.reads_versioned.whole_iff]

theorem encode_normal (c : AuthCredential) : c.normal.encode = c.encode := by
  obtain ⟨bearer, transport, forwarded⟩ := c
  have htransport : transport.normal.encode = transport.encode := by
    cases transport <;> simp [Transport.normal, Transport.encode]
  have hforwarded : putForwarded (forwarded.filter fun headers => !headers.values.isEmpty) =
      putForwarded forwarded := by
    match forwarded with
    | none => rfl
    | some ⟨[]⟩ => rfl
    | some ⟨_ :: _⟩ => rfl
  simp only [encode, normal, putOptBytes_optNormal, htransport, hforwarded]

theorem normal_normal (c : AuthCredential) : c.normal.normal = c.normal := by
  have hopt : ∀ o : Option Bytes, optNormal (optNormal o) = optNormal o := by
    intro o
    cases o <;> simp [optNormal, Option.filter_filter]
  obtain ⟨bearer, transport, forwarded⟩ := c
  have htransport : transport.normal.normal = transport.normal := by cases transport <;> simp [Transport.normal, hopt]
  simp only [normal, hopt, htransport, Option.filter_filter, Bool.and_self]

theorem Fits.normal (h : c.Fits) : c.normal.Fits where
  bearer := by
    rw [AuthCredential.normal, getD_optNormal]
    exact h.bearer
  transport := by
    have htransport := h.transport
    show c.transport.normal.Fits
    cases hc : c.transport with
    | Tcp peerAddr tlsClientCert => simpa [hc, Transport.normal, Transport.Fits] using htransport
    | Uds _ _ _ => trivial
    | NamedPipe sid _ =>
      rw [hc] at htransport
      exact htransport
  count f hf := h.count f (Option.filter_eq_some_iff.mp hf).1
  headers f hf := h.headers f (Option.filter_eq_some_iff.mp hf).1

/-- What was encoded decodes, with what is empty read as absent. -/
theorem decode_encode (h : c.Fits) : decode c.encode = .ok c.normal :=
  decode_eq_ok_iff.mpr ⟨⟨h.normal, c.normal_normal⟩, .inl c.encode_normal.symm⟩

/-- A buffer of version 2 decodes to the credential that encodes to it. -/
theorem version_iff_encode (h : decode b = .ok c) : b.head? = some AUTH_CREDENTIAL_WIRE_VERSION ↔ b = c.encode := by
  rcases (decode_eq_ok_iff.mp h).2 with rfl | ⟨-, rfl⟩
  · exact iff_of_true rfl rfl
  · exact iff_of_false (fun h => absurd (Option.some.inj h) (by decide)) fun h => absurd (List.cons.inj h).1 (by decide)

/-- No buffer that decodes begins another. -/
theorem decode_unique {ext : Bytes} {c' : AuthCredential} (h : decode b = .ok c) (h' : decode (b ++ ext) = .ok c') :
    ext = [] :=
  Cursor.reads_versioned.whole_unique (decode_eq_ok_iff_read.mp h) (decode_eq_ok_iff_read.mp h')

/-- A buffer of version 1 is one of version 2 without its tail. -/
theorem decode_legacy_iff {r : Bytes} : decode (LEGACY_AUTH_CREDENTIAL_WIRE_VERSION :: r) = .ok c ↔
    decode (AUTH_CREDENTIAL_WIRE_VERSION :: (r ++ Wire.leBytes 0)) = .ok c ∧ c.forwarded = none := by
  have hlegacy : LEGACY_AUTH_CREDENTIAL_WIRE_VERSION :: r ≠ c.encode := fun h => absurd (List.cons.inj h).1 (by decide)
  have hcurrent : AUTH_CREDENTIAL_WIRE_VERSION :: (r ++ Wire.leBytes 0) ≠
      LEGACY_AUTH_CREDENTIAL_WIRE_VERSION :: (putOptBytes c.bearer ++ c.transport.encode) :=
        fun h => absurd (List.cons.inj h).1 (by decide)
  rw [decode_eq_ok_iff, decode_eq_ok_iff]
  constructor
  · rintro ⟨hc, h | ⟨hnone, h⟩⟩
    · exact absurd h hlegacy
    · refine ⟨⟨hc, .inl ?_⟩, hnone⟩
      rw [(List.cons.inj h).2]
      simp [encode, hnone, putForwarded]
  · rintro ⟨⟨hc, h | ⟨-, h⟩⟩, hnone⟩
    · refine ⟨hc, .inr ⟨hnone, ?_⟩⟩
      have htail : r ++ Wire.leBytes 0 = (putOptBytes c.bearer ++ c.transport.encode) ++ Wire.leBytes 0 := by
        simpa [encode, hnone, putForwarded] using (List.cons.inj h).2
      rw [List.append_cancel_right htail]
    · exact absurd h hcurrent

/-- The wire format: what decodes is what was encoded, of either version, and nothing else. -/
theorem wire_format : (∀ c : AuthCredential, c.Fits → decode c.encode = .ok c.normal) ∧
    (∀ b c, decode b = .ok c → (b.head? = some AUTH_CREDENTIAL_WIRE_VERSION ↔ b = c.encode)) ∧
    (∀ r c, decode (LEGACY_AUTH_CREDENTIAL_WIRE_VERSION :: r) = .ok c ↔
      decode (AUTH_CREDENTIAL_WIRE_VERSION :: (r ++ Wire.leBytes 0)) = .ok c ∧ c.forwarded = none) ∧
    ∀ b ext c c', decode b = .ok c → decode (b ++ ext) = .ok c' → ext = [] :=
  ⟨fun _ => decode_encode, fun _ _ => version_iff_encode, fun _ _ => decode_legacy_iff, fun _ _ _ _ => decode_unique⟩

/-- A peer without a bearer, with a count of one header and an empty name behind it. -/
def padded :
    Bytes :=
  Wire.leBytes 0 ++ 1 :: (Wire.leBytes 0 ++ Wire.leBytes 0 ++ Wire.leBytes 0) ++ (Wire.leBytes 1 ++ Wire.leBytes 0)

/-- In version 2 the zero count that is put behind it is the length of the header's value. -/
theorem legacy_tail : ¬∀ r c, decode (LEGACY_AUTH_CREDENTIAL_WIRE_VERSION :: r) = .ok c ↔
    decode (AUTH_CREDENTIAL_WIRE_VERSION :: (r ++ Wire.leBytes 0)) = .ok c := by
  intro h
  have hcurrent : decode (AUTH_CREDENTIAL_WIRE_VERSION :: (padded ++ Wire.leBytes 0)) =
      .ok ⟨none, .Uds 0 0 0, some ⟨[("", "")]⟩⟩ := by decide +kernel
  have hnone := (decode_legacy_iff.mp ((h padded _).mpr hcurrent)).2
  cases hnone

end AuthCredential

end OvStorage.Authz
