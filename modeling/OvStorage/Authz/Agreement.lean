import OvStorage.Authz.CDecoder

/-!
# The decoders agree

The C decoder remembers its first error and reads on, the Rust decoder returns at it. A C read
`Follows` a Rust read if, from a position of a buffer without an error, it goes on from the position
that the Rust read leaves and returns what the Rust read returns, or it ends with an error where the
Rust read fails; and it is `Inert` if it changes nothing once there is an error. Both compose, and
hold of every read of the decoder.
-/

namespace OvStorage.Authz

open Address

section Following

variable {m : Bytes} {α β γ δ : Type}

/-- A cursor without an error. -/
def OvcAuthCursor.of (m : Bytes) (pos : ℕ) : OvcAuthCursor := ⟨some m, m.length, pos, .OK⟩

/-- An error that both decoders report as an invalid argument. -/
def OvcAuthDecodeError.Invalid (e : OvcAuthDecodeError) : Prop := e ≠ .OK ∧ e ≠ .UNSUPPORTED_VERSION

/-- Once there is an error, nothing changes. -/
def Inert (x : OvcAuth α) : Prop := ∀ cursor, cursor.error ≠ .OK → ∃ a, x cursor = some (a, cursor)

/-- The C read does at a position what the Rust read does on the bytes behind it. -/
def FollowsAt (m : Bytes) (pos : ℕ) (x : OvcAuth α) (r : Cursor β) (R : α → β → Prop) : Prop :=
  match r (m.drop pos) with
  | .ok (b, rest) => ∃ a pos', x (.of m pos) = some (a, .of m pos') ∧ pos' ≤ m.length ∧ rest = m.drop pos' ∧ R a b
  | .error e => e ≠ .UnsupportedVersion ∧ ∃ a cursor, x (.of m pos) = some (a, cursor) ∧ cursor.error.Invalid

def Follows (m : Bytes) (x : OvcAuth α) (r : Cursor β) (R : α → β → Prop) : Prop :=
  ∀ pos, pos ≤ m.length → FollowsAt m pos x r R

variable {x : OvcAuth α} {r : Cursor β} {R R' : α → β → Prop}

/-! ### Composition -/

theorem Cursor.bind_apply (r : Cursor β) (k : β → Cursor δ) (b : Bytes) : (r >>= k) b = match r b with
    | .ok (a, rest) => k a rest
    | .error error => .error error := by
  show StateT.bind r k b = _
  simp only [StateT.bind]
  cases r b <;> rfl

theorem Inert.pure (a : α) : Inert (Pure.pure a : OvcAuth α) := fun _ _ => ⟨a, rfl⟩

variable {f : α → OvcAuth γ}

theorem Inert.bind (hx : Inert x) (hf : ∀ a, Inert (f a)) : Inert (x >>= f) := by
  intro cursor herror
  obtain ⟨a, ha⟩ := hx cursor herror
  obtain ⟨c, hc⟩ := hf a cursor herror
  refine ⟨c, ?_⟩
  show (x cursor).bind (fun p => f p.1 p.2) = _
  rw [ha]
  exact hc

theorem Inert.isOk {f : Bool → OvcAuth γ} (hf : Inert (f false)) : Inert (isOk >>= f) := by
  intro cursor herror
  obtain ⟨c, hc⟩ := hf cursor herror
  refine ⟨c, ?_⟩
  rw [← hc]
  show f (decide (cursor.error = .OK)) cursor = f false cursor
  rw [decide_eq_false herror]

theorem Follows.mono (h : Follows m x r R) (hR : ∀ a b, R a b → R' a b) : Follows m x r R' := by
  intro pos hpos
  have hat := h pos hpos
  simp only [FollowsAt] at hat ⊢
  split at hat
  · obtain ⟨a, pos', hrun, hle, hrest, hab⟩ := hat
    exact ⟨a, pos', hrun, hle, hrest, hR a _ hab⟩
  · exact hat

/-- The Rust code makes more of what it has read. -/
theorem Follows.map {g : β → δ} {S : α → δ → Prop} (h : Follows m x r R) (hS : ∀ a b, R a b → S a (g b)) :
    Follows m x (r >>= fun b => Pure.pure (g b)) S := by
  intro pos hpos
  have hat := h pos hpos
  simp only [FollowsAt, Cursor.bind_apply] at hat ⊢
  cases hread : r (m.drop pos) with
  | ok result =>
    rw [hread] at hat
    obtain ⟨a, pos', hrun, hle, hrest, hab⟩ := hat
    exact ⟨a, pos', hrun, hle, hrest, hS a _ hab⟩
  | error e =>
    rw [hread] at hat
    exact hat

theorem Follows.pure {a : α} {b : β} (h : R a b) : Follows m (Pure.pure a) (Pure.pure b) R :=
  fun pos hpos => ⟨a, pos, rfl, hpos, rfl, h⟩

variable {k : β → Cursor δ} {S : γ → δ → Prop}

theorem FollowsAt.bind {pos : ℕ} (hx : FollowsAt m pos x r R)
    (hinert : ∀ a, Inert (f a)) (hf : ∀ a b pos', pos' ≤ m.length → R a b → FollowsAt m pos' (f a) (k b) S) :
    FollowsAt m pos (x >>= f) (r >>= k) S := by
  have hx' : ∀ cursor, (x >>= f) cursor = (x cursor).bind fun p => f p.1 p.2 := fun _ => rfl
  simp only [FollowsAt, hx', Cursor.bind_apply] at hx ⊢
  cases hread : r (m.drop pos) with
  | ok result =>
    obtain ⟨b, rest⟩ := result
    rw [hread] at hx
    obtain ⟨a, pos', hrun, hle, rfl, hab⟩ := hx
    simp only [hrun, Option.bind_some]
    exact hf a b pos' hle hab
  | error e =>
    rw [hread] at hx
    obtain ⟨hne, a, cursor, hrun, hinvalid⟩ := hx
    obtain ⟨c, hc⟩ := hinert a cursor hinvalid.1
    exact ⟨hne, c, cursor, by rw [hrun, Option.bind_some, hc], hinvalid⟩

/-- One read, and then another that its value chooses. -/
theorem Follows.bind (hx : Follows m x r R)
    (hinert : ∀ a, Inert (f a)) (hf : ∀ a b, R a b → Follows m (f a) (k b) S) : Follows m (x >>= f) (r >>= k) S :=
  fun pos hpos => (hx pos hpos).bind hinert fun a b pos' hpos' hab => hf a b hab pos' hpos'

theorem FollowsAt.isOk {f : Bool → OvcAuth α} {pos : ℕ} (h : FollowsAt m pos (f true) r R) :
    FollowsAt m pos (isOk >>= f) r R := by
  have hrun : (Authz.isOk >>= f) (.of m pos) = f true (.of m pos) := rfl
  simpa only [FollowsAt, hrun] using h

theorem Follows.isOk {f : Bool → OvcAuth α} (h : Follows m (f true) r R) : Follows m (isOk >>= f) r R :=
  fun pos hpos => (h pos hpos).isOk

/-- A value of the heap or of the validator, which does not fault. -/
theorem Follows.lift {o : Option γ} {c : γ} {f : γ → OvcAuth α} (ho : o = some c) (h : Follows m (f c) r R) :
    Follows m ((liftM o : OvcAuth γ) >>= f) r R := by
  subst ho
  exact h

theorem Inert.lift {o : Option γ} {c : γ} {f : γ → OvcAuth α} (ho : o = some c) (h : Inert (f c)) :
    Inert ((liftM o : OvcAuth γ) >>= f) := by
  subst ho
  exact h

/-- The C code finds an error where the Rust code fails. -/
theorem Follows.setError {error : OvcAuthDecodeError} {e : DecodeError} {a : α} (herror : error.Invalid)
    (he : e ≠ .UnsupportedVersion) : Follows m (setError error >>= fun _ => Pure.pure a) (throw e : Cursor β) R :=
  fun _ _ => ⟨he, a, _, rfl, herror⟩

end Following

/-! ### The reads of the cursor -/

section Reads

variable {m : Bytes}

variable {α β : Type}

variable {f : Ptr → OvcAuth α}

theorem Inert.take {count : ℕ} (hf : Inert (f none)) : Inert (ovcAuthTake count >>= f) := by
  intro cursor herror
  obtain ⟨a, ha⟩ := hf cursor herror
  have htake : ovcAuthTake count cursor = some (none, cursor) := by
    show (if cursor.error ≠ .OK then _ else _ : OvcAuth Ptr) cursor = _
    rw [if_pos herror]
    rfl
  refine ⟨a, ?_⟩
  show (ovcAuthTake count cursor).bind (fun p => f p.1 p.2) = _
  rw [htake]
  exact ha

theorem ovcAuthTake_of (m : Bytes) (pos count : ℕ) (hpos : pos ≤ m.length) : ovcAuthTake count (.of m pos) =
    if count ≤ (m.drop pos).length then some (some (m.drop pos), .of m (pos + count))
    else some (none, { OvcAuthCursor.of m pos with error := .TRUNCATED }) := by
  have hlength : (m.drop pos).length = m.length - pos := List.length_drop
  by_cases hcount : count ≤ m.length - pos
  · rw [hlength, if_pos hcount]
    have hnot : ¬(m.length < pos ∨ m.length - pos < count) := by omega
    show (if m.length < pos ∨ m.length - pos < count then _ else _ : OvcAuth Ptr) _ = _
    rw [if_neg hnot]
    rfl
  · rw [hlength, if_neg hcount]
    have hyes : m.length < pos ∨ m.length - pos < count := by omega
    show (if m.length < pos ∨ m.length - pos < count then _ else _ : OvcAuth Ptr) _ = _
    rw [if_pos hyes]
    rfl

/-- Bytes are taken, and then a read that is given a pointer to them. -/
theorem Follows.take {count : ℕ} {k : Bytes → Cursor β} {S : α → β → Prop} (hinert : Inert (f none))
    (hf : ∀ b behind, b.length = count → Follows m (f (some (b ++ behind))) (k b) S) :
    Follows m (ovcAuthTake count >>= f) (Wire.take .Truncated count >>= k) S := by
  intro pos hpos
  have hx : (ovcAuthTake count >>= f) (.of m pos) = (ovcAuthTake count (.of m pos)).bind fun p => f p.1 p.2 := rfl
  have hr : (Wire.take .Truncated count >>= k) (m.drop pos) =
      if count ≤ (m.drop pos).length then k ((m.drop pos).take count) ((m.drop pos).drop count)
      else .error .Truncated := by
    rw [Cursor.bind_apply, Wire.take]
    split_ifs <;> rfl
  simp only [FollowsAt, hx, hr, ovcAuthTake_of m pos count hpos]
  by_cases hcount : count ≤ (m.drop pos).length
  · have hle : pos + count ≤ m.length := by
      rw [List.length_drop] at hcount
      omega
    have hat := hf ((m.drop pos).take count) ((m.drop pos).drop count) (by simpa using hcount) (pos + count) hle
    rw [List.take_append_drop] at hat
    simp only [if_pos hcount, Option.bind_some]
    simpa only [FollowsAt, List.drop_drop] using hat
  · obtain ⟨a, ha⟩ := hinert { OvcAuthCursor.of m pos with error := .TRUNCATED } (by rintro ⟨⟩)
    simp only [if_neg hcount, Option.bind_some]
    exact ⟨by rintro ⟨⟩, a, _, ha, by rintro ⟨⟩, by rintro ⟨⟩⟩

theorem byte_eq (truncated : DecodeError) :
    Wire.byte truncated = Wire.take truncated 1 >>= fun b => (pure (b.getD 0 0) : Cursor UInt8) := by
  funext b
  show _ = StateT.bind (Wire.take truncated 1) _ b
  cases b <;> rfl

theorem word_eq (truncated : DecodeError) : Wire.word truncated = Wire.take truncated 4 >>= fun b =>
    (pure (Wire.ofLeBytes (b.getD 0 0) (b.getD 1 0) (b.getD 2 0) (b.getD 3 0)) : Cursor UInt32) := by
  funext b
  show _ = StateT.bind (Wire.take truncated 4) _ b
  match b with
  | [] | [_] | [_, _] | [_, _, _] => rfl
  | _ :: _ :: _ :: _ :: _ => rfl

/-- The word that is put together of shifted bytes. -/
theorem shifted_eq_ofLeBytes (x₀ x₁ x₂ x₃ : UInt8) :
    x₀.toUInt32 ||| (x₁.toUInt32 <<< 8) ||| (x₂.toUInt32 <<< 16) ||| (x₃.toUInt32 <<< 24) =
      Wire.ofLeBytes x₀ x₁ x₂ x₃ := by
  have h₀ := x₀.toNat_lt
  have h₁ := x₁.toNat_lt
  have h₂ := x₂.toNat_lt
  have h₃ := x₃.toNat_lt
  have hor : ∀ low high i : ℕ, low < 2 ^ i → low ||| high * 2 ^ i = low + high * 2 ^ i := by
    intro low high i hlow
    rw [Nat.or_comm, Nat.mul_comm high, ← Nat.two_pow_add_eq_or_of_lt hlow, Nat.add_comm]
  apply UInt32.toNat_inj.mp
  simp only [Wire.ofLeBytes, UInt32.toNat_ofNat', UInt32.toNat_or, UInt32.toNat_shiftLeft,
    UInt8.toNat_toUInt32, Nat.shiftLeft_eq,
    UInt32.reduceToNat, Nat.reduceMod]
  rw [Nat.mod_eq_of_lt (a := x₁.toNat * 2 ^ 8) (by omega), Nat.mod_eq_of_lt (a := x₂.toNat * 2 ^ 16) (by omega),
    Nat.mod_eq_of_lt (a := x₃.toNat * 2 ^ 24) (by omega), hor _ x₁.toNat 8 (by omega),
    hor _ x₂.toNat 16 (by omega), hor _ x₃.toNat 24 (by omega)]
  exact (Nat.mod_eq_of_lt (by omega)).symm

theorem inert_u8 : Inert ovcAuthU8 := Inert.take (Inert.pure 0)

theorem follows_u8 : Follows m ovcAuthU8 Cursor.u8 Eq := by
  rw [Cursor.u8, byte_eq]
  refine Follows.take (Inert.pure 0) fun b behind hlength => ?_
  obtain ⟨x, rfl⟩ := List.length_eq_one_iff.mp hlength
  exact Follows.pure rfl

theorem inert_u32 : Inert ovcAuthU32 := Inert.take (Inert.pure 0)

theorem follows_u32 : Follows m ovcAuthU32 Cursor.u32 Eq := by
  rw [Cursor.u32, word_eq]
  refine Follows.take (Inert.pure 0) fun b behind hlength => ?_
  match b, hlength with
  | [x₀, x₁, x₂, x₃], _ => exact Follows.pure (shifted_eq_ofLeBytes x₀ x₁ x₂ x₃)

theorem inert_i32 : Inert ovcAuthI32 := inert_u32.bind fun _ => Inert.isOk (Inert.pure 0)

theorem follows_i32 : Follows m ovcAuthI32 Cursor.i32 Eq := by
  rw [Cursor.i32, ← bind_pure_comp]
  refine follows_u32.bind (fun _ => Inert.isOk (Inert.pure 0)) ?_
  rintro bits _ rfl
  exact Follows.isOk (Follows.pure rfl)

/-- The pointer and the length of a byte string. -/
def PointsAt (p : Ptr × ℕ) (b : Bytes) : Prop := b.length = p.2 ∧ ∃ behind, p.1 = some (b ++ behind)

theorem inert_bytes : Inert ovcAuthBytes := inert_u32.bind fun _ => Inert.isOk (Inert.pure _)

theorem follows_bytes : Follows m ovcAuthBytes Cursor.bytes PointsAt := by
  refine follows_u32.bind (fun _ => Inert.isOk (Inert.pure _)) ?_
  rintro len _ rfl
  refine Follows.isOk ?_
  rw [← bind_pure (Wire.take .Truncated len.toNat : Cursor Bytes)]
  exact Follows.take (Inert.pure _) fun b behind hlength => Follows.pure ⟨hlength, behind, rfl⟩

theorem copyBytes_append (b behind : Bytes) :
    ovcAuthCopyBytes (some (b ++ behind)) b.length = (pure b : OvcAuth Bytes) := by
  by_cases hb : b = []
  · simp [ovcAuthCopyBytes, hb]
  · have hlength : b.length ≠ 0 := by simpa using hb
    have hcopy : Ptr.memcpy (some (b ++ behind)) b.length = some b := by simp [Ptr.memcpy]
    rw [ovcAuthCopyBytes, if_pos hlength, hcopy]
    rfl

/-- The strings that are accepted are the strings of Rust. -/
theorem fromUTF8?_eq (b : Bytes) : (∃ s, String.fromUTF8? ⟨b.toArray⟩ = some s ∧ utf8 s = b ∧ Utf8.WellFormed b) ∨
    String.fromUTF8? ⟨b.toArray⟩ = none ∧ ¬Utf8.WellFormed b := by
  by_cases hwell : Utf8.WellFormed b
  · have hvalid := Utf8.wellFormed_iff_isValidUTF8.mp hwell
    have hsome : String.fromUTF8? ⟨b.toArray⟩ = some (String.fromUTF8 ⟨b.toArray⟩ hvalid) := dif_pos hvalid
    exact .inl ⟨_, hsome, (fromUTF8?_eq_some_iff.mp hsome).symm, hwell⟩
  · exact .inr ⟨dif_neg fun hvalid => hwell (Utf8.wellFormed_iff_isValidUTF8.mpr hvalid), hwell⟩

theorem follows_copyString : Follows m ovcAuthCopyString Cursor.string fun a s => a = utf8 s := by
  refine follows_bytes.bind (fun _ => Inert.isOk (Inert.pure _)) ?_
  rintro ⟨_, _⟩ b ⟨rfl, behind, rfl⟩
  refine Follows.isOk ?_
  have hvalid : ovcUtf8IsValid (some (b ++ behind)) b.length = some (decide (Utf8.WellFormed b)) := by
    simpa using ovcUtf8IsValid_eq (m := b ++ behind) (by simp : b.length ≤ (b ++ behind).length)
  refine Follows.lift hvalid ?_
  rcases fromUTF8?_eq b with ⟨s, hs, hutf8, hwell⟩ | ⟨hs, hwell⟩
  · simp only [hs, hwell, decide_true, Bool.not_true, copyBytes_append]
    exact Follows.pure hutf8.symm
  · simp only [hs, hwell, decide_false, Bool.not_false]
    exact Follows.setError ⟨nofun, nofun⟩ nofun

end Reads

/-! ### What a caller reads -/

/-- The value that is present. -/
def COptionalBytes.view (o : COptionalBytes) : Option Bytes := if o.present then some o.value else none

/-- The payload that the tag selects is the transport. -/
def CTransport.Agrees (c : CTransport) : Transport → Prop
  | .Tcp peerAddr tlsClientCert =>
    c.tag = .Tcp ∧ c.tcp.peerAddr = utf8 peerAddr ∧ c.tcp.tlsClientCert.view = tlsClientCert
  | .Uds uid gid pid => c.tag = .Uds ∧ c.uds = ⟨uid, gid, pid⟩
  | .NamedPipe sid pid => c.tag = .NamedPipe ∧ c.namedPipe = ⟨utf8 sid, pid⟩

def CForwardedHeader.of (header : String × String) : CForwardedHeader := ⟨utf8 header.1, utf8 header.2⟩

/-- The list holds the headers, and is empty where there are none. -/
def CForwardedHeaders.Agrees (c : CForwardedHeaders) (forwarded : Option ForwardedHeaders) : Prop :=
  ∃ ptr, c.ptr = some ptr ∧ c.len ≤ ptr.length ∧ match forwarded with
    | some headers => c.len ≠ 0 ∧ ptr.take c.len = headers.values.map .of
    | none => c.len = 0

/-- The credentials are equal, field by field. -/
structure CAuthCredential.Agrees (c : CAuthCredential) (r : AuthCredential) : Prop where
  bearer : c.bearer.view = r.bearer
  transport : c.transport.Agrees r.transport
  forwarded : c.forwardedHeaders.Agrees r.forwarded

/-! ### The fields -/

section Fields

variable {m : Bytes}

theorem inert_optionalBytes : Inert ovcAuthOptionalBytes := inert_bytes.bind fun _ => Inert.isOk (Inert.pure _)

theorem follows_optionalBytes : Follows m ovcAuthOptionalBytes Cursor.optBytes fun c o => c.view = o := by
  refine follows_bytes.bind (fun _ => Inert.isOk (Inert.pure _)) ?_
  rintro ⟨_, _⟩ b ⟨rfl, behind, rfl⟩
  refine Follows.isOk ?_
  cases b with
  | nil => exact Follows.pure rfl
  | cons x b =>
    simp only [copyBytes_append]
    exact Follows.pure rfl

theorem inert_transport : Inert ovcAuthTransport := inert_u8.bind fun _ => Inert.isOk (Inert.pure _)

theorem follows_transport : Follows m ovcAuthTransport Cursor.transport CTransport.Agrees := by
  refine follows_u8.bind (fun _ => Inert.isOk (Inert.pure _)) ?_
  rintro tag _ rfl
  refine Follows.isOk ?_
  simp only [if_true, ovcAuthTransportOf]
  split_ifs with h₀ h₁ h₂
  · refine follows_copyString.bind (fun _ => inert_optionalBytes.bind fun _ => Inert.pure _) ?_
    rintro _ peerAddr rfl
    refine follows_optionalBytes.bind (fun _ => Inert.pure _) ?_
    rintro cert _ rfl
    exact Follows.pure ⟨rfl, rfl, rfl⟩
  · refine follows_u32.bind (fun _ => inert_u32.bind fun _ => inert_i32.bind fun _ => Inert.pure _) ?_
    rintro uid _ rfl
    refine follows_u32.bind (fun _ => inert_i32.bind fun _ => Inert.pure _) ?_
    rintro gid _ rfl
    refine follows_i32.bind (fun _ => Inert.pure _) ?_
    rintro pid _ rfl
    exact Follows.pure ⟨rfl, rfl⟩
  · refine follows_copyString.bind (fun _ => inert_u32.bind fun _ => Inert.pure _) ?_
    rintro _ sid rfl
    refine follows_u32.bind (fun _ => Inert.pure _) ?_
    rintro pid _ rfl
    exact Follows.pure ⟨rfl, rfl⟩
  · exact Follows.setError ⟨nofun, nofun⟩ nofun

/-! ### The headers -/

theorem inert_headers (turns index : ℕ) (headers : CForwardedHeaders) : Inert (ovcAuthHeaders turns index headers) := by
  cases turns with
  | zero => exact Inert.pure _
  | succ turns => exact Inert.isOk (Inert.pure _)

variable {l : List CForwardedHeader}

theorem write_eq {len index : ℕ} (f : CForwardedHeader → CForwardedHeader) (h : index < l.length) :
    CForwardedHeaders.write ⟨some l, len⟩ index f = some ⟨some (l.set index (f l[index])), len⟩ := by
  simp [CForwardedHeaders.write, h]

/-- A turn reads a header into its place, and leaves those before it. -/
theorem follows_headers {turns index : ℕ} (hlength : l.length = index + turns) :
    Follows m (ovcAuthHeaders turns index ⟨some l, index⟩) (Wire.times Cursor.header turns) fun c values =>
      values.length = turns ∧ c = ⟨some (l.take index ++ values.map .of), index + turns⟩ := by
  induction turns generalizing index l with
  | zero =>
    obtain rfl : l.length = index := hlength
    exact Follows.pure ⟨rfl, by simp⟩
  | succ turns ih =>
    have hlt : index < l.length := by omega
    simp only [Wire.times, Cursor.header, bind_assoc, pure_bind]
    refine Follows.isOk ?_
    simp only [Bool.not_true, Bool.false_eq_true, if_false]
    refine follows_copyString.bind (fun name => Inert.lift (write_eq _ hlt) (Inert.isOk (inert_headers _ _ _))) ?_
    rintro _ name rfl
    refine Follows.lift (write_eq _ hlt) (Follows.isOk ?_)
    simp only [if_true]
    have hlt' : index < (l.set index { l[index] with name := utf8 name }).length := by simpa using hlt
    refine follows_copyString.bind (fun value => Inert.lift (write_eq _ hlt') (inert_headers _ _ _)) ?_
    rintro _ value rfl
    refine Follows.lift (write_eq _ hlt') ?_
    rw [← bind_pure (ovcAuthHeaders _ _ _)]
    refine (ih (l := _) ?_).bind (fun _ => Inert.pure _) ?_
    · simp
      omega
    · rintro _ values ⟨hvalues, rfl⟩
      refine Follows.pure ⟨by simp [hvalues], ?_⟩
      have htake : ∀ header, (l.set index header).take (index + 1) = l.take index ++ [header] := by
        intro header
        rw [List.set_eq_take_append_cons_drop, if_pos hlt, List.append_cons]
        exact List.take_left' (by simp; omega)
      have hname : (l.set index { l[index] with name := utf8 name })[index].name = utf8 name := by simp
      rw [List.set_set, htake, hname]
      simp [CForwardedHeader.of, Nat.add_right_comm, Nat.add_assoc]

/-! ### The tail and the whole -/

/-- A header takes the two lengths at least. -/
theorem length_of_times {n : ℕ} {b rest : Bytes} {values : List (String × String)}
    (h : Wire.times Cursor.header n b = .ok (values, rest)) : 8 * n ≤ b.length := by
  obtain ⟨w, ⟨hlength, heach⟩, rfl⟩ := (Cursor.reads_header.times n _ _ _).mp h
  obtain ⟨-, rfl⟩ := (Wire.each_iff (fun _ _ => Iff.rfl) values w).mp heach
  have hflat : 8 * values.length ≤ (values.flatMap putHeader).length := by
    clear hlength heach h
    induction values with
    | nil => simp
    | cons v values ih =>
      simp only [List.length_cons, List.flatMap_cons, List.length_append, putHeader, Wire.putBytes, Wire.length_leBytes]
      omega
  rw [List.length_append]
  omega

theorem inert_bound (count : UInt32) : Inert (ovcAuthBound count) := by
  intro cursor herror
  refine ⟨(), ?_⟩
  show (if _ then _ else _ : OvcAuth Unit) cursor = _
  rw [if_neg fun h => herror h.1]
  rfl

theorem ovcAuthBound_of (m : Bytes) (pos : ℕ) (count : UInt32) : ovcAuthBound count (.of m pos) =
    some ((), if (m.length - pos) / 8 < count.toNat then { OvcAuthCursor.of m pos with error := .TRUNCATED }
      else .of m pos) := by
  show (if OvcAuthDecodeError.OK = .OK ∧ (m.length - pos) / 8 < count.toNat then _ else _ : OvcAuth Unit) _ = _
  simp only [true_and]
  split_ifs <;> rfl

/-- The list before the sentinel. -/
def CForwardedHeaders.of : Option ForwardedHeaders → CForwardedHeaders
  | some headers => ⟨some (headers.values.map .of), headers.values.length⟩
  | none => .zero

/-- Without a bound that fails, the loop reads what `times` reads. -/
theorem follows_counted (count : UInt32) :
    Follows m (isOk >>= fun ok => if (ok && decide (count ≠ 0)) = true then
        if SIZE_MAX / SIZEOF_FORWARDED_HEADER < count.toNat then setError .TRUNCATED >>= fun _ =>
          ovcAuthHeaders count.toNat 0 .zero
        else ovcAuthHeaders count.toNat 0 ⟨some (List.replicate count.toNat .zero), 0⟩
      else ovcAuthHeaders count.toNat 0 .zero)
      (Wire.times Cursor.header count.toNat) fun c values =>
        c = .of (if values.isEmpty then none else some ⟨values⟩) := by
  refine Follows.isOk ?_
  by_cases hcount : count = 0
  · subst hcount
    exact Follows.pure rfl
  · have hsize : ¬SIZE_MAX / SIZEOF_FORWARDED_HEADER < count.toNat := by
      have := count.toNat_lt
      simp only [SIZE_MAX, SIZEOF_FORWARDED_HEADER]
      omega
    have hpos : count.toNat ≠ 0 := fun h => hcount (UInt32.toNat_inj.mp h)
    simp only [hcount, ne_eq, not_false_eq_true, decide_true, Bool.and_self, if_true, hsize, if_false]
    refine (follows_headers (by simp)).mono ?_
    rintro c values ⟨hlength, rfl⟩
    cases values with
    | nil => exact absurd hlength.symm hpos
    | cons value values => simp [CForwardedHeaders.of, ← hlength]

theorem inert_counted (count : UInt32) : Inert (isOk >>= fun ok => if (ok && decide (count ≠ 0)) = true then
      if SIZE_MAX / SIZEOF_FORWARDED_HEADER < count.toNat then setError .TRUNCATED >>= fun _ =>
        ovcAuthHeaders count.toNat 0 .zero
      else ovcAuthHeaders count.toNat 0 ⟨some (List.replicate count.toNat .zero), 0⟩
    else ovcAuthHeaders count.toNat 0 .zero) :=
  Inert.isOk (inert_headers _ _ _)

/-- A count above the bound is one that the Rust code runs out of bytes for. -/
theorem follows_bounded (count : UInt32) {x : OvcAuth CForwardedHeaders}
    {R : CForwardedHeaders → List (String × String) → Prop} (hinert : Inert x)
    (hx : Follows m x (Wire.times Cursor.header count.toNat) R) :
    Follows m (ovcAuthBound count >>= fun _ => x) (Wire.times Cursor.header count.toNat) R := by
  intro pos hpos
  have hrun : (ovcAuthBound count >>= fun _ => x) (.of m pos) = (ovcAuthBound count (.of m pos)).bind fun p => x p.2 :=
    rfl
  have hat := hx pos hpos
  simp only [FollowsAt, hrun, ovcAuthBound_of, Option.bind_some] at hat ⊢
  by_cases hbound : (m.length - pos) / 8 < count.toNat
  · simp only [if_pos hbound]
    cases hread : Wire.times Cursor.header count.toNat (m.drop pos) with
    | ok result =>
      have hlength := length_of_times hread
      rw [List.length_drop] at hlength
      omega
    | error e =>
      rw [hread] at hat
      obtain ⟨c, hc⟩ := hinert { OvcAuthCursor.of m pos with error := .TRUNCATED } nofun
      exact ⟨hat.1, c, _, hc, nofun, nofun⟩
  · simpa only [if_neg hbound] using hat

theorem follows_forwarded : Follows m ovcAuthForwarded Cursor.forwarded fun c forwarded =>
    c = .of forwarded ∧ ∀ headers, forwarded = some headers → headers.values ≠ [] := by
  refine follows_u32.bind (fun count => (inert_bound count).bind fun _ => inert_counted count) ?_
  rintro count _ rfl
  refine (follows_bounded count (inert_counted count) (follows_counted count)).map ?_
  rintro c values rfl
  refine ⟨rfl, fun headers h => ?_⟩
  cases values with
  | nil => cases h
  | cons value values =>
    cases h
    exact List.cons_ne_nil value values

/-! ### The whole -/

/-- What agrees before the sentinel. -/
structure CAuthCredential.Parsed (c : CAuthCredential) (r : AuthCredential) : Prop where
  bearer : c.bearer.view = r.bearer
  transport : c.transport.Agrees r.transport
  forwarded : c.forwardedHeaders = .of r.forwarded
  nonempty : ∀ headers, r.forwarded = some headers → headers.values ≠ []

theorem follows_credential (version : UInt8) :
    Follows m (ovcAuthCredential version) (Cursor.credential version) CAuthCredential.Parsed := by
  refine follows_optionalBytes.bind
    (fun _ => inert_transport.bind fun _ => Inert.isOk ((Inert.pure _).bind fun _ => Inert.pure _)) ?_
  rintro bearer _ rfl
  refine follows_transport.bind (fun _ => Inert.isOk ((Inert.pure _).bind fun _ => Inert.pure _)) ?_
  rintro transport transport' htransport
  refine Follows.isOk ?_
  by_cases hversion : version = AUTH_CREDENTIAL_WIRE_VERSION
  · simp only [hversion, decide_true, Bool.and_self, if_true]
    refine follows_forwarded.bind (fun _ => Inert.pure _) ?_
    rintro _ forwarded ⟨rfl, hnonempty⟩
    exact Follows.pure ⟨rfl, htransport, rfl, hnonempty⟩
  · simp only [hversion, decide_false, Bool.and_false, Bool.false_eq_true, if_false]
    exact Follows.pure ⟨rfl, htransport, rfl, nofun⟩

theorem inert_trailing : Inert ovcAuthTrailing := by
  intro cursor herror
  refine ⟨(), ?_⟩
  show (if _ then _ else _ : OvcAuth Unit) cursor = _
  rw [if_neg fun h => herror h.1]
  rfl

theorem ovcAuthTrailing_of (m : Bytes) (pos : ℕ) : ovcAuthTrailing (.of m pos) =
    some ((), if pos ≠ m.length then { OvcAuthCursor.of m pos with error := .TRAILING_DATA } else .of m pos) := by
  show (if OvcAuthDecodeError.OK = .OK ∧ pos ≠ m.length then _ else _ : OvcAuth Unit) _ = _
  simp only [true_and]
  split_ifs <;> rfl

/-- An empty list gets its sentinel, and then reads as none. -/
theorem CAuthCredential.Parsed.agrees {c : CAuthCredential} {r : AuthCredential} (h : c.Parsed r) :
    CAuthCredential.Agrees { c with forwardedHeaders :=
      if c.forwardedHeaders.ptr.isNone then { c.forwardedHeaders with ptr := some [.zero] }
      else c.forwardedHeaders } r where
  bearer := h.bearer
  transport := h.transport
  forwarded := by
    have hnonempty := h.nonempty
    rw [h.forwarded]
    cases hf : r.forwarded with
    | none => exact ⟨_, rfl, Nat.zero_le _, rfl⟩
    | some headers =>
      refine ⟨headers.values.map .of, rfl, by simp [CForwardedHeaders.of], ?_, ?_⟩
      · simpa [CForwardedHeaders.of] using hnonempty headers hf
      · simp [CForwardedHeaders.of]

end Fields

/-- What the C decoder returns, by what the Rust decoder returns. -/
def DecodeAgrees (result : Option CDecoded) : Except DecodeError AuthCredential → Prop
  | .ok r => ∃ c, result = some ⟨.OK, some c, none⟩ ∧ c.Agrees r
  | .error e => ∃ message, result =
      some ⟨.ERR, none, some ⟨if e = .UnsupportedVersion then .IncompatibleType else .InvalidArgument, message⟩⟩

theorem ovcAuthFail_agrees {e : DecodeError} {error : OvcAuthDecodeError} (he : e ≠ .UnsupportedVersion)
    (herror : error.Invalid) :
    DecodeAgrees (some (ovcAuthFail true error)) (.error e) :=
  ⟨ovcAuthDecodeErrorMessage error, by simp [ovcAuthFail, he, herror.2]⟩

/-- What is behind a supported version. -/
theorem behind_agrees {m : Bytes} (version : UInt8) {pos : ℕ} (hpos : pos ≤ m.length) :
    DecodeAgrees (do
      let (credential, cursor) ← ovcAuthCredential version (.of m pos)
      let (_, cursor) ← ovcAuthTrailing cursor
      if cursor.error ≠ .OK then return ovcAuthFail true cursor.error
      let headers := credential.forwardedHeaders
      let headers := if headers.ptr.isNone then { headers with ptr := some [.zero] } else headers
      return ⟨.OK, some { credential with forwardedHeaders := headers }, none⟩)
    (match Cursor.credential version (m.drop pos) with
      | .ok (c, rest) => if rest.isEmpty then .ok c else .error .TrailingData
      | .error error => .error error) := by
  have hat := follows_credential (m := m) version pos hpos
  simp only [FollowsAt] at hat
  cases hread : Cursor.credential version (m.drop pos) with
  | ok result =>
    obtain ⟨r, rest⟩ := result
    rw [hread] at hat
    obtain ⟨c, pos', hrun, hle, rfl, hparsed⟩ := hat
    simp only [hrun, Option.bind_eq_bind, Option.bind_some, ovcAuthTrailing_of]
    by_cases hend : pos' = m.length
    · subst hend
      have hempty : (m.drop m.length).isEmpty = true := by simp
      rw [if_pos hempty]
      simp only [ne_eq, not_true_eq_false, if_false]
      exact ⟨_, rfl, hparsed.agrees⟩
    · have hempty : (m.drop pos').isEmpty = false := by simp; omega
      simp only [hempty, Bool.false_eq_true, if_false, ne_eq, hend, not_false_eq_true, if_true]
      exact ovcAuthFail_agrees nofun ⟨nofun, nofun⟩
  | error e =>
    rw [hread] at hat
    obtain ⟨he, c, cursor, hrun, herror⟩ := hat
    obtain ⟨_, htrailing⟩ := inert_trailing cursor herror.1
    simp only [hrun, Option.bind_eq_bind, Option.bind_some, htrailing, ne_eq, herror.1, not_false_eq_true, if_true]
    exact ovcAuthFail_agrees he herror

/-- What the Rust decoder makes of a buffer. -/
def decodedBehind (b : Bytes) : Except DecodeError AuthCredential :=
  match Cursor.u8 b with
  | .ok (version, rest) =>
    if version = LEGACY_AUTH_CREDENTIAL_WIRE_VERSION ∨ version = AUTH_CREDENTIAL_WIRE_VERSION then
      match Cursor.credential version rest with
      | .ok (c, rest) => if rest.isEmpty then .ok c else .error .TrailingData
      | .error error => .error error
    else .error .UnsupportedVersion
  | .error error => .error error

theorem decode_eq (b : Bytes) : AuthCredential.decode b = decodedBehind b := by
  rw [AuthCredential.decode, Cursor.versioned, Cursor.bind_apply, decodedBehind]
  cases Cursor.u8 b with
  | error e => rfl
  | ok result =>
    simp only []
    split_ifs <;> rfl

/-- What the C decoder makes of a buffer, behind the checks of its arguments. -/
def ovcAuthBehindArguments (b : Bytes) : Option CDecoded := do
  let (version, cursor) ← ovcAuthU8 (.of b 0)
  if cursor.error ≠ .OK then return ovcAuthFail true cursor.error
  if version ≠ 1 ∧ version ≠ AUTH_CREDENTIAL_WIRE_VERSION then return ovcAuthFail true .UNSUPPORTED_VERSION
  let (credential, cursor) ← ovcAuthCredential version cursor
  let (_, cursor) ← ovcAuthTrailing cursor
  if cursor.error ≠ .OK then return ovcAuthFail true cursor.error
  let headers := credential.forwardedHeaders
  let headers := if headers.ptr.isNone then { headers with ptr := some [.zero] } else headers
  return ⟨.OK, some { credential with forwardedHeaders := headers }, none⟩

theorem decode_agrees (b : Bytes) :
    DecodeAgrees (ovstoragePluginAuthCredentialDecode (some b) b.length true true) (AuthCredential.decode b) := by
  have hat := follows_u8 (m := b) 0 (Nat.zero_le _)
  simp only [FollowsAt, List.drop_zero] at hat
  rw [decode_eq, show ovstoragePluginAuthCredentialDecode (some b) b.length true true =
    ovcAuthBehindArguments b from rfl]
  unfold decodedBehind ovcAuthBehindArguments
  cases hread : Cursor.u8 b with
  | ok result =>
    obtain ⟨version, rest⟩ := result
    rw [hread] at hat
    obtain ⟨version', pos, hrun, hle, rfl, hversion⟩ := hat
    subst hversion
    simp only [hrun, Option.bind_eq_bind, Option.bind_some]
    by_cases hversion : version' = LEGACY_AUTH_CREDENTIAL_WIRE_VERSION ∨ version' = AUTH_CREDENTIAL_WIRE_VERSION
    · have hnot : ¬(version' ≠ 1 ∧ version' ≠ AUTH_CREDENTIAL_WIRE_VERSION) := fun h => hversion.elim h.1 h.2
      rw [if_pos hversion, if_neg hnot]
      exact behind_agrees version' hle
    · have hnot : version' ≠ 1 ∧ version' ≠ AUTH_CREDENTIAL_WIRE_VERSION := not_or.mp hversion
      rw [if_neg hversion, if_pos hnot]
      exact ⟨_, rfl⟩
  | error e =>
    rw [hread] at hat
    obtain ⟨he, version, cursor, hrun, herror⟩ := hat
    simp only [hrun, Option.bind_eq_bind, Option.bind_some, ne_eq, herror.1, not_false_eq_true, if_true]
    exact ovcAuthFail_agrees he herror

/-- Every buffer is decoded alike, without a read behind it, and so is every string validated. -/
theorem decoders_agree :
    (∀ b, DecodeAgrees (ovstoragePluginAuthCredentialDecode (some b) b.length true true) (AuthCredential.decode b)) ∧
    DecodeAgrees (ovstoragePluginAuthCredentialDecode none 0 true true) (AuthCredential.decode []) ∧
    (∀ b, ovcUtf8IsValid (some b) b.length = some (decide (ByteArray.IsValidUTF8 ⟨b.toArray⟩))) ∧
    ovcUtf8IsValid none 0 = some (decide (ByteArray.IsValidUTF8 ⟨#[]⟩)) := by
  refine ⟨decode_agrees, ⟨_, rfl⟩, fun b => ?_, by decide⟩
  rw [ovcUtf8IsValid_eq le_rfl, List.take_length]
  exact congrArg some (decide_eq_decide.mpr Utf8.wellFormed_iff_isValidUTF8)

/-- A surrogate is not valid. -/
example : ovcUtf8IsValid (some [0x61, 0xed, 0xa0, 0x80]) 4 = some false := by decide

end OvStorage.Authz
