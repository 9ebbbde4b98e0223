import Mathlib.Data.Set.Function
import OvStorage.Address.Percent
import OvStorage.Lib.Wire

/-!
# Sealed continuations

`ovstorage-broker/src/continuation_seal.rs`: a client is handed a plugin's continuation only in an envelope that
the broker has authenticated for one address. The MAC is a parameter, a function of the key and of the message;
that it has no collision is assumed of the messages that a statement is about.
-/

namespace OvStorage.Broker

open List

open Address (Bytes utf8)
open Wire (field field_append_inj)

/-- A byte string in memory, so that its length is a `u64`. -/
abbrev InMemory := {bytes : Bytes // bytes.length < 2 ^ 64}

/-- `MAC_LEN`. -/
def macLen : ℕ := 32

/-- What the MAC comes to, `MAC_LEN` bytes. -/
abbrev Digest := {bytes : Bytes // bytes.length = macLen}

/-- `ContinuationSealKey`. -/
abbrev ContinuationSealKey := {bytes : Bytes // bytes.length = 32}

/-- `ContinuationSealKey::from_bytes`. -/
def ContinuationSealKey.fromBytes (bytes : Bytes) : Except String ContinuationSealKey :=
  if h : bytes.length < 32 then .error "continuation seal key must contain at least 32 bytes"
  else .ok ⟨bytes.take 32, by rw [length_take]; omega⟩

/-- `CONTINUATION_SEAL_TAG`. -/
def continuationSealTag : InMemory := ⟨utf8 "ovstorage-broker:continuation-seal:1", by decide +kernel⟩

/-- `CONTINUATION_SEAL_HEADER_LEN`. -/
def continuationSealHeaderLen : ℕ := continuationSealTag.val.length + macLen

/-- `ContinuationSealRefusal`. -/
inductive ContinuationSealRefusal
  | malformed
  | tag
  | mac
deriving DecidableEq

/-- `WriteRedirectBatch`: the redirects are not looked at. -/
structure WriteRedirectBatch (ρ : Type) where
  continuation : Bytes
  redirects : List ρ
deriving DecidableEq

/-- What `mac_for_tag` authenticates: `address` is the text of the URL. -/
def macInput (tag address : InMemory) (inner : Bytes) : Bytes := field tag.val ++ field address.val ++ inner

section Seal

variable {ρ : Type} (hmac : ContinuationSealKey → Bytes → Digest)

/-- `mac_for_tag`. -/
def macForTag (key : ContinuationSealKey) (tag address : InMemory) (inner : Bytes) : Digest :=
  hmac key (macInput tag address inner)

/-- `mac_for`. -/
def macFor (key : ContinuationSealKey) (address : InMemory) (inner : Bytes) : Digest :=
  macForTag hmac key continuationSealTag address inner

/-- `seal_batch`. -/
def sealBatch (key : ContinuationSealKey) (address : InMemory) (batch : WriteRedirectBatch ρ) : WriteRedirectBatch ρ :=
  let mac := macFor hmac key address batch.continuation
  { batch with continuation := continuationSealTag.val ++ mac.val ++ batch.continuation }

/-- `unseal_batch_with_reason`. -/
def unsealBatchWithReason (key : ContinuationSealKey) (address : InMemory) (batch : WriteRedirectBatch ρ) :
    Except ContinuationSealRefusal (WriteRedirectBatch ρ) :=
  if batch.continuation.length < continuationSealHeaderLen then .error .malformed
  else
    let tagLen := continuationSealTag.val.length
    if batch.continuation.take tagLen ≠ continuationSealTag.val then .error .tag
    else
      let suppliedMac := (batch.continuation.take continuationSealHeaderLen).drop tagLen
      let inner := batch.continuation.drop continuationSealHeaderLen
      if (macFor hmac key address inner).val ≠ suppliedMac then .error .mac
      else .ok { batch with continuation := inner }

/-- An envelope under any header, with a MAC for any tag. -/
def envelope (header : Bytes) (tag : InMemory) (key : ContinuationSealKey) (address : InMemory)
    (batch : WriteRedirectBatch ρ) :
    WriteRedirectBatch ρ :=
  { batch with continuation := header ++ (macForTag hmac key tag address batch.continuation).val ++ batch.continuation }

variable {hmac} {key key' : ContinuationSealKey} {address address' tag tag' : InMemory}
  {batch batch' sealed : WriteRedirectBatch ρ}
  {header inner inner' : Bytes}

/-! ### The message -/

/-- No two triples share a message. -/
theorem macInput_injective (h : macInput tag address inner = macInput tag' address' inner') :
    tag = tag' ∧ address = address' ∧ inner = inner' := by
  unfold macInput at h
  rw [append_assoc, append_assoc] at h
  obtain ⟨htag, h⟩ := field_append_inj tag.prop tag'.prop h
  obtain ⟨haddress, hinner⟩ := field_append_inj address.prop address'.prop h
  exact ⟨Subtype.ext htag, Subtype.ext haddress, hinner⟩

/-! ### Opening -/

/-- The three fields of what is long enough for the first two. -/
theorem exists_fields {c : Bytes} (h : continuationSealHeaderLen ≤ c.length) :
    ∃ (header : Bytes) (mac : Digest) (inner : Bytes),
      c = header ++ mac.val ++ inner ∧ header.length = continuationSealTag.val.length := by
  unfold continuationSealHeaderLen at h
  refine ⟨c.take continuationSealTag.val.length, ⟨(c.drop continuationSealTag.val.length).take macLen, ?_⟩,
    (c.drop continuationSealTag.val.length).drop macLen, ?_, ?_⟩
  · rw [length_take, length_drop]
    omega
  · rw [append_assoc, take_append_drop, take_append_drop]
  · rw [length_take]
    omega

/-- What is done with the three fields. -/
theorem unsealBatchWithReason_fields {mac : Digest} (h : sealed.continuation = header ++ mac.val ++ inner)
    (hheader : header.length = continuationSealTag.val.length) :
    unsealBatchWithReason hmac key address sealed =
      if header ≠ continuationSealTag.val then .error .tag
      else if macFor hmac key address inner ≠ mac then .error .mac
      else .ok { sealed with continuation := inner } := by
  have hmac_length := mac.prop
  have hfront : (header ++ mac.val).length = continuationSealHeaderLen := by
    rw [length_append, hheader, hmac_length, continuationSealHeaderLen]
  have hlength : ¬ sealed.continuation.length < continuationSealHeaderLen := by
    rw [h, length_append, hfront]
    omega
  have htag : sealed.continuation.take continuationSealTag.val.length = header := by
    rw [h, append_assoc, ← hheader, take_left]
  have hsupplied :
      (sealed.continuation.take continuationSealHeaderLen).drop continuationSealTag.val.length = mac.val := by
    rw [h, ← hfront, take_left, ← hheader, drop_left]
  have hinner : sealed.continuation.drop continuationSealHeaderLen = inner := by
    rw [h, ← hfront, drop_left]
  unfold unsealBatchWithReason
  rw [if_neg hlength]
  simp only [htag, hsupplied, hinner, ne_eq, Subtype.ext_iff]

theorem unsealBatchWithReason_short (h : sealed.continuation.length < continuationSealHeaderLen) :
    unsealBatchWithReason hmac key address sealed = .error .malformed := if_pos h

/-- An envelope opens to a batch just where it is the batch's seal. -/
theorem unsealBatchWithReason_eq_ok :
    unsealBatchWithReason hmac key address sealed = .ok batch ↔ sealed = sealBatch hmac key address batch := by
  constructor
  · intro h
    by_cases hlength : sealed.continuation.length < continuationSealHeaderLen
    · rw [unsealBatchWithReason_short hlength] at h
      cases h
    · obtain ⟨header, mac, inner, hfields, hheader⟩ := exists_fields (Nat.not_lt.mp hlength)
      rw [unsealBatchWithReason_fields hfields hheader] at h
      split_ifs at h with htag hright
      rw [ne_eq, not_not] at htag hright
      cases h
      rw [htag, ← hright] at hfields
      unfold sealBatch
      simp only [← hfields]
  · rintro rfl
    rw [unsealBatchWithReason_fields rfl rfl, if_neg (not_not.mpr rfl), if_neg (not_not.mpr rfl)]
    rfl

/-- An envelope is opened with another header, another tag, another key or another address only if two messages have one
MAC. -/
theorem collision_of_opens
    (hheader : header <+: continuationSealTag.val ∨ continuationSealTag.val <+: header →
      header = continuationSealTag.val)
    (h : unsealBatchWithReason hmac key address (envelope hmac header tag key' address' batch) = .ok batch') :
    header = continuationSealTag.val ∧ batch' = batch ∧
      hmac key' (macInput tag address' batch.continuation) =
        hmac key (macInput continuationSealTag address batch.continuation) := by
  have hsealed := unsealBatchWithReason_eq_ok.mp h
  have hcontinuation := congrArg WriteRedirectBatch.continuation hsealed
  have hredirects := congrArg WriteRedirectBatch.redirects hsealed
  change batch.redirects = batch'.redirects at hredirects
  simp only [envelope, sealBatch, append_assoc] at hcontinuation
  have hboth : header <+: continuationSealTag.val ∨ continuationSealTag.val <+: header :=
    prefix_or_prefix_of_prefix ⟨_, hcontinuation⟩ ⟨_, rfl⟩
  obtain rfl := hheader hboth
  have hrest := append_cancel_left hcontinuation
  obtain ⟨hmacs, hinner⟩ := append_inj hrest (by rw [(macForTag _ _ _ _ _).prop, (macFor _ _ _ _).prop])
  obtain ⟨inner, redirects⟩ := batch
  obtain ⟨inner', redirects'⟩ := batch'
  simp only at hinner hredirects
  subst hinner hredirects
  exact ⟨rfl, rfl, Subtype.ext hmacs⟩

/-- The message whose MAC is compared when an envelope is to be opened. -/
def checked (key : ContinuationSealKey) (address : InMemory) (sealed : WriteRedirectBatch ρ) :
    ContinuationSealKey × Bytes :=
  (key, macInput continuationSealTag address (sealed.continuation.drop continuationSealHeaderLen))

theorem length_header (mac : Digest) : (continuationSealTag.val ++ mac.val).length = continuationSealHeaderLen := by
  have hlength := mac.prop
  rw [length_append, hlength, continuationSealHeaderLen]

theorem take_sealBatch : (sealBatch hmac key address batch).continuation.take continuationSealHeaderLen =
    continuationSealTag.val ++ (macFor hmac key address batch.continuation).val := by
  rw [← length_header (macFor hmac key address batch.continuation)]
  exact take_left

theorem drop_sealBatch :
    (sealBatch hmac key address batch).continuation.drop continuationSealHeaderLen = batch.continuation := by
  rw [← length_header (macFor hmac key address batch.continuation)]
  exact drop_left

theorem checked_sealBatch : checked key address (sealBatch hmac key address batch) =
    (key, macInput continuationSealTag address batch.continuation) := by
  rw [checked, drop_sealBatch]

variable {messages : Set (ContinuationSealKey × Bytes)}

/-- Behind the header of a seal only what was sealed is opened. -/
theorem continuation_of_header_kept (hinj : messages.InjOn fun m => hmac m.1 m.2)
    (hseal : checked key address (sealBatch hmac key address batch) ∈ messages)
    (hsealed : checked key address sealed ∈ messages)
    (hopens : unsealBatchWithReason hmac key address sealed = .ok batch')
    (hkept : sealed.continuation.take continuationSealHeaderLen =
      (sealBatch hmac key address batch).continuation.take continuationSealHeaderLen) :
    batch'.continuation = batch.continuation := by
  obtain rfl := unsealBatchWithReason_eq_ok.mp hopens
  rw [take_sealBatch, take_sealBatch] at hkept
  have hmacs := Subtype.ext (append_cancel_left hkept)
  rw [checked_sealBatch] at hseal hsealed
  have hmessages := hinj hsealed hseal hmacs
  exact (macInput_injective (congrArg Prod.snd hmessages)).2.2

/-- No change to a seal is opened that keeps its header, or what is behind the header, or that truncates or extends it.
-/
theorem not_opens_of_altered (hinj : messages.InjOn fun m => hmac m.1 m.2)
    (hseal : checked key address (sealBatch hmac key address batch) ∈ messages)
    (hsealed : checked key address sealed ∈ messages)
    (hne : sealed.continuation ≠ (sealBatch hmac key address batch).continuation)
    (haltered : sealed.continuation.take continuationSealHeaderLen =
        (sealBatch hmac key address batch).continuation.take continuationSealHeaderLen ∨
      sealed.continuation.drop continuationSealHeaderLen =
        (sealBatch hmac key address batch).continuation.drop continuationSealHeaderLen ∨
      sealed.continuation <+: (sealBatch hmac key address batch).continuation ∨
      (sealBatch hmac key address batch).continuation <+: sealed.continuation) :
    unsealBatchWithReason hmac key address sealed ≠ .ok batch' := by
  intro hopens
  have hlong : ∀ batch : WriteRedirectBatch ρ,
      continuationSealHeaderLen ≤ (sealBatch hmac key address batch).continuation.length := by
    intro batch
    rw [← length_header (macFor hmac key address batch.continuation), sealBatch]
    simp only [length_append]
    omega
  -- what is opened is a seal, and so at least as long as a header
  have hexact := unsealBatchWithReason_eq_ok.mp hopens
  have hsame : batch'.continuation = batch.continuation := by
    rcases haltered with hkept | hkept | hprefix | hprefix
    · exact continuation_of_header_kept hinj hseal hsealed hopens hkept
    · rwa [hexact, drop_sealBatch, drop_sealBatch] at hkept
    · refine continuation_of_header_kept hinj hseal hsealed hopens ?_
      obtain ⟨rest, hrest⟩ := hprefix
      rw [← hrest, take_append_of_le_length (hexact ▸ hlong batch')]
    · refine continuation_of_header_kept hinj hseal hsealed hopens ?_
      obtain ⟨rest, hrest⟩ := hprefix
      rw [← hrest, take_append_of_le_length (hlong batch)]
  rw [hexact] at hne
  unfold sealBatch at hne
  simp only [hsame, ne_eq, not_true_eq_false] at hne

end Seal

/-- A continuation's envelope opens only where it was sealed. On the messages that are looked at the MAC has no
collision; `header` stands where the tag of an envelope is to be, and is not the beginning of the tag or the tag with
more behind it. -/
theorem envelope_opens_where_sealed {ρ : Type} (hmac : ContinuationSealKey → Bytes → Digest)
    (messages : Set (ContinuationSealKey × Bytes)) (hinj : messages.InjOn fun m => hmac m.1 m.2) :
    (∀ key address, ∀ batch : WriteRedirectBatch ρ,
      unsealBatchWithReason hmac key address (sealBatch hmac key address batch) = .ok batch) ∧
    (∀ key address, ∀ sealed batch : WriteRedirectBatch ρ,
      unsealBatchWithReason hmac key address sealed = .ok batch ↔ sealed = sealBatch hmac key address batch) ∧
    (∀ header tag key key' address address', ∀ batch batch' : WriteRedirectBatch ρ,
      (header <+: continuationSealTag.val ∨ continuationSealTag.val <+: header → header = continuationSealTag.val) →
      (key', macInput tag address' batch.continuation) ∈ messages →
      (key, macInput continuationSealTag address batch.continuation) ∈ messages →
      unsealBatchWithReason hmac key address (envelope hmac header tag key' address' batch) = .ok batch' →
      header = continuationSealTag.val ∧ tag = continuationSealTag ∧ key' = key ∧ address' = address ∧ batch' = batch) ∧
    (∀ key address, ∀ batch sealed batch' : WriteRedirectBatch ρ,
      checked key address (sealBatch hmac key address batch) ∈ messages → checked key address sealed ∈ messages →
      sealed.continuation ≠ (sealBatch hmac key address batch).continuation →
      sealed.continuation.take continuationSealHeaderLen =
          (sealBatch hmac key address batch).continuation.take continuationSealHeaderLen ∨
        sealed.continuation.drop continuationSealHeaderLen =
          (sealBatch hmac key address batch).continuation.drop continuationSealHeaderLen ∨
        sealed.continuation <+: (sealBatch hmac key address batch).continuation ∨
        (sealBatch hmac key address batch).continuation <+: sealed.continuation →
      unsealBatchWithReason hmac key address sealed ≠ .ok batch') ∧
    ∀ tag tag' address address' inner inner', macInput tag address inner = macInput tag' address' inner' →
      tag = tag' ∧ address = address' ∧ inner = inner' := by
  refine ⟨fun _ _ _ => unsealBatchWithReason_eq_ok.mpr rfl, fun _ _ _ _ => unsealBatchWithReason_eq_ok, ?_,
    fun _ _ _ _ _ hseal hsealed hne haltered => not_opens_of_altered hinj hseal hsealed hne haltered,
    fun _ _ _ _ _ _ h => macInput_injective h⟩
  intro header tag key key' address address' batch batch' hheader hsealed hopened hopens
  obtain ⟨hheader, hbatch, hcollision⟩ := collision_of_opens hheader hopens
  have hmessages := hinj hsealed hopened hcollision
  obtain ⟨htag, haddress, -⟩ := macInput_injective (congrArg Prod.snd hmessages)
  exact ⟨hheader, htag, congrArg Prod.fst hmessages, haddress, hbatch⟩

/-- A key of the tests. -/
def testKey : ContinuationSealKey := ⟨List.replicate 32 3, rfl⟩

def authorized : InMemory := ⟨utf8 "s3://bucket/authorized", by decide +kernel⟩

def substituted : InMemory := ⟨utf8 "s3://bucket/substituted", by decide +kernel⟩

def pluginBatch : WriteRedirectBatch Unit := ⟨utf8 "plugin continuation", []⟩

/-- HMAC-SHA256 under `testKey` of the two messages. -/
def testHmac (_ : ContinuationSealKey) (message : Bytes) : Digest :=
  if message = macInput continuationSealTag authorized pluginBatch.continuation then
    ⟨[0xc2, 0x17, 0x1e, 0x5b, 0xdb, 0x29, 0x1f, 0xaa, 0xc1, 0xc2, 0xef, 0xcd, 0x05, 0xec, 0xb9, 0x22,
    0x54, 0xf3, 0x8c, 0xfb, 0x32, 0x78, 0xfe, 0xdd, 0x53, 0x3a, 0x84, 0x02, 0xdf, 0x07, 0x68, 0xd2], rfl⟩
  else
    ⟨[0x57, 0xf1, 0x0d, 0x86, 0x76, 0xab, 0xed, 0xe5, 0xf2, 0xfc, 0xe1, 0xc9, 0x40, 0xcc, 0x38, 0x61,
    0x9a, 0x1e, 0xcd, 0xbb, 0x49, 0x19, 0xa6, 0xaf, 0xb1, 0xa6, 0xa5, 0x3f, 0x2e, 0xbc, 0x5d, 0xe9], rfl⟩

theorem envelope_opens_where_sealed_substituted :
    (unsealBatchWithReason testHmac testKey substituted
      (sealBatch testHmac testKey authorized pluginBatch)).toOption = none := by
  have hdistinct : testHmac testKey (macInput continuationSealTag authorized pluginBatch.continuation) ≠
      testHmac testKey (macInput continuationSealTag substituted pluginBatch.continuation) := by decide +kernel
  let messages : Set (ContinuationSealKey × Bytes) :=
      {(testKey, macInput continuationSealTag authorized pluginBatch.continuation),
    (testKey, macInput continuationSealTag substituted pluginBatch.continuation)}
  have hinj : messages.InjOn fun m => testHmac m.1 m.2 := by
    rintro _ (rfl | rfl) _ (rfl | rfl) heq
    · rfl
    · exact absurd heq hdistinct
    · exact absurd heq.symm hdistinct
    · rfl
  cases hopens : unsealBatchWithReason testHmac testKey substituted
    (sealBatch testHmac testKey authorized pluginBatch) with
  | error reason => rfl
  | ok opened =>
    have := (envelope_opens_where_sealed testHmac messages hinj).2.2.1 continuationSealTag.val
        continuationSealTag testKey testKey
      substituted authorized pluginBatch opened (fun _ => rfl) (.inl rfl) (.inr rfl) hopens
    exact absurd this.2.2.2.1 (by decide +kernel)

end OvStorage.Broker
