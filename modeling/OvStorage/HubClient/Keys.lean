import OvStorage.Address.Url
import OvStorage.Lib.Utf8

/-!
# Hub keys

`ovstorage-hub-client/src/keys.rs`: the key that a request has in the hub's cache, with the extension of the file that
the hub keeps under it. A key is written once, so it has to name the bytes.

## The model

A text is its bytes. SHA-256 is a parameter; that it has no collision is assumed of the texts that a statement is about.
A `Request` is what `hub_key` is called with: the lengths of its texts are `u64`s, and its URL comes from the `url`
crate, which keeps to the letters of a scheme and escapes what is not ASCII.

## What is proved

* `key_names_bytes`: two requests with one key agree on the scheme and on what it names.
-/

namespace OvStorage.HubClient

open List

open Address (Bytes Url utf8 slash dot percent colon atSign question hash unescape hexUpper
  percentDecode decimal toAsciiLowercase
  forall_uint8 SPECIAL)
open SegList (splitOnce tagged append_tagged_inj)
open Wire (beBytes beBytes_inj)

/-- `b';'`. -/
abbrev semicolon : UInt8 := 0x3B

/-! ### Escapes -/

/-- `RFC3986_UNRESERVED`. -/
def RFC3986_UNRESERVED : Bytes := utf8 "ABCDEFGHIJKLMNOPQRSTUVWXYZabcdefghijklmnopqrstuvwxyz0123456789-_.~"

/-- `RFC3986_SUB_DELIMS`. -/
def RFC3986_SUB_DELIMS : Bytes := utf8 "!$&'()*+,;="

/-- `Allowed`. -/
inductive Allowed
  | Unreserved
  | Path
  | Query
  | Fragment
deriving DecidableEq

/-- `Allowed::contains`. -/
def Allowed.contains (self : Allowed) (byte : UInt8) : Bool :=
  let unreserved := RFC3986_UNRESERVED.contains byte
  let pchar := unreserved || RFC3986_SUB_DELIMS.contains byte || byte == colon || byte == atSign
  match self with
  | .Unreserved => unreserved
  | .Path => pchar || byte == slash
  | .Query | .Fragment => pchar || byte == slash || byte == question

/-- What `percent_encode` writes for a byte of data. -/
def encodeByte (allowed : Allowed) (byte : UInt8) : Bytes :=
  if allowed.contains byte then [byte] else [percent, hexUpper (byte.toNat / 16), hexUpper (byte.toNat % 16)]

/-- `percent_encode`: an escape passes through. -/
def percentEncode (allowed : Allowed) : Bytes → Bytes
  | [] => []
  | [a] => encodeByte allowed a
  | [a, b] => encodeByte allowed a ++ encodeByte allowed b
  | a :: h :: l :: rest =>
    if (unescape a h l).isSome then a :: h :: l :: percentEncode allowed rest
    else encodeByte allowed a ++ percentEncode allowed (h :: l :: rest)

/-- `decode_escapes`: an escape of a byte that `decode` accepts becomes the byte. -/
def decodeEscapes (decode : UInt8 → Bool) : Bytes → Bytes
  | [] => []
  | [a] => [a]
  | [a, b] => [a, b]
  | a :: h :: l :: rest =>
    match (unescape a h l).filter decode with
    | some v => v :: decodeEscapes decode rest
    | none => a :: decodeEscapes decode (h :: l :: rest)

/-- `String::from_utf8_lossy`: U+FFFD stands for each longest beginning of a sequence that does not go on as one. -/
def fromUtf8Lossy : Bytes → Bytes
  | [] => []
  | x :: rest =>
    match Utf8.follow x with
    | none => utf8 "\uFFFD" ++ fromUtf8Lossy rest
    | some tails =>
      let good := ((tails.zip rest).takeWhile fun p => decide (p.1.Contains p.2)).length
      (if good = tails.length then x :: rest.take good else utf8 "\uFFFD") ++ fromUtf8Lossy (rest.drop good)
termination_by b => b.length
decreasing_by all_goals simp only [length_drop, length_cons]; omega

/-! ### The path -/

/-- `truncate_last_segment`. -/
def truncateLastSegment (out : Bytes) : Bytes :=
  match splitOnce slash out.reverse with
  | some (_, front) => front.reverse
  | none => []

/-- The loop of `remove_dots`. -/
def removeDotsFrom (out : Bytes) : Bytes → Bytes
  | [] => out
  | b :: tail =>
    let rest := b :: tail
    if [dot, slash].isPrefixOf rest then removeDotsFrom out (rest.drop 2)
    else if [dot, dot, slash].isPrefixOf rest then removeDotsFrom out (rest.drop 3)
    else if [slash, dot, slash].isPrefixOf rest then removeDotsFrom out (rest.drop 2)
    else if [slash, slash].isPrefixOf rest then removeDotsFrom out (rest.drop 1)
    else if b = slash ∧ tail = [dot] then removeDotsFrom out [slash]
    else if [slash, dot, dot, slash].isPrefixOf rest then removeDotsFrom (truncateLastSegment out) (rest.drop 3)
    else if b = slash ∧ tail = [dot, dot] then removeDotsFrom (truncateLastSegment out) [slash]
    else if rest = [dot] ∨ rest = [dot, dot] then out
    else removeDotsFrom (out ++ b :: tail.takeWhile (· != slash)) (tail.dropWhile (· != slash))
termination_by rest => rest.length
decreasing_by
  all_goals first
    | (simp only [length_drop, length_cons]; omega)
    | (simp only [‹_ ∧ _›, length_cons]; omega)
    | exact Nat.lt_succ_of_le (length_dropWhile_le _ _)

/-- `remove_dots`. -/
def removeDots (input : Bytes) : Bytes := removeDotsFrom [] input

/-- `decoded_path`. -/
def decodedPath (url : Url) : Bytes :=
  let decoded := decodeEscapes (Allowed.contains .Unreserved) url.path
  if decoded.head? = some slash then removeDots decoded else decoded

/-- `escaped_from_raw`. -/
def escapedFromRaw (byte : UInt8) : Bool :=
  if byte ∈ utf8 "?#\t\n\r" then false
  else if byte ∈ utf8 " \"<>\x60\x7b\x7d" then true
  else !(0x20 ≤ byte && byte < 0x7F)

/-- The text behind the last dot, if no slash follows that. -/
def behindLastDot (path : Bytes) : Option Bytes :=
  match splitOnce dot path.reverse with
  | none => none
  | some (after, _) => if slash ∈ after then none else some after.reverse

/-- `get_extension`. -/
def getExtension (path : Bytes) : Bytes :=
  match behindLastDot path with
  | none => []
  | some tail =>
    let decoded := decodeEscapes escapedFromRaw tail
    if Utf8.WellFormed decoded then decoded else fromUtf8Lossy tail

/-! ### The URL -/

/-- `userinfo`. -/
def userinfo (url : Url) : Bytes :=
  match url.password with
  | some password => url.username ++ colon :: password
  | none => url.username

/-- `default_port`. -/
def defaultPort (scheme : Bytes) : Option UInt16 :=
  if scheme = utf8 "http" then some 80 else if scheme = utf8 "https" then some 443 else none

/-- `restore_query_apostrophes`. -/
def restoreQueryApostrophes (query : Bytes) : Bytes := decodeEscapes (· == 0x27) query

/-- The scheme and the authority, as `recompose` writes them. -/
def recomposeSchemeAuthority (url : Url) : Bytes :=
  url.scheme ++ colon :: match url.host with
    | none => []
    | some host =>
      let userinfo := percentDecode (userinfo url)
      slash :: slash :: ((if userinfo = [] then [] else percentEncode .Unreserved userinfo ++ [atSign]) ++
        host.map toAsciiLowercase ++
        match url.port with
        | some port => if defaultPort url.scheme = some port then [] else colon :: decimal port
        | none => [])

/-- The path, the query and the fragment, as `recompose` writes them. -/
def recomposePathQueryFragment (url : Url) (path : Bytes) : Bytes :=
  let path := if url.host.isSome ∧ path ≠ [] ∧ path.head? ≠ some slash then slash :: path else path
  percentEncode .Path path ++
    (match url.query with
      | some query =>
        let decoded := decodeEscapes (Allowed.contains .Unreserved) query
        let decoded := if url.scheme ∈ SPECIAL then restoreQueryApostrophes decoded else decoded
        question :: percentEncode .Query decoded
      | none => []) ++
    match url.fragment with
    | some fragment => hash :: percentEncode .Fragment (decodeEscapes (Allowed.contains .Unreserved) fragment)
    | none => []

/-- `recompose`. -/
def recompose (url : Url) (path : Bytes) : Bytes :=
  fromUtf8Lossy (decodeEscapes (Allowed.contains .Unreserved)
    (recomposeSchemeAuthority url ++ recomposePathQueryFragment url path))

/-! ### The validators -/

/-- What `extract_etag` trims. -/
def isTrimmed (byte : UInt8) : Bool := byte ∈ utf8 "\" \t\r\n"

/-- `extract_etag`. -/
def extractEtag (etag : Bytes) : Bytes :=
  let stripped := (etag.dropPrefix? (utf8 "W/")).getD etag
  ((stripped.dropWhile isTrimmed).reverse.dropWhile isTrimmed).reverse

/-- The symbol of six bits, in the standard alphabet. -/
def base64Symbol (n : ℕ) : UInt8 :=
  UInt8.ofNat (if n < 26 then 0x41 + n else if n < 52 then 0x47 + n else if n < 62 then n - 4 else if n =
    62 then 0x2B else 0x2F)

/-- `b'='`. -/
abbrev padding : UInt8 := 0x3D

/-- `base64::engine::general_purpose::STANDARD.encode`. -/
def base64 : Bytes → Bytes
  | [] => []
  | [a] => [base64Symbol (a.toNat / 4), base64Symbol (a.toNat % 4 * 16), padding, padding]
  | [a, b] =>
    [base64Symbol (a.toNat / 4), base64Symbol (a.toNat % 4 * 16 + b.toNat / 16),
      base64Symbol (b.toNat % 16 * 4), padding]
  | a :: b :: c :: rest =>
    base64Symbol (a.toNat / 4) :: base64Symbol (a.toNat % 4 * 16 + b.toNat / 16) ::
      base64Symbol (b.toNat % 16 * 4 + c.toNat / 64) :: base64Symbol (c.toNat % 64) :: base64 rest

/-! ### Keys -/

/-- `KeyScheme`. -/
inductive KeyScheme
  | Ovstorage
  | OmniClientCompat
deriving DecidableEq

/-- `KeyScheme::from_config_str`. -/
def KeyScheme.fromConfigStr (value : Bytes) : Option KeyScheme :=
  if value = utf8 "ovstorage" then some .Ovstorage
  else if value = utf8 "omni-client-compat" then some .OmniClientCompat
  else none

/-- `HubKey`. -/
structure HubKey where
  key : Bytes
  extension : Bytes
  provider : Bytes
  digest : Option Bytes
deriving DecidableEq

/-- The output of SHA-256. -/
abbrev Digest := {bytes : Bytes // bytes.length = 32}

/-- `OVSTORAGE_KEY_PREFIX`. -/
def OVSTORAGE_KEY_PREFIX : Bytes := utf8 "ovs1-"

/-- `OVSTORAGE_EXTENSION`. -/
def OVSTORAGE_EXTENSION : Bytes := utf8 "bin"

/-- The lower-case digit of `n < 16`. -/
def hexLower (n : ℕ) : UInt8 := UInt8.ofNat (if n < 10 then 0x30 + n else 0x57 + n)

/-- A field of the hashed text: its length in eight bytes, the lowest first, and its bytes. -/
def hashedField (field : Bytes) : Bytes := (beBytes (UInt64.ofNat field.length)).reverse ++ field

/-- What `ovstorage_key` hashes. -/
def identity (partition : Bytes) (url : Url) (etag : Bytes) : Bytes :=
  hashedField partition ++ hashedField url.asStr ++ hashedField etag

section HubKey

variable (sha256 : Bytes → Digest)

/-- `ovstorage_key`. -/
def ovstorageKey (partition : Bytes) (url : Url) (etag : Bytes) : Bytes :=
  OVSTORAGE_KEY_PREFIX ++ (sha256 (identity partition url etag)).val.flatMap fun byte =>
    [hexLower (byte.toNat / 16), hexLower (byte.toNat % 16)]

/-- `hub_key`. -/
def hubKey (scheme : KeyScheme) (partition : Bytes) (url : Url) (etag : Bytes) (md5 : Option Bytes) : Option HubKey :=
  match scheme with
  | .Ovstorage =>
    if etag = [] then none
    else some ⟨ovstorageKey sha256 partition url etag, OVSTORAGE_EXTENSION, url.scheme, none⟩
  | .OmniClientCompat =>
    if url.username ≠ [] ∨ url.password.isSome then none
    else
      let path := decodedPath url
      match md5.filter (· ≠ []) with
      | some digest => some ⟨utf8 "md5;" ++ base64 digest, getExtension path, url.scheme, some digest⟩
      | none =>
        let version := extractEtag etag
        if version = [] then none
        else if atSign ∈ version then none
        else some ⟨recompose url path ++ atSign :: version, getExtension path, url.scheme, none⟩

end HubKey

/-- A byte string in memory, so that its length is a `u64`. -/
abbrev InMemory := {bytes : Bytes // bytes.length < 2 ^ 64}

/-- A letter of a scheme, as the `url` crate has them. -/
def isSchemeByte (byte : UInt8) : Bool := byte ∈ utf8 "abcdefghijklmnopqrstuvwxyz0123456789+-."

/-- What `hub_key` is asked to key. -/
structure Request where
  partition : InMemory
  url : Url
  etag : InMemory
  md5 : Option Bytes
  scheme_bytes : ∀ b ∈ url.scheme, isSchemeByte b = true
  path_ascii : ∀ b ∈ url.path, b < 0x80
  url_fits : url.asStr.length < 2 ^ 64

namespace Request

/-- `hub_key`, of the request. -/
def hubKey (r : Request) (sha256 : Bytes → Digest) (scheme : KeyScheme) : Option HubKey :=
  HubClient.hubKey sha256 scheme r.partition.val r.url r.etag.val r.md5

/-- What `ovstorage_key` hashes for the request. -/
def identity (r : Request) : Bytes := HubClient.identity r.partition.val r.url r.etag.val

/-- What a key names under a scheme, the same for both requests. -/
def NamesSame (r r' : Request) : KeyScheme → Prop
  | .Ovstorage => r.partition = r'.partition ∧ r.url.asStr = r'.url.asStr ∧ r.etag = r'.etag
  | .OmniClientCompat =>
    (∃ digest, digest ≠ [] ∧ r.md5 = some digest ∧ r'.md5 = some digest) ∨
      r.md5.filter (· ≠ []) = none ∧ r'.md5.filter (· ≠ []) = none ∧
        recompose r.url (decodedPath r.url) = recompose r'.url (decodedPath r'.url) ∧
        extractEtag r.etag.val = extractEtag r'.etag.val

end Request

variable {s t rest a b : Bytes} {x y : UInt8} {f : UInt8 → Bool}

/-! ### The front of a key -/

theorem decodeEscapes_cons (hx : x ≠ percent) (rest : Bytes) :
    decodeEscapes f (x :: rest) = x :: decodeEscapes f rest := by
  match rest with
  | [] => rfl
  | [_] => rfl
  | h :: l :: rest => rw [decodeEscapes, Address.unescape_of_ne hx, Option.filter_none]

theorem decodeEscapes_append (hs : percent ∉ s) (rest : Bytes) :
    decodeEscapes f (s ++ rest) = s ++ decodeEscapes f rest := by
  induction s with
  | nil => rfl
  | cons x s ih =>
    obtain ⟨hx, hs⟩ := not_or.mp (mem_cons.not.mp hs)
    rw [cons_append, decodeEscapes_cons (Ne.symm hx), ih hs, cons_append]

theorem fromUtf8Lossy_cons (hx : x < 0x80) (rest : Bytes) : fromUtf8Lossy (x :: rest) = x :: fromUtf8Lossy rest := by
  have hfollow : ∀ x : UInt8, x < 0x80 → Utf8.follow x = some [] := forall_uint8 (by decide +kernel)
  rw [fromUtf8Lossy, hfollow x hx]
  simp

theorem fromUtf8Lossy_append (hs : ∀ x ∈ s, x < 0x80) (rest : Bytes) :
    fromUtf8Lossy (s ++ rest) = s ++ fromUtf8Lossy rest := by
  induction s with
  | nil => rfl
  | cons x s ih =>
    obtain ⟨hx, hs⟩ := forall_mem_cons.mp hs
    rw [cons_append, fromUtf8Lossy_cons hx, ih hs, cons_append]

theorem isSchemeByte_spec (h : isSchemeByte x = true) : x ≠ percent ∧ x < 0x80 ∧ x ≠ colon ∧ x ≠ semicolon := by
  have hall : ∀ x ∈ utf8 "abcdefghijklmnopqrstuvwxyz0123456789+-.", x ≠ percent ∧ x < 0x80 ∧ x ≠ colon ∧
    x ≠ semicolon := by decide +kernel
  exact hall x (of_decide_eq_true h)

/-- What is recomposed begins with the scheme and its colon. -/
theorem recompose_scheme (r : Request) (path : Bytes) :
    ∃ rest, recompose r.url path = r.url.scheme ++ colon :: rest := by
  have hspec := fun b hb => isSchemeByte_spec (r.scheme_bytes b hb)
  have hpercent : percent ∉ r.url.scheme := fun h => (hspec percent h).1 rfl
  rw [recompose, recomposeSchemeAuthority, append_assoc, decodeEscapes_append hpercent, cons_append,
    decodeEscapes_cons (by decide), fromUtf8Lossy_append fun b hb => (hspec b hb).2.1, fromUtf8Lossy_cons (by decide)]
  exact ⟨_, rfl⟩

/-! ### The encodings -/

theorem hexLower_inj {m n : ℕ} (hm : m < 16) (hn : n < 16) (h : hexLower m = hexLower n) : m = n := by
  have hall : ∀ m n : Fin 16, hexLower m = hexLower n → m = n := by decide
  exact Fin.val_eq_of_eq (hall ⟨m, hm⟩ ⟨n, hn⟩ h)

theorem hex_inj (h : (s.flatMap fun byte => [hexLower (byte.toNat / 16), hexLower (byte.toNat % 16)]) =
    t.flatMap fun byte => [hexLower (byte.toNat / 16), hexLower (byte.toNat % 16)]) : s = t := by
  induction s generalizing t with
  | nil => cases t with
    | nil => rfl
    | cons y t => cases h
  | cons x s ih => cases t with
    | nil => cases h
    | cons y t =>
      simp only [flatMap_cons, cons_append, nil_append, List.cons.injEq] at h
      obtain ⟨hhigh, hlow, h⟩ := h
      have hx := x.toNat_lt
      have hy := y.toNat_lt
      have hhigh := hexLower_inj (by omega) (by omega) hhigh
      have hlow := hexLower_inj (by omega) (by omega) hlow
      have hxy : x.toNat = y.toNat := by omega
      rw [UInt8.toNat_inj.mp hxy, ih h]

theorem hashedField_append_inj {s' t' : Bytes} (hs : s.length < 2 ^ 64) (ht : t.length < 2 ^ 64)
    (h : hashedField s ++ s' = hashedField t ++ t') : s = t ∧ s' = t' := by
  simp only [hashedField, append_assoc] at h
  obtain ⟨hlength, h⟩ := append_inj h (by simp)
  have hlength := congrArg UInt64.toNat (beBytes_inj (reverse_injective hlength))
  rw [UInt64.toNat_ofNat', UInt64.toNat_ofNat', Nat.mod_eq_of_lt hs, Nat.mod_eq_of_lt ht] at hlength
  exact append_inj h hlength

/-- No two requests are hashed from one text. -/
theorem identity_inj {r r' : Request} (h : r.identity = r'.identity) :
    r.partition = r'.partition ∧ r.url.asStr = r'.url.asStr ∧ r.etag = r'.etag := by
  unfold Request.identity identity at h
  rw [append_assoc, append_assoc] at h
  obtain ⟨hpartition, h⟩ := hashedField_append_inj r.partition.prop r'.partition.prop h
  obtain ⟨hurl, h⟩ := hashedField_append_inj r.url_fits r'.url_fits h
  rw [← append_nil (hashedField r.etag.val), ← append_nil (hashedField r'.etag.val)] at h
  exact ⟨Subtype.ext hpartition, hurl, Subtype.ext (hashedField_append_inj r.etag.prop r'.etag.prop h).1⟩

/-- The value of a symbol, nothing for the padding. -/
def base64Value (symbol : UInt8) : ℕ := (List.range 64).find? (base64Symbol · == symbol) |>.getD 0

/-- Reads groups of four symbols back. -/
def readBase64 : Bytes → Bytes
  | p :: q :: r :: v :: rest =>
    let n := base64Value p * 2 ^ 18 + base64Value q * 2 ^ 12 + base64Value r * 2 ^ 6 + base64Value v
    UInt8.ofNat (n / 2 ^ 16) ::
      (if r = padding then [] else UInt8.ofNat (n / 2 ^ 8) :: if v = padding then [] else UInt8.ofNat n ::
        readBase64 rest)
  | _ => []

theorem base64Symbol_spec {n : ℕ} (hn : n < 64) : base64Value (base64Symbol n) = n ∧ base64Symbol n ≠ padding := by
  have hall : ∀ n : Fin 64, base64Value (base64Symbol n) = n ∧ base64Symbol n ≠ padding := by decide
  exact hall ⟨n, hn⟩

theorem base64Value_padding : base64Value padding = 0 := by decide

theorem readBase64_base64 (s : Bytes) : readBase64 (base64 s) = s := by
  have hbyte : ∀ (x : UInt8) (n : ℕ), n % 256 = x.toNat → UInt8.ofNat n = x := fun x n hn => by
    rw [← UInt8.toNat_inj, UInt8.toNat_ofNat', hn]
  induction s using base64.induct with
  | case1 => rfl
  | case2 a =>
    have ha := a.toNat_lt
    obtain ⟨h₁, -⟩ := base64Symbol_spec (n := a.toNat / 4) (by omega)
    obtain ⟨h₂, -⟩ := base64Symbol_spec (n := a.toNat % 4 * 16) (by omega)
    rw [base64, readBase64, if_pos rfl, h₁, h₂, base64Value_padding, hbyte a _ (by omega)]
  | case3 a b =>
    have ha := a.toNat_lt
    have hb := b.toNat_lt
    obtain ⟨h₁, -⟩ := base64Symbol_spec (n := a.toNat / 4) (by omega)
    obtain ⟨h₂, -⟩ := base64Symbol_spec (n := a.toNat % 4 * 16 + b.toNat / 16) (by omega)
    obtain ⟨h₃, hne₃⟩ := base64Symbol_spec (n := b.toNat % 16 * 4) (by omega)
    rw [base64, readBase64, if_neg hne₃, if_pos rfl, h₁, h₂, h₃, base64Value_padding, hbyte a _ (by omega),
      hbyte b _ (by omega)]
  | case4 a b c rest ih =>
    have ha := a.toNat_lt
    have hb := b.toNat_lt
    have hc := c.toNat_lt
    obtain ⟨h₁, -⟩ := base64Symbol_spec (n := a.toNat / 4) (by omega)
    obtain ⟨h₂, -⟩ := base64Symbol_spec (n := a.toNat % 4 * 16 + b.toNat / 16) (by omega)
    obtain ⟨h₃, hne₃⟩ := base64Symbol_spec (n := b.toNat % 16 * 4 + c.toNat / 64) (by omega)
    obtain ⟨h₄, hne₄⟩ := base64Symbol_spec (n := c.toNat % 64) (by omega)
    rw [base64, readBase64, if_neg hne₃, if_neg hne₄, h₁, h₂, h₃, h₄, ih, hbyte a _ (by omega), hbyte b _ (by omega),
      hbyte c _ (by omega)]

/-! ### The key -/

variable {sha256 : Bytes → Digest} {r r' : Request} {k k' : HubKey} {scheme scheme' : KeyScheme}

/-- The three shapes of a key. -/
inductive Named (sha256 : Bytes → Digest) (r : Request) (key : Bytes) : KeyScheme → Prop
  | hashed (hkey : key = ovstorageKey sha256 r.partition.val r.url r.etag.val) : Named sha256 r key .Ovstorage
  | digest {d : Bytes} (hmd5 : r.md5 = some d) (hne : d ≠ []) (hkey : key = utf8 "md5;" ++ base64 d) :
      Named sha256 r key .OmniClientCompat
  | version (hmd5 : r.md5.filter (· ≠ []) = none) (hat : atSign ∉ extractEtag r.etag.val)
      (hkey : key = recompose r.url (decodedPath r.url) ++ atSign :: extractEtag r.etag.val) :
      Named sha256 r key .OmniClientCompat

theorem Request.named_of_hubKey (h : r.hubKey sha256 scheme = some k) : Named sha256 r k.key scheme := by
  unfold hubKey HubClient.hubKey at h
  cases scheme with
  | Ovstorage =>
    simp only at h
    split at h
    · cases h
    · cases h
      exact .hashed rfl
  | OmniClientCompat =>
    simp only at h
    split at h
    · cases h
    · split at h
      next d hmd5 =>
        cases h
        obtain ⟨hmd5, hne⟩ := Option.filter_eq_some_iff.mp hmd5
        exact .digest hmd5 (of_decide_eq_true hne) rfl
      next hmd5 =>
        split_ifs at h with hempty hat
        cases h
        exact .version hmd5 hat rfl

/-- A hashed key has no colon and no semicolon. -/
theorem ovstorageKey_plain : ∀ x ∈ ovstorageKey sha256 a r.url b, x ≠ colon ∧ x ≠ semicolon := by
  have hhex : ∀ n : Fin 16, hexLower n ≠ colon ∧ hexLower n ≠ semicolon := by decide
  intro x hx
  rcases mem_append.mp hx with hx | hx
  · have hprefix : ∀ x ∈ OVSTORAGE_KEY_PREFIX, x ≠ colon ∧ x ≠ semicolon := by decide +kernel
    exact hprefix x hx
  · obtain ⟨y, -, hx⟩ := mem_flatMap.mp hx
    have hy := y.toNat_lt
    simp only [mem_cons, not_mem_nil, or_false] at hx
    rcases hx with rfl | rfl
    · exact hhex ⟨y.toNat / 16, by omega⟩
    · exact hhex ⟨y.toNat % 16, by omega⟩

/-- A hashed key is neither of the other two. -/
theorem ovstorageKey_ne (r r' : Request) (path version : Bytes) :
    ovstorageKey sha256 a r.url b ≠ utf8 "md5;" ++ s ∧
      ovstorageKey sha256 a r.url b ≠ recompose r'.url path ++ atSign :: version := by
  constructor
  · intro h
    have hmem : semicolon ∈ utf8 "md5;" ++ s := mem_append_left _ (by decide +kernel)
    exact (ovstorageKey_plain _ (h ▸ hmem)).2 rfl
  · intro h
    obtain ⟨rest, hrest⟩ := recompose_scheme r' path
    have hmem : colon ∈ recompose r'.url path ++ atSign :: version := by simp [hrest]
    exact (ovstorageKey_plain _ (h ▸ hmem)).1 rfl

/-- A digest's key is no URL: its semicolon comes before any colon. -/
theorem digest_ne_version (r : Request) (path version : Bytes) :
    utf8 "md5;" ++ s ≠ recompose r.url path ++ atSign :: version := by
  obtain ⟨rest, hrest⟩ := recompose_scheme r path
  have hmd5 : utf8 "md5;" = utf8 "md5" ++ [semicolon] := by decide +kernel
  have hscheme : semicolon ∉ r.url.scheme := fun hmem => (isSchemeByte_spec (r.scheme_bytes _ hmem)).2.2.2 rfl
  rw [hrest, hmd5, append_assoc, append_assoc]
  intro h
  rcases append_eq_append_iff.mp h with ⟨between, hfront, hback⟩ | ⟨between, hfront, hback⟩
  · cases between with
    | nil => cases hback
    | cons b between =>
      cases hback
      exact hscheme (hfront ▸ mem_append_right _ mem_cons_self)
  · cases between with
    | nil => cases hback
    | cons b between =>
      obtain ⟨rfl, -⟩ := List.cons.inj hback
      have hcolon : colon ∉ utf8 "md5" := by decide +kernel
      exact hcolon (hfront ▸ mem_append_right _ mem_cons_self)

/-- A URL and a version are cut at the last `@`. -/
theorem version_append_inj {u u' version version' : Bytes} (hat : atSign ∉ version) (hat' : atSign ∉ version')
    (h : u ++ atSign :: version = u' ++ atSign :: version') : u = u' ∧ version = version' := by
  have hrev : version.reverse ++ tagged atSign (some u.reverse) = version'.reverse ++
      tagged atSign (some u'.reverse) := by
    simpa using congrArg List.reverse h
  obtain ⟨hversion, hu⟩ := append_tagged_inj (mem_reverse.not.mpr hat) (mem_reverse.not.mpr hat') hrev
  exact ⟨reverse_injective (Option.some.inj hu), reverse_injective hversion⟩

/-- **A hub key names exact bytes.** -/
theorem key_names_bytes (hsha : sha256 r.identity = sha256 r'.identity → r.identity = r'.identity)
    (hk : r.hubKey sha256 scheme = some k) (hk' : r'.hubKey sha256 scheme' = some k') (hkey : k.key = k'.key) :
    scheme = scheme' ∧ r.NamesSame r' scheme := by
  have hnamed := r.named_of_hubKey hk
  have hnamed' := r'.named_of_hubKey hk'
  rw [← hkey] at hnamed'
  generalize k.key = key at hnamed hnamed'
  cases hnamed with
  | hashed hkey =>
    cases hnamed' with
    | hashed hkey' =>
      have hhex := append_cancel_left (hkey.symm.trans hkey')
      exact ⟨rfl, identity_inj (hsha (Subtype.ext (hex_inj hhex)))⟩
    | digest _ _ hkey' => exact absurd (hkey.symm.trans hkey') (ovstorageKey_ne r r [] []).1
    | version _ _ hkey' => exact absurd (hkey.symm.trans hkey') (ovstorageKey_ne (s := []) r r' _ _).2
  | digest hmd5 hne hkey =>
    cases hnamed' with
    | hashed hkey' => exact absurd (hkey'.symm.trans hkey) (ovstorageKey_ne r' r [] []).1
    | digest hmd5' _ hkey' =>
      have hbase64 := append_cancel_left (hkey.symm.trans hkey')
      obtain rfl := Function.LeftInverse.injective readBase64_base64 hbase64
      exact ⟨rfl, .inl ⟨_, hne, hmd5, hmd5'⟩⟩
    | version _ _ hkey' => exact absurd (hkey.symm.trans hkey') (digest_ne_version r' _ _)
  | version hmd5 hat hkey =>
    cases hnamed' with
    | hashed hkey' => exact absurd (hkey'.symm.trans hkey) (ovstorageKey_ne (s := []) r' r _ _).2
    | digest _ _ hkey' => exact absurd (hkey'.symm.trans hkey) (digest_ne_version r _ _)
    | version hmd5' hat' hkey' => exact ⟨rfl, .inr ⟨hmd5, hmd5', version_append_inj hat hat' (hkey.symm.trans hkey')⟩⟩

/-- A path on `https://server`. -/
def onServer (path : Bytes) : Address.Parts :=
  { scheme := utf8 "https", hasAuthority := true, username := [], password := none,
    host := some (utf8 "server"), port := none,
    path := path, query := none, fragment := none }

/-- A request for a path on `https://server`, with an etag and a digest. -/
def requested (path : Bytes) (md5 : Option Bytes)
    (h : (onServer path).WellFormed ∧ (∀ b ∈ path, b < 0x80) ∧ (onServer path).asStr.length < 2 ^ 64) : Request where
  partition := ⟨utf8 "local", by decide +kernel⟩
  url := ⟨onServer path, h.1⟩
  etag := ⟨utf8 "\"abc123\"", by decide +kernel⟩
  md5 := md5
  scheme_bytes := show ∀ b ∈ utf8 "https", isSchemeByte b = true by decide +kernel
  path_ascii := h.2.1
  url_fits := h.2.2

/-- A file, with a digest or without. -/
def robot (md5 : Option Bytes) : Request := requested (utf8 "/a.usd") md5 (by decide +kernel)

/-- The digest of `robot`. -/
def robotDigest : Digest :=
  ⟨[0x4E, 0xA1, 0xAF, 0xCC, 0xB6, 0x9A, 0x8D, 0x24, 0xBE, 0xAA, 0x03, 0xC7, 0xD2, 0x6B, 0x95, 0x40,
    0x45, 0x05, 0xE5, 0xE2, 0x9A, 0x44, 0x22, 0xD8, 0x27, 0xE1, 0x94, 0x01, 0xA4, 0xDE, 0xB8, 0xDA], rfl⟩

/-- The key of `robot`. -/
def robotKey : HubKey :=
  ⟨utf8 "ovs1-4ea1afccb69a8d24beaa03c7d26b95404505e5e29a4422d827e19401a4deb8da", utf8 "bin", utf8 "https", none⟩

/-- `robot` with an escape that the key takes away. -/
def escapedRobot : Request := requested (utf8 "/%61.usd") none (by decide +kernel)

/-- The digest of `escapedRobot`. -/
def escapedDigest : Digest :=
  ⟨[0xAD, 0x36, 0x42, 0x93, 0x5F, 0x1E, 0xBA, 0x49, 0xFF, 0xE7, 0xA9, 0x45, 0x84, 0xC9, 0x1A, 0xC1,
    0xF6, 0xD2, 0x5E, 0x82, 0x34, 0xFB, 0xF8, 0xD9, 0xF0, 0xB3, 0x96, 0xC4, 0x63, 0x7D, 0xA1, 0x91], rfl⟩

/-- SHA-256 on the two. -/
def robotSha256 (bytes : Bytes) : Digest := if bytes = escapedRobot.identity then escapedDigest else robotDigest

/-- The digest of the object does not take part, and the tier of the URL names an address by its decoded path. -/
theorem key_names_bytes_robot :
    (robot none).NamesSame (robot (some [0x5A])) .Ovstorage ∧
      (robot none).NamesSame escapedRobot .OmniClientCompat := by
  have hk : (robot none).hubKey robotSha256 .Ovstorage = some robotKey := by decide +kernel
  have hk' : (robot (some [0x5A])).hubKey robotSha256 .Ovstorage = some robotKey := by decide +kernel
  have hidentity : (robot none).identity = (robot (some [0x5A])).identity := rfl
  have hurl : (robot none).hubKey robotSha256 .OmniClientCompat =
      some ⟨utf8 "https://server/a.usd@abc123", utf8 "usd", utf8 "https", none⟩ := by decide +kernel
  have hurl' : escapedRobot.hubKey robotSha256 .OmniClientCompat =
      some ⟨utf8 "https://server/a.usd@abc123", utf8 "usd", utf8 "https", none⟩ := by decide +kernel
  have hsha : robotSha256 (robot none).identity ≠ robotSha256 escapedRobot.identity := by decide +kernel
  exact ⟨(key_names_bytes (fun _ => hidentity) hk hk' rfl).2, (key_names_bytes (absurd · hsha) hurl hurl' rfl).2⟩

end OvStorage.HubClient
