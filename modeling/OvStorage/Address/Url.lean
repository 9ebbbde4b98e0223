import OvStorage.Address.Path

/-!
# Addresses

An address is a `url::Url`. The crate keeps the serialization and the offsets of
its components; a `Url` here is the components, and `asStr` writes them out.

## The model

`Parts` are the components, and a `Url` carries the proof that they are
well formed: each of them keeps clear of the bytes that end it in the
serialization. What a component may further hold (which domains are valid, which
code points a path may keep) is the crate's business and is not said here.

The setters that take a component away (`set_fragment(None)`, `set_query(None)`,
`set_username("")`, `set_password(None)`, `set_host(Some(""))`) are record
updates, under the conditions in which the crate's setter does not fail. The
setters that rewrite text are in `OvStorage.Address.UrlCrate`.

## What is proved

`readParts_asStr`: a serialization determines its components, so `==` on two `Url`s is equality.
-/

namespace OvStorage.Address

open SegList List

/-- `b':'`. -/
abbrev colon : UInt8 := 0x3A

/-- `b'@'`. -/
abbrev atSign : UInt8 := 0x40

/-- `b'?'`. -/
abbrev question : UInt8 := 0x3F

/-- `b'#'`. -/
abbrev hash : UInt8 := 0x23

/-- `b'\\'`. -/
abbrev backslash : UInt8 := 0x5C

/-- `b'|'`. -/
abbrev bar : UInt8 := 0x7C

/-- `b']'`. -/
abbrev closeBracket : UInt8 := 0x5D

/-- The scheme `file`. -/
def FILE : Bytes := utf8 "file"

/-- The special schemes of the URL Standard. -/
def SPECIAL : List Bytes :=
  [utf8 "ftp", FILE, utf8 "http", utf8 "https", utf8 "ws", utf8 "wss"]

/-- `u8::to_ascii_lowercase`. -/
def toAsciiLowercase (b : UInt8) : UInt8 := if 0x41 ≤ b ∧ b ≤ 0x5A then b + 0x20 else b

/-! ### The components -/

/-- The components of a URL, as the crate's accessors return them. -/
structure Parts where
  /-- `scheme()`. -/
  scheme : Bytes
  /-- `has_authority()`: whether `//` follows the scheme. -/
  hasAuthority : Bool
  /-- `username()`; empty when there is none. -/
  username : Bytes
  /-- `password()`. -/
  password : Option Bytes
  /-- `host_str()`; `none` for an absent authority and for an empty one. -/
  host : Option Bytes
  /-- `port()`; `none` for the scheme's own. -/
  port : Option UInt16
  /-- `path()`, escaped. -/
  path : Bytes
  /-- `query()`. -/
  query : Option Bytes
  /-- `fragment()`. -/
  fragment : Option Bytes
deriving DecidableEq

/-- The components stay clear of the bytes that end them, and of each other. -/
structure Parts.WellFormed (u : Parts) : Prop where
  scheme_bytes : colon ∉ u.scheme ∧ question ∉ u.scheme ∧ hash ∉ u.scheme
  host_authority : u.host.isSome → u.hasAuthority = true
  host_ne : u.host ≠ some []
  host_bytes : ∀ h ∈ u.host, slash ∉ h ∧ question ∉ h ∧ hash ∉ h ∧ atSign ∉ h
  host_colon : ∀ h ∈ u.host, colon ∈ h → h.getLast? = some closeBracket
  userinfo_host : u.username ≠ [] ∨ u.password.isSome → u.host.isSome
  username_bytes : slash ∉ u.username ∧ question ∉ u.username ∧ hash ∉ u.username ∧ atSign ∉ u.username ∧
    colon ∉ u.username
  password_bytes : ∀ p ∈ u.password, slash ∉ p ∧ question ∉ p ∧ hash ∉ p ∧ atSign ∉ p
  port_host : u.port.isSome → u.host.isSome
  path_bytes : question ∉ u.path ∧ hash ∉ u.path
  path_absolute : u.hasAuthority = true → u.path = [] ∨ u.path.head? = some slash
  path_dot : u.hasAuthority = false → [slash, dot, slash].isPrefixOf u.path = false
  query_bytes : ∀ q ∈ u.query, hash ∉ q
  special : u.scheme ∈ SPECIAL → u.hasAuthority = true ∧ u.path.head? = some slash
  special_host : u.scheme ∈ SPECIAL → u.scheme ≠ FILE → u.host.isSome
  special_lowercase : u.scheme ∈ SPECIAL → ∀ h ∈ u.host, h.map toAsciiLowercase = h
  file_plain : u.scheme = FILE → u.username = [] ∧ u.password = none ∧ u.port = none

set_option synthInstance.maxSize 512 in
instance (u : Parts) : Decidable u.WellFormed :=
  decidable_of_iff
    ((colon ∉ u.scheme ∧ question ∉ u.scheme ∧ hash ∉ u.scheme) ∧
    (u.host.isSome → u.hasAuthority = true) ∧
    u.host ≠ some [] ∧
    (∀ h ∈ u.host, slash ∉ h ∧ question ∉ h ∧ hash ∉ h ∧ atSign ∉ h) ∧
    (∀ h ∈ u.host, colon ∈ h → h.getLast? = some closeBracket) ∧
    (u.username ≠ [] ∨ u.password.isSome → u.host.isSome) ∧
    (slash ∉ u.username ∧ question ∉ u.username ∧ hash ∉ u.username ∧ atSign ∉ u.username ∧
      colon ∉ u.username) ∧
    (∀ p ∈ u.password, slash ∉ p ∧ question ∉ p ∧ hash ∉ p ∧ atSign ∉ p) ∧
    (u.port.isSome → u.host.isSome) ∧
    (question ∉ u.path ∧ hash ∉ u.path) ∧
    (u.hasAuthority = true → u.path = [] ∨ u.path.head? = some slash) ∧
    (u.hasAuthority = false → [slash, dot, slash].isPrefixOf u.path = false) ∧
    (∀ q ∈ u.query, hash ∉ q) ∧
    (u.scheme ∈ SPECIAL → u.hasAuthority = true ∧ u.path.head? = some slash) ∧
    (u.scheme ∈ SPECIAL → u.scheme ≠ FILE → u.host.isSome) ∧
    (u.scheme ∈ SPECIAL → ∀ h ∈ u.host, h.map toAsciiLowercase = h) ∧
    (u.scheme = FILE → u.username = [] ∧ u.password = none ∧ u.port = none))
    ⟨fun ⟨a, b, c, d, e, f, g, h, i, j, k, l, m, n, o, p, q⟩ => ⟨a, b, c, d, e, f, g, h, i, j, k, l, m, n, o, p, q⟩,
     fun ⟨a, b, c, d, e, f, g, h, i, j, k, l, m, n, o, p, q⟩ => ⟨a, b, c, d, e, f, g, h, i, j, k, l, m, n, o, p, q⟩⟩

/-- `url::Url`. -/
structure Url extends Parts where
  wf : toParts.WellFormed
deriving DecidableEq

theorem Url.ext_parts {u v : Url} (h : u.toParts = v.toParts) : u = v := by
  cases u; cases v; cases h; rfl

/-! ### The serialization -/

/-- The decimal digits of a port. -/
def decimal (n : UInt16) : Bytes := (Nat.toDigits 10 n.toNat).map fun c => UInt8.ofNat c.toNat

/-- `user:password@`, when there is any. -/
def Parts.userinfo (u : Parts) : Bytes :=
  if u.username = [] ∧ u.password = none then [] else u.username ++ tagged colon u.password ++ [atSign]

/-- `host:port`. -/
def Parts.hostPort (u : Parts) : Bytes := u.host.getD [] ++ tagged colon (u.port.map decimal)

/-- `//user:password@host:port`; without an authority, the `/.` that keeps a path's own `//`
from being read as one. -/
def Parts.authority (u : Parts) : Bytes :=
  if u.hasAuthority then slash :: slash :: (u.userinfo ++ u.hostPort)
  else if [slash, slash].isPrefixOf u.path then [slash, dot]
  else []

/-- `Url::as_str`. -/
def Parts.asStr (u : Parts) : Bytes :=
  u.scheme ++ colon :: (u.authority ++ u.path ++ tagged question u.query ++ tagged hash u.fragment)

/-- `cannot_be_a_base`: what follows the scheme does not begin with `/`. -/
def Parts.cannotBeABase (u : Parts) : Bool := !u.hasAuthority && u.path.head? != some slash

/-! ### Reading a serialization back -/

/-- The port that decimal digits spell. -/
def readDecimal (ds : Bytes) : UInt16 :=
  UInt16.ofNat (Nat.ofDigitChars 10 (ds.map fun b => Char.ofNat b.toNat) 0)

/-- Read `host:port`: the last `:` begins a port, unless a bracketed host ends the text. -/
def readHostPort (hp : Bytes) : Bytes × Option UInt16 :=
  if hp.getLast? = some closeBracket then (hp, none)
  else
    match splitOnce colon hp.reverse with
    | some (port, host) => (host.reverse, some (readDecimal port.reverse))
    | none => (hp, none)

/-- Read the text between `//` and the path. -/
def readAuthority (auth : Bytes) : Bytes × Option Bytes × Bytes × Option UInt16 :=
  match splitOnce atSign auth with
  | some (userinfo, hp) =>
    let (username, password) := cutAt colon userinfo
    (username, password, readHostPort hp)
  | none => ([], none, readHostPort auth)

/-- Read a serialization. -/
def readParts (raw : Bytes) : Option Parts :=
  match splitOnce colon raw with
  | none => none
  | some (scheme, rest) =>
    let (rest, fragment) := cutAt hash rest
    let (rest, query) := cutAt question rest
    if [slash, slash].isPrefixOf rest then
      let (username, password, host, port) := readAuthority ((rest.drop 2).takeWhile (· != slash))
      some ⟨scheme, true, username, password, if host = [] then none else some host, port,
        (rest.drop 2).dropWhile (· != slash), query, fragment⟩
    else
      some ⟨scheme, false, [], none, none, none,
        if [slash, dot, slash].isPrefixOf rest then rest.drop 2 else rest, query, fragment⟩

variable {b x : UInt8}

theorem decimal_isDigit {n : UInt16} (h : b ∈ decimal n) : 0x30 ≤ b.toNat ∧ b.toNat ≤ 0x39 := by
  obtain ⟨c, hc, rfl⟩ := mem_map.mp h
  have hd := Nat.isDigit_of_mem_toDigits (by decide) (by decide) hc
  simp only [Char.isDigit, Bool.and_eq_true, decide_eq_true_eq] at hd
  have h1 : 48 ≤ c.toNat := hd.1
  have h2 : c.toNat ≤ 57 := hd.2
  simp only [UInt8.toNat_ofNat']
  omega

theorem decimal_ne_nil (n : UInt16) : decimal n ≠ [] := by
  simp [decimal, Nat.toDigits_ne_nil]

theorem notMem_decimal {n : UInt16} (h : b.toNat < 0x30 ∨ 0x39 < b.toNat) : b ∉ decimal n := by
  intro hb
  have := decimal_isDigit hb
  omega

theorem readDecimal_decimal (n : UInt16) : readDecimal (decimal n) = n := by
  have hmap : (decimal n).map (fun b => Char.ofNat b.toNat) = Nat.toDigits 10 n.toNat := by
    unfold decimal
    rw [map_map]
    conv_rhs => rw [← map_id (Nat.toDigits 10 n.toNat)]
    apply map_congr_left
    intro c hc
    have hd := Nat.isDigit_of_mem_toDigits (by decide) (by decide) hc
    simp only [Char.isDigit, Bool.and_eq_true, decide_eq_true_eq] at hd
    have h2 : c.toNat ≤ 57 := hd.2
    simp only [Function.comp_apply, UInt8.toNat_ofNat', id_eq]
    rw [Nat.mod_eq_of_lt (by omega), Char.ofNat_toNat]
  unfold readDecimal
  rw [hmap, Nat.ofDigitChars_toDigits (by decide) (by decide), UInt16.ofNat_toNat]

variable {h : Bytes}

theorem readHostPort_of_port (n : UInt16) : readHostPort (h ++ colon :: decimal n) = (h, some n) := by
  have hlast : (h ++ colon :: decimal n).getLast? ≠ some closeBracket := by
    rw [List.getLast?_append_of_ne_nil _ (by simp), List.getLast?_cons_of_ne_nil (decimal_ne_nil n)]
    intro he
    exact notMem_decimal (by decide) (mem_of_getLast? he)
  have hrev : (h ++ colon :: decimal n).reverse = (decimal n).reverse ++ colon :: h.reverse := by simp
  have hnot : colon ∉ (decimal n).reverse := by
    rw [mem_reverse]; exact notMem_decimal (by decide)
  unfold readHostPort
  rw [if_neg hlast, hrev, splitOnce_append hnot]
  simp [readDecimal_decimal]

theorem readHostPort_of_host (hc : colon ∈ h → h.getLast? = some closeBracket) : readHostPort h = (h, none) := by
  unfold readHostPort
  split
  · rfl
  · rename_i hlast
    have hnot : colon ∉ h.reverse := by
      rw [mem_reverse]; exact fun hm => hlast (hc hm)
    rw [splitOnce_of_not_mem hnot]

section RoundTrip

variable {u : Parts}

theorem readHostPort_hostPort (wf : u.WellFormed) : readHostPort u.hostPort = (u.host.getD [], u.port) := by
  unfold Parts.hostPort
  cases hp : u.port with
  | some n => exact readHostPort_of_port n
  | none =>
    simp only [Option.map_none, tagged_none, append_nil]
    apply readHostPort_of_host
    cases hh : u.host with
    | none => simp
    | some h => exact wf.host_colon h (by simp [hh])

variable {b : UInt8}

/-- A byte that is neither in the host nor a digit or `:` is not in `host:port`. -/
theorem notMem_hostPort (hh : ∀ h ∈ u.host, b ∉ h) (hb : b.toNat < 0x30 ∨ 0x39 < b.toNat)
    (hc : b ≠ colon) : b ∉ u.hostPort := by
  unfold Parts.hostPort
  rw [mem_append, not_or]
  constructor
  · cases hu : u.host with
    | none => simp
    | some h => exact hh h (by simp [hu])
  · cases u.port with
    | none => simp
    | some n => simpa [hc] using notMem_decimal (n := n) hb

theorem notMem_userinfo (hu : b ∉ u.username) (hp : ∀ p ∈ u.password, b ∉ p)
    (hc : b ≠ colon) (ha : b ≠ atSign) : b ∉ u.userinfo := by
  unfold Parts.userinfo
  split
  · simp
  · simp only [mem_append, not_or, mem_singleton]
    refine ⟨⟨hu, ?_⟩, ha⟩
    cases hpw : u.password with
    | none => simp
    | some p => simpa [hc] using hp p (by simp [hpw])

theorem readAuthority_authority (wf : u.WellFormed) :
    readAuthority (u.userinfo ++ u.hostPort) = (u.username, u.password, u.host.getD [], u.port) := by
  have hat : atSign ∉ u.hostPort :=
    notMem_hostPort (fun h hh => (wf.host_bytes h hh).2.2.2) (by decide) (by decide)
  unfold readAuthority Parts.userinfo
  split_ifs with hno
  · rw [nil_append, splitOnce_of_not_mem hat, readHostPort_hostPort wf, hno.1, hno.2]
  · have hui : atSign ∉ u.username ++ tagged colon u.password := by
      rw [mem_append, not_or]
      refine ⟨wf.username_bytes.2.2.2.1, ?_⟩
      rw [mem_tagged]
      rintro ⟨p, hp, he | hm⟩
      · exact absurd he (by decide)
      · exact (wf.password_bytes p hp).2.2.2 hm
    rw [append_assoc, singleton_append, splitOnce_append hui]
    simp only [cutAt_append_tagged wf.username_bytes.2.2.2.2, readHostPort_hostPort wf]

theorem notMem_authority (hh : ∀ h ∈ u.host, b ∉ h) (hu : b ∉ u.username)
    (hp : ∀ p ∈ u.password, b ∉ p) (hb : b.toNat < 0x2E ∨ 0x40 < b.toNat ∨ b = question) : b ∉ u.authority := by
  have hne : b ≠ colon ∧ b ≠ atSign ∧ b ≠ slash ∧ b ≠ dot := by
    refine ⟨?_, ?_, ?_, ?_⟩ <;> (rintro rfl; revert hb; decide)
  have hd : b.toNat < 0x30 ∨ 0x39 < b.toNat := by
    rcases hb with hb | hb | rfl
    · omega
    · omega
    · decide
  unfold Parts.authority
  split_ifs
  · simp only [mem_cons, mem_append, not_or]
    exact ⟨hne.2.2.1, hne.2.2.1, notMem_userinfo hu hp hne.1 hne.2.1, notMem_hostPort hh hd hne.1⟩
  · simp [hne]
  · simp

/-- The authority ends where the path begins. -/
theorem slash_notMem_authority (wf : u.WellFormed) : slash ∉ u.userinfo ++ u.hostPort := by
  rw [mem_append, not_or]
  exact ⟨notMem_userinfo wf.username_bytes.1 (fun p hp => (wf.password_bytes p hp).1) (by decide) (by decide),
    notMem_hostPort (fun h hh => (wf.host_bytes h hh).1) (by decide) (by decide)⟩

/-- Without a host there is nothing else in the authority. -/
theorem bare_of_host_none (wf : u.WellFormed) (hh : u.host = none) :
    u.username = [] ∧ u.password = none ∧ u.port = none := by
  have hu := mt wf.userinfo_host (by simp [hh])
  have hp := mt wf.port_host (by simp [hh])
  simp only [not_or, not_not, Option.not_isSome_iff_eq_none] at hu hp
  exact ⟨hu.1, hu.2, hp⟩

theorem host_none_of_authority (wf : u.WellFormed) (ha : u.hasAuthority = false) : u.host = none := by
  cases hh : u.host with
  | none => rfl
  | some h => exact absurd (wf.host_authority (by simp [hh])) (by simp [ha])

/-- Reading a serialization gives its components back. -/
theorem readParts_asStr (wf : u.WellFormed) : readParts u.asStr = some u := by
  have hq : question ∉ u.authority ++ u.path := by
    rw [mem_append, not_or]
    exact ⟨notMem_authority (fun h hh => (wf.host_bytes h hh).2.1) wf.username_bytes.2.1
      (fun p hp => (wf.password_bytes p hp).2.1) (by decide), wf.path_bytes.1⟩
  have hf : hash ∉ u.authority ++ u.path ++ tagged question u.query := by
    simp only [mem_append, not_or]
    refine ⟨⟨notMem_authority (fun h hh => (wf.host_bytes h hh).2.2.1) wf.username_bytes.2.2.1
      (fun p hp => (wf.password_bytes p hp).2.2.1) (by decide), wf.path_bytes.2⟩, ?_⟩
    rw [mem_tagged]
    rintro ⟨q, hq, he | hm⟩
    · exact absurd he (by decide)
    · exact wf.query_bytes q hq hm
  unfold readParts Parts.asStr
  simp only [splitOnce_append wf.scheme_bytes.1, cutAt_append_tagged hf, cutAt_append_tagged hq]
  cases ha : u.hasAuthority with
  | true =>
    -- the authority ends at the first `/`, where the path begins
    have hs := slash_notMem_authority wf
    have hr : AtSep slash u.path := by
      rcases wf.path_absolute ha with he | he
      · exact Or.inl he
      · exact Or.inr (List.head?_eq_some_iff.mp he)
    have hcut := takeWhile_append_atSep hs hr
    have hhost : (if u.host.getD [] = [] then none else some (u.host.getD [])) = u.host := by
      cases hh : u.host with
      | none => simp
      | some h =>
        have hne : h ≠ [] := by rintro rfl; exact wf.host_ne hh
        simp [hne]
    have hauth : u.authority = slash :: slash :: (u.userinfo ++ u.hostPort) := by simp [Parts.authority, ha]
    rw [hauth, cons_append, cons_append, if_pos (by simp)]
    simp only [drop_succ_cons, drop_zero, hcut.1, hcut.2, readAuthority_authority wf, hhost]
    rw [← ha]
  | false =>
    -- nothing in the text says `//`: the path's own is behind the `/.`
    have hhost := host_none_of_authority wf ha
    obtain ⟨h1, h2, h4⟩ := bare_of_host_none wf hhost
    have hdot := wf.path_dot ha
    unfold Parts.authority
    simp only [ha, Bool.false_eq_true, if_false]
    by_cases hss : [slash, slash].isPrefixOf u.path = true
    · obtain ⟨t, ht⟩ := List.isPrefixOf_iff_prefix.mp hss
      have hpath : u.path = slash :: slash :: t := ht.symm
      rw [if_pos hss, hpath]
      simp only [cons_append, nil_append]
      rw [if_neg (by simp), if_pos (by simp)]
      obtain ⟨⟩ := u
      simp_all
    · rw [if_neg hss, nil_append, if_neg hss, if_neg (by simp [hdot])]
      obtain ⟨⟩ := u
      simp_all

end RoundTrip

/-- Two addresses with one serialization are one: `==` on `Url` is equality here. -/
theorem asStr_inj {u v : Url} (h : u.asStr = v.asStr) : u = v := by
  have he := congrArg readParts h
  rw [readParts_asStr u.wf, readParts_asStr v.wf] at he
  exact Url.ext_parts (Option.some.inj he)

/-! ### Setters that take a component away -/

/-- `set_fragment(None)`. -/
def Url.clearFragment (u : Url) : Url := ⟨{ u.toParts with fragment := none }, { u.wf with }⟩

theorem clearFragment_toParts (u : Url) : u.clearFragment.toParts = { u.toParts with fragment := none } := rfl

/-- `set_query(None)`. -/
def Url.clearQuery (u : Url) : Url := ⟨{ u.toParts with query := none }, { u.wf with query_bytes := by simp }⟩

/-- `set_password(None)`: refused without a host and on `file:`. -/
def Url.clearPassword (u : Url) : Url :=
  if u.host = none ∨ u.scheme = FILE then u
  else ⟨{ u.toParts with password := none },
    { u.wf with
      userinfo_host := fun h => u.wf.userinfo_host (h.imp_right (by simp))
      password_bytes := by simp
      file_plain := fun h => ⟨(u.wf.file_plain h).1, rfl, (u.wf.file_plain h).2.2⟩ }⟩

/-- `set_username("")`: refused without a host and on `file:`. -/
def Url.clearUsername (u : Url) : Url :=
  if u.host = none ∨ u.scheme = FILE then u
  else ⟨{ u.toParts with username := [] },
    { u.wf with
      userinfo_host := fun h => u.wf.userinfo_host (h.imp_left (by simp))
      username_bytes := by simp
      file_plain := fun h => ⟨rfl, (u.wf.file_plain h).2⟩ }⟩

/-- `set_host(Some(""))` on an address without a host: refused for an opaque path and on a
special scheme. -/
def Url.setHostEmpty (u : Url) (_ : u.host = none) : Url :=
  if hc : u.cannotBeABase = true ∨ u.scheme ∈ SPECIAL then u
  else ⟨{ u.toParts with hasAuthority := true },
    { u.wf with
      host_authority := fun _ => rfl
      path_absolute := by
        rintro -
        rw [not_or, Parts.cannotBeABase] at hc
        cases ha : u.hasAuthority with
        | true => exact u.wf.path_absolute ha
        | false => exact Or.inr (by simpa [ha] using hc.1)
      path_dot := by simp
      special := fun h => absurd h (not_or.mp hc).2 }⟩

theorem toAsciiLowercase_eq_iff (hx : x.toNat < 0x41 ∨ 0x5A < x.toNat ∧ x.toNat < 0x61 ∨ 0x7A < x.toNat) :
    toAsciiLowercase b = x ↔ b = x := by
  unfold toAsciiLowercase
  split_ifs with hb
  · have h1 : 0x41 ≤ b.toNat := hb.1
    have h2 : b.toNat ≤ 0x5A := hb.2
    have h3 : (b + 0x20).toNat = b.toNat + 0x20 := by
      rw [UInt8.toNat_add]
      have : (0x20 : UInt8).toNat = 0x20 := rfl
      omega
    constructor
    · rintro rfl; omega
    · rintro rfl; omega
  · rfl

theorem notMem_lowercase (hm : x ∉ h)
    (hx : x.toNat < 0x41 ∨ 0x5A < x.toNat ∧ x.toNat < 0x61 ∨ 0x7A < x.toNat) : x ∉ h.map toAsciiLowercase := by
  intro hmem
  obtain ⟨b, hb, he⟩ := mem_map.mp hmem
  exact hm ((toAsciiLowercase_eq_iff hx).mp he ▸ hb)

theorem toAsciiLowercase_idem (b : UInt8) : toAsciiLowercase (toAsciiLowercase b) = toAsciiLowercase b := by
  revert b
  exact forall_uint8 (by decide +kernel)

theorem map_lowercase_idem (h : Bytes) : (h.map toAsciiLowercase).map toAsciiLowercase = h.map toAsciiLowercase := by
  rw [map_map]
  exact map_congr_left fun b _ => toAsciiLowercase_idem b

/-- `set_host` to the host in lower case. -/
def Url.lowercaseHost (u : Url) : Url :=
  ⟨{ u.toParts with host := u.host.map (List.map toAsciiLowercase) },
    { u.wf with
      host_authority := fun h => u.wf.host_authority (by simpa using h)
      host_ne := by
        intro he
        obtain ⟨h, hh, hn⟩ := Option.map_eq_some_iff.mp he
        exact u.wf.host_ne (by rw [hh, map_eq_nil_iff.mp hn])
      host_bytes := by
        intro h' hh'
        obtain ⟨h, hh, rfl⟩ := Option.map_eq_some_iff.mp hh'
        obtain ⟨h1, h2, h3, h4⟩ := u.wf.host_bytes h hh
        exact ⟨notMem_lowercase h1 (by decide), notMem_lowercase h2 (by decide),
          notMem_lowercase h3 (by decide), notMem_lowercase h4 (by decide)⟩
      host_colon := by
        intro h' hh' hc
        obtain ⟨h, hh, rfl⟩ := Option.map_eq_some_iff.mp hh'
        obtain ⟨b, hb, he⟩ := mem_map.mp hc
        rw [toAsciiLowercase_eq_iff (by decide)] at he
        rw [List.getLast?_map, u.wf.host_colon h hh (he ▸ hb)]
        rfl
      userinfo_host := fun h => by simpa using u.wf.userinfo_host h
      port_host := fun h => by simpa using u.wf.port_host h
      special_host := fun h hf => by simpa using u.wf.special_host h hf
      special_lowercase := by
        intro _ h' hh'
        obtain ⟨h, hh, rfl⟩ := Option.map_eq_some_iff.mp hh'
        exact map_lowercase_idem h }⟩

end OvStorage.Address
