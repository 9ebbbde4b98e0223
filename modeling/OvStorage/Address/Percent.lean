import Mathlib.Data.List.Basic
import Mathlib.Data.List.Infix
import Mathlib.Data.Fintype.Basic

/-!
# Percent escapes

An address's path is handled three ways: as the *key* it names, an arbitrary
byte string; as the *escaped* path of the URL; and as the text a caller typed.
This module is the passage between the first two: `percentDecode` and
`percentEncode`, and the three escape sets of `ovstorage-layer/src/address.rs`
(`CANONICAL_PATH`, `CANONICAL_FILE_PATH`, `CANONICAL_FILE_SHARE_PATH`).

## The model

A Rust `&[u8]`, `Vec<u8>` and the bytes of a `&str` are all `Bytes`, a list of
`UInt8`. An `AsciiSet` of the `percent-encoding` crate is its membership test;
`percentEncode` escapes the members of the set and every byte that is not ASCII,
as two upper-case hexadecimal digits. `percentDecode` is the decoder of
`ovstorage-plugin/src/address.rs`: it replaces each `%` that is followed by two
hexadecimal digits, and keeps every other byte, a lone `%` included.

## What is proved

* `percentDecode_percentEncode`: decoding inverts encoding, for every set that holds `%`.
* `percentDecode_append_slash`: a path may be split before it is decoded or after.
-/

namespace OvStorage.Address

open List

/-- The bytes of a Rust `&[u8]`, `Vec<u8>` or `&str`. -/
abbrev Bytes := List UInt8

instance lawfulBEq_bytes : LawfulBEq (List UInt8) := inferInstance

/-- The bytes of a text, as a Rust `&str` holds them. -/
def utf8 (s : String) : Bytes := s.toByteArray.data.toList

theorem fromUTF8?_eq_some_iff {b : Bytes} {s : String} : String.fromUTF8? ⟨b.toArray⟩ = some s ↔ b = utf8 s := by
  simp only [String.fromUTF8?]
  constructor
  · intro h
    split_ifs at h with hvalid
    cases h
    simp [utf8, String.fromUTF8]
  · rintro rfl
    have harray : (⟨(utf8 s).toArray⟩ : ByteArray) = s.toByteArray := by simp [utf8]
    rw [dif_pos (by rw [harray]; exact s.isValidUTF8)]
    simp [String.fromUTF8, harray]

/-- `b'/'`. -/
abbrev slash : UInt8 := 0x2F

/-- `b'%'`. -/
abbrev percent : UInt8 := 0x25

/-! ### Hexadecimal digits -/

/-- The upper-case digit of `n < 16`. -/
def hexUpper (n : ℕ) : UInt8 := UInt8.ofNat (if n < 10 then 0x30 + n else 0x37 + n)

/-- `hex_digit`: the value of a hexadecimal digit, in either case. -/
def hexDigit (b : UInt8) : Option UInt8 :=
  if 0x30 ≤ b ∧ b ≤ 0x39 then some (b - 0x30)
  else if 0x61 ≤ b ∧ b ≤ 0x66 then some (b - 0x61 + 10)
  else if 0x41 ≤ b ∧ b ≤ 0x46 then some (b - 0x41 + 10)
  else none

/-- The byte that `b h l` spells, when it is `%` and two hexadecimal digits. -/
def unescape (b h l : UInt8) : Option UInt8 :=
  if b = percent then
    match hexDigit h, hexDigit l with
    | some h, some l => some ((h <<< 4) ||| l)
    | _, _ => none
  else none

/-- A property of bytes may be checked on the 256 of them. -/
theorem forall_uint8 {P : UInt8 → Prop} (h : ∀ n : Fin 256, P (UInt8.ofNat n)) (b : UInt8) : P b := by
  have hb := h ⟨b.toNat, b.toNat_lt⟩
  rwa [UInt8.ofNat_toNat] at hb

theorem unescape_hexUpper (b : UInt8) :
    unescape percent (hexUpper (b.toNat / 16)) (hexUpper (b.toNat % 16)) = some b := by
  revert b
  exact forall_uint8 (by decide +kernel)

variable {a b h l v x : UInt8}

theorem unescape_of_ne (hb : b ≠ percent) (h l : UInt8) : unescape b h l = none := by
  simp [unescape, hb]

/-! ### Decoding -/

/-- `percent_decode`: each `%` followed by two hexadecimal digits becomes their byte. -/
def percentDecode : Bytes → Bytes
  | [] => []
  | [a] => [a]
  | [a, b] => [a, b]
  | a :: h :: l :: rest =>
    match unescape a h l with
    | some v => v :: percentDecode rest
    | none => a :: percentDecode (h :: l :: rest)

attribute [local grind =] percentDecode

theorem percentDecode_escape (hv : unescape a h l = some v) (rest : Bytes) :
    percentDecode (a :: h :: l :: rest) = v :: percentDecode rest := by
  rw [percentDecode, hv]

theorem percentDecode_keep (hv : unescape a h l = none) (rest : Bytes) :
    percentDecode (a :: h :: l :: rest) = a :: percentDecode (h :: l :: rest) := by
  rw [percentDecode, hv]

/-- A byte other than `%` stands for itself. -/
theorem percentDecode_cons (ha : a ≠ percent) (rest : Bytes) : percentDecode (a :: rest) = a :: percentDecode rest := by
  match rest with
  | [] => rfl
  | [_] => rfl
  | h :: l :: rest => exact percentDecode_keep (unescape_of_ne ha h l) rest

theorem hexDigit_slash : hexDigit slash = none := by decide

theorem unescape_slash_left (a l : UInt8) : unescape a slash l = none := by
  unfold unescape; rw [hexDigit_slash]; split <;> rfl

theorem unescape_slash_right (a h : UInt8) : unescape a h slash = none := by
  unfold unescape
  rw [hexDigit_slash]
  split
  · cases hexDigit h <;> rfl
  · rfl

/-- No escape reaches across a `/`. -/
theorem percentDecode_append_slash (xs ys : Bytes) :
    percentDecode (xs ++ slash :: ys) = percentDecode xs ++ slash :: percentDecode ys := by
  induction xs using percentDecode.induct with
  | case1 => exact percentDecode_cons (by decide) ys
  | case2 a =>
    cases ys with
    | nil => rfl
    | cons y ys =>
      rw [singleton_append, percentDecode_keep (unescape_slash_left a y), percentDecode_cons (by decide)]
      rfl
  | case3 a b =>
    rw [cons_append, cons_append, nil_append, percentDecode_keep (unescape_slash_right a b)]
    cases ys with
    | nil => rfl
    | cons y ys =>
      rw [percentDecode_keep (unescape_slash_left b y), percentDecode_cons (by decide)]
      rfl
  | case4 a h l rest v hv ih =>
    rw [cons_append, cons_append, cons_append, percentDecode_escape hv,
      percentDecode_escape hv, ih, cons_append]
  | case5 a h l rest hv ih =>
    rw [cons_append, cons_append] at ih
    rw [cons_append, cons_append, cons_append, percentDecode_keep hv,
      percentDecode_keep hv, ih, cons_append]

variable {bs es s : Bytes}

theorem percentDecode_eq_nil : percentDecode s = [] ↔ s = [] := by
  constructor
  · intro h
    induction s using percentDecode.induct with
    | case1 => rfl
    | case2 a => cases h
    | case3 a b => cases h
    | case4 a h' l rest v hv ih => rw [percentDecode_escape hv] at h; cases h
    | case5 a h' l rest hv ih => rw [percentDecode_keep hv] at h; cases h
  · rintro rfl
    rfl

/-- A byte of a decoded text stands in it, or is spelled by an escape in it. -/
theorem mem_percentDecode (hv : v ∈ percentDecode s) :
    v ∈ s ∨ ∃ h l, [percent, h, l] <:+: s ∧ unescape percent h l = some v := by
  induction s using percentDecode.induct with
  | case1 => exact Or.inl hv
  | case2 a => exact Or.inl hv
  | case3 a b => exact Or.inl hv
  | case4 a h l rest w hw ih =>
    rw [percentDecode_escape hw] at hv
    rcases mem_cons.mp hv with rfl | hv
    · have ha : a = percent := by
        by_contra hne
        rw [unescape_of_ne hne] at hw
        cases hw
      subst ha
      exact Or.inr ⟨h, l, ⟨[], rest, rfl⟩, hw⟩
    · rcases ih hv with hm | ⟨h', l', hin, he⟩
      · exact Or.inl (by simp [hm])
      · exact Or.inr ⟨h', l', hin.trans ⟨[a, h, l], [], by simp⟩, he⟩
  | case5 a h l rest hw ih =>
    rw [percentDecode_keep hw] at hv
    rcases mem_cons.mp hv with rfl | hv
    · exact Or.inl mem_cons_self
    · rcases ih hv with hm | ⟨h', l', hin, he⟩
      · exact Or.inl (mem_cons_of_mem a hm)
      · exact Or.inr ⟨h', l', hin.trans ⟨[a], [], by simp⟩, he⟩

/-! ### Encoding -/

/-- `percent_encoding::AsciiSet`, by its membership test. -/
abbrev AsciiSet := UInt8 → Bool

/-- `AsciiSet::add`. -/
def AsciiSet.add (set : AsciiSet) (b : UInt8) : AsciiSet := fun x => x == b || set x

/-- `percent_encoding::CONTROLS`: the C0 controls and DEL. -/
def CONTROLS : AsciiSet := fun b => b < 0x20 || b == 0x7F

/-- `AsciiSet::should_percent_encode`: a member of the set, or not ASCII. -/
def shouldPercentEncode (set : AsciiSet) (b : UInt8) : Bool := 0x80 ≤ b || set b

/-- One byte, escaped if the set asks for it. -/
def encodeByte (set : AsciiSet) (b : UInt8) : Bytes :=
  if shouldPercentEncode set b then [percent, hexUpper (b.toNat / 16), hexUpper (b.toNat % 16)] else [b]

/-- `percent_encode`. -/
def percentEncode (set : AsciiSet) (bs : Bytes) : Bytes := bs.flatMap (encodeByte set)

/-- `CANONICAL_PATH`: the `url` crate's own `PATH` set, then `%` and `\`. -/
def CANONICAL_PATH : AsciiSet :=
  ((((((((((CONTROLS.add 0x20).add 0x22).add 0x3C).add 0x3E).add 0x60).add 0x23).add 0x3F).add 0x7B).add
    0x7D).add 0x25).add 0x5C

/-- `CANONICAL_FILE_PATH`: and `|`, for a `file:` path with no host. -/
def CANONICAL_FILE_PATH : AsciiSet := CANONICAL_PATH.add 0x7C

/-- `CANONICAL_FILE_SHARE_PATH`: and `:`, for a `file:` path that has a host. -/
def CANONICAL_FILE_SHARE_PATH : AsciiSet := CANONICAL_FILE_PATH.add 0x3A

@[simp] theorem percentEncode_nil (set : AsciiSet) : percentEncode set [] = [] := rfl

theorem percentEncode_cons (set : AsciiSet) (b : UInt8) (bs : Bytes) :
    percentEncode set (b :: bs) = encodeByte set b ++ percentEncode set bs := rfl

theorem percentEncode_append (set : AsciiSet) (xs ys : Bytes) :
    percentEncode set (xs ++ ys) = percentEncode set xs ++ percentEncode set ys := by
  simp [percentEncode]

variable {set : AsciiSet}

theorem encodeByte_of_not (h : shouldPercentEncode set b = false) : encodeByte set b = [b] := by
  simp [encodeByte, h]

theorem percentDecode_encodeByte (hp : set percent = true) (b : UInt8) (rest : Bytes) :
    percentDecode (encodeByte set b ++ rest) = b :: percentDecode rest := by
  unfold encodeByte
  split
  · exact percentDecode_escape (unescape_hexUpper b) rest
  · -- `b` is not in the set, and `%` is
    have hb : b ≠ percent := by
      rintro rfl
      simp_all [shouldPercentEncode]
    exact percentDecode_cons hb rest

/-- Decoding inverts encoding. -/
theorem percentDecode_percentEncode (hp : set percent = true) (bs : Bytes) :
    percentDecode (percentEncode set bs) = bs := by
  induction bs with
  | nil => rfl
  | cons b bs ih => rw [percentEncode_cons, percentDecode_encodeByte hp, ih]

theorem percentEncode_injective (hp : set percent = true) {xs ys : Bytes}
    (h : percentEncode set xs = percentEncode set ys) : xs = ys := by
  rw [← percentDecode_percentEncode hp xs, h, percentDecode_percentEncode hp]

theorem hexDigit_hexUpper : ∀ b : UInt8, (hexDigit (hexUpper (b.toNat / 16))).isSome = true ∧
    (hexDigit (hexUpper (b.toNat % 16))).isSome = true :=
  forall_uint8 (by decide +kernel)

/-- A byte of an escaped text is a `%`, a digit of an escape, or a byte the set lets through. -/
theorem mem_percentEncode (hx : x ∈ percentEncode set bs) :
    x = percent ∨ (hexDigit x).isSome = true ∨ (x ∈ bs ∧ shouldPercentEncode set x = false) := by
  obtain ⟨b, hb, hx⟩ := mem_flatMap.mp hx
  unfold encodeByte at hx
  split at hx
  · simp only [mem_cons, not_mem_nil, or_false] at hx
    rcases hx with h | h | h
    · exact Or.inl h
    · rw [h]; exact Or.inr (Or.inl (hexDigit_hexUpper b).1)
    · rw [h]; exact Or.inr (Or.inl (hexDigit_hexUpper b).2)
  · rename_i hs
    rw [mem_singleton] at hx
    subst hx
    exact Or.inr (Or.inr ⟨hb, by simpa using hs⟩)

theorem percentEncode_eq_nil_iff : percentEncode set bs = [] ↔ bs = [] := by
  cases bs with
  | nil => simp
  | cons b bs =>
    rw [percentEncode_cons]
    unfold encodeByte
    split <;> simp

/-- No escape begins with what an unfinished escape was followed by. -/
theorem percentDecode_percent (h : ∀ x y rest, es = x :: y :: rest → unescape percent x y = none) :
    percentDecode (percent :: es) = percent :: percentDecode es := by
  match es with
  | [] => rfl
  | [_] => rfl
  | x :: y :: rest => exact percentDecode_keep (h x y rest rfl) rest

theorem unescape_percent_none {y : UInt8} (h : hexDigit x = none ∨ hexDigit y = none) :
    unescape percent x y = none := by
  unfold unescape
  rw [if_pos rfl]
  rcases h with h | h
  · rw [h]
  · rw [h]
    cases hexDigit x <;> rfl

/-- The digits of an escape. -/
theorem unescape_eq_some (hv : unescape a h l = some v) :
    a = percent ∧ ∃ x y, hexDigit h = some x ∧ hexDigit l = some y ∧ v = (x <<< 4) ||| y := by
  unfold unescape at hv
  split_ifs at hv with ha
  split at hv
  · rename_i x y hx hy
    exact ⟨ha, x, y, hx, hy, (Option.some.inj hv).symm⟩
  · cases hv

/-- A set that lets escapes through. -/
def AsciiSet.KeepsEscapes (set : AsciiSet) : Prop :=
  ∀ b, b = percent ∨ (hexDigit b).isSome = true → shouldPercentEncode set b = false

/-- The first byte of an escaped text is the one of the text, or a `%`. -/
theorem encodeByte_head (hb : hexDigit b = none) {rest : Bytes}
    (h : x :: rest = encodeByte set b ++ es) : hexDigit x = none := by
  unfold encodeByte at h
  split at h
  · rw [(List.cons.inj h).1]; decide
  · rw [(List.cons.inj h).1]; exact hb

/-- Escaping with such a set keeps what the text decodes to. -/
theorem percentDecode_percentEncode_keeps (hset : set.KeepsEscapes) (s : Bytes) :
    percentDecode (percentEncode set s) = percentDecode s := by
  -- a byte in front is kept, unless it is a `%` that begins an escape
  have hcons : ∀ b rest, b ≠ percent → percentDecode (percentEncode set (b :: rest)) =
      b :: percentDecode (percentEncode set rest) := by
    intro b rest hb
    rw [percentEncode_cons]
    unfold encodeByte
    split
    · exact percentDecode_escape (unescape_hexUpper b) _
    · exact percentDecode_cons hb _
  have hpercent : ∀ rest, (∀ x y r, percentEncode set rest = x :: y :: r → unescape percent x y = none) →
      percentDecode (percentEncode set (percent :: rest)) = percent :: percentDecode (percentEncode set rest) := by
    intro rest h
    rw [percentEncode_cons, encodeByte_of_not (hset percent (Or.inl rfl))]
    exact percentDecode_percent h
  induction s using percentDecode.induct with
  | case1 => rfl
  | case2 a =>
    by_cases ha : a = percent
    · subst ha
      exact hpercent [] (by simp)
    · exact hcons a [] ha
  | case3 a b =>
    have hb : percentDecode (percentEncode set [b]) = [b] := by
      by_cases hb : b = percent
      · subst hb
        exact hpercent [] (by simp)
      · exact hcons b [] hb
    by_cases ha : a = percent
    · subst ha
      rw [hpercent [b], hb]
      · rfl
      · -- what follows the `%` is one byte, or an escape of one
        intro x y r he
        rw [percentEncode_cons, percentEncode_nil, append_nil] at he
        unfold encodeByte at he
        split at he
        · rw [← (List.cons.inj he).1]
          exact unescape_percent_none (Or.inl (by decide))
        · simp at he
    · rw [hcons a [b] ha, hb]
      rfl
  | case4 a h l rest v hv ih =>
    obtain ⟨rfl, x, y, hx, hy, -⟩ := unescape_eq_some hv
    rw [percentDecode_escape hv, percentEncode_cons, percentEncode_cons, percentEncode_cons,
      encodeByte_of_not (hset percent (Or.inl rfl)), encodeByte_of_not (hset h (Or.inr (by simp [hx]))),
      encodeByte_of_not (hset l (Or.inr (by simp [hy])))]
    simp only [singleton_append]
    rw [percentDecode_escape hv, ih]
  | case5 a h l rest hv ih =>
    rw [percentDecode_keep hv, ← ih]
    by_cases ha : a = percent
    · subst ha
      refine hpercent _ ?_
      intro x y r he
      rw [percentEncode_cons] at he
      cases hh : hexDigit h with
      | none => exact unescape_percent_none (Or.inl (encodeByte_head hh he.symm))
      | some w =>
        rw [encodeByte_of_not (hset h (Or.inr (by simp [hh]))), percentEncode_cons, singleton_append] at he
        have hl : hexDigit l = none := by
          cases hl : hexDigit l with
          | none => rfl
          | some z => simp [unescape, hh, hl] at hv
        exact unescape_percent_none (Or.inr (encodeByte_head hl (List.cons.inj he).2.symm))
    · exact hcons a _ ha

end OvStorage.Address
