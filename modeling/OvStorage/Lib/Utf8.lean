import Mathlib.Data.List.Forall2
import OvStorage.Lib.Wire

/-!
# Well-formed UTF-8, by the table of its sequences

Which byte sequences encode a character, by the bytes that may begin one and those that may follow
(`table`), and that these are what `String.utf8EncodeChar` writes (`sequence_iff`). The first byte
says how long a sequence is, so a string is well formed in at most one way (`wellFormed_append_iff`),
and the strings that are concatenations of sequences are the valid ones (`wellFormed_iff_isValidUTF8`).
-/

namespace Utf8

open Wire (Bytes)

/-- The bytes from one to another. -/
structure Range where
  low : UInt8
  high : UInt8
deriving DecidableEq

def Range.Contains (r : Range) (x : UInt8) : Prop := r.low ≤ x ∧ x ≤ r.high

instance (r : Range) (x : UInt8) : Decidable (r.Contains x) := inferInstanceAs (Decidable (_ ∧ _))

variable {x y z u : UInt8}

theorem Range.contains_iff {low high : UInt8} :
    (Range.mk low high).Contains x ↔ low.toNat ≤ x.toNat ∧ x.toNat ≤ high.toNat := Iff.rfl

/-- A continuation byte. -/
def continuation : Range := ⟨0x80, 0xbf⟩

/-- The first bytes of a row, and what may follow them. -/
structure Row where
  first : Range
  tails : List Range

/-- The sequences that encode a character: the shortest for it, and none for a surrogate. -/
def table : List Row :=
  [⟨⟨0x00, 0x7f⟩, []⟩,
    ⟨⟨0xc2, 0xdf⟩, [continuation]⟩,
    ⟨⟨0xe0, 0xe0⟩, [⟨0xa0, 0xbf⟩, continuation]⟩,
    ⟨⟨0xe1, 0xec⟩, [continuation, continuation]⟩,
    ⟨⟨0xed, 0xed⟩, [⟨0x80, 0x9f⟩, continuation]⟩,
    ⟨⟨0xee, 0xef⟩, [continuation, continuation]⟩,
    ⟨⟨0xf0, 0xf0⟩, [⟨0x90, 0xbf⟩, continuation, continuation]⟩,
    ⟨⟨0xf1, 0xf3⟩, [continuation, continuation, continuation]⟩,
    ⟨⟨0xf4, 0xf4⟩, [⟨0x80, 0x8f⟩, continuation, continuation]⟩]

/-- What may follow a first byte. -/
def follow (x : UInt8) : Option (List Range) := (table.find? fun row => row.first.Contains x).map Row.tails

variable {tails : List Range}

theorem exists_row (h : follow x = some tails) : ∃ row ∈ table, row.first.Contains x ∧ row.tails = tails := by
  obtain ⟨row, hrow, htails⟩ := Option.map_eq_some_iff.mp h
  exact ⟨row, List.mem_of_find?_eq_some hrow, by simpa using List.find?_some hrow, htails⟩

/-- A byte is the first of one row at most. -/
theorem follow_eq_some {row : Row} (hrow : row ∈ table) (hx : row.first.Contains x) : follow x = some row.tails := by
  have hall : ∀ n : Fin 256, ∀ row ∈ table, row.first.Contains (UInt8.ofNat n) →
      follow (UInt8.ofNat n) = some row.tails := by
    decide +kernel
  have hfollow := hall ⟨x.toNat, x.toNat_lt⟩ row hrow
  simp only [UInt8.ofNat_toNat] at hfollow
  exact hfollow hx

/-- The bytes encode a character. -/
def Sequence : Bytes → Prop
  | [] => False
  | x :: ys => ∃ tails, follow x = some tails ∧ List.Forall₂ Range.Contains tails ys

/-- The bytes are sequences in a row. -/
def WellFormed (b : Bytes) : Prop := ∃ ws : List Bytes, (∀ w ∈ ws, Sequence w) ∧ b = ws.flatten

/-! ### One sequence at a time -/

variable {w r ys b : Bytes}

theorem Sequence.ne_nil (h : Sequence w) : w ≠ [] := by
  rintro rfl
  exact h

/-- No sequence begins another. -/
theorem Sequence.append_inj {w' r' : Bytes} (h : Sequence w) (h' : Sequence w') (heq : w ++ r = w' ++ r') :
    w = w' ∧ r = r' := by
  have hlength : w.length = w'.length := by
    cases w with
    | nil => exact h.elim
    | cons x ys =>
      cases w' with
      | nil => exact h'.elim
      | cons x' ys' =>
        obtain ⟨tails, hfollow, hys⟩ := h
        obtain ⟨tails', hfollow', hys'⟩ := h'
        rw [← (List.cons.inj heq).1, hfollow] at hfollow'
        cases hfollow'
        simp only [List.length_cons, ← hys.length_eq, ← hys'.length_eq]
  exact List.append_inj heq hlength

@[simp] theorem wellFormed_nil : WellFormed [] := ⟨[], by simp, rfl⟩

/-- What is behind a sequence is well formed if the whole is. -/
theorem wellFormed_append_iff (hw : Sequence w) : WellFormed (w ++ r) ↔ WellFormed r := by
  constructor
  · rintro ⟨ws, hws, heq⟩
    cases ws with
    | nil => exact absurd (List.append_eq_nil_iff.mp heq).1 hw.ne_nil
    | cons w' ws =>
      obtain ⟨hw', hws⟩ := List.forall_mem_cons.mp hws
      exact ⟨ws, hws, (hw.append_inj hw' heq).2⟩
  · rintro ⟨ws, hws, rfl⟩
    exact ⟨w :: ws, List.forall_mem_cons.mpr ⟨hw, hws⟩, rfl⟩

/-- A well-formed string begins with a sequence. -/
theorem WellFormed.exists_sequence (h : WellFormed b) (hb : b ≠ []) : ∃ w r, Sequence w ∧ b = w ++ r := by
  obtain ⟨ws, hws, rfl⟩ := h
  cases ws with
  | nil => exact absurd rfl hb
  | cons w ws => exact ⟨w, ws.flatten, (List.forall_mem_cons.mp hws).1, rfl⟩

/-- The first byte says what is to follow, and where the next sequence begins. -/
theorem wellFormed_cons_iff : WellFormed (x :: r) ↔ ∃ tails, follow x = some tails ∧
    List.Forall₂ Range.Contains tails (r.take tails.length) ∧ WellFormed (r.drop tails.length) := by
  constructor
  · intro h
    obtain ⟨w, r', hw, heq⟩ := h.exists_sequence (List.cons_ne_nil x r)
    cases w with
    | nil => exact hw.elim
    | cons y ys =>
      rw [heq, wellFormed_append_iff hw] at h
      rw [List.cons_append] at heq
      cases heq
      obtain ⟨tails, hfollow, hys⟩ := hw
      refine ⟨tails, hfollow, ?_, ?_⟩
      · rw [hys.length_eq, List.take_left]
        exact hys
      · rw [hys.length_eq, List.drop_left]
        exact h
  · rintro ⟨tails, hfollow, hys, hr⟩
    have hw : Sequence (x :: r.take tails.length) := ⟨tails, hfollow, hys⟩
    have happend := (wellFormed_append_iff hw).mpr hr
    rwa [List.cons_append, List.take_append_drop] at happend

/-! ### What encodes a character -/

variable {n : ℕ}

/-- A character of a scalar value. -/
theorem exists_char (h : n < 0xd800 ∨ 0xdfff < n ∧ n < 0x110000) : ∃ c : Char, c.val.toNat = n := by
  refine ⟨⟨UInt32.ofNat n, ?_⟩, ?_⟩
  · have hn : n % 2 ^ 32 = n := Nat.mod_eq_of_lt (by omega)
    simpa only [UInt32.isValidChar, UInt32.toNat_ofNat', hn] using h
  · rw [UInt32.toNat_ofNat']
    exact Nat.mod_eq_of_lt (by omega)

theorem ofNat_eq_iff (h : n < 256) : x = UInt8.ofNat n ↔ x.toNat = n := by
  rw [← UInt8.toNat_inj, UInt8.toNat_ofNat', Nat.mod_eq_of_lt h]

theorem exists_encode_one (hx : x.toNat ≤ 0x7f) : ∃ c, [x] = String.utf8EncodeChar c := by
  obtain ⟨c, hc⟩ := exists_char (n := x.toNat) (.inl (by omega))
  refine ⟨c, ?_⟩
  simp only [String.utf8EncodeChar, hc]
  rw [if_pos hx, UInt8.ofNat_toNat]

theorem exists_encode_two (hx : 0xc2 ≤ x.toNat ∧ x.toNat ≤ 0xdf) (hy : 0x80 ≤ y.toNat ∧ y.toNat ≤ 0xbf) :
    ∃ c, [x, y] = String.utf8EncodeChar c := by
  obtain ⟨c, hc⟩ := exists_char (n := (x.toNat - 0xc0) * 64 + (y.toNat - 0x80)) (.inl (by omega))
  refine ⟨c, ?_⟩
  simp only [String.utf8EncodeChar, hc]
  rw [if_neg (by omega), if_pos (by omega)]
  simp only [List.cons.injEq, and_true]
  exact ⟨(ofNat_eq_iff (by omega)).mpr (by omega), (ofNat_eq_iff (by omega)).mpr (by omega)⟩

theorem exists_encode_three (hx : 0xe0 ≤ x.toNat ∧ x.toNat ≤ 0xef) (hy : 0x80 ≤ y.toNat ∧ y.toNat ≤ 0xbf)
    (hz : 0x80 ≤ z.toNat ∧ z.toNat ≤ 0xbf) (hshort : x.toNat = 0xe0 → 0xa0 ≤ y.toNat)
    (hsurrogate : x.toNat = 0xed → y.toNat ≤ 0x9f) :
    ∃ c, [x, y, z] = String.utf8EncodeChar c := by
  obtain ⟨c, hc⟩ := exists_char (n := (x.toNat - 0xe0) * 4096 + (y.toNat - 0x80) * 64 + (z.toNat - 0x80)) (by omega)
  refine ⟨c, ?_⟩
  simp only [String.utf8EncodeChar, hc]
  rw [if_neg (by omega), if_neg (by omega), if_pos (by omega)]
  simp only [List.cons.injEq, and_true]
  exact ⟨(ofNat_eq_iff (by omega)).mpr (by omega), (ofNat_eq_iff (by omega)).mpr (by omega),
    (ofNat_eq_iff (by omega)).mpr (by omega)⟩

theorem exists_encode_four (hx : 0xf0 ≤ x.toNat ∧ x.toNat ≤ 0xf4) (hy : 0x80 ≤ y.toNat ∧ y.toNat ≤ 0xbf)
    (hz : 0x80 ≤ z.toNat ∧ z.toNat ≤ 0xbf) (hu : 0x80 ≤ u.toNat ∧ u.toNat ≤ 0xbf)
    (hshort : x.toNat = 0xf0 → 0x90 ≤ y.toNat) (hlast : x.toNat = 0xf4 → y.toNat ≤ 0x8f) :
    ∃ c, [x, y, z, u] = String.utf8EncodeChar c := by
  obtain ⟨c, hc⟩ := exists_char
    (n := (x.toNat - 0xf0) * 262144 + (y.toNat - 0x80) * 4096 + (z.toNat - 0x80) * 64 + (u.toNat - 0x80)) (by omega)
  refine ⟨c, ?_⟩
  simp only [String.utf8EncodeChar, hc]
  rw [if_neg (by omega), if_neg (by omega), if_neg (by omega)]
  simp only [List.cons.injEq, and_true]
  exact ⟨(ofNat_eq_iff (by omega)).mpr (by omega), (ofNat_eq_iff (by omega)).mpr (by omega),
    (ofNat_eq_iff (by omega)).mpr (by omega),
    (ofNat_eq_iff (by omega)).mpr (by omega)⟩

/-- A row of the table encodes a character. -/
theorem Sequence.exists_encode (h : Sequence w) : ∃ c, w = String.utf8EncodeChar c := by
  cases w with
  | nil => exact h.elim
  | cons x ys =>
    obtain ⟨tails, hfollow, hys⟩ := h
    obtain ⟨row, hrow, hx, rfl⟩ := exists_row hfollow
    simp only [table, List.mem_cons, List.not_mem_nil, or_false] at hrow
    rcases hrow with rfl | rfl | rfl | rfl | rfl | rfl | rfl | rfl | rfl <;>
      simp only [continuation, List.forall₂_cons_left_iff, List.forall₂_nil_left_iff, Range.contains_iff] at hx hys <;>
      simp only [UInt8.reduceToNat] at hx hys
    · subst hys
      exact exists_encode_one hx.2
    · obtain ⟨y, _, hy, rfl, rfl⟩ := hys
      exact exists_encode_two hx hy
    · obtain ⟨y, _, hy, ⟨z, _, hz, rfl, rfl⟩, rfl⟩ := hys
      exact exists_encode_three (by omega) (by omega) hz (by omega) (by omega)
    · obtain ⟨y, _, hy, ⟨z, _, hz, rfl, rfl⟩, rfl⟩ := hys
      exact exists_encode_three (by omega) hy hz (by omega) (by omega)
    · obtain ⟨y, _, hy, ⟨z, _, hz, rfl, rfl⟩, rfl⟩ := hys
      exact exists_encode_three (by omega) (by omega) hz (by omega) (by omega)
    · obtain ⟨y, _, hy, ⟨z, _, hz, rfl, rfl⟩, rfl⟩ := hys
      exact exists_encode_three (by omega) hy hz (by omega) (by omega)
    · obtain ⟨y, _, hy, ⟨z, _, hz, ⟨u, _, hu, rfl, rfl⟩, rfl⟩, rfl⟩ := hys
      exact exists_encode_four (by omega) (by omega) hz hu (by omega) (by omega)
    · obtain ⟨y, _, hy, ⟨z, _, hz, ⟨u, _, hu, rfl, rfl⟩, rfl⟩, rfl⟩ := hys
      exact exists_encode_four (by omega) hy hz hu (by omega) (by omega)
    · obtain ⟨y, _, hy, ⟨z, _, hz, ⟨u, _, hu, rfl, rfl⟩, rfl⟩, rfl⟩ := hys
      exact exists_encode_four (by omega) (by omega) hz hu (by omega) (by omega)

theorem sequence_of_row {w : Row} (hrow : w ∈ table) (hx : w.first.Contains x)
    (hys : List.Forall₂ Range.Contains w.tails ys) : Sequence (x :: ys) :=
  ⟨w.tails, follow_eq_some hrow hx, hys⟩

theorem sequence_three (hx : 0xe0 ≤ x.toNat ∧ x.toNat ≤ 0xef) (hy : 0x80 ≤ y.toNat ∧ y.toNat ≤ 0xbf)
    (hz : continuation.Contains z) (hshort : x.toNat = 0xe0 → 0xa0 ≤ y.toNat)
    (hsurrogate : x.toNat = 0xed → y.toNat ≤ 0x9f) :
    Sequence [x, y, z] := by
  have hrows : x.toNat = 0xe0 ∨ (0xe1 ≤ x.toNat ∧ x.toNat ≤ 0xec) ∨ x.toNat = 0xed ∨
      (0xee ≤ x.toNat ∧ x.toNat ≤ 0xef) := by
    omega
  rcases hrows with h | h | h | h
  · exact sequence_of_row (w := ⟨⟨0xe0, 0xe0⟩, [⟨0xa0, 0xbf⟩, continuation]⟩) (by simp [table])
      (Range.contains_iff.mpr ⟨h.ge, h.le⟩) (.cons (Range.contains_iff.mpr ⟨hshort h, hy.2⟩) (.cons hz .nil))
  · exact sequence_of_row (w := ⟨⟨0xe1, 0xec⟩, [continuation, continuation]⟩) (by simp [table])
      (Range.contains_iff.mpr h) (.cons (Range.contains_iff.mpr hy) (.cons hz .nil))
  · exact sequence_of_row (w := ⟨⟨0xed, 0xed⟩, [⟨0x80, 0x9f⟩, continuation]⟩) (by simp [table])
      (Range.contains_iff.mpr ⟨h.ge, h.le⟩) (.cons (Range.contains_iff.mpr ⟨hy.1, hsurrogate h⟩) (.cons hz .nil))
  · exact sequence_of_row (w := ⟨⟨0xee, 0xef⟩, [continuation, continuation]⟩) (by simp [table])
      (Range.contains_iff.mpr h) (.cons (Range.contains_iff.mpr hy) (.cons hz .nil))

theorem sequence_four (hx : 0xf0 ≤ x.toNat ∧ x.toNat ≤ 0xf4) (hy : 0x80 ≤ y.toNat ∧ y.toNat ≤ 0xbf)
    (hz : continuation.Contains z) (hu : continuation.Contains u) (hshort : x.toNat = 0xf0 → 0x90 ≤ y.toNat)
    (hlast : x.toNat = 0xf4 → y.toNat ≤ 0x8f) : Sequence [x, y, z, u] := by
  have hrows : x.toNat = 0xf0 ∨ (0xf1 ≤ x.toNat ∧ x.toNat ≤ 0xf3) ∨ x.toNat = 0xf4 := by omega
  rcases hrows with h | h | h
  · exact sequence_of_row (w := ⟨⟨0xf0, 0xf0⟩, [⟨0x90, 0xbf⟩, continuation, continuation]⟩) (by simp [table])
      (Range.contains_iff.mpr ⟨h.ge, h.le⟩) (.cons (Range.contains_iff.mpr ⟨hshort h, hy.2⟩) (.cons hz (.cons hu .nil)))
  · exact sequence_of_row (w := ⟨⟨0xf1, 0xf3⟩, [continuation, continuation, continuation]⟩) (by simp [table])
      (Range.contains_iff.mpr h) (.cons (Range.contains_iff.mpr hy) (.cons hz (.cons hu .nil)))
  · exact sequence_of_row (w := ⟨⟨0xf4, 0xf4⟩, [⟨0x80, 0x8f⟩, continuation, continuation]⟩) (by simp [table])
      (Range.contains_iff.mpr ⟨h.ge, h.le⟩) (.cons (Range.contains_iff.mpr ⟨hy.1, hlast h⟩) (.cons hz (.cons hu .nil)))

theorem toNat_ofNat_of_lt (h : n < 256) : (UInt8.ofNat n).toNat = n := (ofNat_eq_iff h).mp rfl

theorem contains_continuation (n : ℕ) : continuation.Contains (UInt8.ofNat (n % 0x40 + 0x80)) := by
  rw [continuation, Range.contains_iff, toNat_ofNat_of_lt (by omega)]
  simp only [UInt8.reduceToNat]
  omega

/-- What encodes a character is in the table. -/
theorem sequence_encode (c : Char) : Sequence (String.utf8EncodeChar c) := by
  have hvalid : c.val.toNat < 0xd800 ∨ 0xdfff < c.val.toNat ∧ c.val.toNat < 0x110000 := c.valid
  simp only [String.utf8EncodeChar]
  generalize c.val.toNat = n at hvalid
  split_ifs with h₁ h₂ h₃
  · refine sequence_of_row (w := ⟨⟨0x00, 0x7f⟩, []⟩) (by simp [table]) ?_ .nil
    rw [Range.contains_iff, toNat_ofNat_of_lt (by omega)]
    simp only [UInt8.reduceToNat]
    omega
  · refine sequence_of_row (w := ⟨⟨0xc2, 0xdf⟩, [continuation]⟩) (by simp [table]) ?_
      (.cons (contains_continuation n) .nil)
    rw [Range.contains_iff, toNat_ofNat_of_lt (by omega)]
    simp only [UInt8.reduceToNat]
    omega
  · have hx : (UInt8.ofNat (n / 4096 % 0x10 + 0xe0)).toNat = n / 4096 % 0x10 + 0xe0 := toNat_ofNat_of_lt (by omega)
    have hy : (UInt8.ofNat (n / 64 % 0x40 + 0x80)).toNat = n / 64 % 0x40 + 0x80 := toNat_ofNat_of_lt (by omega)
    exact sequence_three (by omega) (by omega) (contains_continuation n) (by omega) (by omega)
  · have hx : (UInt8.ofNat (n / 262144 % 0x08 + 0xf0)).toNat = n / 262144 % 0x08 + 0xf0 := toNat_ofNat_of_lt (by omega)
    have hy : (UInt8.ofNat (n / 4096 % 0x40 + 0x80)).toNat = n / 4096 % 0x40 + 0x80 := toNat_ofNat_of_lt (by omega)
    exact sequence_four (by omega) (by omega) (contains_continuation (n / 64)) (contains_continuation n)
      (by omega) (by omega)

/-- Sequences in a row encode characters in a row. -/
theorem exists_chars {ws : List Bytes} (hws : ∀ w ∈ ws, Sequence w) :
    ∃ m : List Char, ws = m.map String.utf8EncodeChar := by
  induction ws with
  | nil => exact ⟨[], rfl⟩
  | cons w ws ih =>
    obtain ⟨hw, hrest⟩ := List.forall_mem_cons.mp hws
    obtain ⟨c, rfl⟩ := hw.exists_encode
    obtain ⟨m, rfl⟩ := ih hrest
    exact ⟨c :: m, rfl⟩

/-- The well-formed strings are those that encode characters. -/
theorem wellFormed_iff_isValidUTF8 : WellFormed b ↔ ByteArray.IsValidUTF8 ⟨b.toArray⟩ := by
  constructor
  · rintro ⟨ws, hws, rfl⟩
    obtain ⟨m, rfl⟩ := exists_chars hws
    refine ⟨m, ByteArray.ext ?_⟩
    rw [List.utf8Encode, List.data_toByteArray, List.flatMap_def]
  · rintro ⟨m, hm⟩
    refine ⟨m.map String.utf8EncodeChar, ?_, ?_⟩
    · simp [sequence_encode]
    · rw [← List.flatMap_def, ← List.toList_data_toByteArray (l := m.flatMap _), ← List.utf8Encode, ← hm]

instance : DecidablePred WellFormed := fun _ => decidable_of_iff _ wellFormed_iff_isValidUTF8.symm

/-! ### Text -/

/-- The bytes of characters in a row. -/
def encode (m : List Char) : Bytes := m.flatMap String.utf8EncodeChar

@[simp] theorem encode_nil : encode [] = [] := rfl

@[simp] theorem encode_cons (c : Char) (m : List Char) : encode (c :: m) = String.utf8EncodeChar c ++ encode m := rfl

theorem encode_append (m m' : List Char) : encode (m ++ m') = encode m ++ encode m' := by
  simp [encode]

theorem encode_toList (s : String) : encode s.toList = s.toByteArray.data.toList := by
  rw [encode, ← String.utf8Encode_toList, List.utf8Encode, List.data_toByteArray, List.toList_toArray]

theorem encode_injective {m m' : List Char} (h : encode m = encode m') : m = m' := by
  have hbytes : m.utf8Encode = m'.utf8Encode := by
    rw [List.utf8Encode, List.utf8Encode]
    exact congrArg List.toByteArray h
  have hstring : String.ofList m = String.ofList m' := by
    rw [← String.toByteArray_inj]
    simpa using hbytes
  exact String.ofList_injective hstring

theorem encode_eq_nil {m : List Char} : encode m = [] ↔ m = [] :=
  ⟨fun h => encode_injective h, fun h => by rw [h, encode_nil]⟩

/-- A first byte is no continuation byte. -/
theorem not_continuation_of_follow (h : follow x = some tails) : ¬ continuation.Contains x := by
  obtain ⟨row, hrow, hx, -⟩ := exists_row h
  have hall : ∀ row ∈ table, row.first.high < 0x80 ∨ 0xbf < row.first.low := by decide
  intro hcontinuation
  rcases hall row hrow with hlow | hhigh
  · exact absurd (UInt8.lt_of_le_of_lt (UInt8.le_trans hcontinuation.1 hx.2) hlow) (by decide)
  · exact absurd (UInt8.lt_of_lt_of_le hhigh (UInt8.le_trans hx.1 hcontinuation.2)) (by decide)

theorem exists_range (h : List.Forall₂ Range.Contains tails ys) : ∀ y ∈ ys, ∃ r ∈ tails, r.Contains y := by
  induction h with
  | nil => simp
  | cons hy _ ih =>
    intro z hz
    rcases List.mem_cons.mp hz with rfl | hz
    · exact ⟨_, List.mem_cons_self, hy⟩
    · obtain ⟨r, hr, hrz⟩ := ih z hz
      exact ⟨r, List.mem_cons_of_mem _ hr, hrz⟩

/-- What follows a first byte is continuation bytes. -/
theorem Sequence.continuation (h : Sequence (x :: ys)) : ∀ y ∈ ys, continuation.Contains y := by
  obtain ⟨tails, hfollow, htails⟩ := h
  obtain ⟨row, hrow, -, rfl⟩ := exists_row hfollow
  have hall : ∀ row ∈ table, ∀ r ∈ row.tails, 0x80 ≤ r.low ∧ r.high ≤ 0xbf := by decide
  intro y hy
  obtain ⟨r, hr, hry⟩ := exists_range htails y hy
  exact ⟨UInt8.le_trans (hall row hrow r hr).1 hry.1, UInt8.le_trans hry.2 (hall row hrow r hr).2⟩

/-- A character is found in a text only where one of its characters begins. -/
theorem encode_split {m : List Char} {c : Char} (h : w ++ (String.utf8EncodeChar c ++ r) = encode m) :
    ∃ m₁ m₂, m = m₁ ++ c :: m₂ ∧ encode m₁ = w ∧ encode m₂ = r := by
  have hc := sequence_encode c
  induction m generalizing w with
  | nil =>
    rw [encode_nil, List.append_eq_nil_iff, List.append_eq_nil_iff] at h
    exact absurd h.2.1 hc.ne_nil
  | cons d m ih =>
    have hd := sequence_encode d
    by_cases hw : w = []
    · subst hw
      obtain ⟨heq, rfl⟩ := hc.append_inj hd h
      obtain rfl : c = d := by
        have := @encode_injective [c] [d] (by simpa [encode] using heq)
        exact List.head_eq_of_cons_eq this
      exact ⟨[], m, rfl, rfl, rfl⟩
    · rw [encode_cons] at h
      rcases List.append_eq_append_iff.mp h with ⟨t, hdt, ht⟩ | ⟨w', rfl, hw'⟩
      · -- a character that begins inside another one begins with a continuation byte
        obtain ⟨x, w', rfl⟩ := List.exists_cons_of_ne_nil hw
        cases t with
        | nil =>
          obtain ⟨m₁, m₂, rfl, hm₁, rfl⟩ := ih (w := []) (by simpa using ht)
          exact ⟨d :: m₁, m₂, rfl, by simp [hm₁, hdt], rfl⟩
        | cons y t =>
          obtain ⟨z, zs, hz⟩ := List.exists_cons_of_ne_nil hc.ne_nil
          rw [hz] at ht
          obtain rfl : z = y := List.head_eq_of_cons_eq ht
          rw [hdt] at hd
          rw [hz] at hc
          obtain ⟨tails, hfollow, -⟩ := hc
          exact absurd (hd.continuation z (by simp)) (not_continuation_of_follow hfollow)
      · obtain ⟨m₁, m₂, rfl, hm₁, rfl⟩ := ih hw'.symm
        exact ⟨d :: m₁, m₂, rfl, by rw [encode_cons, hm₁], rfl⟩

/-- A byte below `0x80` is a character of its own. -/
theorem eq_of_ascii_mem {c d : Char} (hd : String.utf8EncodeChar d = [x]) (hx : x < 0x80)
    (hmem : x ∈ String.utf8EncodeChar c) : c = d := by
  have hc := sequence_encode c
  obtain ⟨y, ys, hy⟩ := List.exists_cons_of_ne_nil hc.ne_nil
  rw [hy] at hmem hc
  have hxy : x = y := by
    rcases List.mem_cons.mp hmem with hxy | hys
    · exact hxy
    · exact absurd (UInt8.lt_of_le_of_lt (hc.continuation x hys).1 hx) (by decide)
  subst hxy
  have hsd := sequence_encode d
  rw [hd] at hsd
  have heq : String.utf8EncodeChar c = String.utf8EncodeChar d := by
    rw [hy, hd]
    have hcons : x :: ys ++ [] = [x] ++ ys := by simp
    exact (hc.append_inj hsd hcons).1
  have := @encode_injective [c] [d] (by simpa [encode] using heq)
  exact List.head_eq_of_cons_eq this

end Utf8
