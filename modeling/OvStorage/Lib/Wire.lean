import Mathlib.Data.List.Basic
import Mathlib.Tactic.Ring

/-!
# Readers of a wire format

A `Reader` takes a value from the front of a byte string, or fails. What it accepts is stated as a
relation between values and the bytes they are written with: `Reads r W` says that `r` takes the
value `a` from the front of a string exactly where the string begins with bytes `w` such that
`W a w`. The rules follow the way readers are put together (`Reads.pure`, `Reads.bind`, `Reads.fail`,
`Reads.map`, `Reads.times`), and give the readers of little-endian words and of length-prefixed
byte strings.

Every reader with such a relation looks at nothing behind what it takes (`Reads.append`), so no
string that it takes whole begins another one (`Reads.whole_unique`).
-/

namespace Wire

abbrev Bytes := List UInt8

/-- Take a value from the front of a byte string. -/
abbrev Reader (ε α : Type) := StateT Bytes (Except ε) α

variable {ε α β γ : Type}

/-- The reader takes `a` from the strings that begin with a way to write it, and leaves the rest. -/
def Reads (r : Reader ε α) (W : α → Bytes → Prop) : Prop :=
  ∀ b a rest, r b = .ok (a, rest) ↔ ∃ w, W a w ∧ b = w ++ rest

namespace Reads

variable {r : Reader ε α} {W W' : α → Bytes → Prop}

theorem congr (h : Reads r W) (hW : ∀ a w, W a w ↔ W' a w) : Reads r W' := by
  intro b a rest
  simp only [h b a rest, hW]

theorem pure (a : α) : Reads (Pure.pure a : Reader ε α) fun a' w => a' = a ∧ w = [] := by
  intro b a' rest
  constructor
  · rintro ⟨⟩
    exact ⟨[], ⟨rfl, rfl⟩, rfl⟩
  · rintro ⟨_, ⟨rfl, rfl⟩, rfl⟩
    rfl

theorem fail (error : ε) : Reads (throw error : Reader ε α) fun _ _ => False := by
  intro b a rest
  constructor
  · rintro ⟨⟩
  · rintro ⟨_, hfalse, -⟩
    exact hfalse.elim

/-- One reader, and then another that its value chooses. -/
theorem bind {k : α → Reader ε β} {V : α → β → Bytes → Prop} (hr : Reads r W) (hk : ∀ a, Reads (k a) (V a)) :
    Reads (r >>= k) fun b w => ∃ a w₁ w₂, W a w₁ ∧ V a b w₂ ∧ w = w₁ ++ w₂ := by
  intro bytes b rest
  have hbind : (r >>= k) bytes = match r bytes with
      | .ok (a, bytes') => k a bytes'
      | .error error => .error error := by
    show StateT.bind r k bytes = _
    simp only [StateT.bind]
    cases r bytes <;> rfl
  rw [hbind]
  constructor
  · intro h
    split at h
    next a bytes' hread =>
      obtain ⟨w₁, hw₁, rfl⟩ := (hr bytes a bytes').mp hread
      obtain ⟨w₂, hw₂, rfl⟩ := (hk a bytes' b rest).mp h
      exact ⟨w₁ ++ w₂, ⟨a, w₁, w₂, hw₁, hw₂, rfl⟩, by simp⟩
    next => cases h
  · rintro ⟨_, ⟨a, w₁, w₂, hw₁, hw₂, rfl⟩, rfl⟩
    have hread : r (w₁ ++ w₂ ++ rest) = .ok (a, w₂ ++ rest) := (hr _ _ _).mpr ⟨w₁, hw₁, by simp⟩
    rw [hread]
    exact (hk a _ _ _).mpr ⟨w₂, hw₂, rfl⟩

/-- A choice, which the reader of each branch says for itself. -/
theorem ite {r' : Reader ε α} {p : Prop} [Decidable p] (hr : Reads r W) (hr' : Reads r' W') :
    Reads (if p then r else r') fun a w => if p then W a w else W' a w := by
  split_ifs
  · exact hr
  · exact hr'

theorem map (f : α → β) (hr : Reads r W) : Reads (f <$> r) fun b w => ∃ a, W a w ∧ b = f a := by
  have hmap : f <$> r = r >>= fun a => Pure.pure (f a) := (bind_pure_comp f r).symm
  rw [hmap]
  refine (hr.bind fun a => Reads.pure (f a)).congr fun b w => ?_
  constructor
  · rintro ⟨a, w₁, _, hw₁, ⟨rfl, rfl⟩, rfl⟩
    exact ⟨a, by simpa using hw₁, rfl⟩
  · rintro ⟨a, hw, rfl⟩
    exact ⟨a, w, [], hw, ⟨rfl, rfl⟩, by simp⟩

/-- What is read stays the same, whatever is put behind it. -/
theorem append (hr : Reads r W) {b rest : Bytes} {a : α} (h : r b = .ok (a, rest)) (ext : Bytes) :
    r (b ++ ext) = .ok (a, rest ++ ext) := by
  obtain ⟨w, hw, rfl⟩ := (hr _ _ _).mp h
  exact (hr _ _ _).mpr ⟨w, hw, by simp⟩

/-- A string that is taken whole begins no other that is. -/
theorem whole_unique (hr : Reads r W) {b ext : Bytes} {a a' : α} (h : r b = .ok (a, []))
    (h' : r (b ++ ext) = .ok (a', [])) :
    ext = [] := by
  have happend := hr.append h ext
  rw [h'] at happend
  simpa using (congrArg Prod.snd (Except.ok.inj happend)).symm

/-- A string is taken whole as a value exactly if it is a way to write it. -/
theorem whole_iff (hr : Reads r W) {b : Bytes} {a : α} : r b = .ok (a, []) ↔ W a b := by
  rw [hr b a []]
  simp

end Reads

/-! ### Bytes and words -/

/-- The first `n` bytes. -/
def take (truncated : ε) (n : ℕ) : Reader ε Bytes :=
  fun b => if n ≤ b.length then .ok (b.take n, b.drop n) else .error truncated

theorem reads_take (truncated : ε) (n : ℕ) : Reads (take truncated n) fun a w => a.length = n ∧ w = a := by
  intro b a rest
  simp only [take]
  constructor
  · intro h
    split_ifs at h with hn
    cases h
    exact ⟨b.take n, ⟨by simpa using hn, rfl⟩, (List.take_append_drop n b).symm⟩
  · rintro ⟨w, ⟨rfl, rfl⟩, rfl⟩
    simp

/-- `n` values in a row. -/
def times (r : Reader ε α) : ℕ → Reader ε (List α)
  | 0 => Pure.pure []
  | n + 1 => do
    let a ← r
    let as ← times r n
    Pure.pure (a :: as)

/-- The ways to write one value after another. -/
def Each (W : α → Bytes → Prop) : List α → Bytes → Prop
  | [], w => w = []
  | a :: as, w => ∃ w₁ w₂, W a w₁ ∧ Each W as w₂ ∧ w = w₁ ++ w₂

variable {W : α → Bytes → Prop}

theorem Reads.times {r : Reader ε α} (hr : Reads r W) (n : ℕ) :
    Reads (times r n) fun as w => as.length = n ∧ Each W as w := by
  induction n with
  | zero =>
    refine (Reads.pure []).congr fun as w => ?_
    constructor
    · rintro ⟨rfl, rfl⟩
      exact ⟨rfl, rfl⟩
    · rintro ⟨hlength, hw⟩
      obtain rfl := List.eq_nil_of_length_eq_zero hlength
      exact ⟨rfl, hw⟩
  | succ n ih =>
    refine (hr.bind fun a => ih.bind fun as => Reads.pure (a :: as)).congr fun as w => ?_
    constructor
    · rintro ⟨a, w₁, _, hw₁, ⟨as, w₂, _, ⟨rfl, hw₂⟩, ⟨rfl, rfl⟩, rfl⟩, rfl⟩
      exact ⟨rfl, w₁, w₂, hw₁, hw₂, by simp⟩
    · rintro ⟨hlength, hw⟩
      cases as with
      | nil => cases hlength
      | cons a as =>
        obtain ⟨w₁, w₂, hw₁, hw₂, rfl⟩ := hw
        exact ⟨a, w₁, w₂, hw₁, ⟨as, w₂, [], ⟨by simpa using hlength, hw₂⟩, ⟨rfl, rfl⟩, by simp⟩, rfl⟩

/-- Where there is one way to write each value, there is one to write them all. -/
theorem each_iff {put : α → Bytes} {fits : α → Prop} (hW : ∀ a w, W a w ↔ fits a ∧ w = put a)
    (as : List α) (w : Bytes) : Each W as w ↔ (∀ a ∈ as, fits a) ∧ w = as.flatMap put := by
  induction as generalizing w with
  | nil => simp [Each]
  | cons a as ih =>
    simp only [Each, hW, ih, List.forall_mem_cons, List.flatMap_cons]
    constructor
    · rintro ⟨_, _, ⟨ha, rfl⟩, ⟨has, rfl⟩, rfl⟩
      exact ⟨⟨ha, has⟩, rfl⟩
    · rintro ⟨⟨ha, has⟩, rfl⟩
      exact ⟨_, _, ⟨ha, rfl⟩, ⟨has, rfl⟩, rfl⟩

/-- One byte. -/
def byte (truncated : ε) : Reader ε UInt8 := fun
  | [] => .error truncated
  | x :: rest => .ok (x, rest)

theorem reads_byte (truncated : ε) : Reads (byte truncated) fun a w => w = [a] := by
  intro b a rest
  cases b with
  | nil => simp [byte]
  | cons x b => simp [byte, eq_comm]

/-- The four bytes of a word, the lowest first. -/
def leBytes (n : UInt32) : Bytes :=
  [UInt8.ofNat n.toNat, UInt8.ofNat (n.toNat / 2 ^ 8), UInt8.ofNat (n.toNat / 2 ^ 16), UInt8.ofNat (n.toNat / 2 ^ 24)]

/-- The word of four bytes. -/
def ofLeBytes (x₀ x₁ x₂ x₃ : UInt8) : UInt32 :=
  UInt32.ofNat (x₀.toNat + x₁.toNat * 2 ^ 8 + x₂.toNat * 2 ^ 16 + x₃.toNat * 2 ^ 24)

theorem leBytes_ofLeBytes (x₀ x₁ x₂ x₃ : UInt8) : leBytes (ofLeBytes x₀ x₁ x₂ x₃) = [x₀, x₁, x₂, x₃] := by
  have h₀ := x₀.toNat_lt
  have h₁ := x₁.toNat_lt
  have h₂ := x₂.toNat_lt
  have h₃ := x₃.toNat_lt
  have hlt : x₀.toNat + x₁.toNat * 2 ^ 8 + x₂.toNat * 2 ^ 16 + x₃.toNat * 2 ^ 24 < 2 ^ 32 := by omega
  have hnat : (ofLeBytes x₀ x₁ x₂ x₃).toNat = x₀.toNat + x₁.toNat * 2 ^ 8 + x₂.toNat * 2 ^ 16 + x₃.toNat * 2 ^ 24 := by
    simp only [ofLeBytes, UInt32.toNat_ofNat']
    exact Nat.mod_eq_of_lt hlt
  simp only [leBytes, hnat, List.cons.injEq, and_true, ← UInt8.toNat_inj, UInt8.toNat_ofNat']
  omega

theorem leBytes_inj {m n : UInt32} (h : leBytes m = leBytes n) : m = n := by
  have hm := m.toNat_lt
  have hn := n.toNat_lt
  simp only [leBytes, List.cons.injEq, and_true, ← UInt8.toNat_inj, UInt8.toNat_ofNat'] at h
  apply UInt32.toNat_inj.mp
  omega

@[simp] theorem length_leBytes (n : UInt32) : (leBytes n).length = 4 := rfl

/-- A little-endian word. -/
def word (truncated : ε) : Reader ε UInt32 := fun
  | x₀ :: x₁ :: x₂ :: x₃ :: rest => .ok (ofLeBytes x₀ x₁ x₂ x₃, rest)
  | _ => .error truncated

theorem reads_word (truncated : ε) : Reads (word truncated) fun n w => w = leBytes n := by
  intro b n rest
  constructor
  · intro h
    simp only [word] at h
    split at h
    next x₀ x₁ x₂ x₃ rest' =>
      cases h
      exact ⟨_, rfl, by rw [leBytes_ofLeBytes]; rfl⟩
    next => cases h
  · rintro ⟨_, rfl, rfl⟩
    have hword : leBytes (ofLeBytes (UInt8.ofNat n.toNat) (UInt8.ofNat (n.toNat / 2 ^ 8))
          (UInt8.ofNat (n.toNat / 2 ^ 16))
        (UInt8.ofNat (n.toNat / 2 ^ 24))) = leBytes n := leBytes_ofLeBytes _ _ _ _
    simp only [leBytes, List.cons_append, List.nil_append, word]
    rw [leBytes_inj hword]

/-! ### Length-prefixed byte strings -/

/-- A byte string behind its length, as far as that fits a word. -/
def putBytes (bytes : Bytes) : Bytes := leBytes (UInt32.ofNat bytes.length) ++ bytes

/-- A length, and as many bytes. -/
def prefixed (truncated : ε) : Reader ε Bytes := do
  let n ← word truncated
  take truncated n.toNat

theorem reads_prefixed (truncated : ε) : Reads (prefixed truncated) fun a w => a.length < 2 ^ 32 ∧ w = putBytes a := by
  refine ((reads_word truncated).bind fun n => reads_take truncated n.toNat).congr fun a w => ?_
  constructor
  · rintro ⟨n, _, _, rfl, ⟨hlength, rfl⟩, rfl⟩
    refine ⟨hlength ▸ n.toNat_lt, ?_⟩
    rw [putBytes, hlength, UInt32.ofNat_toNat]
  · rintro ⟨hlength, rfl⟩
    refine ⟨UInt32.ofNat a.length, _, a, rfl, ⟨?_, rfl⟩, rfl⟩
    rw [UInt32.toNat_ofNat']
    exact (Nat.mod_eq_of_lt hlength).symm

/-! ### Fields behind their length -/

/-- The eight bytes of a long word, the highest first. -/
def beBytes (n : UInt64) : Bytes :=
  [UInt8.ofNat (n.toNat / 2 ^ 56), UInt8.ofNat (n.toNat / 2 ^ 48), UInt8.ofNat (n.toNat / 2 ^ 40),
    UInt8.ofNat (n.toNat / 2 ^ 32), UInt8.ofNat (n.toNat / 2 ^ 24), UInt8.ofNat (n.toNat / 2 ^ 16),
    UInt8.ofNat (n.toNat / 2 ^ 8), UInt8.ofNat n.toNat]

@[simp] theorem length_beBytes (n : UInt64) : (beBytes n).length = 8 := rfl

theorem beBytes_inj {m n : UInt64} (h : beBytes m = beBytes n) : m = n := by
  have hm := m.toNat_lt
  have hn := n.toNat_lt
  simp only [beBytes, List.cons.injEq, and_true, ← UInt8.toNat_inj, UInt8.toNat_ofNat'] at h
  apply UInt64.toNat_inj.mp
  omega

/-- A byte string behind its length, as far as that fits a long word. -/
def field (bytes : Bytes) : Bytes := beBytes (UInt64.ofNat bytes.length) ++ bytes

/-- A field says where it ends. -/
theorem field_append_inj {b b' r r' : Bytes} (hb : b.length < 2 ^ 64) (hb' : b'.length < 2 ^ 64)
    (h : field b ++ r = field b' ++ r') :
    b = b' ∧ r = r' := by
  simp only [field, List.append_assoc] at h
  obtain ⟨hlength, h⟩ := List.append_inj h rfl
  have hlength := congrArg UInt64.toNat (beBytes_inj hlength)
  rw [UInt64.toNat_ofNat', UInt64.toNat_ofNat', Nat.mod_eq_of_lt hb, Nat.mod_eq_of_lt hb'] at hlength
  exact List.append_inj h hlength

end Wire
