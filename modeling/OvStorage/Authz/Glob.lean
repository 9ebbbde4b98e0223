import OvStorage.Address.Percent
import OvStorage.Lib.SegList

/-!
# Principal patterns

`glob_match` and the overlap test `principals_intersect` of
`ovstorage-authz-policy/src/rules.rs`. A pattern is text in which `*` stands for any text.
-/

namespace OvStorage.Authz

open Address SegList

/-- `b'*'`. -/
abbrev star : UInt8 := 0x2A

/-! ### The code -/

/-- `str::find`: where the needle first occurs. -/
def find (needle : Bytes) : Bytes → Option ℕ
  | [] => if needle = [] then some 0 else none
  | b :: bs => if needle.isPrefixOf (b :: bs) then some 0 else (find needle bs).map (· + 1)

/-- The loop of `glob_match` over the inner parts: each is looked for behind the one before. -/
def globInner : List Bytes → Bytes → Option Bytes
  | [], remainder => some remainder
  | part :: parts, remainder =>
    if part = [] then globInner parts remainder
    else
      match find part remainder with
      | none => none
      | some index => globInner parts (remainder.drop (index + part.length))

/-- `glob_match`. -/
def globMatch (pattern value : Bytes) : Bool :=
  if pattern = [star] then true
  else
    let parts := pattern.splitOn star
    if parts.length = 1 then pattern == value
    else
      let first := parts.headD []
      match if first = [] then some value else value.dropPrefix? first with
      | none => false
      | some remainder =>
        match globInner (parts.drop 1 |>.take (parts.length - 2)) remainder with
        | none => false
        | some remainder => (parts.getLastD []).isSuffixOf remainder

/-- `trailing_star_literal`: the literal of `literal*`. -/
def trailingStarLiteral (pattern : Bytes) : Option Bytes :=
  match pattern.dropSuffix? [star] with
  | none => none
  | some literal => if literal ≠ [] ∧ star ∉ literal then some literal else none

/-- `principals_intersect`. -/
def principalsIntersect (a b : Bytes) : Bool :=
  if a = b ∨ globMatch a b ∨ globMatch b a then true
  else
    match trailingStarLiteral a, trailingStarLiteral b with
    | some aLiteral, some bLiteral => bLiteral.isPrefixOf aLiteral || aLiteral.isPrefixOf bLiteral
    | _, _ => a.contains star && b.contains star

example : globMatch (utf8 "team-*-x") (utf8 "team-a-b-x") = true := by decide +kernel

/-! ### What the patterns match -/

variable {value pattern : Bytes}

/-- A pattern without `*` matches itself alone. -/
theorem globMatch_literal (h : star ∉ pattern) (hm : globMatch pattern value = true) : pattern = value := by
  have hne : pattern ≠ [star] := fun he => h (by simp [he])
  unfold globMatch at hm
  rw [if_neg hne, List.splitOn_eq_singleton h] at hm
  simpa using hm

/-- `literal*` matches only what begins with the literal. -/
theorem globMatch_front {literal : Bytes} (h : trailingStarLiteral pattern = some literal)
    (hm : globMatch pattern value = true) : literal <+: value := by
  unfold trailingStarLiteral at h
  split at h
  · cases h
  · rename_i lit hsuffix
    split at h
    · rename_i hlit
      obtain rfl : lit = literal := Option.some.inj h
      have hp : pattern = lit ++ [star] := dropSuffix?_eq_some.1 hsuffix
      have hne : pattern ≠ [star] := by
        intro he
        rw [hp] at he
        exact hlit.1 (List.append_cancel_right (show lit ++ [star] = [] ++ [star] by simpa using he))
      have hparts : pattern.splitOn star = [lit, []] := by
        have he := splitOn_append_pieces (show star ∉ lit from hlit.2) (show SepFree star [[]] by simp)
        rw [hp]
        simpa using he
      unfold globMatch at hm
      rw [if_neg hne, hparts] at hm
      simp only [List.length_cons, List.length_nil, List.headD_cons, hlit.1, if_false] at hm
      cases hd : value.dropPrefix? lit with
      | none => rw [hd] at hm; simp at hm
      | some rest => exact ⟨rest, (dropPrefix?_eq_some.1 hd).symm⟩
    · cases h

/-- Two patterns that match one principal are found to intersect. -/
theorem principalsIntersect_of_match {a b : Bytes} (ha : globMatch a value = true)
    (hb : globMatch b value = true) : principalsIntersect a b = true := by
  unfold principalsIntersect
  split
  · rfl
  · rename_i hno
    simp only [not_or] at hno
    have hstarA : star ∈ a := by
      by_contra h
      exact hno.2.2 (globMatch_literal h ha ▸ hb)
    have hstarB : star ∈ b := by
      by_contra h
      exact hno.2.1 (globMatch_literal h hb ▸ ha)
    split
    · rename_i x y aLiteral bLiteral hx hy
      have hfa := globMatch_front hx ha
      have hfb := globMatch_front hy hb
      rcases List.prefix_or_prefix_of_prefix hfa hfb with h | h
      · simp [h]
      · simp [h]
    · simp [hstarA, hstarB]

/-- The test does not depend on the order of its arguments. -/
theorem principalsIntersect_comm (a b : Bytes) : principalsIntersect a b = principalsIntersect b a := by
  unfold principalsIntersect
  by_cases h : a = b ∨ globMatch a b ∨ globMatch b a
  · rw [if_pos h, if_pos (by tauto)]
  · rw [if_neg h, if_neg (by tauto)]
    cases trailingStarLiteral a <;> cases trailingStarLiteral b <;> simp [Bool.or_comm, Bool.and_comm]

end OvStorage.Authz
