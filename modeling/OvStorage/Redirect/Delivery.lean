import OvStorage.Redirect.Reading

/-!
# What a resumed read delivers

A body is read from a position of the object on, and what was delivered before it is skipped. `Placed`
relates the variables of the loop: the position in the response, the high-water mark of what was
delivered, and the position that is skipped to. From it, what the loop yields is the slice of the object from
one mark to the next.
-/

namespace OvStorage.Redirect

open OvStorage.Layer Slice Stateful

variable {c chunk out : Bytes} {chunks : List Bytes} {init : ℕ} {bound : Option ℕ} {s s' : Cursor} {reachedEnd : Bool}

/-- How the variables of the loop stand to each other, in a read from `init` up to `bound`. -/
structure Placed (init : ℕ) (bound : Option ℕ) (s : Cursor) : Prop where
  start : init ≤ s.deliveredHwm
  cursor : s.responseCursor ≤ s.deliveredHwm
  skip : s.skipUntil ≤ s.deliveredHwm
  /-- A response that begins before the mark is skipped up to the mark. -/
  replay : s.responseCursor < s.deliveredHwm → s.skipUntil = s.deliveredHwm
  bounded : ∀ b ∈ bound, s.deliveredHwm ≤ max init b

variable {cursor : ℕ}

theorem skipDelivered_eq_ok {fresh : Bytes} (h : skipDelivered s chunk = .ok (cursor, fresh)) :
    ∃ n, n ≤ chunk.length ∧ n = min (s.skipUntil - s.responseCursor) chunk.length ∧ cursor = s.responseCursor + n ∧
      fresh = chunk.drop n := by
  unfold skipDelivered at h
  split_ifs at h with hlt
  · obtain ⟨ahead, hahead, h⟩ := Validate.bind_eq_ok.mp h
    obtain ⟨next, hnext, h⟩ := Validate.bind_eq_ok.mp h
    obtain ⟨-, rfl⟩ := minus_eq_ok.mp hahead
    obtain ⟨-, rfl⟩ := plus_eq_ok.mp hnext
    cases h
    exact ⟨_, Nat.min_le_right _ _, rfl, rfl, rfl⟩
  · cases h
    exact ⟨0, Nat.zero_le _, by omega, rfl, rfl⟩

theorem clipToEnd_eq_ok {fresh clipped : Bytes} (h : clipToEnd bound cursor fresh = .ok (clipped, reachedEnd)) :
    ∃ n, clipped = fresh.take n ∧ (∀ b ∈ bound, clipped ≠ [] → cursor + clipped.length ≤ b) ∧
      if reachedEnd then ∃ b ∈ bound, b ≤ cursor + clipped.length else clipped = fresh := by
  unfold clipToEnd at h
  split at h
  · cases h
    exact ⟨fresh.length, List.take_length.symm, nofun, by simp⟩
  next b =>
    split_ifs at h with hle
    · cases h
      exact ⟨0, rfl, fun _ _ hne => (hne rfl).elim, by simpa using hle⟩
    · obtain ⟨last, hlast, h⟩ := Validate.bind_eq_ok.mp h
      obtain ⟨-, rfl⟩ := plus_eq_ok.mp hlast
      split_ifs at h with hlt
      · obtain ⟨keep, hkeep, h⟩ := Validate.bind_eq_ok.mp h
        obtain ⟨-, rfl⟩ := minus_eq_ok.mp hkeep
        cases h
        have hlen : (fresh.take (b - cursor)).length = b - cursor := by
          rw [List.length_take]
          omega
        refine ⟨_, rfl, fun b' hb' _ => ?_, ?_⟩
        · cases hb'
          omega
        · simp only [if_true]
          exact ⟨b, rfl, by omega⟩
      · cases h
        refine ⟨fresh.length, List.take_length.symm, fun b' hb' _ => ?_, by simp⟩
        cases hb'
        omega

theorem deliver_eq_ok (h : s.deliver cursor chunk = .ok s') :
    s'.responseCursor = cursor + chunk.length ∧ s'.skipUntil = s.skipUntil ∧
    s'.responseEndExclusive = s.responseEndExclusive ∧
      s'.deliveredHwm = if chunk = [] then s.deliveredHwm else max s.deliveredHwm (cursor + chunk.length) := by
  unfold Cursor.deliver at h
  split_ifs at h with hnil
  · cases h
    simp [hnil]
  · obtain ⟨next, hnext, h⟩ := Validate.bind_eq_ok.mp h
    obtain ⟨-, rfl⟩ := plus_eq_ok.mp hnext
    cases h
    simp [hnil]

/-- What the loop leaves a body with: the bytes from a mark up to `mark`. -/
structure Left (c : Bytes) (init : ℕ) (bound : Option ℕ) (s : Cursor) (out : List Bytes) (mark : ℕ) : Prop where
  le : s.deliveredHwm ≤ mark
  bounded : ∀ b ∈ bound, mark ≤ max init b
  bytes : out.flatten = slice c s.deliveredHwm mark

theorem Placed.left_nil (h : Placed init bound s) : Left c init bound s [] s.deliveredHwm :=
  ⟨Nat.le_refl _, h.bounded, (slice_of_le (Nat.le_refl _)).symm⟩

/-- One chunk: what is yielded is what the high-water mark moves over, and unless the requested end is reached the
mark moves behind all of the chunk. -/
theorem onChunk_spec (hplaced : Placed init bound s) (hat : At c s.responseCursor chunk)
    (h : onChunk bound s chunk = .ok (s', out, reachedEnd)) :
    Placed init bound s' ∧ s.deliveredHwm ≤ s'.deliveredHwm ∧ out = slice c s.deliveredHwm s'.deliveredHwm ∧
      s'.responseEndExclusive = s.responseEndExclusive ∧
      if reachedEnd then ∃ b ∈ bound, b ≤ s'.deliveredHwm
      else s'.responseCursor = s.responseCursor + chunk.length ∧ s.responseCursor + chunk.length ≤ s'.deliveredHwm := by
  obtain ⟨hstart, hcursor, hskip, hreplay, hbounded⟩ := hplaced
  unfold onChunk at h
  split_ifs at h with hover
  · cases h
  obtain ⟨⟨cursor, fresh⟩, hskipped, h⟩ := Validate.bind_eq_ok.mp h
  obtain ⟨n, hn, hneq, rfl, rfl⟩ := skipDelivered_eq_ok hskipped
  dsimp only at h
  split_ifs at h with hall
  · -- all of the chunk was delivered before
    cases h
    have hlen : chunk.length ≤ n := List.drop_eq_nil_iff.mp hall.2
    refine ⟨⟨hstart, ?_, hskip, fun hlt => hreplay ?_, hbounded⟩, Nat.le_refl _,
      (slice_of_le (Nat.le_refl _)).symm, rfl, ?_⟩
    · change s.responseCursor + n ≤ s.deliveredHwm
      omega
    · change s.responseCursor + n < s.deliveredHwm at hlt
      omega
    · rw [if_neg Bool.false_ne_true]
      change s.responseCursor + n = s.responseCursor + chunk.length ∧ s.responseCursor + chunk.length ≤ s.deliveredHwm
      omega
  -- what is left of the chunk begins at the mark
  have hmark : s.responseCursor + n = s.deliveredHwm := by
    by_cases hlt : s.responseCursor < s.skipUntil
    · have hfresh : chunk.drop n ≠ [] := fun hnil => hall ⟨hlt, hnil⟩
      have hlen : n < chunk.length := Nat.not_le.mp fun hle => hfresh (List.drop_eq_nil_iff.mpr hle)
      have hskipped := hreplay (by omega)
      omega
    · have hnlt : ¬s.responseCursor < s.deliveredHwm := fun hbehind => hlt (hreplay hbehind ▸ hbehind)
      omega
  obtain ⟨⟨clipped, reached⟩, hclip, h⟩ := Validate.bind_eq_ok.mp h
  obtain ⟨next, hdeliver, h⟩ := Validate.bind_eq_ok.mp h
  cases h
  obtain ⟨m, hm, hbound, hreached⟩ := clipToEnd_eq_ok hclip
  dsimp only at hdeliver
  obtain ⟨hnext, hskip', hend, hhwm⟩ := deliver_eq_ok hdeliver
  rw [hmark] at hbound hreached hnext hhwm
  have hclipped : At c s.deliveredHwm clipped := by
    rw [hm, ← hmark]
    exact (hat.drop hn).take
  have hhwm : s'.deliveredHwm = s.deliveredHwm + clipped.length := by
    rw [hhwm]
    split_ifs with hnil
    · rw [hnil, List.length_nil, Nat.add_zero]
    · exact Nat.max_eq_right (Nat.le_add_right _ _)
  refine ⟨⟨by omega, by omega, by omega, by omega, fun b hb => ?_⟩, by omega, ?_, hend, ?_⟩
  · by_cases hnil : clipped = []
    · rw [hhwm, hnil]
      exact hbounded b hb
    · have hle := hbound b hb hnil
      omega
  · rw [hhwm]
    exact hclipped.eq_slice
  · cases reached with
    | true =>
      rw [if_pos rfl] at hreached ⊢
      rwa [hhwm]
    | false =>
      rw [if_neg Bool.false_ne_true] at hreached ⊢
      have hlen : clipped.length = chunk.length - n := by rw [hreached, List.length_drop]
      omega

/-- The body of one response: what it yields is the object from mark to mark. Where it fails the loop goes on from
the mark; where the stream ends, the mark is at the requested end or behind the whole body. -/
theorem readBody_spec (W : World) (ending : BodyEnd) (hplaced : Placed init bound s)
    (hat : At c s.responseCursor chunks.flatten) :
    ∃ mark, Left c init bound s (readBody W bound ending s chunks).1 mark ∧
      match (readBody W bound ending s chunks).2 with
      | .failed s' _ => Placed init bound s' ∧ s'.deliveredHwm = mark
      | .ended e => e = .closed → (∃ b ∈ bound, b ≤ mark) ∨
          (ending = .closed ∧ s.responseCursor + chunks.flatten.length ≤ mark ∧
            ∀ last ∈ s.responseEndExclusive, s.responseCursor + chunks.flatten.length = last) := by
  induction chunks generalizing s with
  | nil =>
    refine ⟨s.deliveredHwm, ?_, ?_⟩
    · cases ending <;> exact hplaced.left_nil
    cases ending with
    | failed message => exact ⟨hplaced, rfl⟩
    | pending => nofun
    | closed =>
      refine fun hclosed => .inr ⟨rfl, hplaced.cursor, fun last hlast => ?_⟩
      unfold Cursor.onEnd at hclosed
      split_ifs at hclosed with hmismatch
      simpa [Option.mem_def.mp hlast] using hmismatch
  | cons chunk chunks ih =>
    rw [List.flatten_cons, at_append] at hat
    rw [readBody]
    cases hchunk : onChunk bound s chunk with
    | error fault => exact ⟨s.deliveredHwm, hplaced.left_nil, nofun⟩
    | ok result =>
      obtain ⟨s', out, reachedEnd⟩ := result
      obtain ⟨hplaced', hle, hout, hend, hreached⟩ := onChunk_spec hplaced hat.1 hchunk
      have hyielded : (if out = [] then [] else [out]).flatten = slice c s.deliveredHwm s'.deliveredHwm := by
        rw [← hout]
        split_ifs with hnil
        · exact hnil.symm
        · exact List.flatten_singleton
      cases reachedEnd with
      | true =>
        rw [if_pos rfl] at hreached
        exact ⟨s'.deliveredHwm, ⟨hle, hplaced'.bounded, hyielded⟩, fun _ => .inl hreached⟩
      | false =>
        rw [if_neg Bool.false_ne_true] at hreached
        obtain ⟨mark, hleft, hexit⟩ := ih hplaced' (hreached.1 ▸ hat.2)
        refine ⟨mark, ⟨Nat.le_trans hle hleft.le, hleft.bounded, ?_⟩, ?_⟩
        · change ((if out = [] then [] else [out]) ++ (readBody W bound ending s' chunks).1).flatten = _
          rw [List.flatten_append, hyielded, hleft.bytes, slice_append_slice hle hleft.le]
        · change match (readBody W bound ending s' chunks).2 with
            | .failed s' _ => _
            | .ended e => _
          rw [hreached.1, hend, Nat.add_assoc, ← List.length_append, ← List.flatten_cons] at hexit
          exact hexit

end OvStorage.Redirect
