import Mathlib.Data.List.Induction

/-!
# Runs of a labelled transition system

`Run init step trace s`: the labels of `trace` lead from an initial state to `s`. The
rule to reason about every run is `Run.invariant`, whose invariant may speak of the
labels that led to a state as well as of the state, and `Run.split` gives the state a
run was in at a point of its trace.
-/

/-- The runs of the system, with the labels they are made of. -/
inductive Run {S L : Type*} (init : S → Prop) (step : S → L → S → Prop) : List L → S → Prop
  | start {s} : init s → Run init step [] s
  | step {trace s l s'} : Run init step trace s → step s l s' → Run init step (trace ++ [l]) s'

namespace Run

variable {S L : Type*} {init : S → Prop} {step : S → L → S → Prop}

/-- What holds at the start and is kept by each step holds in every run. -/
theorem invariant {I : List L → S → Prop} (h0 : ∀ s, init s → I [] s)
    (hstep : ∀ trace s l s', Run init step trace s → I trace s → step s l s' → I (trace ++ [l]) s')
    {trace : List L} {s : S} (h : Run init step trace s) : I trace s := by
  induction h with
  | start h => exact h0 _ h
  | step hr hs ih => exact hstep _ _ _ _ hr ih hs

/-- An invariant of states alone. -/
theorem stateInvariant {I : S → Prop} (h0 : ∀ s, init s → I s) (hstep : ∀ s l s', I s → step s l s' → I s')
    {trace : List L} {s : S} (h : Run init step trace s) : I s :=
  h.invariant (I := fun _ s => I s) h0 fun _ s l s' _ hi hs => hstep s l s' hi hs

/-- A run of another system whose steps include those of the trace. -/
theorem imp {step' : S → L → S → Prop} {trace : List L} {s : S} (h : Run init step trace s)
    (himp : ∀ s l s', l ∈ trace → step s l s' → step' s l s') : Run init step' trace s := by
  induction h with
  | start h => exact .start h
  | step hr hs ih =>
    refine (ih fun s l s' hl => himp s l s' (List.mem_append_left _ hl)).step (himp _ _ _ ?_ hs)
    exact List.mem_append_right _ (List.mem_singleton_self _)

/-- Executing a trace gives a run of it. -/
private theorem of_foldlM {f : S → L → Option S} (hf : ∀ s l s', f s l = some s' → step s l s') {s₀ : S} (h0 : init s₀)
    {trace : List L} {s : S} (h : trace.foldlM f s₀ = some s) : Run init step trace s := by
  induction trace using List.reverseRecOn generalizing s with
  | nil =>
    obtain rfl : s₀ = s := by simpa using h
    exact .start h0
  | append_singleton trace l ih =>
    rw [List.foldlM_append] at h
    obtain ⟨s₁, h₁, h₂⟩ := Option.bind_eq_some_iff.mp h
    refine (ih h₁).step (hf s₁ l s ?_)
    simpa using h₂

/-- A run to a state that passes a test, by executing its trace. -/
theorem of_any {f : S → L → Option S} (hf : ∀ s l s', f s l = some s' → step s l s') {s₀ : S} (h0 : init s₀)
    {trace : List L} {p : S → Bool} (h : (trace.foldlM f s₀).any p = true) :
    ∃ s, Run init step trace s ∧ p s = true := by
  obtain ⟨s, hs, hp⟩ := (Option.any_eq_true p _).mp h
  exact ⟨s, of_foldlM hf h0 hs, hp⟩

/-- The step of a run at a point of its trace. -/
theorem split {l : L} {post : List L} {pre : List L} {s : S} (h : Run init step (pre ++ l :: post) s) :
    ∃ s₀ s₁, Run init step pre s₀ ∧ step s₀ l s₁ := by
  generalize htrace : pre ++ l :: post = trace at h
  induction h generalizing post with
  | start _ => simp at htrace
  | @step trace s₁ l' s₂ hr hs ih =>
    rcases List.eq_nil_or_concat post with rfl | ⟨post', l'', rfl⟩
    · obtain ⟨rfl, hl⟩ := List.append_inj' htrace rfl
      obtain rfl : l = l' := by simpa using hl
      exact ⟨_, _, hr, hs⟩
    · have h' : (pre ++ l :: post') ++ [l''] = trace ++ [l'] := by simpa using htrace
      exact ih (List.append_inj' h' rfl).1

/-- Where each step has one outcome, so has each trace from one start. -/
theorem unique (hstep : ∀ s l s₁ s₂, step s l s₁ → step s l s₂ → s₁ = s₂) (hinit : ∀ s₁ s₂, init s₁ → init s₂ → s₁ = s₂)
    {trace : List L} {s₁ s₂ : S} (h₁ : Run init step trace s₁) (h₂ : Run init step trace s₂) : s₁ = s₂ := by
  induction h₁ generalizing s₂ with
  | start h =>
    generalize hnil : ([] : List L) = trace at h₂
    cases h₂ with
    | start h' => exact hinit _ _ h h'
    | step _ _ => simp at hnil
  | @step trace s l s' _ hs ih =>
    generalize hsnoc : trace ++ [l] = trace' at h₂
    cases h₂ with
    | start _ => simp at hsnoc
    | step hr' hs' =>
      obtain ⟨rfl, hl⟩ := List.append_inj' hsnoc rfl
      obtain rfl := List.singleton_inj.mp hl
      obtain rfl := ih hr'
      exact hstep _ _ _ _ hs hs'

end Run

/-- What holds at each point of a trace, by the numbers of the points. -/
theorem List.forall_split_iff {L : Type*} {P : List L → L → Prop} {trace : List L} :
    (∀ pre l post, trace = pre ++ l :: post → P pre l) ↔ ∀ n : Fin trace.length, P (trace.take n) (trace.get n) := by
  constructor
  · intro h n
    refine h _ _ (trace.drop (n + 1)) ?_
    rw [List.get_eq_getElem, ← List.drop_eq_getElem_cons, List.take_append_drop]
  · rintro h pre l post rfl
    have hn := h ⟨pre.length, by simp⟩
    simpa using hn

/-- Of two places of a trace, the one whose step does not come again after the other is before it. -/
theorem List.after_of_not_mem {L : Type*} {x y : L} {pre mid upTo since : List L}
    (h : pre ++ x :: mid = upTo ++ y :: since) (hx : x ∉ since) (hne : x ≠ y) :
    ∃ between, upTo = pre ++ x :: between ∧ mid = between ++ y :: since := by
  rcases List.append_eq_append_iff.mp h with ⟨between, rfl, hsplit⟩ | ⟨between, rfl, hsplit⟩
  · cases between with
    | nil => exact absurd (List.cons.inj hsplit).1 hne
    | cons l between =>
      cases hsplit
      exact ⟨between, rfl, rfl⟩
  · cases between with
    | nil => exact absurd (List.cons.inj hsplit).1.symm hne
    | cons l between =>
      cases hsplit
      exact absurd (List.mem_append_right _ List.mem_cons_self) hx

/-- A guarded step is taken where its guard holds. -/
theorem Option.of_guard {α : Type*} {p : Prop} [Decidable p] {a b : α} (h : (if p then some a else none) = some b) :
    p ∧ a = b := by
  split_ifs at h with hp
  exact ⟨hp, Option.some.inj h⟩
