import OvStorage.Lib.Interleave

/-!
# Calls that give a value back

A `Routine` is a call as its author writes it, in `do` notation over atomic actions; `thread` is
what the call is among others. `Keeps ok post h p` reads: from the history `h`, each action of `p` is
one that the history up to it allows, and what `p` gives back fits the history at its end. The rules
follow the notation (`keeps_pure`, `keeps_bind`, `keeps_bindT`, `keeps_ofExcept`), and
`Threads.allowed_of_run` carries what they give to every action of every run of any number of
calls. `eval` is what the routine gives back where one party answers.
-/

namespace Interleave

open List

universe u v w

/-- What is left of a call that gives a value back. -/
inductive Routine {A : Type u} (R : A → Type v) (α : Type w)
  | done (value : α)
  | act (a : A) (k : R a → Routine R α)

/-- The actions of a call so far, with their answers. -/
abbrev History {A : Type u} (R : A → Type v) := List (Sigma R)

namespace Routine

variable {A : Type u} {R : A → Type v} {α β ε : Type w}

protected def bind : Routine R α → (α → Routine R β) → Routine R β
  | done value, f => f value
  | act a k, f => act a fun r => (k r).bind f

instance : Monad (Routine R) where
  pure := done
  bind := Routine.bind

/-- One action. -/
def perform (a : A) : Routine R (R a) := act a done

/-- The call among others. -/
def thread : Routine R α → Prog R
  | done _ => .ret
  | act a k => .act a fun r => (k r).thread

/-- The value where one party answers every action. -/
def eval (answer : (a : A) → R a) : Routine R α → α
  | done value => value
  | act a k => (k (answer a)).eval answer

/-- Each action is one that the history up to it allows, and the value fits the history at the end. -/
def Keeps (ok : History R → A → Prop) (post : History R → α → Prop) : History R → Routine R α → Prop
  | h, done value => post h value
  | h, act a k => ok h a ∧ ∀ r, Keeps ok post (h ++ [⟨a, r⟩]) (k r)

variable {ok : History R → A → Prop} {h : History R}

/-! ### The rules -/

theorem keeps_pure {post : History R → α → Prop} {value : α} :
    Keeps ok post h (pure value) ↔ post h value := Iff.rfl

variable {p : Routine R α}

theorem keeps_bind {post : History R → β → Prop} {f : α → Routine R β} :
    Keeps ok post h (p >>= f) ↔ Keeps ok (fun h value => Keeps ok post h (f value)) h p := by
  induction p generalizing h with
  | done value => exact Iff.rfl
  | act a k ih =>
    exact and_congr_right fun _ => forall_congr' fun r => ih r

/-- The rule for a routine that may fail: past a failure nothing is done. -/
theorem keeps_bindT {post : History R → Except ε β → Prop} {p : ExceptT ε (Routine R) α}
    {f : α → ExceptT ε (Routine R) β} :
    Keeps ok post h (p >>= f).run ↔
      Keeps ok (fun h value => match value with
        | .ok a => Keeps ok post h (f a).run
        | .error e => post h (.error e)) h p.run := by
  refine keeps_bind.trans ?_
  have hpost : (fun h value => Keeps ok post h (ExceptT.bindCont f value)) =
      fun h value => match value with
        | .ok a => Keeps ok post h (f a).run
        | .error e => post h (.error e) := by
    funext h value
    cases value with
    | ok a => rfl
    | error e => rfl
  rw [hpost]
  rfl

theorem keeps_ofExcept {post : History R → Except ε α → Prop} {x : Except ε α} :
    Keeps ok post h (ofExcept x : ExceptT ε (Routine R) α).run ↔ post h x := by
  cases x with
  | ok a => exact Iff.rfl
  | error e => exact Iff.rfl

theorem eval_bind (answer : (a : A) → R a) (p : Routine R α) (f : α → Routine R β) :
    (p >>= f).eval answer = (f (p.eval answer)).eval answer := by
  induction p with
  | done value => rfl
  | act a k ih => exact ih (answer a)

theorem eval_bindT (answer : (a : A) → R a) (p : ExceptT ε (Routine R) α) (f : α → ExceptT ε (Routine R) β) :
    (p >>= f).run.eval answer = p.run.eval answer >>= fun a => (f a).run.eval answer := by
  refine (eval_bind answer p.run (ExceptT.bindCont f)).trans ?_
  cases p.run.eval answer with
  | ok a => rfl
  | error e => rfl

theorem eval_ofExcept (answer : (a : A) → R a) (x : Except ε α) :
    (ofExcept x : ExceptT ε (Routine R) α).run.eval answer = x := by
  cases x with
  | ok a => rfl
  | error e => rfl

theorem Keeps.imp {post post' : History R → α → Prop} (hp : Keeps ok post h p)
    (hpost : ∀ h value, post h value → post' h value) : Keeps ok post' h p := by
  induction p generalizing h with
  | done value => exact hpost h value hp
  | act a k ih => exact ⟨hp.1, fun r => ih r (hp.2 r)⟩

end Routine

/-! ### Among others -/

variable {ι S P A : Type*} {R : A → Type*} {exec : ι → (a : A) → R a → S → Option S}

/-- Each action of the program is one that the history up to it allows. -/
def Prog.Follows (ok : History R → A → Prop) : History R → Prog R → Prop
  | _, .ret => True
  | h, .act a k => ok h a ∧ ∀ r, Follows ok (h ++ [⟨a, r⟩]) (k r)
  | h, .alt p q => Follows ok h p ∧ Follows ok h q

theorem Routine.Keeps.follows {ok : History R → A → Prop} {α : Type*} {post : History R → α → Prop} {h : History R}
    {p : Routine R α} (hp : Keeps ok post h p) : p.thread.Follows ok h := by
  induction p generalizing h with
  | done value => trivial
  | act a k ih => exact ⟨hp.1, fun r => ih r (hp.2 r)⟩

/-- The actions of a thread among the steps of all. -/
def actsOf [DecidableEq ι] (t : ι) : List (Event ι P R) → History R :=
  List.filterMap fun
    | .act t' a r => if t' = t then some ⟨a, r⟩ else none
    | _ => none

/-- The step starts a call of the thread. -/
def Event.Calls (t : ι) : Event ι P R → Prop
  | .call t' _ => t' = t
  | _ => False

/-- The steps behind the start of the last call of the thread, which is one of `op`. -/
structure Since (t : ι) (trace before : List (Event ι P R)) (op : P) (during : List (Event ι P R)) : Prop where
  split : trace = before ++ .call t op :: during
  last : ∀ l ∈ during, ¬l.Calls t

/-- A thread's last call is one. -/
theorem Since.unique {t : ι} {trace before before' : List (Event ι P R)} {op op' : P}
    {during during' : List (Event ι P R)} (h : Since t trace before op during)
    (h' : Since t trace before' op' during') :
    before' = before ∧ op' = op ∧ during' = during := by
  have hsplit : before ++ .call t op :: during = before' ++ .call t op' :: during' := h.split.symm.trans h'.split
  rcases append_eq_append_iff.mp hsplit with ⟨as, rfl, has⟩ | ⟨as, rfl, has⟩
  · cases as with
    | nil =>
      obtain ⟨hop, rfl⟩ := List.cons.inj has
      exact ⟨append_nil _, (Event.call.inj hop).2.symm, rfl⟩
    | cons l as =>
      cases has
      exact absurd rfl (h.last (.call t op') (by simp))
  · cases as with
    | nil =>
      obtain ⟨hop, rfl⟩ := List.cons.inj has
      exact ⟨(append_nil _).symm, (Event.call.inj hop).2, rfl⟩
    | cons l as =>
      cases has
      exact absurd rfl (h'.last (.call t op) (by simp))

theorem actsOf_append [DecidableEq ι] (t : ι) (xs ys : List (Event ι P R)) :
    actsOf t (xs ++ ys) = actsOf t xs ++ actsOf t ys := filterMap_append

theorem mem_actsOf [DecidableEq ι] {t : ι} {trace : List (Event ι P R)} {a : A} {r : R a} :
    (⟨a, r⟩ : Sigma R) ∈ actsOf t trace ↔ .act t a r ∈ trace := by
  rw [actsOf, mem_filterMap]
  constructor
  · rintro ⟨l, hl, hact⟩
    cases l with
    | act t' a' r' =>
      replace hact : (if t' = t then some (⟨a', r'⟩ : Sigma R) else none) = some ⟨a, r⟩ := hact
      split_ifs at hact with ht
      cases ht
      cases hact
      exact hl
    | _ => cases hact
  · exact fun hl => ⟨_, hl, if_pos rfl⟩

section Calls

variable [DecidableEq ι] {prog : P → Prog R} {ok : P → History R → A → Prop}

/-- The thread is between calls, or the rest of its call follows what its last call is allowed. -/
def Threads.Following (ok : P → History R → A → Prop) (t : ι) (trace : List (Event ι P R)) (s : Threads ι S R) : Prop :=
  s.progs t = .ret ∨
    ∃ before op during, Since t trace before op during ∧ (s.progs t).Follows (ok op) (actsOf t during)

variable {during before trace : List (Event ι P R)} {l : Event ι P R}

omit [DecidableEq ι] in
theorem Since.concat {t : ι} {op : P} (h : Since t trace before op during) (hl : ¬l.Calls t) :
    Since t (trace ++ [l]) before op (during ++ [l]) where
  split := by simp [h.split]
  last l' hl' := by
    rcases mem_append.mp hl' with hl' | hl'
    · exact h.last l' hl'
    · rwa [mem_singleton.mp hl']

omit [DecidableEq ι] in
/-- The last call of a thread starts with the last step, or goes on with it. -/
theorem Since.of_concat {t : ι} {op : P} (h : Since t (trace ++ [l]) before op during) :
    during = [] ∧ l = .call t op ∨ ∃ during', during = during' ++ [l] ∧ Since t trace before op during' := by
  rcases eq_nil_or_concat during with rfl | ⟨during', l', rfl⟩
  · exact .inl ⟨rfl, (append_inj' h.split rfl).2 |> singleton_inj.mp⟩
  · rw [concat_eq_append] at h ⊢
    have hsplit : trace ++ [l] = (before ++ .call t op :: during') ++ [l'] := by simp [h.split]
    obtain ⟨htrace, hl⟩ := append_inj' hsplit rfl
    obtain rfl := singleton_inj.mp hl
    exact .inr ⟨during', rfl, htrace, fun l' hl' => h.last l' (mem_append_left _ hl')⟩

/-- Where an action stands among those of a thread. -/
theorem exists_of_actsOf {t : ι} {first rest : History R} {a : A} {r : R a}
    (h : actsOf t during = first ++ ⟨a, r⟩ :: rest) :
    ∃ pre post, during = pre ++ .act t a r :: post ∧ actsOf t pre = first ∧ actsOf t post = rest := by
  obtain ⟨pre, post', rfl, rfl, hpost⟩ := filterMap_eq_append_iff.mp h
  obtain ⟨skipped, l, post, rfl, hskipped, hl, rfl⟩ := filterMap_eq_cons_iff.mp hpost
  obtain rfl : l = .act t a r := by
    have hmem : (⟨a, r⟩ : Sigma R) ∈ actsOf t [l] := mem_filterMap.mpr ⟨l, mem_singleton_self l, hl⟩
    exact (mem_singleton.mp (mem_actsOf.mp hmem)).symm
  have hnone : actsOf t skipped = [] := filterMap_eq_nil_iff.mpr hskipped
  exact ⟨pre ++ skipped, post, by simp, by rw [actsOf_append, hnone, append_nil]; rfl, rfl⟩

namespace Threads

variable {trace before during : List (Event ι P R)} {s s' : Threads ι S R} {l : Event ι P R} {t : ι}

/-- Another step among those of the call, which takes its action if it is one. -/
theorem Following.concat {op : P} (hsince : Since t trace before op during) (hl : ¬l.Calls t)
    (hfollows : (s'.progs t).Follows (ok op) (actsOf t during ++ actsOf t [l])) :
    s'.Following ok t (trace ++ [l]) :=
  .inr ⟨before, op, during ++ [l], hsince.concat hl, by rwa [actsOf_append]⟩

/-- What the step of another thread leaves. -/
theorem Following.other
    (h : s.Following ok t trace) (hprogs : s'.progs t = s.progs t) (hl : ¬l.Calls t) (hacts : actsOf t [l] = []) :
    s'.Following ok t (trace ++ [l]) := by
  rcases h with h | ⟨before, op, during, hsince, hfollows⟩
  · exact .inl (hprogs.trans h)
  · exact Following.concat hsince hl (by rwa [hacts, append_nil, hprogs])

/-- A choice of the thread keeps to what the call is allowed. -/
theorem Following.chooses {p q p' : Prog R}
    (h : s.Following ok t trace) (halt : s.progs t = .alt p q) (hp' : s'.progs t = p') (hmem : p' = p ∨ p' = q)
    (hl : ¬l.Calls t) (hacts : actsOf t [l] = []) : s'.Following ok t (trace ++ [l]) := by
  rcases h with h | ⟨before, op, during, hsince, hfollows⟩
  · rw [h] at halt
    cases halt
  · rw [halt] at hfollows
    refine Following.concat hsince hl ?_
    rw [hacts, append_nil, hp']
    rcases hmem with rfl | rfl
    · exact hfollows.1
    · exact hfollows.2

variable [DecidableEq A]

/-- One step keeps every thread to what its call is allowed. -/
theorem Following.step (hprog : ∀ op, (prog op).Follows (ok op) []) (h : s.Following ok t trace)
    (hstep : s.step exec prog l = some s') :
    s'.Following ok t (trace ++ [l]) := by
  cases l with
  | call t' op =>
    simp only [Threads.step] at hstep
    split at hstep
    next hret =>
      cases hstep
      by_cases ht : t = t'
      · subst ht
        refine .inr ⟨trace, op, [], ⟨rfl, by simp⟩, ?_⟩
        simpa [actsOf] using hprog op
      · exact h.other (Function.update_of_ne ht _ _) (Ne.symm ht) rfl
    next => cases hstep
  | left t' =>
    simp only [Threads.step] at hstep
    split at hstep
    next p q halt =>
      cases hstep
      by_cases ht : t = t'
      · subst ht
        exact h.chooses halt (Function.update_self _ _ _) (.inl rfl) not_false rfl
      · exact h.other (Function.update_of_ne ht _ _) not_false rfl
    next => cases hstep
  | right t' =>
    simp only [Threads.step] at hstep
    split at hstep
    next p q halt =>
      cases hstep
      by_cases ht : t = t'
      · subst ht
        exact h.chooses halt (Function.update_self _ _ _) (.inr rfl) not_false rfl
      · exact h.other (Function.update_of_ne ht _ _) not_false rfl
    next => cases hstep
  | act t' a r =>
    simp only [Threads.step] at hstep
    split at hstep
    next a' k hact =>
      split_ifs at hstep with ha
      subst ha
      obtain ⟨s₂, -, rfl⟩ := Option.map_eq_some_iff.mp hstep
      by_cases ht : t = t'
      · subst ht
        rcases h with h | ⟨before, op, during, hsince, hfollows⟩
        · rw [h] at hact
          cases hact
        · rw [hact] at hfollows
          refine Following.concat hsince not_false ?_
          simpa [actsOf] using hfollows.2 r
      · exact h.other (Function.update_of_ne ht _ _) not_false (by simp [actsOf, Ne.symm ht])
    next => cases hstep

variable {T : Threads ι S R → Event ι P R → Threads ι S R → Prop} {init : Threads ι S R → Prop}

/-- Each action in a run is one that its call is allowed, after what the call has done since it started. -/
theorem allowed_of_run (hprog : ∀ op, (prog op).Follows (ok op) []) (h0 : ∀ s, init s → ∀ t, s.progs t = .ret)
    (hT : ∀ s l s', T s l s' → s.step exec prog l = some s') {pre post : List (Event ι P R)} {a : A} {r : R a}
    (h : Run init T (pre ++ .act t a r :: post) s) :
    ∃ before op during, Since t pre before op during ∧ ok op (actsOf t during) a := by
  obtain ⟨s₀, s₁, hrun, hstep⟩ := h.split
  have hfollowing : s₀.Following ok t pre :=
    hrun.invariant (I := fun trace s => s.Following ok t trace) (fun s hs => .inl (h0 s hs t))
      fun _ _ _ _ _ hi hs => hi.step hprog (hT _ _ _ hs)
  have hact := hT _ _ _ hstep
  simp only [Threads.step] at hact
  split at hact
  next a' k hprogs =>
    split_ifs at hact with ha
    subst ha
    rcases hfollowing with hret | ⟨before, op, during, hsince, hfollows⟩
    · rw [hret] at hprogs
      cases hprogs
    · rw [hprogs] at hfollows
      exact ⟨before, op, during, hsince, hfollows.1⟩
  next => cases hact

/-- Each action of a thread's last call is one that the call is allowed, after what it had done before. -/
theorem allowed_of_since (hprog : ∀ op, (prog op).Follows (ok op) []) (h0 : ∀ s, init s → ∀ t, s.progs t = .ret)
    (hT : ∀ s l s', T s l s' → s.step exec prog l = some s') {op : P} (h : Run init T trace s)
    (hsince : Since t trace before op during) {first rest : History R} {a : A} {r : R a}
    (hacts : actsOf t during = first ++ ⟨a, r⟩ :: rest) : ok op first a := by
  obtain ⟨pre, post, rfl, rfl, -⟩ := exists_of_actsOf hacts
  have hfirst : Since t (before ++ .call t op :: pre) before op pre :=
    ⟨rfl, fun l hl => hsince.last l (mem_append_left _ hl)⟩
  have htrace : trace = (before ++ .call t op :: pre) ++ .act t a r :: post := by
    rw [hsince.split]
    simp
  obtain ⟨before', op', during', hsince', hok⟩ := allowed_of_run hprog h0 hT (htrace ▸ h)
  obtain ⟨rfl, rfl, rfl⟩ := hfirst.unique hsince'
  exact hok

end Threads

end Calls

end Interleave
