import OvStorage.Lib.Routine

/-!
# Calls that uphold an invariant

An `Upkeep` fixes an invariant of the shared state and the steps that the runs in question take.
`Upholds` says that each action of a routine keeps the invariant, whatever the others have done
before it, and that what the routine gives back has a property; what a call has learnt from one answer
is at hand for its later actions. `Only` is for the routines whose actions are all of a kind. The rules
follow the notation; `handle` replaces each action by a routine of a lower level, and
`Keeps.upholds_handle` carries over what is known of the upper one.

`Upkeep.run`: where the calls uphold the invariant, it holds in every state of every run.
-/

namespace Interleave

variable {ι S P : Type*} {A B : Type} {R : A → Type} {R' : B → Type} {α β ε : Type}

namespace Routine

/-- Each action is done by another routine. -/
def handle (f : (a : A) → Routine R' (R a)) : Routine R α → Routine R' α
  | done value => done value
  | act a k => (f a).bind fun r => (k r).handle f

/-- Every action is of the kind. -/
def Only (kind : A → Prop) : Routine R α → Prop
  | done _ => True
  | act a k => kind a ∧ ∀ r, (k r).Only kind

variable {kind : A → Prop}

theorem Only.bind {p : Routine R α} {f : α → Routine R β} (hp : p.Only kind) (hf : ∀ value, (f value).Only kind) :
    (p >>= f).Only kind := by
  induction p with
  | done value => exact hf value
  | act a k ih => exact ⟨hp.1, fun r => ih r (hp.2 r)⟩

/-- The rule for routines that may fail. -/
theorem Only.bindT {p : ExceptT ε (Routine R) α} {f : α → ExceptT ε (Routine R) β} (hp : p.run.Only kind)
    (hf : ∀ value, (f value).run.Only kind) : (p >>= f).run.Only kind := by
  refine Only.bind hp fun value => ?_
  cases value with
  | ok a => exact hf a
  | error e => trivial

theorem only_ofExcept {x : Except ε α} : (ofExcept x : ExceptT ε (Routine R) α).run.Only kind := by
  cases x with
  | ok a => trivial
  | error e => trivial

end Routine

/-- An invariant, and the steps that the runs in question take. -/
structure Upkeep (exec : ι → (a : A) → R a → S → Option S) where
  allowed : ι → (a : A) → R a → S → Prop
  inv : S → Prop

namespace Upkeep

variable {exec : ι → (a : A) → R a → S → Option S} (K : Upkeep exec)

/-- The action keeps the invariant, and its answer has the property. -/
def Ensures (t : ι) (a : A) (Q : R a → Prop) : Prop :=
  ∀ s r s', K.inv s → K.allowed t a r s → exec t a r s = some s' → K.inv s' ∧ Q r

/-- Each action keeps the invariant, and what is given back has the property. -/
def Upholds (t : ι) (Q : α → Prop) : Routine R α → Prop
  | .done value => Q value
  | .act a k => K.Ensures t a fun r => Upholds t Q (k r)

variable {K} {t : ι} {Q : α → Prop}

theorem upholds_pure {value : α} (h : Q value) : K.Upholds t Q (pure value : Routine R α) := h

theorem upholds_perform {a : A} {Q : R a → Prop} (h : K.Ensures t a Q) :
    K.Upholds t Q (Routine.perform a : Routine R (R a)) := h

theorem Ensures.mono {a : A} {Q Q' : R a → Prop} (h : K.Ensures t a Q) (hQ : ∀ r, Q r → Q' r) : K.Ensures t a Q' :=
  fun s r s' hs hallowed hexec => (h s r s' hs hallowed hexec).imp_right (hQ r)

variable {p : Routine R α}

theorem Upholds.mono {Q' : α → Prop} (h : K.Upholds t Q p) (hQ : ∀ value, Q value → Q' value) : K.Upholds t Q' p := by
  induction p with
  | done value => exact hQ value h
  | act a k ih => exact Ensures.mono h fun r => ih r

variable {Q' : β → Prop}

theorem Upholds.bind {f : α → Routine R β} (hp : K.Upholds t Q p)
    (hf : ∀ value, Q value → K.Upholds t Q' (f value)) : K.Upholds t Q' (p >>= f) := by
  induction p with
  | done value => exact hf value hp
  | act a k ih => exact Ensures.mono hp fun r => ih r

variable (K) in
/-- What holds of every value that a routine gives back, if it does not fail. -/
def UpholdsT (t : ι) (Q : α → Prop) (p : ExceptT ε (Routine R) α) : Prop :=
  K.Upholds t (fun x => ∀ value, x = .ok value → Q value) p.run

theorem UpholdsT.bind {p : ExceptT ε (Routine R) α} {f : α → ExceptT ε (Routine R) β}
    (hp : K.UpholdsT t Q p) (hf : ∀ value, Q value → K.UpholdsT t Q' (f value)) : K.UpholdsT t Q' (p >>= f) := by
  refine Upholds.bind hp fun x hx => ?_
  cases x with
  | ok value => exact hf value (hx value rfl)
  | error e => exact fun _ h => nomatch h

theorem upholdsT_pure {value : α} (h : Q value) : K.UpholdsT t Q (pure value : ExceptT ε (Routine R) α) := by
  rintro _ ⟨⟩
  exact h

theorem upholdsT_throw {error : ε} : K.UpholdsT t Q (throw error : ExceptT ε (Routine R) α) := fun _ h => nomatch h

theorem upholdsT_ofExcept {x : Except ε α} (h : ∀ value, x = .ok value → Q value) :
    K.UpholdsT t Q (ofExcept x : ExceptT ε (Routine R) α) := by
  cases x with
  | ok a => exact h
  | error e => exact fun _ h => nomatch h

theorem upholdsT_lift (h : K.Upholds t Q p) : K.UpholdsT t Q (ExceptT.lift p : ExceptT ε (Routine R) α) := by
  refine Upholds.bind h fun value hvalue => ?_
  rintro _ ⟨⟩
  exact hvalue

/-- A routine all whose actions keep the invariant by themselves. -/
theorem upholds_of_only {kind : A → Prop} (hkind : ∀ a, kind a → K.Ensures t a fun _ => True)
    (h : p.Only kind) : K.Upholds t (fun _ => True) p := by
  induction p with
  | done value => trivial
  | act a k ih => exact (hkind a h.1).mono fun r _ => ih r (h.2 r)

/-- What the actions of an upper level are allowed, and what their answers are known to be, is what the
routines of the lower level need to uphold the invariant. -/
theorem upholds_handle {C : Type} {U : C → Type} {ok : History U → C → Prop} {good : (c : C) → U c → Prop}
    {post : History U → α → Prop} {f : (c : C) → Routine R (U c)}
    (hf : ∀ h c, (∀ x ∈ h, good x.1 x.2) → ok h c → K.Upholds t (good c) (f c)) {p : Routine U α} {h : History U}
    (hp : p.Keeps ok post h) (hh : ∀ x ∈ h, good x.1 x.2) :
    K.Upholds t (fun value => ∃ h', (∀ x ∈ h', good x.1 x.2) ∧ post h' value) (p.handle f) := by
  induction p generalizing h with
  | done value => exact ⟨h, hh, hp⟩
  | act c k ih =>
    refine Upholds.bind (hf h c hh hp.1) fun r hr => ih r (hp.2 r) fun x hx => ?_
    rcases List.mem_append.mp hx with hx | hx
    · exact hh x hx
    · obtain rfl := List.mem_singleton.mp hx
      exact hr

/-! ### Every run -/

variable (K) in
/-- Nothing is relied on but the invariant. -/
def discipline : Discipline exec where
  allowed := K.allowed
  inv := K.inv
  rely _ _ _ := True
  quiet _ _ := True
  rely_refl _ _ := trivial
  rely_trans _ _ := trivial
  rely_of_exec _ _ := trivial
  quiet_of_rely _ _ := trivial

theorem Upholds.safe (h : K.Upholds t Q p) (s : S) : K.discipline.Safe t p.thread s := by
  induction p generalizing s with
  | done value => trivial
  | act a k ih =>
    intro s₁ _ hs r s₂ hallowed hexec
    exact (h s₁ r s₂ hs hallowed hexec).imp_right fun hk => ih r hk s₂

/-- Where the calls uphold the invariant, it holds in every state of every run. -/
theorem run [DecidableEq ι] [DecidableEq A] {prog : P → Routine R Unit} {good : P → Prop}
    (hprog : ∀ t op, good op → K.Upholds t (fun _ => True) (prog op)) {init : Threads ι S R → Prop}
    (h0 : ∀ s, init s → K.inv s.shared ∧ ∀ t, s.progs t = .ret) {trace : List (Event ι P R)} {s : Threads ι S R}
    (h : Run init (fun s l s' => s.step exec (fun op => (prog op).thread) l = some s' ∧
      K.discipline.Allows s l ∧ l.Asks good)
      trace s) : K.inv s.shared := by
  have hkept : K.discipline.Kept s := by
    refine Discipline.run_of_calls (fun t op s hgood _ _ => (hprog t op hgood).safe s)
      (fun s hs => ⟨(h0 s hs).1, fun t => ?_⟩) h
    rw [(h0 s hs).2 t]
    trivial
  exact hkept.inv

end Upkeep

end Interleave
