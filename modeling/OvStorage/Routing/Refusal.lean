import OvStorage.Routing.Publication

/-!
# Refused connections

A connection that is refused and that its child does not give back is withheld from the
tables: its key is recorded before the removal is tried, and each rebuild takes the roots
of what it finds recorded out of what it has gathered.

## The gap

A rebuild reads the record before it publishes. What was recorded in between it does not
know, and what is lifted after a refusal nobody withholds. `spared` says when a step runs
into neither; `refused_never_routes` is about every run of such steps, and
`routes_while_refused` about one that is not.
-/

namespace OvStorage.Routing

open Address Interleave Contract List

variable {U : UrlCrate} {ι θ : Type} [DecidableEq ι]

/-- No root of the connection is in the table in force. -/
def World.Unrouted (s : World U ι θ) (ref : ConnectionRef ι) : Prop := ∀ route ∈ s.table.routes, ref.owns route = false

/-- A rebuild publishes knowing of all that is withheld; nothing is withheld whose root is in force
already; and a connection is withheld for as long as its child holds it, but for a new add of it, and
none is added of a leftover. -/
def spared [DecidableEq θ] (t : θ) : (a : Action U ι) → Answer a → World U ι θ → Bool
  | .installRoutes gathered, _, s =>
    s.quarantined.all fun held => gathered.quarantined.any fun read => read.1.ref == held.ref
  | .quarantine adding, _, s => s.table.routes.all fun route => !adding.ref.owns route
  | .liftQuarantine ref, _, s => if s.adder = some t then !s.past.leftovers.contains ref else !s.holds ref
  | _, _, _ => true

/-! ### What refusals are about -/

structure Refusals (U : UrlCrate) (ι θ : Type) where
  routes : List (PublishedRoot U × ι)
  quarantined : List (Quarantined U ι)
  holds : ConnectionRef ι → Bool
  leftovers : List (ConnectionRef ι)
  adder : Option θ

def World.refusals (s : World U ι θ) : Refusals U ι θ :=
  ⟨s.table.routes, s.quarantined, s.holds, s.past.leftovers, s.adder⟩

namespace Refusals

variable (s s' : Refusals U ι θ)

/-- The connection is withheld, and no root of it is in force. -/
structure Withheld (ref : ConnectionRef ι) : Prop where
  quarantined : ∃ held ∈ s.quarantined, held.ref = ref
  unrouted : ∀ route ∈ s.routes, ref.owns route = false

/-- The connection is withheld if its child holds it. -/
def Safe (ref : ConnectionRef ι) : Prop := s.holds ref = true → s.Withheld ref

/-- The refused connections that are left are held, and withheld. -/
def Inv : Prop := ∀ ref ∈ s.leftovers, s.holds ref = true ∧ s.Withheld ref

/-- What the holder of the gate relies on. -/
structure Rely (t : θ) : Prop where
  adder : s'.adder = some t ↔ s.adder = some t
  safe : s.adder = some t → ∀ ref, s.Safe ref → s'.Safe ref

/-- The step brings no refused connection nearer to the table. -/
structure Eases : Prop where
  adder : s'.adder = s.adder
  leftovers : ∀ ref ∈ s'.leftovers, ref ∈ s.leftovers ∧ s'.holds ref = s.holds ref
  holds : ∀ ref, s'.holds ref = true → s.holds ref = true
  withheld : ∀ ref, s'.holds ref = true → s.Withheld ref → s'.Withheld ref

variable {s s'}

theorem Eases.refl (s : Refusals U ι θ) : s.Eases s := ⟨rfl, fun _ h => ⟨h, rfl⟩, fun _ h => h, fun _ _ h => h⟩

end Refusals

section Contract

variable [DecidableEq θ] (children : List ι)

/-- What the steps of the router's tasks promise about refused connections. -/
def refusing : Contract (Action.exec (U := U) (θ := θ) children) where
  allowed t a r s := spared t a r s = true
  inv s := s.refusals.Inv
  guar t _ s s' := ∀ t' ≠ t, s.refusals.Rely s'.refusals t'
  rely t s s' := s.refusals.Rely s'.refusals t
  quiet t s := s.adder ≠ some t
  rely_refl _ _ := ⟨Iff.rfl, fun _ _ h => h⟩
  rely_trans h h' := ⟨h'.adder.trans h.adder, fun ha ref hs => h'.safe (h.adder.mpr ha) ref (h.safe ha ref hs)⟩
  rely_of_guar ht h := h _ ht
  quiet_of_rely h hq := fun ha => hq (h.adder.mp ha)

variable {children} {t : θ}

omit [DecidableEq θ] in
theorem holds_settle (s : World U ι θ) (ref : ConnectionRef ι) (standing : Standing) :
    (s.settle ref standing).holds = s.holds := by
  funext other
  by_cases hchild : other.child = ref.child
  · simp only [World.holds, World.settle, hchild, Function.update_self, any_map]
    congr 1
    funext held
    simp only [Function.comp_apply]
    split_ifs <;> rfl
  · simp only [World.holds, World.settle, Function.update_of_ne hchild]

omit [DecidableEq θ] in
theorem refusals_settle (s : World U ι θ) (ref : ConnectionRef ι) (standing : Standing) :
    (s.settle ref standing).refusals = s.refusals := by
  unfold World.refusals
  rw [holds_settle]
  rfl

variable {ref other : ConnectionRef ι}

omit [DecidableEq ι] [DecidableEq θ] in
/-- A connection goes by one name. -/
theorem names_unique {held : Held U} [DecidableEq ι] (hchild : other.child = ref.child)
    (h : ref.names held = true) (h' : other.names held = true) : other = ref := by
  simp only [ConnectionRef.names, Bool.and_eq_true, beq_iff_eq] at h h'
  cases ref
  cases other
  simp_all

omit [DecidableEq θ] in
theorem holds_letGo (s : World U ι θ) (ref other : ConnectionRef ι) :
    (s.letGo ref).holds other = (decide (other ≠ ref) && s.holds other) := by
  by_cases hchild : other.child = ref.child
  · simp only [World.holds, World.letGo, hchild, Function.update_self, any_filter]
    by_cases heq : other = ref
    · simp [heq]
    · rw [decide_eq_true heq, Bool.true_and]
      congr 1
      funext held
      by_cases hnames : ref.names held = true
      · have hother : other.names held ≠ true := fun h => heq (names_unique hchild hnames h)
        simp [hnames, Bool.eq_false_of_not_eq_true hother]
      · simp [Bool.eq_false_of_not_eq_true hnames]
  · have heq : other ≠ ref := fun h => hchild (congrArg ConnectionRef.child h)
    simp only [World.holds, World.letGo, Function.update_of_ne hchild, decide_eq_true heq, Bool.true_and]

/-- The actions that refusals are not about. -/
def Action.plain : Action U ι → Bool
  | .lockGate | .unlockGate | .crossChildConflict _ _ _ _ | .quarantine _ | .liftQuarantine _
  | .installRoutes _ | .addTo _ _ | .removeFrom _ | .answer (.refusedLeftover _) => false
  | _ => true

variable {s : World U ι θ} {a : Action U ι}

theorem refusals_of_plain {r : Answer a} {s' : World U ι θ} (ha : a.plain = true)
    (h : Action.effect children t a r s = some s') : s'.refusals = s.refusals := by
  revert h ha
  fun_cases Action.effect children t a r s <;> rintro ha h <;>
    first
    | (obtain rfl := Option.some.inj h; rfl)
    | (cases h; done)
    | (cases ha; done)
    | (unfold World.publish at h; split_ifs at h; obtain rfl := Option.some.inj h; rfl)
    | (obtain rfl := Option.some.inj h; unfold World.claimRoots; split_ifs <;> rfl)
    | (obtain rfl := Option.some.inj h; exact refusals_settle _ _ _)

/-! ### Steps -/

variable {gathered : FanOut U ι}

section

omit [DecidableEq θ]

/-- The roots of a rebuild that knew of all that is withheld. -/
theorem owns_of_routes (hread : ∃ read ∈ gathered.quarantined, read.1.ref = ref)
    {route : PublishedRoot U × ι} (h : route ∈ gathered.routes children) : ref.owns route = false := by
  obtain ⟨read, hmem, rfl⟩ := hread
  rw [Bool.eq_false_iff]
  intro howns
  -- an attributed root is withheld by the entry of its own connection
  have hwithholds : read.1.withholds read.2 route = true := by
    simp only [ConnectionRef.owns, Quarantined.ref, Bool.and_eq_true, beq_iff_eq] at howns
    obtain ⟨⟨hchild, hid⟩, howner⟩ := howns
    simp [Quarantined.withholds, hchild, hid, howner]
  have hstays : withheldAt gathered.quarantined route = none := Option.isNone_iff_eq_none.mp (mem_filter.mp h).2
  exact absurd hwithholds (by simpa using List.findIdx?_eq_none_iff.mp hstays read hmem)

theorem exists_quarantined (s : World U ι θ) (adding : Adding U ι) :
    ∃ held ∈ (s.quarantine adding).quarantined, held.ref = adding.ref := by
  unfold World.quarantine
  split_ifs with hany
  · obtain ⟨held, hmem, heq⟩ := any_eq_true.mp hany
    exact ⟨held, hmem, eq_of_beq heq⟩
  · exact ⟨_, mem_append_right _ (mem_singleton_self _), rfl⟩

theorem eases_quarantine (s : World U ι θ) (adding : Adding U ι) : s.refusals.Eases (s.quarantine adding).refusals := by
  have hsub : ∀ held ∈ s.quarantined, held ∈ (s.quarantine adding).quarantined := by
    intro held hmem
    unfold World.quarantine
    split_ifs
    · exact hmem
    · exact mem_append_left _ hmem
  have hrest : (s.quarantine adding).refusals =
      { s.refusals with quarantined := (s.quarantine adding).quarantined } := by
    unfold World.quarantine
    split_ifs <;> rfl
  rw [hrest]
  exact ⟨rfl, fun _ h => ⟨h, rfl⟩, fun _ h => h, fun ref _ hw =>
    ⟨hw.quarantined.imp fun held hheld => ⟨hsub held hheld.1, hheld.2⟩, hw.unrouted⟩⟩

theorem eases_liftQuarantine (h : s.holds ref = false) : s.refusals.Eases (s.liftQuarantine ref).refusals := by
  refine ⟨rfl, fun _ h => ⟨h, rfl⟩, fun _ h => h, fun other hother hw => ⟨?_, hw.unrouted⟩⟩
  obtain ⟨held, hmem, rfl⟩ := hw.quarantined
  have hne : held.ref ≠ ref := fun heq => by
    rw [heq] at hother
    exact absurd (h.symm.trans hother) Bool.false_ne_true
  exact ⟨held, mem_filter.mpr ⟨hmem, decide_eq_true hne⟩, rfl⟩

theorem eases_letGo (s : World U ι θ) (ref : ConnectionRef ι) : s.refusals.Eases (s.letGo ref).refusals where
  adder := rfl
  leftovers other h := by
    obtain ⟨hmem, hne⟩ := mem_filter.mp h
    exact ⟨hmem, (holds_letGo s ref other).trans (by rw [hne, Bool.true_and]; rfl)⟩
  holds other h := by
    have := (holds_letGo s ref other).symm.trans h
    exact (Bool.and_eq_true_iff.mp this).2
  withheld _ _ hw := ⟨hw.quarantined, hw.unrouted⟩

theorem eases_check (s : World U ι θ) (adding : Adding U ι) (claimable : List (CanonicalUrl U)) (last : Bool)
    (verdict : Except ErrorCode (List (CanonicalUrl U))) :
    s.refusals.Eases (s.check adding claimable last verdict).refusals := by
  cases verdict with
  | ok kept =>
    simp only [World.check]
    split_ifs
    · have hholds : (s.settle adding.ref .accepted).holds = s.holds := holds_settle s adding.ref .accepted
      exact ⟨rfl, fun ref h => ⟨(mem_filter.mp h).1, congrFun hholds ref⟩,
        fun ref h => (congrFun hholds ref).symm.trans h, fun _ _ hw => ⟨hw.quarantined, hw.unrouted⟩⟩
    · exact .refl _
  | error code =>
    simp only [World.check]
    split_ifs
    · exact .refl s.refusals
    · exact .refl _

theorem eases_install (hread : ∀ held ∈ s.quarantined, ∃ read ∈ gathered.quarantined, read.1.ref = held.ref) :
    s.refusals.Eases (s.install children gathered).refusals := by
  refine ⟨rfl, fun _ h => ⟨h, rfl⟩, fun _ h => h, fun ref _ hw => ⟨hw.quarantined, fun route hroute => ?_⟩⟩
  obtain ⟨held, hmem, rfl⟩ := hw.quarantined
  exact owns_of_routes (hread held hmem) (mem_incumbentsFirst.mp hroute)

end

/-- The actions that are not part of an add under its gate. -/
def Action.aside : Action U ι → Bool
  | .lockGate | .unlockGate | .addTo _ _ | .answer (.refusedLeftover _) => false
  | _ => true

/-- A step eases what is refused, or is the holder's own that lifts a withheld connection. -/
theorem eases_of_aside {r : Answer a} {s' : World U ι θ} (ha : a.aside = true) (hl : spared t a r s = true)
    (h : Action.effect children t a r s = some s') :
    s.refusals.Eases s'.refusals ∨ ∃ ref, s.adder = some t ∧ ref ∉ s.past.leftovers ∧ s' = s.liftQuarantine ref := by
  by_cases hplain : a.plain = true
  · rw [refusals_of_plain hplain h]
    exact .inl (.refl _)
  cases a with
  | crossChildConflict adding claimed claimable last =>
    obtain ⟨-, rfl⟩ := Option.of_guard h
    exact .inl (eases_check s adding claimable last _)
  | quarantine adding =>
    cases h
    exact .inl (eases_quarantine s adding)
  | liftQuarantine ref =>
    cases h
    simp only [spared] at hl
    split_ifs at hl with hadder
    · exact .inr ⟨ref, hadder, by simpa using hl, rfl⟩
    · exact .inl (eases_liftQuarantine (by simpa using hl))
  | installRoutes gathered =>
    obtain ⟨-, rfl⟩ := Option.of_guard h
    exact .inl (eases_install (by simpa [spared] using hl))
  | removeFrom ref =>
    cases r with
    | Ok time =>
      obtain ⟨-, rfl⟩ := Option.of_guard h
      exact .inl (eases_letGo s ref)
    | CommitAmbiguous =>
      cases h
      exact .inl (eases_letGo s ref)
    | failed removed =>
      cases h
      split_ifs
      · exact .inl (eases_letGo s ref)
      · exact .inl (.refl _)
  | answer outcome => cases outcome <;> simp_all [Action.aside, Action.plain]
  | _ => simp_all [Action.aside, Action.plain]

section

omit [DecidableEq θ]

theorem Refusals.Eases.inv {s s' : Refusals U ι θ} (h : s.Eases s') (hinv : s.Inv) : s'.Inv := by
  intro ref hleft
  obtain ⟨hmem, heq⟩ := h.leftovers ref hleft
  obtain ⟨hholds, hw⟩ := hinv ref hmem
  exact ⟨heq.trans hholds, h.withheld ref (heq.trans hholds) hw⟩

theorem Refusals.Eases.rely {s s' : Refusals U ι θ} (h : s.Eases s') (t : θ) : s.Rely s' t where
  adder := by rw [h.adder]
  safe _ ref hsafe hholds := h.withheld ref hholds (hsafe (h.holds ref hholds))

/-- Nobody else relies on what the holder of the gate does. -/
theorem rely_of_holder {s s' : Refusals U ι θ} {t' : θ} (ha : s.adder = some t) (ha' : s'.adder = s.adder)
    (ht : t' ≠ t) :
    s.Rely s' t' where
  adder := by rw [ha']
  safe h := absurd (Option.some.inj (h.symm.trans ha)) ht

/-- An entry is lifted for no leftover. -/
theorem inv_liftQuarantine (hinv : s.refusals.Inv) (h : ref ∉ s.past.leftovers) :
    (s.liftQuarantine ref).refusals.Inv := by
  intro other hleft
  obtain ⟨hholds, hw⟩ := hinv other hleft
  obtain ⟨held, hmem, rfl⟩ := hw.quarantined
  have hne : held.ref ≠ ref := fun heq => h (heq ▸ hleft)
  exact ⟨hholds, ⟨held, mem_filter.mpr ⟨hmem, decide_eq_true hne⟩, rfl⟩, hw.unrouted⟩

end

/-! ### Programs -/

variable {K : World U ι θ → Prop}

/-- What is known is about the gate alone. -/
def OfGate (t : θ) (K : World U ι θ → Prop) : Prop :=
  ∀ {s s' : World U ι θ}, (s'.adder = some t ↔ s.adder = some t) → K s → K s'

/-- The task does not hold the gate. -/
def Outside (t : θ) (s : World U ι θ) : Prop := s.adder ≠ some t

/-- The task holds the gate. -/
def Inside (t : θ) (s : World U ι θ) : Prop := s.adder = some t

omit [DecidableEq ι] [DecidableEq θ] in
theorem ofGate_outside : OfGate t (Outside (U := U) (ι := ι) t) := fun h hs ha => hs (h.mp ha)

omit [DecidableEq ι] [DecidableEq θ] in
theorem ofGate_inside : OfGate t (Inside (U := U) (ι := ι) t) := fun h hs => h.mpr hs

/-- An action that is not part of an add. -/
theorem valid_aside {k : Answer a → Program U ι} (hK : OfGate t K) (ha : a.aside = true)
    (hk : ∀ r, (refusing children).Valid t K (k r)) : (refusing children).Valid t K (perform a k) := by
  refine Valid.act (Q := fun _ => K) (fun hr hs => hK hr.adder hs) ?_ hk
  intro s r s' hs hinv hl hexec
  obtain ⟨s₁, heffect, rfl⟩ := Option.map_eq_some_iff.mp hexec
  rcases eases_of_aside ha hl heffect with heases | ⟨ref, hadder, hleft, rfl⟩
  · exact ⟨heases.inv hinv, fun t' _ => heases.rely t', hK (by rw [show s₁.tick.adder = s.adder from heases.adder]) hs⟩
  · exact ⟨inv_liftQuarantine hinv hleft, fun t' ht => rely_of_holder hadder rfl ht,
      hK (show (s.liftQuarantine ref).tick.adder = some t ↔ s.adder = some t from Iff.rfl) hs⟩

/-- Up to its rest, the program is not part of an add. -/
abbrev Aside (rest p : Program U ι) : Prop := p.Through (fun a => a.aside = true) (· = rest)

theorem valid_of_aside {p rest : Program U ι} (hK : OfGate t K) (hp : Aside rest p)
    (hrest : (refusing children).Valid t K rest) : (refusing children).Valid t K p :=
  Valid.of_through hp (fun ha hk => valid_aside hK ha hk) fun _ hq => hq ▸ hrest

section Aside

omit [DecidableEq θ]

variable {rest : Program U ι}

theorem aside_fanOut {k : Option (List (ChildAnswer U ι)) → Program U ι} (hk : ∀ answers, Aside rest (k answers)) :
    ∀ (n : ℕ) (remaining : List ι) (answers : List (ChildAnswer U ι)), Aside rest (fanOut k n remaining answers) := by
  intro n
  induction n with
  | zero => exact fun _ answers => hk (some answers)
  | succ n ih =>
    refine fun remaining answers => .act rfl fun reply => ?_
    cases reply with
    | none => exact hk none
    | some answer => exact ih _ _

variable {k : Bool → Program U ι}

omit [DecidableEq ι] in
theorem aside_retire (hk : ∀ done, Aside rest (k done)) (candidates : List (Quarantined U ι)) :
    Aside rest (retireConfirmedQuarantines k candidates) := by
  induction candidates with
  | nil => exact hk true
  | cons candidate candidates ih =>
    refine .act rfl fun reply => ?_
    cases reply with
    | dropped => exact hk false
    | failed => exact ih
    | answered ids =>
      dsimp only
      split_ifs
      · exact ih
      · exact .act rfl fun _ => ih

omit [DecidableEq ι] in
theorem aside_publication {k : Program U ι} (hk : Aside rest k) : Aside rest (publication gathered k) := by
  refine .act rfl fun applied => ?_
  split_ifs
  · exact .act rfl fun _ => .act rfl fun _ => hk
  · exact .act rfl fun _ => .act rfl fun _ => .act rfl fun _ => .act rfl fun _ => .act rfl fun _ => hk

theorem aside_rebuild {generation : ℕ} (hk : ∀ ok, Aside rest (k ok)) : Aside rest (rebuild children generation k) := by
  refine aside_fanOut (fun answers => ?_) _ _ _
  cases answers with
  | none => exact hk false
  | some answers =>
    refine .act rfl fun owned => ?_
    cases collectTargets owned with
    | none => exact hk false
    | some targets =>
      refine .act rfl fun quarantined => aside_retire (fun done => ?_) _
      split_ifs
      · exact aside_publication (hk true)
      · exact hk false

theorem aside_routeCatchUpTask : Aside (.ret : Program U ι) (routeCatchUpTask children) := by
  refine .act rfl fun generation => .act rfl fun permit => ?_
  cases permit with
  | false => exact .act rfl fun _ => .here rfl
  | true => exact aside_rebuild fun ok => .act rfl fun _ => .act rfl fun _ => .here rfl

section

omit [DecidableEq ι]

theorem aside_removalTask : Aside (.ret : Program U ι) removalTask := by
  refine .act rfl fun task => .act rfl fun removed => ?_
  cases removed <;> exact .act rfl fun _ => .here rfl

theorem aside_routeCatchUpAt {generation committedAt : ℕ} {k : Program U ι} (hk : Aside rest k) :
    Aside rest (routeCatchUpAt generation committedAt k) := by
  refine .act rfl fun _ => .act rfl fun outcome => ?_
  rcases outcome with _ | _ | _
  · exact hk
  · exact hk
  · exact .act rfl fun _ => hk

theorem aside_removeConnection (target : Target) (id : ConnectionId) :
    Aside (.ret : Program U ι) (removeConnection target id) := by
  refine .act rfl fun child => ?_
  cases child with
  | none => exact .here rfl
  | some child =>
    refine .act rfl fun removed => ?_
    cases removed with
    | Ok time => exact .act rfl fun _ => .act rfl fun _ => aside_routeCatchUpAt (.here rfl)
    | CommitAmbiguous => exact .here rfl
    | failed removed => exact .here rfl

theorem aside_updateConnectionAttributes (target : Target) :
    Aside (.ret : Program U ι) (updateConnectionAttributes target) := by
  refine .act rfl fun child => ?_
  cases child with
  | none => exact .here rfl
  | some child =>
    refine .act rfl fun updated => ?_
    cases updated with
    | none => exact .here rfl
    | some time => exact .act rfl fun _ => aside_routeCatchUpAt (.here rfl)

end

end Aside

/-! ### Adds -/

theorem valid_ret : (refusing children).Valid t (Outside t) (.ret : Program U ι) := Valid.ret fun _ hs => hs

omit [DecidableEq ι] [DecidableEq θ] in
/-- The gate goes from hand to hand. -/
theorem Refusals.Inv.handover [DecidableEq ι] {s : Refusals U ι θ} (h : s.Inv) (adder : Option θ) :
    ({ s with adder } : Refusals U ι θ).Inv :=
  fun ref hleft => ⟨(h ref hleft).1, (h ref hleft).2.quarantined, (h ref hleft).2.unrouted⟩

theorem valid_lockGate {k : Bool → Program U ι} (hfalse : (refusing children).Valid t (Outside t) (k false))
    (htrue : (refusing children).Valid t (Inside t) (k true)) :
    (refusing children).Valid t (Outside t) (perform .lockGate k) := by
  refine Valid.act (Q := fun locked s => if locked then Inside t s else Outside t s)
    (fun hr hs => ofGate_outside hr.adder hs) ?_ fun locked => ?_
  · intro s locked s' hs hinv _ hexec
    obtain ⟨s₁, heffect, rfl⟩ := Option.map_eq_some_iff.mp hexec
    cases locked with
    | false =>
      cases heffect
      exact ⟨hinv, fun t' _ => (Refusals.Eases.refl _).rely t', hs⟩
    | true =>
      obtain ⟨hfree, rfl⟩ := Option.of_guard heffect
      have hnone : s.refusals.adder = none := hfree
      exact ⟨Refusals.Inv.handover hinv (some t),
        fun t' ht => ⟨iff_of_false (fun h => ht (Option.some.inj h).symm) (by simp [hnone]),
        fun h => absurd (h.symm.trans hnone) (by simp)⟩, rfl⟩
  · cases locked with
    | false => exact hfalse
    | true => exact htrue

variable {k : Program U ι}

theorem valid_unlockGate (hk : (refusing children).Valid t (Outside t) k) :
    (refusing children).Valid t (Inside t) (perform .unlockGate fun _ => k) := by
  refine Valid.act (Q := fun _ => Outside t) (fun hr hs => ofGate_inside hr.adder hs) ?_ fun _ => hk
  intro s r s' hs hinv _ hexec
  obtain ⟨s₁, heffect, rfl⟩ := Option.map_eq_some_iff.mp hexec
  obtain ⟨ha, rfl⟩ := Option.of_guard heffect
  have hother : ∀ t' ≠ t, s.refusals.adder ≠ some t' := fun t' ht h => ht (Option.some.inj (h.symm.trans hs))
  exact ⟨Refusals.Inv.handover hinv none,
    fun t' ht => ⟨iff_of_false (by simp [World.refusals, World.tick]) (hother t' ht), fun h => absurd h (hother t' ht)⟩,
    by simp [Outside, World.tick]⟩

omit [DecidableEq θ] in
theorem holds_bind (s : World U ι θ) (child : ι) (target : Target) (connection : Connection U)
    (h : s.holds other = true) : (s.bind child target connection).holds other = true := by
  by_cases hchild : other.child = child
  · simp only [World.holds, World.bind, hchild, Function.update_self, any_cons, any_filter, Bool.or_eq_true]
    rw [World.holds, any_eq_true] at h
    obtain ⟨held, hmem, hnames⟩ := h
    by_cases hsame : (ConnectionRef.mk child target connection.id).names held = true
    · obtain rfl := names_unique hchild hsame hnames
      exact .inl (by simp [ConnectionRef.names])
    · exact .inr (any_eq_true.mpr ⟨held, hchild ▸ hmem, by simp [Bool.eq_false_of_not_eq_true hsame, hnames]⟩)
  · simp only [World.holds, World.bind, Function.update_of_ne hchild]
    exact h

theorem valid_addTo {child : ι} {target : Target} {k : Added U → Program U ι}
    (hk : ∀ added, (refusing children).Valid t (Inside t) (k added)) :
    (refusing children).Valid t (Inside t) (perform (.addTo child target) k) := by
  refine Valid.act (Q := fun _ => Inside t) (fun hr hs => ofGate_inside hr.adder hs) ?_ hk
  intro s added s' hs hinv _ hexec
  obtain ⟨s₁, heffect, rfl⟩ := Option.map_eq_some_iff.mp hexec
  have hbind : ∀ connection, (s.bind child target connection).refusals.Inv := by
    intro connection ref hleft
    obtain ⟨hholds, hw⟩ := hinv ref hleft
    exact ⟨holds_bind s child target connection hholds, hw.quarantined, hw.unrouted⟩
  cases added with
  | failed =>
    cases heffect
    exact ⟨hinv, fun t' _ => (Refusals.Eases.refl _).rely t', hs⟩
  | Ok connection time =>
    obtain ⟨-, rfl⟩ := Option.of_guard heffect
    exact ⟨hbind connection, fun t' ht => rely_of_holder hs rfl ht, hs⟩
  | CommitAmbiguous connection time =>
    obtain ⟨-, rfl⟩ := Option.of_guard heffect
    exact ⟨hbind connection, fun t' ht => rely_of_holder hs rfl ht, hs⟩

/-- The add of the connection has recorded that it is refused. -/
def Refusing (t : θ) (ref : ConnectionRef ι) (s : World U ι θ) : Prop := s.adder = some t ∧ s.refusals.Safe ref

omit [DecidableEq θ] in
theorem refusing_of_rely {s' : World U ι θ} (hr : s.refusals.Rely s'.refusals t) (hs : Refusing t ref s) :
    Refusing t ref s' := ⟨hr.adder.mpr hs.1, hr.safe hs.1 ref hs.2⟩

/-- An action of the add itself that refusals are not about. -/
theorem valid_plain {k : Answer a → Program U ι} (ha : a.plain = true)
    (hk : ∀ r, (refusing children).Valid t (Refusing t ref) (k r)) :
    (refusing children).Valid t (Refusing t ref) (perform a k) := by
  refine Valid.act (Q := fun _ => Refusing t ref) refusing_of_rely ?_ hk
  intro s r s' hs hinv _ hexec
  obtain ⟨s₁, heffect, rfl⟩ := Option.map_eq_some_iff.mp hexec
  have hsame : s₁.refusals = s.refusals := refusals_of_plain ha heffect
  have heases : s.refusals.Eases s₁.refusals := by
    rw [hsame]
    exact .refl _
  exact ⟨heases.inv hinv, fun t' _ => heases.rely t', refusing_of_rely (heases.rely t) hs⟩

variable {adding : Adding U ι}

theorem valid_quarantine (hk : (refusing children).Valid t (Refusing t adding.ref) k) :
    (refusing children).Valid t (Inside t) (perform (.quarantine adding) fun _ => k) := by
  refine Valid.act (Q := fun _ => Refusing t adding.ref) (fun hr hs => ofGate_inside hr.adder hs) ?_ fun _ => hk
  intro s r s' hs hinv hl hexec
  obtain ⟨s₁, heffect, rfl⟩ := Option.map_eq_some_iff.mp hexec
  cases heffect
  have heases := eases_quarantine s adding
  have hrest : (s.quarantine adding).refusals.routes = s.refusals.routes := by
    unfold World.quarantine
    split_ifs <;> rfl
  refine ⟨heases.inv hinv, fun t' _ => heases.rely t', heases.adder.trans hs,
    fun _ => ⟨exists_quarantined s adding, ?_⟩⟩
  intro route hroute
  have hmem : route ∈ (s.quarantine adding).refusals.routes := hroute
  rw [hrest] at hmem
  simpa using all_eq_true.mp hl route hmem

theorem valid_refusedLeftover (hk : (refusing children).Valid t (Inside t) k) :
    (refusing children).Valid t (Refusing t adding.ref) (perform (.answer (.refusedLeftover adding)) fun _ => k) := by
  refine Valid.act (Q := fun _ => Inside t) refusing_of_rely ?_ fun _ => hk
  intro s r s' hs hinv hl hexec
  obtain ⟨s₁, heffect, rfl⟩ := Option.map_eq_some_iff.mp hexec
  cases heffect
  split_ifs with hholds
  · refine ⟨fun ref hleft => ?_, fun t' ht => rely_of_holder hs.1 rfl ht, hs.1⟩
    have hsame : (s.settle adding.ref .refused).holds ref = s.holds ref :=
      congrFun (holds_settle s adding.ref .refused) ref
    rcases mem_cons.mp hleft with rfl | hold
    · exact ⟨hsame.trans hholds, (hs.2 hholds).quarantined, (hs.2 hholds).unrouted⟩
    · exact ⟨hsame.trans (hinv ref hold).1, (hinv ref hold).2.quarantined, (hinv ref hold).2.unrouted⟩
  · exact ⟨hinv, fun t' _ => (Refusals.Eases.refl _).rely t', hs.1⟩

/-- What is known after the verdict of an add is the gate alone, until it is refused. -/
theorem valid_rollBack {ticket : ℕ} (hk : (refusing children).Valid t (Inside t) k) :
    (refusing children).Valid t (Inside t) (rollBackConflictingAdd adding ticket k) := by
  refine valid_quarantine (valid_plain rfl fun _ => valid_plain rfl fun outcome => ?_)
  have hinside : ∀ s : World U ι θ, Refusing t adding.ref s → Inside t s := fun s hs => hs.1
  match outcome with
  | none => exact hk.imp _ hinside
  | some .removed =>
    exact Valid.imp _ hinside (valid_aside ofGate_inside rfl fun _ => valid_aside ofGate_inside rfl fun _ => hk)
  | some .ambiguous => exact Valid.imp _ hinside (valid_aside ofGate_inside rfl fun _ => hk)
  | some .failed => exact valid_refusedLeftover hk

theorem valid_concludeAdd {provisional : ℕ} (hk : (refusing children).Valid t (Inside t) k) :
    ∀ verdict, (refusing children).Valid t (Inside t) (concludeAdd adding provisional k verdict)
  | .error _ => valid_aside ofGate_inside rfl fun _ => valid_rollBack hk
  | .ok _ => by
    refine valid_aside ofGate_inside rfl fun generation => valid_aside ofGate_inside rfl fun _ =>
      valid_aside ofGate_inside rfl fun _ => ?_
    exact valid_of_aside ofGate_inside (aside_routeCatchUpAt (.here rfl)) hk

theorem valid_crossCheck {claimable : List (CanonicalUrl U)} {last : Bool}
    {k : Except ErrorCode (List (CanonicalUrl U)) → Program U ι}
    (hk : ∀ verdict, (refusing children).Valid t (Inside t) (k verdict)) :
    (refusing children).Valid t (Inside t) (crossCheck adding claimable last k) :=
  valid_aside ofGate_inside rfl fun _ => valid_aside ofGate_inside rfl hk

theorem valid_afterCommit (adding : Adding U ι) (hk : (refusing children).Valid t (Inside t) k) :
    (refusing children).Valid t (Inside t) (afterCommit adding k) := by
  refine valid_aside ofGate_inside rfl fun _ => valid_aside ofGate_inside rfl fun provisional =>
    valid_aside ofGate_inside rfl fun _ => valid_crossCheck fun verdict => ?_
  split_ifs
  · exact valid_concludeAdd hk verdict
  · refine valid_aside ofGate_inside rfl fun reply => ?_
    cases reply with
    | dropped => exact hk
    | failed => exact valid_crossCheck (valid_concludeAdd hk)
    | answered roots => exact valid_crossCheck (valid_concludeAdd hk)

theorem valid_addUnderGate {child : ι} {target : Target} (hk : (refusing children).Valid t (Inside t) k) :
    (refusing children).Valid t (Inside t) (addUnderGate child target k) := by
  refine valid_addTo fun added => ?_
  cases added with
  | failed => exact hk
  | Ok connection time => exact valid_afterCommit ⟨child, target, connection, time⟩ hk
  | CommitAmbiguous connection time =>
    refine valid_aside ofGate_inside rfl fun generation => valid_aside ofGate_inside rfl fun reply => ?_
    cases reply with
    | answered roots => exact valid_aside ofGate_inside rfl fun _ => hk
    | failed => exact hk
    | dropped => exact hk

theorem valid_addConnection (target : Target) :
    (refusing children).Valid t (Outside t) (addConnection (U := U) target) := by
  refine valid_aside ofGate_outside rfl fun child => ?_
  cases child with
  | none => exact valid_ret
  | some child => exact valid_lockGate valid_ret (valid_addUnderGate (valid_unlockGate valid_ret))

theorem valid_task (task : Task ι) : (refusing children).Valid t (Outside t) (task.program (U := U) children) := by
  cases task with
  | addConnection target => exact valid_addConnection target
  | removeConnection target id => exact valid_of_aside ofGate_outside (aside_removeConnection target id) valid_ret
  | updateConnectionAttributes target =>
    exact valid_of_aside ofGate_outside (aside_updateConnectionAttributes target) valid_ret
  | routeCatchUp => exact valid_of_aside ofGate_outside aside_routeCatchUpTask valid_ret
  | rollback => exact valid_of_aside ofGate_outside aside_removalTask valid_ret
  | rootWatcher =>
    exact valid_of_aside ofGate_outside (.act rfl fun generation => aside_rebuild fun ok => .here rfl) valid_ret
  | declare child targets => exact valid_aside ofGate_outside rfl fun _ => valid_ret

/-- A connection that was refused, and that its child did not give back, is in no table. -/
theorem refused_never_routes {trace : List (Step U ι θ)} {s : System U ι θ}
    (h : RunsWhen children (fun t a r s => spared t a r s = true) trace s) :
    ∀ ref ∈ s.shared.past.leftovers, s.shared.Unrouted ref := by
  have hstart : ∀ s : System U ι θ, System.Initial s → (refusing children).Kept s := by
    rintro s ⟨held, owned, -, rfl⟩
    have houtside : ∀ t, Outside t (World.fresh held owned : World U ι θ) := fun t => by simp [Outside, World.fresh]
    exact ⟨fun ref hleft => absurd hleft not_mem_nil, fun t => houtside t⟩
  exact fun ref hleft => ((run (fun t task => valid_task task) hstart h).inv ref hleft).2.unrouted

end Contract

/-- The add of a connection at the share is refused for a claim of the second child, and its rebuilds know. -/
def refusedAtShare : List (Step reference Bool ℕ) :=
  construction ++ addsAmbiguously 2 13 ++ commits (shareAdding 20).connection 20 ++
    checks (shareAdding 20) 3 [(shareNode, true), (shareNode, false)] (.error .RouteConflict) ++
      refuses (shareAdding 20) 3 ++
    watches 0 (twoAnswered 4 [(⟨false, "a", "x", [shareNode]⟩, true)] 39 shareRoots) 1

/-- It stays out of the table although its child publishes it. -/
theorem refused_never_routes_share : ∃ (trace : List (Step reference Bool ℕ)) (s : System reference Bool ℕ),
    RunsWhen [false, true] (fun t a r s => spared t a r s = true) trace s ∧
    s.shared.past.leftovers = [⟨false, "a", "x"⟩] ∧
      s.shared.table.fanOut.generation = 4 ∧ ∀ ref ∈ s.shared.past.leftovers, s.shared.Unrouted ref := by
  obtain ⟨s, hrun, hp⟩ := exists_runsWhen [false, true] spared twoTargets refusedAtShare
    (p := fun s => s.shared.past.leftovers == [⟨false, "a", "x"⟩] && s.shared.table.fanOut.generation == 4)
      (by decide +kernel)
  simp only [Bool.and_eq_true, beq_iff_eq] at hp
  exact ⟨_, s, hrun, hp.1, hp.2, refused_never_routes hrun⟩

/-- The error of a refused leftover is answered while its root is in force. -/
theorem routes_while_refused : ∃ (trace : List (Step reference Bool ℕ)) (s : System reference Bool ℕ),
    Runs [false, true] trace s ∧ ∃ ref ∈ s.shared.past.leftovers, s.shared.holds ref = true ∧
      servedBy s.shared.table.routes shareNode = some ref.child ∧ ¬s.shared.Unrouted ref := by
  obtain ⟨s, hrun, hp⟩ := exists_runs [false, true] twoTargets refusesIncumbent
    (p := fun s => s.shared.past.leftovers.any fun ref => s.shared.holds ref &&
      servedBy s.shared.table.routes shareNode == some ref.child && s.shared.table.routes.any ref.owns) (by
        decide +kernel)
  obtain ⟨ref, hmem, htest⟩ := any_eq_true.mp hp
  simp only [Bool.and_eq_true, beq_iff_eq, any_eq_true] at htest
  obtain ⟨⟨hholds, hserved⟩, route, hroute, howns⟩ := htest
  exact ⟨_, s, hrun, ref, hmem, hholds, hserved,
    fun h => absurd howns (by rw [h route hroute]; exact Bool.false_ne_true)⟩

end OvStorage.Routing
