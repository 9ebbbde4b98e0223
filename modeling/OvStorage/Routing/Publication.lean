import OvStorage.Address.Projection
import OvStorage.Routing.Router

/-!
# Tables, snapshots and claims

A table is published under the lock of `applied_generation`, by a rebuild whose generation
was stamped before it asked the children. A claim stands in for a table that does not show
its root yet, and is released by the rebuilds stamped after it.

## What is proved

* `tables_follow`: the tables in force, over every run of any number of tasks.
* `claims_follow`: the claims that stand beside them.
-/

namespace OvStorage.Routing

open Address Interleave Function Contract List

variable {U : UrlCrate} {ι θ : Type}

/-- What publications and claims are about. -/
structure Books (U : UrlCrate) (ι θ : Type) where
  table : Table U ι
  nextGeneration : ℕ
  appliedGeneration : ℕ
  publisher : Option θ
  adder : Option θ
  claimedRoots : List (ClaimedRoot U ι)
  rootChanges : List (List RootInfo)
  catchUps : List ℕ
  caughtUp : ℕ → Option Bool
  clock : ℕ
  stampedAt : ℕ → ℕ
  tables : List (Table U ι)
  bound : List (Bound U ι)
  reflected : List ℕ

def World.books (s : World U ι θ) : Books U ι θ where
  table := s.table
  nextGeneration := s.nextGeneration
  appliedGeneration := s.appliedGeneration
  publisher := s.publisher
  adder := s.adder
  claimedRoots := s.claimedRoots
  rootChanges := s.rootChanges
  catchUps := s.catchUps
  caughtUp := s.caughtUp
  clock := s.past.clock
  stampedAt := s.past.stampedAt
  tables := s.past.tables
  bound := s.past.bound
  reflected := s.past.reflected

/-- Every child answered the rebuild of the table after that time. -/
def Table.After (children : List ι) (table : Table U ι) (time : ℕ) : Prop :=
  ∀ child ∈ children, ∃ answer ∈ table.fanOut.answers, answer.child = child ∧ time < answer.time

theorem Table.After.mono {children : List ι} {table : Table U ι} {time time' : ℕ} (h : table.After children time')
    (hle : time ≤ time') : table.After children time := by
  intro child hchild
  obtain ⟨answer, hmem, heq, hlt⟩ := h child hchild
  exact ⟨answer, hmem, heq, hle.trans_lt hlt⟩

/-- A table takes the place of another: its generation is higher, and a node goes on being served by
the child that still publishes it, with a root that is not withheld. -/
structure Table.Succeeds [DecidableEq ι] (children : List ι) (newer older : Table U ι) : Prop where
  generation : older.fanOut.generation < newer.fanOut.generation
  served : ∀ (node : CanonicalUrl U) (child : ι), servedBy older.routes node = some child →
    (∃ route ∈ aggregated children newer.fanOut.answers, route.2 = child ∧ route.1.address.sameNode node = true ∧
      withheldAt newer.fanOut.quarantined route = none) → servedBy newer.routes node = some child

namespace Books

variable (s s' : Books U ι θ)

def tick : Books U ι θ := { s with clock := s.clock + 1 }

/-- The generation was stamped after that time. -/
structure StampedAfter (time generation : ℕ) : Prop where
  pos : 1 ≤ generation
  le : generation ≤ s.nextGeneration
  lt : time < s.stampedAt generation

/-- A rebuild that was stamped after that time has published. -/
def Caught (time : ℕ) : Prop := ∃ generation, s.StampedAfter time generation ∧ generation ≤ s.appliedGeneration

/-- The claims stand for what is bound, also without those of one generation. -/
def Covers (without : ℕ) (bound : Bound U ι) : Prop :=
  ∀ node ∈ bound.addresses,
    (∃ claim ∈ s.claimedRoots, claim.generation ≠ without ∧ claim.node = node ∧ claim.child = bound.child ∧
      s.StampedAfter bound.committedAt claim.generation) ∨ s.Caught bound.committedAt

/-- What every step keeps. -/
structure Inv [DecidableEq ι] (children : List ι) : Prop where
  generation : s.table.fanOut.generation = s.appliedGeneration
  applied_le : s.appliedGeneration ≤ s.nextGeneration
  stamped : ∀ generation, 1 ≤ generation → generation ≤ s.nextGeneration → s.stampedAt generation < s.clock
  ordered : ∀ earlier later, 1 ≤ earlier → earlier ≤ later → later ≤ s.nextGeneration →
    s.stampedAt earlier ≤ s.stampedAt later
  after : 1 ≤ s.appliedGeneration → s.table.After children (s.stampedAt s.appliedGeneration)
  claims : ∀ claim ∈ s.claimedRoots, claim.generation ≤ s.nextGeneration
  unswept : s.publisher = none → ∀ claim ∈ s.claimedRoots, s.appliedGeneration < claim.generation
  bound : ∀ bound ∈ s.bound, bound.committedAt < s.clock ∧ s.Covers 0 bound
  caughtUp : ∀ generation, s.caughtUp generation = some true → generation ≤ s.appliedGeneration
  catchUps : ∀ generation ∈ s.catchUps, 1 ≤ generation ∧ generation ≤ s.nextGeneration
  reflected : ∀ time ∈ s.reflected, s.Caught time
  head : s.tables.head? = some s.table
  chain : s.tables.IsChain (Table.Succeeds children)
  sending : s.rootChanges <:+ s.tables.dropLast.map World.snapshot
  sent : s.publisher = none → s.rootChanges = s.tables.dropLast.map World.snapshot

/-- Stamps and publications only come on top. -/
structure Ahead : Prop where
  next : s.nextGeneration ≤ s'.nextGeneration
  applied : s.appliedGeneration ≤ s'.appliedGeneration
  stampedAt : ∀ generation ≤ s.nextGeneration, s'.stampedAt generation = s.stampedAt generation

variable {s s'}

theorem Ahead.of
    (h : (s'.nextGeneration, s'.appliedGeneration, s'.stampedAt) =
      (s.nextGeneration, s.appliedGeneration, s.stampedAt)) :
    s.Ahead s' := by
  obtain ⟨hnext, happlied, hstamped⟩ := by simpa using h
  exact ⟨hnext.ge, happlied.ge, fun _ _ => congrFun hstamped _⟩

theorem StampedAfter.later {time generation : ℕ} (h : s.StampedAfter time generation) (ha : s.Ahead s') :
    s'.StampedAfter time generation :=
  ⟨h.pos, h.le.trans ha.next, (ha.stampedAt generation h.le).symm ▸ h.lt⟩

theorem Caught.later {time : ℕ} (h : s.Caught time) (ha : s.Ahead s') : s'.Caught time := by
  obtain ⟨generation, hstamped, hle⟩ := h
  exact ⟨generation, hstamped.later ha, hle.trans ha.applied⟩

/-- What is bound stays covered while the claims that go are those that a published rebuild was stamped after. -/
theorem Covers.later {without without' : ℕ} {bound : Bound U ι} (h : s.Covers without bound) (ha : s.Ahead s')
    (hkept : ∀ claim ∈ s.claimedRoots, claim.generation ≠ without →
      claim ∈ s'.claimedRoots ∧ claim.generation ≠ without' ∨ claim.generation ≤ s'.appliedGeneration) :
    s'.Covers without' bound := by
  intro node hnode
  rcases h node hnode with ⟨claim, hmem, hne, hn, hc, hstamped⟩ | hcaught
  · rcases hkept claim hmem hne with ⟨hin, hne'⟩ | hle
    · exact .inl ⟨claim, hin, hne', hn, hc, hstamped.later ha⟩
    · exact .inr ⟨claim.generation, hstamped.later ha, hle⟩
  · exact .inr (hcaught.later ha)

theorem Covers.ahead {without : ℕ} {bound : Bound U ι} (h : s.Covers without bound) (ha : s.Ahead s')
    (hroots : s.claimedRoots ⊆ s'.claimedRoots) : s'.Covers without bound :=
  h.later ha fun _ hmem hne => .inl ⟨hroots hmem, hne⟩

variable (s s')

/-- What a task may rely on while the others act. -/
structure Rely (t : θ) : Prop where
  ahead : s.Ahead s'
  clock : s.clock ≤ s'.clock
  publisher : s'.publisher = some t ↔ s.publisher = some t
  adder : s'.adder = some t ↔ s.adder = some t
  publishing : s.publisher = some t → s'.appliedGeneration = s.appliedGeneration ∧ s'.table = s.table ∧
    s'.tables = s.tables ∧ s'.rootChanges = s.rootChanges ∧ ∀ claim ∈ s'.claimedRoots, claim ∈ s.claimedRoots
  adding : s.adder = some t → s'.bound = s.bound ∧ (∀ claim ∈ s'.claimedRoots, claim ∈ s.claimedRoots) ∧
    ∀ claim ∈ s.claimedRoots, claim ∈ s'.claimedRoots ∨ claim.generation ≤ s'.appliedGeneration

variable {s s'}

theorem Ahead.refl (s : Books U ι θ) : s.Ahead s := ⟨le_rfl, le_rfl, fun _ _ => rfl⟩

theorem Ahead.trans {s₁ s₂ s₃ : Books U ι θ} (h : s₁.Ahead s₂) (h' : s₂.Ahead s₃) : s₁.Ahead s₃ where
  next := h.next.trans h'.next
  applied := h.applied.trans h'.applied
  stampedAt generation hle := (h'.stampedAt generation (hle.trans h.next)).trans (h.stampedAt generation hle)

theorem Rely.refl (t : θ) (s : Books U ι θ) : s.Rely s t where
  ahead := .refl s
  clock := le_rfl
  publisher := Iff.rfl
  adder := Iff.rfl
  publishing _ := ⟨rfl, rfl, rfl, rfl, fun _ h => h⟩
  adding _ := ⟨rfl, fun _ h => h, fun _ h => .inl h⟩

theorem Rely.trans {t : θ} {s₁ s₂ s₃ : Books U ι θ} (h : s₁.Rely s₂ t) (h' : s₂.Rely s₃ t) : s₁.Rely s₃ t where
  ahead := h.ahead.trans h'.ahead
  clock := h.clock.trans h'.clock
  publisher := h'.publisher.trans h.publisher
  adder := h'.adder.trans h.adder
  publishing hp := by
    obtain ⟨ha, ht, hts, hr, hc⟩ := h.publishing hp
    obtain ⟨ha', ht', hts', hr', hc'⟩ := h'.publishing (h.publisher.mpr hp)
    exact ⟨ha'.trans ha, ht'.trans ht, hts'.trans hts, hr'.trans hr, fun claim hclaim => hc claim (hc' claim hclaim)⟩
  adding ha := by
    obtain ⟨hb, hsub, hkept⟩ := h.adding ha
    obtain ⟨hb', hsub', hkept'⟩ := h'.adding (h.adder.mpr ha)
    refine ⟨hb'.trans hb, fun claim hclaim => hsub claim (hsub' claim hclaim), fun claim hclaim => ?_⟩
    rcases hkept claim hclaim with hin | hle
    · exact hkept' claim hin
    · exact .inr (hle.trans h'.ahead.applied)

/-- What nobody relies on. -/
theorem rely_aside (t : θ) (s : Books U ι θ) (catchUps : List ℕ) (caughtUp : ℕ → Option Bool) (reflected : List ℕ) :
    s.Rely { s with catchUps, caughtUp, reflected } t :=
  { Rely.refl t s with ahead := ⟨le_rfl, le_rfl, fun _ _ => rfl⟩ }

theorem Covers.of_rely {t : θ} {without : ℕ} {bound : Bound U ι} (h : s.Covers without bound) (hr : s.Rely s' t)
    (ha : s.adder = some t) : s'.Covers without bound :=
  h.later hr.ahead fun claim hmem hne => ((hr.adding ha).2.2 claim hmem).imp_left fun hin => ⟨hin, hne⟩

variable [DecidableEq ι] {children : List ι}

/-- What the table in force reflects. -/
theorem Inv.after_of_caught (h : s.Inv children) {time : ℕ} (hc : s.Caught time) : s.table.After children time := by
  obtain ⟨generation, hstamped, hle⟩ := hc
  refine (h.after (hstamped.pos.trans hle)).mono (hstamped.lt.le.trans ?_)
  exact h.ordered _ _ hstamped.pos hle h.applied_le

omit [DecidableEq ι] in
theorem ahead_tick (s : Books U ι θ) : s.Ahead s.tick := ⟨le_rfl, le_rfl, fun _ _ => rfl⟩

omit [DecidableEq ι] in
theorem Rely.tick {t : θ} (h : s.Rely s' t) : s.Rely s'.tick t :=
  { h with ahead := h.ahead.trans (ahead_tick s'), clock := h.clock.trans (Nat.le_succ _) }

/-- Time goes on. -/
theorem Inv.tick (h : s.Inv children) : s.tick.Inv children :=
  { h with
    stamped := fun generation hpos hle => (h.stamped generation hpos hle).trans (Nat.lt_succ_self _)
    bound := fun bound hb => ⟨(h.bound bound hb).1.trans (Nat.lt_succ_self _),
      (h.bound bound hb).2.ahead (.of rfl) fun _ h => h⟩
    reflected := fun time ht => (h.reflected time ht).later (.of rfl) }

end Books

/-! ### What is known -/

section Known

variable {children : List ι} {t : θ} {K : Books U ι θ → Prop}

/-- What is known of the books outlasts what the others do. -/
def Lasting (t : θ) (K : Books U ι θ → Prop) : Prop := ∀ {s s'}, Books.Rely s s' t → K s → K s'

theorem Lasting.and {K' : Books U ι θ → Prop} (h : Lasting t K) (h' : Lasting t K') : Lasting t fun s => K s ∧ K' s :=
  fun hr hs => ⟨h hr hs.1, h' hr hs.2⟩

theorem lasting_of_ahead (h : ∀ {s s'}, Books.Ahead s s' → K s → K s') : Lasting t K := fun hr hs => h hr.ahead hs

/-- The task holds no lock. -/
def Off (t : θ) (s : Books U ι θ) : Prop := s.publisher ≠ some t ∧ s.adder ≠ some t

theorem lasting_off : Lasting t (Off (U := U) (ι := ι) t) :=
  fun hr hs => ⟨fun hp => hs.1 (hr.publisher.mp hp), fun ha => hs.2 (hr.adder.mp ha)⟩

/-- The task holds the gate. -/
def Holding (t : θ) (s : Books U ι θ) : Prop := s.publisher ≠ some t ∧ s.adder = some t

theorem lasting_holding : Lasting t (Holding (U := U) (ι := ι) t) :=
  fun hr hs => ⟨fun hp => hs.1 (hr.publisher.mp hp), hr.adder.mpr hs.2⟩

/-- The rebuild was stamped, and then its children answered. -/
structure Gathered (children : List ι) (gathered : FanOut U ι) (s : Books U ι θ) : Prop where
  pos : 1 ≤ gathered.generation
  le : gathered.generation ≤ s.nextGeneration
  answers : ∀ child ∈ children, ∃ answer ∈ gathered.answers, answer.child = child ∧
    s.stampedAt gathered.generation < answer.time

theorem lasting_gathered {gathered : FanOut U ι} : Lasting t (Gathered (U := U) (θ := θ) children gathered) :=
  lasting_of_ahead fun ha hs => ⟨hs.pos, hs.le.trans ha.next, by rw [ha.stampedAt _ hs.le]; exact hs.answers⟩

/-- The publisher has swept the claims, and its snapshots are those of the tables. -/
structure Publishing (t : θ) (s : Books U ι θ) : Prop where
  publisher : s.publisher = some t
  adder : s.adder ≠ some t
  swept : ∀ claim ∈ s.claimedRoots, s.appliedGeneration < claim.generation
  sent : s.rootChanges = s.tables.dropLast.map World.snapshot

theorem lasting_publishing : Lasting t (Publishing (U := U) (ι := ι) t) := by
  intro s s' hr hs
  obtain ⟨ha, -, hts, hrc, hc⟩ := hr.publishing hs.publisher
  exact ⟨hr.publisher.mpr hs.publisher, fun ha => hs.adder (hr.adder.mp ha),
    fun claim hclaim => ha ▸ hs.swept claim (hc claim hclaim), by rw [hrc, hts, hs.sent]⟩

/-- The publisher has installed its table, and neither swept nor sent. -/
structure Installed (t : θ) (generation : ℕ) (s : Books U ι θ) : Prop where
  publisher : s.publisher = some t
  adder : s.adder ≠ some t
  applied : s.appliedGeneration = generation
  sent : ∃ tables, s.tables = s.table :: tables ∧ tables ≠ [] ∧ s.rootChanges = tables.dropLast.map World.snapshot

theorem lasting_installed {generation : ℕ} : Lasting t (Installed (U := U) (ι := ι) t generation) := by
  intro s s' hr hs
  obtain ⟨ha, ht, hts, hrc, -⟩ := hr.publishing hs.publisher
  exact ⟨hr.publisher.mpr hs.publisher, fun ha => hs.adder (hr.adder.mp ha), ha.trans hs.applied, by
    rw [ht, hts, hrc]
    exact hs.sent⟩

/-- The claims up to the generation in force are swept. -/
def Swept (s : Books U ι θ) : Prop := ∀ claim ∈ s.claimedRoots, s.appliedGeneration < claim.generation

end Known

/-! ### The contract -/

section Contract

variable [DecidableEq ι] [DecidableEq θ] (children : List ι)

/-- What the steps of the router's tasks promise about its tables and its claims. -/
def bookkeeping : Contract (Action.exec (U := U) (θ := θ) children) where
  allowed _ _ _ _ := True
  inv s := s.books.Inv children
  guar t _ s s' := ∀ t' ≠ t, s.books.Rely s'.books t'
  rely t s s' := s.books.Rely s'.books t
  quiet t s := s.books.publisher ≠ some t ∧ s.books.adder ≠ some t
  rely_refl t s := .refl t s.books
  rely_trans h h' := h.trans h'
  rely_of_guar ht h := h _ ht
  quiet_of_rely h hq := ⟨fun hp => hq.1 (h.publisher.mp hp), fun ha => hq.2 (h.adder.mp ha)⟩

variable {children} {t : θ} {K : Books U ι θ → Prop}

variable (children t K) in
/-- With that knowledge of the books, the program keeps the contract. -/
def Sound (p : Program U ι) : Prop := (bookkeeping children).Valid t (fun s => K s.books) p

theorem Sound.imp {p : Program U ι} (K' : Books U ι θ → Prop) (hK : ∀ s, K s → K' s) (h : Sound children t K' p) :
    Sound children t K p := Valid.imp _ (fun s hs => hK s.books hs) h

/-- An action, from what it does to the books. -/
theorem sound_perform {a : Action U ι} {k : Answer a → Program U ι} {Q : Answer a → Books U ι θ → Prop}
    (hK : Lasting t K)
    (h : ∀ s r s', K s.books → s.books.Inv children → Action.effect children t a r s = some s' →
      s'.books.tick.Inv children ∧ (∀ t' ≠ t, s.books.Rely s'.books t') ∧ Q r s'.books.tick)
    (hk : ∀ r, Sound children t (Q r) (k r)) : Sound children t K (perform a k) := by
  refine Valid.act (Q := fun r s => Q r s.books) (fun hr hs => hK hr hs) ?_ hk
  intro s r s' hs hinv _ hexec
  obtain ⟨s₁, heffect, rfl⟩ := Option.map_eq_some_iff.mp hexec
  obtain ⟨hinv', hguar, hQ⟩ := h s r s₁ hs hinv heffect
  exact ⟨hinv', fun t' ht => (hguar t' ht).tick, hQ⟩

/-- The actions that leave the books. -/
def Action.calm : Action U ι → Bool
  | .lockGate | .unlockGate | .nextGeneration | .crossChildConflict _ _ _ _ | .claimBound _ _ | .claimRoots _ _ _ |
    .discardClaimsAt _ | .lockApplied | .installRoutes _ | .releaseClaimsThrough _ | .sendSnapshot | .unlockApplied |
    .spawnCatchUp _ | .startCatchUp | .finishCatchUp _ _ | .answer (.ok _) => false
  | _ => true

omit [DecidableEq θ] in
theorem books_quarantine (s : World U ι θ) (adding : Adding U ι) : (s.quarantine adding).books = s.books := by
  unfold World.quarantine
  split_ifs <;> rfl

theorem books_of_calm {a : Action U ι} {r : Answer a} {s s' : World U ι θ} (ha : a.calm = true)
    (h : Action.effect children t a r s = some s') : s'.books = s.books := by
  revert h ha
  fun_cases Action.effect children t a r s <;> rintro ha h <;>
    first
    | (cases h; rfl)
    | (cases h; done)
    | (cases ha; done)
    | (unfold World.publish at h; split_ifs at h; cases h; rfl)
    | (cases h; exact books_quarantine _ _)
    | (cases h; split_ifs <;> rfl)

/-- A calm action, with what is learnt from it. -/
theorem sound_learn {a : Action U ι} {k : Answer a → Program U ι} {Q : Answer a → Books U ι θ → Prop}
    (ha : a.calm = true) (hK : Lasting t K)
    (hQ : ∀ s r s', K s.books → s.books.Inv children → Action.effect children t a r s = some s' → Q r s.books.tick)
    (hk : ∀ r, Sound children t (Q r) (k r)) : Sound children t K (perform a k) := by
  refine sound_perform hK (fun s r s' hs hinv heffect => ?_) hk
  rw [books_of_calm ha heffect]
  exact ⟨hinv.tick, fun t' _ => .refl t' _, hQ s r s' hs hinv heffect⟩

theorem sound_calm {a : Action U ι} {k : Answer a → Program U ι} (ha : a.calm = true) (hK : Lasting t K)
    (hk : ∀ r, Sound children t K (k r)) : Sound children t K (perform a k) :=
  sound_learn ha hK (fun s _ _ hs _ _ => hK (Books.Rely.refl t s.books).tick hs) hk

omit [DecidableEq θ] in
/-- The locks go from hand to hand, and snapshots go out; a publisher leaves with its claims swept and
its snapshot sent. -/
theorem Books.Inv.handover {s : Books U ι θ} (h : s.Inv children) (publisher adder : Option θ)
    {rootChanges : List (List RootInfo)} (hsending : rootChanges <:+ s.tables.dropLast.map World.snapshot)
    (hfree : publisher = none → Swept s ∧ rootChanges = s.tables.dropLast.map World.snapshot) :
    ({ s with publisher, adder, rootChanges } : Books U ι θ).Inv children :=
  { h with
    unswept := fun hnone => (hfree hnone).1
    bound := fun bound hb => ⟨(h.bound bound hb).1,
      (h.bound bound hb).2.ahead (.of rfl) fun _ h => h⟩
    reflected := fun time ht => (h.reflected time ht).later (.of rfl)
    sending := hsending
    sent := fun hnone => (hfree hnone).2 }

/-! ### Publication -/

omit [DecidableEq θ] in
/-- Only claims go that a published rebuild was stamped after. -/
theorem Books.Inv.release {s : Books U ι θ} (h : s.Inv children) {applied : ℕ} (hle : applied ≤ s.appliedGeneration) :
    ({ s with claimedRoots := s.claimedRoots.filter fun claim => decide (applied < claim.generation) } : Books U ι
      θ).Inv children :=
  { h with
    claims := fun claim hclaim => h.claims claim (mem_filter.mp hclaim).1
    unswept := fun hp claim hclaim => h.unswept hp claim (mem_filter.mp hclaim).1
    bound := fun bound hb => ⟨(h.bound bound hb).1, (h.bound bound hb).2.later (.of rfl)
      fun claim hmem hne => by
        rcases Nat.lt_or_ge applied claim.generation with hlt | hge
        · exact .inl ⟨mem_filter.mpr ⟨hmem, decide_eq_true hlt⟩, hne⟩
        · exact .inr (hge.trans hle)⟩
    reflected := fun time ht => (h.reflected time ht).later (.of rfl) }

/-- A publisher sweeps the claims through the generation in force. -/
theorem sound_release {k : Program U ι} {applied : ℕ} (hK : Lasting t K)
    (happlied : ∀ s, K s → s.publisher = some t ∧ s.adder ≠ some t ∧ applied = s.appliedGeneration)
    (hsub : ∀ s claims, K s → (∀ claim ∈ claims, claim ∈ s.claimedRoots) → K { s with claimedRoots := claims })
    (hk : Sound children t (fun s => K s ∧ Swept s) k) :
    Sound children t K (perform (.releaseClaimsThrough applied) fun _ => k) := by
  refine sound_perform (Q := fun _ s => K s ∧ Swept s) hK ?_ fun _ => hk
  intro s r s' hs hinv h
  obtain ⟨hp, ha, rfl⟩ := happlied _ hs
  obtain ⟨hpub, rfl⟩ := Option.of_guard h
  have hgone : ∀ claim ∈ s.claimedRoots, claim ∈ s.claimedRoots.filter
      (fun claim => decide (s.appliedGeneration < claim.generation)) ∨ claim.generation ≤ s.appliedGeneration := by
    intro claim hclaim
    rcases Nat.lt_or_ge s.appliedGeneration claim.generation with hlt | hge
    · exact .inl (mem_filter.mpr ⟨hclaim, decide_eq_true hlt⟩)
    · exact .inr hge
  refine ⟨(hinv.release le_rfl).tick, fun t' ht => ⟨⟨le_rfl, le_rfl, fun _ _ => rfl⟩, le_rfl, Iff.rfl, Iff.rfl,
    fun hp' => absurd (Option.some.inj (hp'.symm.trans hp)) ht,
    fun _ => ⟨rfl, fun claim hclaim => (mem_filter.mp hclaim).1, hgone⟩⟩, ?_, ?_⟩
  · exact hK (Books.Rely.refl t _).tick (hsub _ _ hs fun claim hclaim => (mem_filter.mp hclaim).1)
  · exact fun claim hclaim => of_decide_eq_true (mem_filter.mp hclaim).2

/-- The table of a rebuild takes the place of the one it replaces. -/
theorem succeeds_install (law : U.Lawful) (table : Table U ι) {gathered : FanOut U ι}
    (h : table.fanOut.generation < gathered.generation) :
    Table.Succeeds children ⟨gathered, incumbentsFirst table.routes (gathered.routes children)⟩ table where
  generation := h
  served node child hserved := by
    rintro ⟨route, hroute, hchild, hnode, hnone⟩
    refine servedBy_incumbentsFirst law hserved ⟨route, mem_filter.mpr ⟨hroute, ?_⟩, hchild, hnode⟩
    rw [hnone]
    rfl

omit [DecidableEq θ] in
/-- A rebuild that is newer than the table in force installs its own. -/
theorem Books.Inv.install (law : U.Lawful) {s : Books U ι θ} (h : s.Inv children) {gathered : FanOut U ι}
    (hg : Gathered children gathered s) (hlt : s.appliedGeneration < gathered.generation) (hp : s.publisher = some t) :
    let table : Table U ι := ⟨gathered, incumbentsFirst s.table.routes (gathered.routes children)⟩
    ({ s with appliedGeneration := gathered.generation, table, tables := table :: s.tables } :
      Books U ι θ).Inv children :=
  have hbusy : s.publisher ≠ none := by simp [hp]
  have hahead : s.Ahead { s with
      appliedGeneration := gathered.generation
      table := ⟨gathered, incumbentsFirst s.table.routes (gathered.routes children)⟩
      tables := ⟨gathered, incumbentsFirst s.table.routes (gathered.routes children)⟩ :: s.tables } :=
    ⟨le_rfl, hlt.le, fun _ _ => rfl⟩
  { h with
    generation := rfl
    applied_le := hg.le
    after := fun _ => hg.answers
    unswept := fun hnone => absurd hnone hbusy
    bound := fun bound hb => ⟨(h.bound bound hb).1,
      (h.bound bound hb).2.ahead hahead fun _ h => h⟩
    caughtUp := fun generation hok => (h.caughtUp generation hok).trans hlt.le
    reflected := fun time ht => (h.reflected time ht).later hahead
    head := rfl
    chain := by
      obtain ⟨tables, htables⟩ : ∃ tables, s.tables = s.table :: tables := List.head?_eq_some_iff.mp h.head
      have hchain := h.chain
      rw [htables] at hchain ⊢
      exact hchain.cons_cons (succeeds_install law s.table (h.generation ▸ hlt))
    sending := by
      obtain ⟨tables, htables⟩ : ∃ tables, s.tables = s.table :: tables := List.head?_eq_some_iff.mp h.head
      have hsending := h.sending
      rw [htables] at hsending ⊢
      rw [dropLast_cons_of_ne_nil (cons_ne_nil _ _), map_cons]
      exact hsending.trans (suffix_cons _ _)
    sent := fun hnone => absurd hnone hbusy }

theorem sound_install (law : U.Lawful) {gathered : FanOut U ι} {k : Program U ι}
    (hk : Sound children t (Installed t gathered.generation) k) :
    Sound children t (fun s => Publishing t s ∧ Gathered children gathered s ∧
      s.appliedGeneration < gathered.generation)
      (perform (.installRoutes gathered) fun _ => k) := by
  have hK : Lasting t fun s : Books U ι θ =>
      Publishing t s ∧ Gathered children gathered s ∧ s.appliedGeneration < gathered.generation := by
    rintro s s' hr ⟨hpub, hg, hlt⟩
    exact ⟨lasting_publishing hr hpub, lasting_gathered hr hg, (hr.publishing hpub.publisher).1 ▸ hlt⟩
  refine sound_perform (Q := fun _ => Installed t gathered.generation) hK ?_ fun _ => hk
  rintro s r s' ⟨hpub, hg, hlt⟩ hinv h
  obtain ⟨hp, rfl⟩ := Option.of_guard h
  obtain ⟨tables, htables⟩ : ∃ tables, s.books.tables = s.books.table :: tables := List.head?_eq_some_iff.mp hinv.head
  refine ⟨(hinv.install law hg hlt hp).tick, fun t' ht => ⟨⟨le_rfl, hlt.le, fun _ _ => rfl⟩, le_rfl, Iff.rfl, Iff.rfl,
    fun hp' => absurd (Option.some.inj (hp'.symm.trans hp)) ht, fun _ => ⟨rfl, fun _ h => h, fun _ h => .inl h⟩⟩,
    hp, hpub.adder, rfl, s.books.tables, rfl, ?_, hpub.sent⟩
  rw [htables]
  exact cons_ne_nil _ _

/-- The snapshot goes out, of the table that was installed. -/
theorem sound_sendSnapshot {generation : ℕ} {k : Program U ι}
    (hk : Sound children t (fun s => Publishing t s ∧ generation ≤ s.appliedGeneration) k) :
    Sound children t (fun s => Installed t generation s ∧ Swept s) (perform .sendSnapshot fun _ => k) := by
  have hK : Lasting t fun s : Books U ι θ => Installed t generation s ∧ Swept s := by
    rintro s s' hr ⟨hi, hswept⟩
    obtain ⟨ha, -, -, -, hc⟩ := hr.publishing hi.publisher
    exact ⟨lasting_installed hr hi, fun claim hclaim => ha ▸ hswept claim (hc claim hclaim)⟩
  refine sound_perform (Q := fun _ s => Publishing t s ∧ generation ≤ s.appliedGeneration) hK ?_ fun _ => hk
  rintro s r s' ⟨hi, hswept⟩ hinv h
  obtain ⟨hp, rfl⟩ := Option.of_guard h
  have hbusy : s.books.publisher ≠ none := by simp [hi.publisher]
  obtain ⟨tables, htables, hne, hsent⟩ := hi.sent
  have hall : World.snapshot s.table :: s.books.rootChanges = s.books.tables.dropLast.map World.snapshot := by
    rw [htables, dropLast_cons_of_ne_nil hne, map_cons, hsent]
    rfl
  refine ⟨(hinv.handover s.publisher s.adder (hall ▸ suffix_rfl) fun hnone => absurd hnone hbusy).tick, fun t' ht =>
    ⟨⟨le_rfl, le_rfl, fun _ _ => rfl⟩, le_rfl, Iff.rfl, Iff.rfl,
      fun hp' => absurd (Option.some.inj (hp'.symm.trans hp)) ht, fun _ => ⟨rfl, fun _ h => h, fun _ h => .inl h⟩⟩,
    ⟨hp, hi.adder, hswept, hall⟩, hi.applied.ge⟩

theorem sound_unlockApplied {generation : ℕ} {k : Program U ι}
    (hk : Sound children t (fun s => Off t s ∧ generation ≤ s.appliedGeneration) k) :
    Sound children t (fun s => Publishing t s ∧ generation ≤ s.appliedGeneration)
      (perform .unlockApplied fun _ => k) := by
  have hK : Lasting t fun s : Books U ι θ => Publishing t s ∧ generation ≤ s.appliedGeneration :=
    lasting_publishing.and (lasting_of_ahead (K := fun s => generation ≤ s.appliedGeneration) fun ha hle =>
      hle.trans ha.applied)
  refine sound_perform (Q := fun _ s => Off t s ∧ generation ≤ s.appliedGeneration) hK ?_ fun _ => hk
  rintro s r s' ⟨hpub, hle⟩ hinv h
  obtain ⟨hp, rfl⟩ := Option.of_guard h
  refine ⟨(hinv.handover none s.adder hinv.sending fun _ => ⟨hpub.swept, hpub.sent⟩).tick,
    fun t' ht => ⟨⟨le_rfl, le_rfl, fun _ _ => rfl⟩, le_rfl, ?_, Iff.rfl,
    fun hp' => absurd (Option.some.inj (hp'.symm.trans hp)) ht, fun _ => ⟨rfl, fun _ h => h, fun _ h => .inl h⟩⟩,
    ⟨by simp [World.books, Books.tick], hpub.adder⟩, hle⟩
  have hother : s.books.publisher ≠ some t' := fun hp' => ht (Option.some.inj (hp'.symm.trans hpub.publisher))
  exact iff_of_false (by simp [World.books]) hother

theorem sound_publication (law : U.Lawful) (gathered : FanOut U ι) {k : Program U ι}
    (hk : Sound children t (fun s => Off t s ∧ gathered.generation ≤ s.appliedGeneration) k) :
    Sound children t (fun s => Off t s ∧ Gathered children gathered s) (publication gathered k) := by
  refine sound_perform (Q := fun applied s => Publishing t s ∧ Gathered children gathered s ∧
    applied = s.appliedGeneration)
    (lasting_off.and lasting_gathered) ?_ fun applied => ?_
  · rintro s applied s' ⟨hoff, hg⟩ hinv h
    obtain ⟨hfree, rfl⟩ := Option.of_guard h
    have hnone : s.books.publisher = none := hfree.1
    refine ⟨(hinv.handover (some t) s.adder hinv.sending fun hnone => by cases hnone).tick,
      fun t' ht => ⟨⟨le_rfl, le_rfl, fun _ _ => rfl⟩, le_rfl, ?_, Iff.rfl,
      fun hp' => absurd (hp'.symm.trans hnone) (by simp), fun _ => ⟨rfl, fun _ h => h, fun _ h => .inl h⟩⟩,
      ⟨rfl, hoff.2, hinv.unswept hnone, hinv.sent hnone⟩, ⟨hg.pos, hg.le, hg.answers⟩, hfree.2⟩
    exact iff_of_false (fun hp' => ht (Option.some.inj hp').symm) (by simp [hnone])
  · split_ifs with hle
    · refine sound_release (K := fun s => Publishing t s ∧ applied = s.appliedGeneration) ?_ ?_ ?_ ?_ |>.imp _
        fun s hs => ⟨hs.1, hs.2.2⟩
      · rintro s s' hr ⟨hpub, ha⟩
        exact ⟨lasting_publishing hr hpub, ha.trans (hr.publishing hpub.publisher).1.symm⟩
      · exact fun s hs => ⟨hs.1.publisher, hs.1.adder, hs.2⟩
      · exact fun s claims hs hsub =>
          ⟨⟨hs.1.publisher, hs.1.adder, fun claim hclaim => hs.1.swept claim (hsub claim hclaim),
          hs.1.sent⟩, hs.2⟩
      · exact (sound_unlockApplied hk).imp _ fun s hs => ⟨hs.1.1, hs.1.2 ▸ hle⟩
    · refine (sound_install law ?_).imp _ fun s hs => ⟨hs.1, hs.2.1, hs.2.2 ▸ Nat.lt_of_not_le hle⟩
      refine sound_calm rfl lasting_installed fun _ => ?_
      refine sound_release lasting_installed ?_ ?_ ?_
      · exact fun s hs => ⟨hs.publisher, hs.adder, hs.applied.symm⟩
      · exact fun s claims hs _ => ⟨hs.publisher, hs.adder, hs.applied, hs.sent⟩
      · exact sound_sendSnapshot (sound_unlockApplied hk)

/-! ### Rebuilds -/

/-- The generation was stamped. -/
def Stamped (generation : ℕ) (s : Books U ι θ) : Prop := 1 ≤ generation ∧ generation ≤ s.nextGeneration

omit [DecidableEq ι] [DecidableEq θ] in
theorem lasting_stamped {generation : ℕ} : Lasting t (Stamped (U := U) (ι := ι) generation) :=
  lasting_of_ahead fun ha hs => ⟨hs.1, hs.2.trans ha.next⟩

/-- The answers came after the stamp. -/
def Answered (generation : ℕ) (answers : List (ChildAnswer U ι)) (s : Books U ι θ) : Prop :=
  Stamped generation s ∧ ∀ answer ∈ answers, s.stampedAt generation < answer.time

omit [DecidableEq ι] [DecidableEq θ] in
theorem lasting_answered {generation : ℕ} {answers : List (ChildAnswer U ι)} :
    Lasting t (Answered generation answers) :=
  lasting_of_ahead fun ha hs => ⟨⟨hs.1.1, hs.1.2.trans ha.next⟩, by rw [ha.stampedAt _ hs.1.2]; exact hs.2⟩

theorem sound_fanOut {generation : ℕ} {k : Option (List (ChildAnswer U ι)) → Program U ι}
    (hnone : Sound children t (Off t) (k none))
    (hsome : ∀ answers, (∀ child ∈ children, ∃ answer ∈ answers, answer.child = child) →
      Sound children t (fun s => Off t s ∧ Answered generation answers s) (k (some answers))) :
    ∀ (n : ℕ) (remaining : List ι) (answers : List (ChildAnswer U ι)), remaining.length = n →
      (∀ child ∈ children, child ∈ remaining ∨ ∃ answer ∈ answers, answer.child = child) →
      Sound children t (fun s => Off t s ∧ Answered generation answers s) (fanOut k n remaining answers) := by
  intro n
  induction n with
  | zero =>
    intro remaining answers hlen hcover
    refine hsome answers fun child hchild => (hcover child hchild).resolve_left ?_
    rw [length_eq_zero_iff.mp hlen]
    exact not_mem_nil
  | succ n ih =>
    intro remaining answers hlen hcover
    refine sound_learn rfl (lasting_off.and lasting_answered)
      (Q := fun reply s => Off t s ∧ ∀ answer, reply = some answer → answer.child ∈ remaining ∧
        Answered generation (answer :: answers) s) ?_ fun reply => ?_
    · rintro s reply s' ⟨hoff, hstamped, hanswers⟩ hinv h
      refine ⟨hoff, ?_⟩
      rintro answer rfl
      simp only [Action.effect] at h
      split_ifs at h with hmem
      refine ⟨hmem.1, hstamped, fun other hother => ?_⟩
      rcases mem_cons.mp hother with rfl | hold
      · exact (hinv.stamped generation hstamped.1 hstamped.2).trans_eq hmem.2.symm
      · exact hanswers other hold
    · cases reply with
      | none => exact hnone.imp _ fun s hs => hs.1
      | some answer =>
        by_cases hmem : answer.child ∈ remaining
        · refine (ih (remaining.erase answer.child) (answer :: answers) ?_ ?_).imp _ fun s hs =>
            ⟨hs.1, (hs.2 answer rfl).2⟩
          · rw [length_erase_of_mem hmem, hlen]
            rfl
          · intro child hchild
            rcases hcover child hchild with hrem | ⟨other, hother, heq⟩
            · by_cases heq : child = answer.child
              · exact .inr ⟨answer, mem_cons_self, heq.symm⟩
              · exact .inl ((mem_erase_of_ne heq).mpr hrem)
            · exact .inr ⟨other, mem_cons_of_mem _ hother, heq⟩
        · exact Valid.absurd fun s hs => hmem (hs.2 answer rfl).1

/-- Confirmations leave the books. -/
theorem sound_retire (hK : Lasting t K) {k : Bool → Program U ι} (hk : ∀ done, Sound children t K (k done))
    (candidates : List (Quarantined U ι)) : Sound children t K (retireConfirmedQuarantines k candidates) := by
  induction candidates with
  | nil => exact hk true
  | cons candidate candidates ih =>
    refine sound_calm rfl hK fun reply => ?_
    cases reply with
    | dropped => exact hk false
    | failed => exact ih
    | answered ids =>
      dsimp only
      split_ifs
      · exact ih
      · exact sound_calm rfl hK fun _ => ih

theorem sound_rebuild (law : U.Lawful) {generation : ℕ} {k : Bool → Program U ι}
    (hk : ∀ ok, Sound children t (fun s => Off t s ∧ (ok = true → generation ≤ s.appliedGeneration)) (k ok)) :
    Sound children t (fun s => Off t s ∧ Stamped generation s) (rebuild children generation k) := by
  have hfailed : Sound children t (Off t) (k false) := (hk false).imp _ fun s hs => ⟨hs, fun h => by cases h⟩
  refine Sound.imp (fun s => Off t s ∧ Answered generation [] s) (fun s hs => ⟨hs.1, hs.2, fun _ h => by cases h⟩) ?_
  refine sound_fanOut hfailed (fun answers hcover => ?_) _ _ _ rfl fun child hchild => .inl hchild
  refine sound_calm rfl (lasting_off.and lasting_answered) fun owned => ?_
  cases collectTargets owned with
  | none => exact hfailed.imp _ fun s hs => hs.1
  | some targets =>
    refine sound_calm rfl (lasting_off.and lasting_answered) fun quarantined => ?_
    refine sound_retire (lasting_off.and lasting_answered) (fun done => ?_) _
    split_ifs
    · refine (sound_publication law ⟨generation, answers, targets, quarantined⟩
        ((hk true).imp _ fun s hs => ⟨hs.1, fun _ => hs.2⟩)).imp _ ?_
      rintro s ⟨hoff, hstamped, hanswers⟩
      refine ⟨hoff, hstamped.1, hstamped.2, fun child hchild => ?_⟩
      obtain ⟨answer, hmem, heq⟩ := hcover child hchild
      exact ⟨answer, hmem, heq, hanswers answer hmem⟩
    · exact hfailed.imp _ fun s hs => hs.1

/-! ### Stamps and catch-ups -/

namespace Books

def stamp (s : Books U ι θ) : Books U ι θ :=
  { s with
    nextGeneration := s.nextGeneration + 1
    stampedAt := update s.stampedAt (s.nextGeneration + 1) s.clock }

omit [DecidableEq ι] [DecidableEq θ]

theorem stampedAt_stamp {s : Books U ι θ} {generation : ℕ} (h : generation ≤ s.nextGeneration) :
    s.stamp.stampedAt generation = s.stampedAt generation :=
  update_of_ne (by omega) _ _

theorem ahead_stamp (s : Books U ι θ) : s.Ahead s.stamp := ⟨Nat.le_succ _, le_rfl, fun _ => stampedAt_stamp⟩

theorem rely_stamp (s : Books U ι θ) (t : θ) : s.Rely s.stamp t :=
  { Rely.refl t s with ahead := ahead_stamp s }

theorem stampedAfter_stamp {s : Books U ι θ} {time : ℕ} (h : time < s.clock) :
    s.stamp.tick.StampedAfter time (s.nextGeneration + 1) := by
  refine ⟨Nat.le_add_left 1 _, le_rfl, ?_⟩
  change time < update s.stampedAt (s.nextGeneration + 1) s.clock (s.nextGeneration + 1)
  rwa [update_self]

variable [DecidableEq ι]

theorem Inv.stamp {s : Books U ι θ} (h : s.Inv children) : s.stamp.tick.Inv children := by
  have hahead := (ahead_stamp s).trans (ahead_tick s.stamp)
  have hnew : s.stamp.stampedAt (s.nextGeneration + 1) = s.clock := update_self ..
  exact
    { h with
      applied_le := h.applied_le.trans (Nat.le_succ _)
      stamped := fun generation hpos hle => by
        rcases Nat.le_succ_iff.mp hle with hold | rfl
        · exact (stampedAt_stamp hold).trans_lt ((h.stamped generation hpos hold).trans (Nat.lt_succ_self _))
        · exact hnew.trans_lt (Nat.lt_succ_self _)
      ordered := fun earlier later hpos hle hlater => by
        change s.stamp.stampedAt earlier ≤ s.stamp.stampedAt later
        rcases Nat.le_succ_iff.mp hlater with hold | rfl
        · rw [stampedAt_stamp hold, stampedAt_stamp (hle.trans hold)]
          exact h.ordered earlier later hpos hle hold
        · rcases Nat.le_succ_iff.mp hle with hold | rfl
          · rw [stampedAt_stamp hold, hnew]
            exact (h.stamped earlier hpos hold).le
          · exact le_rfl
      after := fun hpos => by
        change s.table.After children (s.stamp.stampedAt s.appliedGeneration)
        rw [stampedAt_stamp h.applied_le]
        exact h.after hpos
      claims := fun claim hclaim => (h.claims claim hclaim).trans (Nat.le_succ _)
      bound := fun bound hb => ⟨(h.bound bound hb).1.trans (Nat.lt_succ_self _),
        (h.bound bound hb).2.ahead hahead fun _ h => h⟩
      catchUps :=
        fun generation hmem => ⟨(h.catchUps generation hmem).1, (h.catchUps generation hmem).2.trans (Nat.le_succ _)⟩
      reflected := fun time ht => (h.reflected time ht).later hahead }

end Books

/-- A stamp, with what is known of it. -/
theorem sound_stamp {k : ℕ → Program U ι} {Q : ℕ → Books U ι θ → Prop} (hK : Lasting t K)
    (hQ : ∀ s, K s → s.Inv children → Q (s.nextGeneration + 1) s.stamp.tick)
    (hk : ∀ generation, Sound children t (Q generation) (k generation)) :
    Sound children t K (perform .nextGeneration k) := by
  refine sound_perform (Q := Q) hK ?_ hk
  intro s generation s' hs hinv h
  obtain ⟨hnext, rfl⟩ := Option.of_guard h
  exact ⟨hinv.stamp, fun t' _ => Books.rely_stamp s.books t', hnext.1 ▸ hQ s.books hs hinv⟩

theorem sound_watcherRebuild (law : U.Lawful) : Sound children t (Off t) (watcherRebuild (U := U) children) := by
  refine sound_stamp (Q := fun generation s => Off t s ∧ Stamped generation s) lasting_off ?_ fun generation => ?_
  · exact fun s hs _ => ⟨hs, Nat.le_add_left 1 _, le_rfl⟩
  · exact sound_rebuild law fun ok => Valid.ret fun s hs => hs.1

/-- The outcome of a catch-up is told. -/
theorem sound_finishCatchUp {generation : ℕ} {ok : Bool} :
    Sound children t (fun s => Off t s ∧ (ok = true → generation ≤ s.appliedGeneration))
      (perform (U := U) (.finishCatchUp generation ok) fun _ => .ret) := by
  have hK : Lasting t fun s : Books U ι θ => Off t s ∧ (ok = true → generation ≤ s.appliedGeneration) :=
    lasting_off.and (lasting_of_ahead (K := fun s => ok = true → generation ≤ s.appliedGeneration)
      fun ha hle hok => (hle hok).trans ha.applied)
  refine sound_perform (Q := fun _ => Off t) hK ?_ fun _ => Valid.ret fun s hs => hs
  rintro s r s' ⟨hoff, hle⟩ hinv h
  cases h
  have hinv' : ({ s with caughtUp := update s.caughtUp generation (some ok) } : World U ι θ).books.Inv children :=
    { hinv with
      bound := fun bound hb => ⟨(hinv.bound bound hb).1,
        (hinv.bound bound hb).2.ahead (.of rfl) fun _ h => h⟩
      caughtUp := fun other hother => by
        change update s.caughtUp generation (some ok) other = some true at hother
        by_cases heq : other = generation
        · subst heq
          rw [update_self] at hother
          exact hle (Option.some.inj hother)
        · rw [update_of_ne heq] at hother
          exact hinv.caughtUp other hother
      reflected := fun time ht => (hinv.reflected time ht).later (.of rfl) }
  exact ⟨hinv'.tick, fun t' _ => Books.rely_aside t' _ _ _ _, hoff⟩

omit [DecidableEq θ] in
/-- The catch-ups that are spawned, and taken up, are stamped. -/
theorem Books.Inv.catchUps_of {s : Books U ι θ} (h : s.Inv children) {catchUps : List ℕ}
    (hstamped : ∀ generation ∈ catchUps, 1 ≤ generation ∧ generation ≤ s.nextGeneration) :
    ({ s with catchUps } : Books U ι θ).Inv children :=
  { h with
    bound := fun bound hb => ⟨(h.bound bound hb).1,
      (h.bound bound hb).2.ahead (.of rfl) fun _ h => h⟩
    catchUps := hstamped
    reflected := fun time ht => (h.reflected time ht).later (.of rfl) }

theorem sound_routeCatchUpTask (law : U.Lawful) : Sound children t (Off t) (routeCatchUpTask (U := U) children) := by
  refine sound_perform (Q := fun generation s => Off t s ∧ Stamped generation s) lasting_off ?_ fun generation => ?_
  · intro s generation s' hs hinv h
    obtain ⟨hmem, rfl⟩ := Option.of_guard h
    exact ⟨(hinv.catchUps_of fun other hother => hinv.catchUps other (mem_of_mem_erase hother)).tick,
      fun t' _ => Books.rely_aside t' _ _ _ _, hs, hinv.catchUps generation hmem⟩
  · refine sound_calm rfl (lasting_off.and lasting_stamped) fun permit => ?_
    cases permit with
    | false => exact sound_finishCatchUp.imp _ fun s hs => ⟨hs.1, fun h => by cases h⟩
    | true =>
      refine sound_rebuild law fun ok => ?_
      have hK : Lasting t fun s : Books U ι θ => Off t s ∧ (ok = true → generation ≤ s.appliedGeneration) :=
        lasting_off.and (lasting_of_ahead (K := fun s => ok = true → generation ≤ s.appliedGeneration)
          fun ha hle hok => (hle hok).trans ha.applied)
      exact sound_calm rfl hK fun _ => sound_finishCatchUp

/-! ### Claims -/

/-- What `claim_roots` adds to the claims. -/
def newClaims (applied : ℕ) (child : ι) (nodes : List (CanonicalUrl U)) (generation : ℕ) : List (ClaimedRoot U ι) :=
  if generation ≤ applied then [] else nodes.map fun node => ⟨node, child, generation⟩

omit [DecidableEq ι] in
theorem mem_newClaims {applied generation : ℕ} {child : ι} {nodes : List (CanonicalUrl U)} {claim : ClaimedRoot U ι}
    (h : claim ∈ newClaims applied child nodes generation) : claim.generation = generation ∧ applied < generation := by
  unfold newClaims at h
  split_ifs at h with hle
  · cases h
  · obtain ⟨node, -, rfl⟩ := mem_map.mp h
    exact ⟨rfl, Nat.lt_of_not_le hle⟩

section

omit [DecidableEq ι] [DecidableEq θ]

theorem books_claimRoots (s : World U ι θ) (child : ι) (nodes : List (CanonicalUrl U)) (generation : ℕ) :
    (s.claimRoots child nodes generation).books =
      { s.books with claimedRoots := s.claimedRoots ++ newClaims s.appliedGeneration child nodes generation } := by
  unfold World.claimRoots newClaims
  split_ifs <;> simp [World.books]

/-- Claims are made while nobody publishes, if there is anything to claim. -/
theorem books_of_claim {s s' : World U ι θ} {child : ι} {nodes : List (CanonicalUrl U)} {generation : ℕ}
    (h : (if nodes.isEmpty then some s
      else if s.publisher = none then some (s.claimRoots child nodes generation) else none) = some s') :
    s'.books = { s.books with claimedRoots := s.claimedRoots ++ newClaims s.appliedGeneration child nodes generation } ∧
      (s.publisher = none ∨ newClaims s.appliedGeneration child nodes generation = []) := by
  split_ifs at h with hempty hp
  · cases h
    have hnil : newClaims s.appliedGeneration child nodes generation = [] := by
      simp [newClaims, isEmpty_iff.mp hempty]
    exact ⟨by simp [World.books, hnil], .inr hnil⟩
  · cases h
    exact ⟨books_claimRoots s child nodes generation, .inl hp⟩

/-- The claims of a generation cover what they were made for. -/
theorem covers_newClaims {s : Books U ι θ} (bound : Bound U ι) {generation without : ℕ}
    (hstamped : s.StampedAfter bound.committedAt generation) (hne : generation ≠ without) :
    ({ s with claimedRoots := s.claimedRoots ++
      newClaims s.appliedGeneration bound.child bound.addresses generation } : Books U ι θ).Covers without bound := by
  intro node hnode
  by_cases hle : generation ≤ s.appliedGeneration
  · exact .inr ⟨generation, ⟨hstamped.pos, hstamped.le, hstamped.lt⟩, hle⟩
  · refine .inl ⟨⟨node, bound.child, generation⟩, mem_append_right _ ?_, hne, rfl, rfl,
      ⟨hstamped.pos, hstamped.le, hstamped.lt⟩⟩
    rw [newClaims, if_neg hle]
    exact mem_map_of_mem hnode

end

omit [DecidableEq θ] in
/-- Claims are made while nobody publishes, for a generation that was stamped. -/
theorem Books.Inv.claim {s : Books U ι θ} (h : s.Inv children) (child : ι) (nodes : List (CanonicalUrl U))
    {generation : ℕ} (hle : generation ≤ s.nextGeneration) :
    ({ s with claimedRoots := s.claimedRoots ++ newClaims s.appliedGeneration child nodes generation } : Books U ι
      θ).Inv children :=
  { h with
    claims := fun claim hclaim => by
      rcases mem_append.mp hclaim with hold | hnew
      · exact h.claims claim hold
      · exact (mem_newClaims hnew).1.trans_le hle
    unswept := fun hp claim hclaim => by
      rcases mem_append.mp hclaim with hold | hnew
      · exact h.unswept hp claim hold
      · exact (mem_newClaims hnew).1 ▸ (mem_newClaims hnew).2
    bound := fun bound hb => ⟨(h.bound bound hb).1, (h.bound bound hb).2.ahead (.of rfl)
      (subset_append_left _ _)⟩
    reflected := fun time ht => (h.reflected time ht).later (.of rfl) }

omit [DecidableEq ι] [DecidableEq θ] in
/-- Who holds the gate claims, and narrows what is bound; nobody publishes meanwhile. -/
theorem rely_claim {s : Books U ι θ} (ha : s.adder = some t) {t' : θ} (ht : t' ≠ t) (bound : List (Bound U ι))
    (claims : List (ClaimedRoot U ι)) (hp : s.publisher = some t' → ∀ claim ∈ claims, claim ∈ s.claimedRoots) :
    s.Rely { s with bound, claimedRoots := claims } t' :=
  { Books.Rely.refl t' s with
    ahead := ⟨le_rfl, le_rfl, fun _ _ => rfl⟩
    publishing := fun hp' => ⟨rfl, rfl, rfl, rfl, hp hp'⟩
    adding := fun ha' => absurd (Option.some.inj (ha'.symm.trans ha)) ht }

/-- The child has committed an add, at a time that is nobody else's. -/
structure Committed (t : θ) (time : ℕ) (s : Books U ι θ) : Prop where
  holding : Holding t s
  lt : time < s.clock
  new : ∀ bound ∈ s.bound, bound.committedAt ≠ time

/-- The add has a stamp that no claim carries. -/
structure Reserving (t : θ) (time generation : ℕ) (s : Books U ι θ) : Prop where
  holding : Holding t s
  stamped : s.StampedAfter time generation
  new : ∀ bound ∈ s.bound, bound.committedAt ≠ time
  unclaimed : ∀ claim ∈ s.claimedRoots, claim.generation ≠ generation

/-- The claims of the generation stand for what the add has bound, and for that alone. -/
structure Pending (t : θ) (bound : Bound U ι) (generation : ℕ) (s : Books U ι θ) : Prop where
  holding : Holding t s
  stamped : s.StampedAfter bound.committedAt generation
  others : ∀ other ∈ s.bound, other = bound ∨ other.committedAt ≠ bound.committedAt ∧ s.Covers generation other

/-- The claims of the generation stand for nothing any more. -/
structure Spent (t : θ) (generation : ℕ) (s : Books U ι θ) : Prop where
  holding : Holding t s
  covers : ∀ bound ∈ s.bound, s.Covers generation bound

section Lasts

omit [DecidableEq ι] [DecidableEq θ]

theorem lasting_committed {time : ℕ} : Lasting t (Committed (U := U) (ι := ι) t time) := by
  intro s s' hr hs
  obtain ⟨hb, -, -⟩ := hr.adding hs.holding.2
  exact ⟨lasting_holding hr hs.holding, hs.lt.trans_le hr.clock, hb ▸ hs.new⟩

theorem lasting_reserving {time generation : ℕ} : Lasting t (Reserving (U := U) (ι := ι) t time generation) := by
  intro s s' hr hs
  obtain ⟨hb, hsub, -⟩ := hr.adding hs.holding.2
  exact ⟨lasting_holding hr hs.holding, hs.stamped.later hr.ahead, hb ▸ hs.new,
    fun claim hclaim => hs.unclaimed claim (hsub claim hclaim)⟩

theorem lasting_pending {bound : Bound U ι} {generation : ℕ} : Lasting t (Pending t bound generation) := by
  intro s s' hr hs
  obtain ⟨hb, -, -⟩ := hr.adding hs.holding.2
  refine ⟨lasting_holding hr hs.holding, hs.stamped.later hr.ahead, ?_⟩
  rw [hb]
  exact fun other hother => (hs.others other hother).imp_right (And.imp_right fun hc => hc.of_rely hr hs.holding.2)

theorem lasting_spent {generation : ℕ} : Lasting t (Spent (U := U) (ι := ι) t generation) := by
  intro s s' hr hs
  obtain ⟨hb, -, -⟩ := hr.adding hs.holding.2
  refine ⟨lasting_holding hr hs.holding, ?_⟩
  rw [hb]
  exact fun bound hbound => (hs.covers bound hbound).of_rely hr hs.holding.2

theorem lasting_stampedAfter {time generation : ℕ} : Lasting t fun s : Books U ι θ => s.StampedAfter time generation :=
  lasting_of_ahead (K := fun s => s.StampedAfter time generation) fun ha hs => hs.later ha

end Lasts

/-- All that a connection may have bound is claimed. -/
theorem sound_claimBound (bound : Bound U ι) {generation : ℕ} {k : Program U ι}
    (hk : Sound children t (Pending t bound generation) k) :
    Sound children t (Reserving t bound.committedAt generation)
      (perform (.claimBound bound generation) fun _ => k) := by
  refine sound_perform (Q := fun _ => Pending t bound generation) lasting_reserving ?_ fun _ => hk
  intro s r s' hs hinv h
  obtain ⟨hbooks, hfree⟩ := books_of_claim (s := { s with past := { s.past with bound := bound :: s.past.bound } }) h
  rw [hbooks]
  have hclaimed := hinv.claim bound.child bound.addresses hs.stamped.le
  have hnew := covers_newClaims bound hs.stamped (Nat.ne_of_gt hs.stamped.pos)
  have hinv' : ({ s.books with
      bound := bound :: s.past.bound
      claimedRoots :=
        s.claimedRoots ++ newClaims s.appliedGeneration bound.child bound.addresses generation } : Books U ι θ).Inv
          children :=
    { hclaimed with
      bound := fun other hother => by
        rcases mem_cons.mp hother with rfl | hold
        · refine ⟨hs.stamped.lt.trans (hinv.stamped _ hs.stamped.pos hs.stamped.le), hnew.later (.of rfl)
            fun _ hmem hne => .inl ⟨hmem, hne⟩⟩
        · exact ⟨(hclaimed.bound other hold).1, (hclaimed.bound other hold).2.later (.of rfl)
            fun _ hmem hne => .inl ⟨hmem, hne⟩⟩
      reflected := fun time ht => (hclaimed.reflected time ht).later (.of rfl) }
  refine ⟨hinv'.tick, fun t' ht => rely_claim hs.holding.2 ht _ _ fun hp claim hclaim => ?_,
    ⟨hs.holding, hs.stamped.later (.of rfl), fun other hother => ?_⟩⟩
  · rcases hfree with hnone | hnil
    · exact absurd (hp.symm.trans hnone) (by simp)
    · rw [hnil, append_nil] at hclaim
      exact hclaim
  · rcases mem_cons.mp hother with rfl | hold
    · exact .inl rfl
    · refine .inr ⟨hs.new other hold, (hinv.bound other hold).2.later (.of rfl) fun claim hmem _ =>
        .inl ⟨mem_append_left _ hmem, hs.unclaimed claim hmem⟩⟩

/-- What the check left the add is claimed once more, under the generation of its catch-up. -/
theorem sound_claimRoots (bound : Bound U ι) {provisional generation : ℕ} {k : Program U ι}
    (hlt : provisional ≠ generation)
    (hk : Sound children t (fun s => Spent t provisional s ∧ s.StampedAfter bound.committedAt generation) k) :
    Sound children t (fun s => Pending t bound provisional s ∧ s.StampedAfter bound.committedAt generation)
      (perform (.claimRoots bound.child bound.addresses generation) fun _ => k) := by
  refine sound_perform (Q := fun _ s => Spent t provisional s ∧ s.StampedAfter bound.committedAt generation)
    (lasting_pending.and lasting_stampedAfter) ?_ fun _ => hk
  rintro s r s' ⟨hs, hstamped⟩ hinv h
  obtain ⟨hbooks, hfree⟩ := books_of_claim h
  rw [hbooks]
  have hnew := covers_newClaims bound hstamped hlt.symm
  refine ⟨(hinv.claim bound.child bound.addresses hstamped.le).tick,
    fun t' ht => rely_claim hs.holding.2 ht _ _ fun hp claim hclaim => ?_,
    ⟨hs.holding, fun other hother => ?_⟩, hstamped.later (.of rfl)⟩
  · rcases hfree with hnone | hnil
    · exact absurd (hp.symm.trans hnone) (by simp)
    · rw [hnil, append_nil] at hclaim
      exact hclaim
  · rcases hs.others other hother with rfl | ⟨-, hcovers⟩
    · exact hnew.ahead (.of rfl) fun _ h => h
    · exact hcovers.ahead (.of rfl) (subset_append_left _ _)

/-- The claims of a generation go that stand for nothing any more. -/
theorem sound_discard {generation : ℕ} {k : Program U ι} (hK : Lasting t K) (hspent : ∀ s, K s → Spent t generation s)
    {Q : Books U ι θ → Prop} (hQ : ∀ s claims, K s → Q ({ s with claimedRoots := claims } : Books U ι θ).tick)
    (hk : Sound children t Q k) : Sound children t K (perform (.discardClaimsAt generation) fun _ => k) := by
  refine sound_perform (Q := fun _ => Q) hK ?_ fun _ => hk
  intro s r s' hs hinv h
  cases h
  have hspent := hspent _ hs
  have hinv' : (s.discardClaimsAt generation).books.Inv children :=
    { hinv with
      claims := fun claim hclaim => hinv.claims claim (mem_filter.mp hclaim).1
      unswept := fun hp claim hclaim => hinv.unswept hp claim (mem_filter.mp hclaim).1
      bound := fun bound hb => ⟨(hinv.bound bound hb).1, (hspent.covers bound hb).later (.of rfl)
        fun claim hmem hne => by
          by_cases hzero : claim.generation = 0
          · exact .inr (hzero ▸ Nat.zero_le _)
          · exact .inl ⟨mem_filter.mpr ⟨hmem, decide_eq_true hne⟩, hzero⟩⟩
      reflected := fun time ht => (hinv.reflected time ht).later (.of rfl) }
  exact ⟨hinv'.tick, fun t' ht => rely_claim hspent.holding.2 ht s.past.bound _
    fun _ claim hclaim => (mem_filter.mp hclaim).1, hQ s.books _ hs⟩

/-! ### Adds -/

theorem crossChildConflict_subset {claimed : List (CanonicalUrl U × ι)} {routes : List (PublishedRoot U × ι)}
    {child : ι} {claimable kept : List (CanonicalUrl U)}
    (h : crossChildConflict claimed routes child claimable = .ok kept) :
    ∀ address ∈ kept, address ∈ claimable := by
  unfold crossChildConflict at h
  dsimp only at h
  split at h
  · cases h
    exact fun address haddress => (mem_filter.mp haddress).1
  · split_ifs at h
    cases h
    exact fun address haddress => (mem_filter.mp haddress).1

/-- What an add has bound, once it lists these addresses. -/
def Adding.bound (adding : Adding U ι) (addresses : List (CanonicalUrl U)) : Bound U ι :=
  ⟨adding.child, addresses, adding.committedAt⟩

/-- What is known after a decision of `cross_child_conflict`. -/
def Decided (t : θ) (adding : Adding U ι) (claimable : List (CanonicalUrl U)) (last : Bool) (generation : ℕ) :
    Except ErrorCode (List (CanonicalUrl U)) → Books U ι θ → Prop
  | .ok kept => if last || kept.length == claimable.length then Pending t (adding.bound kept) generation
    else Pending t (adding.bound adding.connection.currentAddresses) generation
  | .error _ => if last then Spent t generation
    else Pending t (adding.bound adding.connection.currentAddresses) generation

theorem sound_crossChildConflict {adding : Adding U ι} {claimed : List (CanonicalUrl U × ι)}
    {claimable : List (CanonicalUrl U)} {last : Bool} {generation : ℕ}
    {k : Except ErrorCode (List (CanonicalUrl U)) → Program U ι}
    (hlisted : ∀ address ∈ claimable, address ∈ adding.connection.currentAddresses)
    (hk : ∀ verdict, Sound children t (Decided t adding claimable last generation verdict) (k verdict)) :
    Sound children t (Pending t (adding.bound adding.connection.currentAddresses) generation)
      (perform (.crossChildConflict adding claimed claimable last) k) := by
  refine sound_perform (Q := Decided t adding claimable last generation) lasting_pending ?_ hk
  intro s verdict s' hs hinv h
  obtain ⟨hverdict, rfl⟩ := Option.of_guard h
  have hsame : (s.books.tick.Inv children ∧ (∀ t' ≠ t, s.books.Rely s.books t') ∧
      Pending t (adding.bound adding.connection.currentAddresses) generation s.books.tick) :=
    ⟨hinv.tick, fun t' _ => .refl t' _, lasting_pending (Books.Rely.refl t s.books).tick hs⟩
  cases verdict with
  | ok kept =>
    simp only [World.check, Decided]
    split_ifs
    · -- what is bound is narrowed to what the check left
      have hkept : ∀ without other, s.books.Covers without other → ∀ bound', s.books.Covers without other →
          ({ s.books with bound := bound' } : Books U ι θ).Covers without other := fun without other hc bound' _ =>
        hc.ahead (.of rfl) fun _ h => h
      have hnarrow : ∀ bound', s.books.Covers 0 (adding.bound adding.connection.currentAddresses) →
          ({ s.books with bound := bound' } : Books U ι θ).Covers 0 (adding.bound kept) := fun bound' hc node hnode =>
        hkept 0 _ hc bound' hc node (hlisted node (crossChildConflict_subset hverdict node hnode))
      have hother : ∀ other ∈ s.books.bound, other.committedAt ≠ adding.committedAt ∨
          other = adding.bound adding.connection.currentAddresses := fun other hmem =>
        (hs.others other hmem).symm.imp_left fun h => h.1
      refine ⟨Books.Inv.tick ?_, fun t' ht => rely_claim hs.holding.2 ht _ _ fun _ _ h => h, ⟨hs.holding,
        hs.stamped.later (.of rfl), ?_⟩⟩
      · exact
          { hinv with
            bound := fun bound hbound => by
              obtain ⟨other, hmem, rfl⟩ := mem_map.mp hbound
              rcases hother other hmem with hne | rfl
              · rw [if_neg hne]
                exact ⟨(hinv.bound other hmem).1, hkept 0 other (hinv.bound other hmem).2 _ (hinv.bound other hmem).2⟩
              · have heq : (adding.bound adding.connection.currentAddresses).committedAt = adding.committedAt := rfl
                rw [if_pos heq]
                exact ⟨(hinv.bound _ hmem).1, hnarrow _ (hinv.bound _ hmem).2⟩
            reflected := fun time ht => (hinv.reflected time ht).later (.of rfl) }
      · intro bound hbound
        obtain ⟨other, hmem, rfl⟩ := mem_map.mp hbound
        rcases hs.others other hmem with rfl | ⟨hne, hcovers⟩
        · exact .inl (if_pos rfl)
        · have hne' : ¬other.committedAt = adding.committedAt := hne
          rw [if_neg hne']
          exact .inr ⟨hne, hcovers.ahead (.of rfl) fun _ h => h⟩
    · exact hsame
  | error code =>
    simp only [World.check, Decided]
    split_ifs
    · refine ⟨Books.Inv.tick ?_, fun t' ht => rely_claim hs.holding.2 ht _ _ fun _ _ h => h, ⟨hs.holding, ?_⟩⟩
      · exact
          { hinv with
            bound := fun bound hbound => by
              have hmem := (mem_filter.mp hbound).1
              exact ⟨(hinv.bound bound hmem).1, (hinv.bound bound hmem).2.later (.of rfl)
                fun _ hmem hne => .inl ⟨hmem, hne⟩⟩
            reflected := fun time ht => (hinv.reflected time ht).later (.of rfl) }
      · intro bound hbound
        obtain ⟨hmem, hne⟩ := mem_filter.mp hbound
        rcases hs.others bound hmem with rfl | ⟨-, hcovers⟩
        · exact absurd rfl (of_decide_eq_true hne)
        · exact hcovers.ahead (.of rfl) fun _ h => h
    · exact hsame

/-- The wait for a catch-up: an `Ok` reflects the mutation. -/
theorem sound_routeCatchUpAt {generation committedAt : ℕ} {k : Program U ι} (hK : Lasting t K)
    (hk : Sound children t K k) (haside : ∀ s catchUps reflected, K s → K { s with catchUps, reflected }) :
    Sound children t (fun s => K s ∧ s.StampedAfter committedAt generation)
      (routeCatchUpAt generation committedAt k) := by
  refine sound_perform (Q := fun _ s => K s ∧ s.StampedAfter committedAt generation)
    (hK.and lasting_stampedAfter) ?_ fun _ => ?_
  · rintro s r s' ⟨hs, hstamped⟩ hinv h
    cases h
    refine ⟨(hinv.catchUps_of fun other hother => ?_).tick, fun t' _ => Books.rely_aside t' _ _ _ _,
      hK (Books.Rely.refl t _).tick (haside _ _ s.past.reflected hs), hstamped.later (.of rfl)⟩
    rcases mem_cons.mp hother with rfl | hold
    · exact ⟨hstamped.pos, hstamped.le⟩
    · exact hinv.catchUps other hold
  · refine sound_learn rfl (hK.and lasting_stampedAfter)
      (Q := fun outcome s => K s ∧ (outcome = some true → s.Caught committedAt)) ?_ fun outcome => ?_
    · rintro s outcome s' ⟨hs, hstamped⟩ hinv h
      refine ⟨hK (Books.Rely.refl t _).tick hs, ?_⟩
      rintro rfl
      simp only [Action.effect] at h
      split_ifs at h with hok
      exact ⟨generation, hstamped.later (Books.ahead_tick _), hinv.caughtUp generation hok⟩
    · have hcaught : Lasting t fun s : Books U ι θ => K s ∧ (outcome = some true → s.Caught committedAt) :=
        hK.and (lasting_of_ahead (K := fun s => outcome = some true → s.Caught committedAt) fun ha hc hok =>
          (hc hok).later ha)
      have hleave : Sound children t (fun s : Books U ι θ => K s ∧ (outcome = some true → s.Caught committedAt)) k :=
        hk.imp _ fun s hs => hs.1
      match outcome with
      | none => exact hleave
      | some false => exact hleave
      | some true =>
        refine sound_perform (Q := fun _ => K) hcaught ?_ fun _ => hk
        rintro s r s' ⟨hs, hc⟩ hinv h
        cases h
        refine ⟨Books.Inv.tick ?_, fun t' _ => Books.rely_aside t' _ _ _ _,
          hK (Books.Rely.refl t _).tick (haside _ s.catchUps _ hs)⟩
        exact
          { hinv with
            bound := fun bound hb => ⟨(hinv.bound bound hb).1, (hinv.bound bound hb).2.later (.of rfl)
              fun _ hmem hne => .inl ⟨hmem, hne⟩⟩
            reflected := fun time ht => by
              rcases mem_cons.mp ht with rfl | hold
              · exact (hc rfl).later (.of rfl)
              · exact (hinv.reflected time hold).later (.of rfl) }

theorem sound_rollBack {adding : Adding U ι} {ticket : ℕ} {k : Program U ι} (hk : Sound children t (Holding t) k) :
    Sound children t (Holding t) (rollBackConflictingAdd adding ticket k) := by
  refine sound_calm rfl lasting_holding fun _ => sound_calm rfl lasting_holding fun _ =>
    sound_calm rfl lasting_holding fun outcome => ?_
  match outcome with
  | none => exact hk
  | some .removed => exact sound_calm rfl lasting_holding fun _ => sound_calm rfl lasting_holding fun _ => hk
  | some .ambiguous => exact sound_calm rfl lasting_holding fun _ => hk
  | some .failed => exact sound_calm rfl lasting_holding fun _ => hk

theorem sound_concludeAdd {adding : Adding U ι} {provisional : ℕ} {k : Program U ι}
    (hk : Sound children t (Holding t) k) :
    ∀ verdict, Sound children t (fun s => match verdict with
      | .ok kept => Pending t (adding.bound kept) provisional s
      | .error _ => Spent t provisional s) (concludeAdd adding provisional k verdict)
  | .error _ =>
    sound_discard (Q := Holding t) lasting_spent (fun _ hs => hs) (fun _ _ hs => hs.holding) (sound_rollBack hk)
  | .ok kept => by
    refine sound_stamp (Q := fun generation s => provisional ≠ generation ∧
      Pending t (adding.bound kept) provisional s ∧
      s.StampedAfter adding.committedAt generation) lasting_pending ?_ fun generation => ?_
    · intro s hs hinv
      refine ⟨by have := hs.stamped.le; omega, lasting_pending (Books.rely_stamp s t).tick hs,
        Books.stampedAfter_stamp ?_⟩
      exact hs.stamped.lt.trans (hinv.stamped _ hs.stamped.pos hs.stamped.le)
    · by_cases hne : provisional = generation
      · exact Valid.absurd fun s hs => hs.1 hne
      · refine (sound_claimRoots (adding.bound kept) hne ?_).imp _ fun s hs => hs.2
        refine sound_discard (lasting_spent.and lasting_stampedAfter) (fun _ hs => hs.1)
          (Q := fun s => Holding t s ∧ s.StampedAfter adding.committedAt generation)
          (fun s claims hs => ⟨hs.1.holding, hs.2.later (.of rfl)⟩) ?_
        exact sound_routeCatchUpAt lasting_holding hk fun s catchUps reflected hs => hs

theorem publishedClaims_subset {connection : Connection U} {roots : List (PublishedRoot U)} :
    ∀ address ∈ publishedClaims connection roots, address ∈ connection.currentAddresses :=
  fun _ h => (mem_filter.mp h).1

theorem sound_crossCheck {adding : Adding U ι} {claimable : List (CanonicalUrl U)} {last : Bool} {generation : ℕ}
    {k : Except ErrorCode (List (CanonicalUrl U)) → Program U ι}
    (hlisted : ∀ address ∈ claimable, address ∈ adding.connection.currentAddresses)
    (hk : ∀ verdict, Sound children t (Decided t adding claimable last generation verdict) (k verdict)) :
    Sound children t (Pending t (adding.bound adding.connection.currentAddresses) generation)
      (crossCheck adding claimable last k) :=
  sound_calm rfl lasting_pending fun _ => sound_crossChildConflict hlisted hk

theorem sound_reserve {time : ℕ} {k : ℕ → Program U ι}
    (hk : ∀ generation, Sound children t (Reserving t time generation) (k generation)) :
    Sound children t (Committed t time) (perform .nextGeneration k) := by
  refine sound_stamp (Q := fun generation => Reserving t time generation) lasting_committed ?_ hk
  refine fun s hs hinv => ⟨hs.holding, Books.stampedAfter_stamp hs.lt, hs.new, fun claim hclaim => ?_⟩
  have := hinv.claims claim hclaim
  change claim.generation ≠ s.nextGeneration + 1
  omega

theorem sound_afterCommit (adding : Adding U ι) {k : Program U ι} (hk : Sound children t (Holding t) k) :
    Sound children t (Committed t adding.committedAt) (afterCommit adding k) := by
  have hlast : ∀ provisional claimable, (∀ address ∈ claimable, address ∈ adding.connection.currentAddresses) →
      Sound children t (Pending t (adding.bound adding.connection.currentAddresses) provisional)
        (crossCheck adding claimable true (concludeAdd adding provisional k)) := by
    refine fun provisional claimable hsub => sound_crossCheck hsub fun verdict => ?_
    refine (sound_concludeAdd hk verdict).imp _ fun s hs => ?_
    cases verdict <;> simpa [Decided] using hs
  refine sound_calm rfl lasting_committed fun _ => sound_reserve fun provisional => ?_
  refine sound_claimBound (adding.bound adding.connection.currentAddresses) ?_
  refine sound_crossCheck (fun _ h => h) fun verdict => ?_
  split_ifs with hall
  · cases verdict with
    | error code => cases hall
    | ok kept =>
      have hlen : kept.length = adding.connection.currentAddresses.length := Option.some.inj hall
      refine (sound_concludeAdd hk (.ok kept)).imp _ fun s hs => ?_
      simpa [Decided, hlen] using hs
  · have hpending : ∀ s, Decided t adding adding.connection.currentAddresses false provisional verdict s →
        Pending t (adding.bound adding.connection.currentAddresses) provisional s := by
      intro s hs
      cases verdict with
      | error code => simpa [Decided] using hs
      | ok kept =>
        have hlen : kept.length ≠ adding.connection.currentAddresses.length := fun h => hall (congrArg some h)
        simpa [Decided, hlen] using hs
    refine Sound.imp _ hpending (sound_calm rfl lasting_pending fun reply => ?_)
    cases reply with
    | dropped => exact hk.imp _ fun s hs => hs.holding
    | failed => exact hlast provisional _ fun _ h => h
    | answered roots => exact hlast provisional _ publishedClaims_subset

/-- What an add leaves the task with. -/
def Leaves (t : θ) (s : Books U ι θ) : Added U → Prop
  | .Ok _ time | .CommitAmbiguous _ time => Committed t time s
  | .failed => Holding t s

theorem sound_addUnderGate {child : ι} {target : Target} {k : Program U ι} (hk : Sound children t (Holding t) k) :
    Sound children t (Holding t) (addUnderGate child target k) := by
  refine sound_learn rfl lasting_holding (Q := fun added s => Leaves t s added) ?_ fun added => ?_
  · intro s added s' hs hinv h
    have hcommitted : Committed t s.past.clock s.books.tick :=
      ⟨hs, Nat.lt_succ_self _, fun bound hb => (hinv.bound bound hb).1.ne⟩
    cases added with
    | failed => exact hs
    | Ok connection time =>
      simp only [Action.effect] at h
      split_ifs at h with htime
      exact htime ▸ hcommitted
    | CommitAmbiguous connection time =>
      simp only [Action.effect] at h
      split_ifs at h with htime
      exact htime ▸ hcommitted
  · cases added with
    | failed => exact hk
    | Ok connection time => exact sound_afterCommit ⟨child, target, connection, time⟩ hk
    | CommitAmbiguous connection time =>
      refine sound_reserve fun generation => sound_calm rfl lasting_reserving fun reply => ?_
      have hleave : Sound children t (Reserving t time generation) k := hk.imp _ fun s hs => hs.holding
      cases reply with
      | answered roots =>
        exact sound_claimBound ⟨child, roots.map PublishedRoot.address, time⟩ (hk.imp _ fun s hs => hs.holding)
      | failed => exact hleave
      | dropped => exact hleave

theorem sound_lockGate {k : Bool → Program U ι} (hfalse : Sound children t (Off t) (k false))
    (htrue : Sound children t (Holding t) (k true)) : Sound children t (Off t) (perform .lockGate k) := by
  refine sound_perform (Q := fun locked s => if locked then Holding t s else Off t s) lasting_off ?_ fun locked => ?_
  · intro s locked s' hs hinv h
    cases locked with
    | false =>
      cases h
      exact ⟨hinv.tick, fun t' _ => .refl t' _, hs⟩
    | true =>
      obtain ⟨hfree, rfl⟩ := Option.of_guard h
      have hnone : s.books.adder = none := hfree
      refine ⟨(hinv.handover s.publisher (some t) hinv.sending fun hp => ⟨hinv.unswept hp, hinv.sent hp⟩).tick,
        fun t' ht => { Books.Rely.refl t' s.books with
          ahead := ⟨le_rfl, le_rfl, fun _ _ => rfl⟩
          adder := iff_of_false (fun ha => ht (Option.some.inj ha).symm) (by simp [hnone])
          adding := fun ha => absurd (ha.symm.trans hnone) (by simp) }, hs.1, rfl⟩
  · cases locked with
    | false => exact hfalse
    | true => exact htrue

theorem sound_unlockGate {k : Program U ι} (hk : Sound children t (Off t) k) :
    Sound children t (Holding t) (perform .unlockGate fun _ => k) := by
  refine sound_perform (Q := fun _ => Off t) lasting_holding ?_ fun _ => hk
  intro s r s' hs hinv h
  obtain ⟨ha, rfl⟩ := Option.of_guard h
  have hother : ∀ t' ≠ t, s.books.adder ≠ some t' := fun t' ht ha' => ht (Option.some.inj (ha'.symm.trans hs.2))
  exact ⟨(hinv.handover s.publisher none hinv.sending fun hp => ⟨hinv.unswept hp, hinv.sent hp⟩).tick,
    fun t' ht => { Books.Rely.refl t' s.books with
      ahead := ⟨le_rfl, le_rfl, fun _ _ => rfl⟩
      adder := iff_of_false (by simp [World.books]) (hother t' ht)
      adding := fun ha' => absurd ha' (hother t' ht) }, hs.1, by simp [World.books, Books.tick]⟩

/-! ### Every task -/

/-- The mutation was committed before now. -/
def Done (t : θ) (time : ℕ) (s : Books U ι θ) : Prop := Off t s ∧ time < s.clock

omit [DecidableEq ι] [DecidableEq θ] in
theorem lasting_done {time : ℕ} : Lasting t (Done (U := U) (ι := ι) t time) :=
  fun hr hs => ⟨lasting_off hr hs.1, hs.2.trans_le hr.clock⟩

/-- The catch-up of a mutation that is no add. -/
theorem sound_reconcile {time : ℕ} : Sound children t (Done t time)
    (perform (U := U) .nextGeneration fun generation => routeCatchUpAt generation time .ret) := by
  refine sound_stamp (Q := fun generation s => Off t s ∧ s.StampedAfter time generation) lasting_done ?_
    fun generation => ?_
  · exact fun s hs _ => ⟨hs.1, Books.stampedAfter_stamp hs.2⟩
  · exact sound_routeCatchUpAt lasting_off (Valid.ret fun s hs => hs) fun s catchUps reflected hs => hs

theorem sound_ret : Sound (U := U) children t (Off t) .ret := Valid.ret fun _ hs => hs

theorem sound_addConnection (target : Target) : Sound children t (Off t) (addConnection (U := U) target) := by
  refine sound_calm rfl lasting_off fun child => ?_
  cases child with
  | none => exact sound_ret
  | some child => exact sound_lockGate sound_ret (sound_addUnderGate (sound_unlockGate sound_ret))

/-- What a removal leaves the task with. -/
def Frees (t : θ) (s : Books U ι θ) : Removed → Prop
  | .Ok time => Done t time s
  | _ => Off t s

theorem sound_removeConnection (target : Target) (id : ConnectionId) :
    Sound children t (Off t) (removeConnection (U := U) target id) := by
  refine sound_calm rfl lasting_off fun child => ?_
  cases child with
  | none => exact sound_ret
  | some child =>
    refine sound_learn rfl lasting_off (Q := fun removed s => Frees t s removed) ?_ fun removed => ?_
    · intro s removed s' hs hinv h
      cases removed with
      | Ok time =>
        simp only [Action.effect] at h
        split_ifs at h with htime
        exact ⟨hs, htime ▸ Nat.lt_succ_self _⟩
      | CommitAmbiguous => exact hs
      | failed removed => exact hs
    · cases removed with
      | Ok time => exact sound_calm rfl lasting_done fun _ => sound_reconcile
      | CommitAmbiguous => exact sound_ret
      | failed removed => exact sound_ret

theorem sound_updateConnectionAttributes (target : Target) :
    Sound children t (Off t) (updateConnectionAttributes (U := U) target) := by
  refine sound_calm rfl lasting_off fun child => ?_
  cases child with
  | none => exact sound_ret
  | some child =>
    refine sound_learn rfl lasting_off
      (Q := fun updated s => updated.elim (Off t s) fun time => Done t time s) ?_ fun updated => ?_
    · intro s updated s' hs hinv h
      cases updated with
      | none => exact hs
      | some time =>
        simp only [Action.effect] at h
        split_ifs at h with htime
        exact ⟨hs, htime ▸ Nat.lt_succ_self _⟩
    · cases updated with
      | none => exact sound_ret
      | some time => exact sound_reconcile

theorem sound_removalTask : Sound children t (Off t) (removalTask (U := U)) := by
  refine sound_calm rfl lasting_off fun task => sound_calm rfl lasting_off fun removed => ?_
  cases removed with
  | Ok time => exact sound_calm rfl lasting_off fun _ => sound_ret
  | CommitAmbiguous => exact sound_calm rfl lasting_off fun _ => sound_ret
  | failed removed => exact sound_calm rfl lasting_off fun _ => sound_ret

theorem sound_task (law : U.Lawful) (task : Task ι) : Sound children t (Off t) (task.program (U := U) children) := by
  cases task with
  | addConnection target => exact sound_addConnection target
  | removeConnection target id => exact sound_removeConnection target id
  | updateConnectionAttributes target => exact sound_updateConnectionAttributes target
  | routeCatchUp => exact sound_routeCatchUpTask law
  | rollback => exact sound_removalTask
  | rootWatcher => exact sound_watcherRebuild law
  | declare child targets => exact sound_calm rfl lasting_off fun _ => sound_ret

omit [DecidableEq θ] in
theorem Books.inv_fresh (held : ι → List (Held U)) (owned : ι → List Target) :
    (World.fresh held owned : World U ι θ).books.Inv children where
  generation := rfl
  applied_le := le_rfl
  stamped generation hpos hle := absurd (hpos.trans hle) (by simp [World.books, World.fresh])
  ordered _ _ _ _ _ := le_rfl
  after hpos := absurd hpos (by simp [World.books, World.fresh])
  claims _ h := by cases h
  unswept _ _ h := by cases h
  bound _ h := by cases h
  caughtUp _ h := by cases h
  catchUps _ h := by cases h
  reflected _ h := by cases h
  head := rfl
  chain := .singleton _
  sending := nil_suffix
  sent _ := rfl

/-- What every step keeps holds in every run. -/
theorem inv_of_runs (law : U.Lawful) {trace : List (Step U ι θ)} {s : System U ι θ} (h : Runs children trace s) :
    s.shared.books.Inv children := by
  have hmeets : RunsWhen children (bookkeeping children).allowed trace s :=
    h.imp fun s l s' _ hstep => ⟨hstep, by cases l <;> trivial⟩
  have hstart : ∀ s : System U ι θ, System.Initial s → (bookkeeping children).Kept s := by
    rintro s ⟨held, owned, -, rfl⟩
    have hoff : ∀ t, Off t (World.fresh held owned : World U ι θ).books := fun t => by
      simp [Off, World.books, World.fresh]
    exact ⟨Books.inv_fresh held owned, fun t => hoff t⟩
  exact (run (fun t task => sound_task law task) hstart hmeets).inv

end Contract

/-! ### Tables -/

section Statements

variable [DecidableEq ι]

/-- The tables, and what went out of them. -/
structure Follows (children : List ι) (s : World U ι θ) : Prop where
  inForce : s.past.tables.head? = some s.table
  succeeds : s.past.tables.IsChain (Table.Succeeds children)
  sending : s.rootChanges <:+ s.past.tables.dropLast.map World.snapshot
  sent : s.publisher = none → s.rootChanges = s.past.tables.dropLast.map World.snapshot
  reflected : ∀ time ∈ s.past.reflected, s.table.After children time

/-- The claims, and what they stand for. -/
structure Reserved (children : List ι) (s : World U ι θ) : Prop where
  above : s.publisher = none → ∀ claim ∈ s.claimedRoots, s.table.fanOut.generation < claim.generation
  stamped : ∀ claim ∈ s.claimedRoots, claim.generation ≤ s.nextGeneration
  covered : ∀ bound ∈ s.past.bound, ∀ node ∈ bound.addresses,
    (∃ claim ∈ s.claimedRoots, claim.node = node ∧ claim.child = bound.child) ∨ s.table.After children bound.committedAt

variable [DecidableEq θ] {children : List ι}

omit [DecidableEq θ] in
theorem tables_check (s : World U ι θ) (adding : Adding U ι) (claimable : List (CanonicalUrl U)) (last : Bool)
    (verdict : Except ErrorCode (List (CanonicalUrl U))) :
    (s.check adding claimable last verdict).past.tables = s.past.tables := by
  cases verdict <;> simp only [World.check] <;> split_ifs <;> rfl

/-- A step leaves the tables, or installs one. -/
theorem tables_of_effect {t : θ} {a : Action U ι} {r : Answer a} {s s' : World U ι θ}
    (h : Action.effect children t a r s = some s') :
    s'.past.tables = s.past.tables ∨ ∃ table, s'.past.tables = table :: s.past.tables := by
  by_cases hinstall : ∃ gathered, a = .installRoutes gathered
  · obtain ⟨gathered, rfl⟩ := hinstall
    obtain ⟨-, rfl⟩ := Option.of_guard h
    exact .inr ⟨_, rfl⟩
  · refine .inl ?_
    revert h hinstall
    fun_cases Action.effect children t a r s <;> rintro h hinstall <;>
      first
      | (obtain rfl := Option.some.inj h; rfl)
      | (cases h; done)
      | exact absurd ⟨_, rfl⟩ hinstall
      | (unfold World.publish at h; split_ifs at h; obtain rfl := Option.some.inj h; rfl)
      | (obtain rfl := Option.some.inj h; exact congrArg Books.tables (books_quarantine _ _))
      | (obtain rfl := Option.some.inj h; exact congrArg Books.tables (books_claimRoots _ _ _ _))
      | (obtain rfl := Option.some.inj h; exact tables_check _ _ _ _ _)
      | (obtain rfl := Option.some.inj h; split_ifs <;> rfl)

/-- In every run, the tables and their snapshots only come on top of each other. -/
theorem tables_follow (law : U.Lawful) {trace : List (Step U ι θ)} {s : System U ι θ} (h : Runs children trace s) :
    Follows children s.shared ∧ ∀ l s', System.step children s l = some s' →
      s'.shared.past.tables = s.shared.past.tables ∨
      ∃ table, s'.shared.past.tables = table :: s.shared.past.tables := by
  have hinv := inv_of_runs law h
  refine ⟨⟨hinv.head, hinv.chain, hinv.sending, hinv.sent,
    fun time ht => hinv.after_of_caught (hinv.reflected time ht)⟩, ?_⟩
  intro l s' hstep
  rcases Threads.shared_of_step hstep with heq | ⟨t, a, r, -, hexec⟩
  · exact .inl (by rw [heq])
  · obtain ⟨s₁, heffect, heq⟩ := Option.map_eq_some_iff.mp hexec
    have htables := tables_of_effect heffect
    rw [← heq]
    exact htables

/-- In every run, claims are above the table in force, and stand for what it does not show yet. -/
theorem claims_follow (law : U.Lawful) {trace : List (Step U ι θ)} {s : System U ι θ} (h : Runs children trace s) :
    Reserved children s.shared := by
  have hinv := inv_of_runs law h
  refine ⟨fun hp claim hclaim => hinv.generation.trans_lt (hinv.unswept hp claim hclaim), hinv.claims, ?_⟩
  intro bound hbound node hnode
  rcases (hinv.bound bound hbound).2 node hnode with ⟨claim, hmem, -, hn, hc, -⟩ | hcaught
  · exact .inl ⟨claim, hmem, hn, hc⟩
  · exact .inr (hinv.after_of_caught hcaught)

end Statements

/-! ### Two children -/

/-- `s3://b/p`, as a node. -/
def bucketNode : CanonicalUrl reference :=
  ⟨bucketPart, reference_canonical _ [utf8 "p"] (by decide +kernel) (by simp [bucketPart])⟩

/-- `file://server/share`, as a node. -/
def shareNode : CanonicalUrl reference :=
  ⟨shareRoot, reference_canonical _ [utf8 "share"] (by decide +kernel) (by simp [shareRoot])⟩

/-- A root that is attributed to a connection. -/
def rootAt (node : CanonicalUrl reference) (target : Target) (id : ConnectionId) : PublishedRoot reference :=
  ⟨⟨node.url, []⟩, node.canonical, some id, some target⟩

/-- Each of the two owns a target. -/
def twoTargets : Bool → List Target
  | false => ["a"]
  | true => ["b"]

def twoOwned : List (Bool × List Target) := [(false, ["a"]), (true, ["b"])]

/-- What a rebuild over the two has gathered, the first having answered first. -/
def twoAnswered (generation : ℕ) (quarantined : List (Quarantined reference Bool × Bool)) (time : ℕ)
    (roots : Bool → List (PublishedRoot reference)) : FanOut reference Bool :=
  ⟨generation, [⟨true, time + 1, roots true⟩, ⟨false, time, roots false⟩], [("a", false), ("b", true)], quarantined⟩

/-- A rebuild over the two, from its stamp on. -/
def watches (t : ℕ) (gathered : FanOut reference Bool) (applied : ℕ) : List (Step reference Bool ℕ) :=
  .call t .rootWatcher :: acts t (⟨.nextGeneration, gathered.generation⟩ :: rebuildSteps gathered twoOwned applied)

/-- The rebuild of the construction: nothing is published yet. -/
def construction : List (Step reference Bool ℕ) := watches 0 (twoAnswered 1 [] 1 fun _ => []) 0

/-- The second child commits an add that it cannot confirm, and its root is claimed. -/
def addsAmbiguously (generation time : ℕ) : List (Step reference Bool ℕ) :=
  .call 1 (.addConnection "b") :: acts 1
    [⟨.routeTarget "b", some true⟩, ⟨.lockGate, true⟩, ⟨.addTo true "b", .CommitAmbiguous ⟨"y", [shareNode]⟩ time⟩,
      ⟨.nextGeneration, generation⟩, ⟨.rootsOf true, .answered [rootAt shareNode "b" "y"]⟩,
      ⟨.claimBound ⟨true, [shareNode], time⟩ generation, ()⟩, ⟨.unlockGate, ()⟩]

/-- The first child commits an add. -/
def commits (connection : Connection reference) (time : ℕ) : List (Step reference Bool ℕ) :=
  .call 2 (.addConnection "a") :: acts 2
    [⟨.routeTarget "a", some false⟩, ⟨.lockGate, true⟩, ⟨.addTo false "a", .Ok connection time⟩]

/-- Its add is checked, twice with the same verdict. -/
def checks (adding : Adding reference Bool) (generation : ℕ) (claimed : List (CanonicalUrl reference × Bool))
    (verdict : Except ErrorCode (List (CanonicalUrl reference))) : List (Step reference Bool ℕ) :=
  acts 2 [⟨.liftQuarantine adding.ref, ()⟩, ⟨.nextGeneration, generation⟩,
    ⟨.claimBound (adding.bound adding.connection.currentAddresses) generation, ()⟩, ⟨.readClaims, claimed⟩,
    ⟨.crossChildConflict adding claimed adding.connection.currentAddresses false, verdict⟩, ⟨.rootsOf false, .failed⟩,
    ⟨.readClaims, claimed⟩, ⟨.crossChildConflict adding claimed adding.connection.currentAddresses true, verdict⟩]

/-- Its add is refused, and the child does not remove the connection. -/
def refuses (adding : Adding reference Bool) (generation : ℕ) : List (Step reference Bool ℕ) :=
  acts 2 [⟨.discardClaimsAt generation, ()⟩, ⟨.quarantine adding, ()⟩, ⟨.spawnRemoval generation adding.ref, ()⟩] ++
    .call 3 .rollback :: acts 3 [⟨.startRemoval, (generation, adding.ref)⟩, ⟨.removeFrom adding.ref, .failed false⟩,
      ⟨.finishRemoval generation .failed, ()⟩] ++
    acts 2 [⟨.joinRemoval generation, some .failed⟩, ⟨.answer (.refusedLeftover adding), ()⟩, ⟨.unlockGate, ()⟩]

/-- A connection at the share. -/
def shareAdding (time : ℕ) : Adding reference Bool := ⟨false, "a", ⟨"x", [shareNode]⟩, time⟩

def shareRoots : Bool → List (PublishedRoot reference)
  | false => [rootAt shareNode "a" "x"]
  | true => [rootAt shareNode "b" "y"]

/-- A rebuild that was stamped before the second child's claim publishes the root of an add of the first
that is refused for that claim. -/
def refusesIncumbent : List (Step reference Bool ℕ) :=
  construction ++ .call 0 .rootWatcher :: acts 0 [⟨.nextGeneration, 2⟩] ++ addsAmbiguously 3 14 ++
    commits (shareAdding 21).connection 21 ++ acts 0 (rebuildSteps (twoAnswered 2 [] 22 shareRoots) twoOwned 1) ++
    checks (shareAdding 21) 4 [(shareNode, true), (shareNode, false)] (.error .RouteConflict) ++
      refuses (shareAdding 21) 4

/-- The next rebuild withholds it. -/
def refusedIncumbent : List (Step reference Bool ℕ) :=
  refusesIncumbent ++ watches 0 (twoAnswered 5 [(⟨false, "a", "x", [shareNode]⟩, true)] 50 shareRoots) 2

/-- Its tables follow one another. -/
theorem tables_follow_refused : ∃ s : System reference Bool ℕ,
    Runs [false, true] refusedIncumbent s ∧ s.shared.past.tables.length = 4 ∧ Follows [false, true] s.shared := by
  obtain ⟨s, hrun, hp⟩ := exists_runs [false, true] twoTargets (refusedIncumbent)
    (p := fun s => s.shared.past.tables.length == 4) (by decide +kernel)
  exact ⟨s, hrun, by simpa using hp, (tables_follow reference_lawful hrun).1⟩

/-- The node was the first child's and is the second's, and the first child still publishes it. -/
def movesIncumbent : List (Table reference Bool) → Bool
  | newer :: older :: _ => servedBy older.routes shareNode == some false &&
    servedBy newer.routes shareNode == some true &&
    (aggregated [false, true] newer.fanOut.answers).any fun route => route.2 == false &&
      route.1.address.sameNode shareNode
  | _ => false

/-- A node moves to another child although its own still publishes it. -/
theorem incumbent_withheld :
    ∃ (trace : List (Step reference Bool ℕ)) (s : System reference Bool ℕ) (newer older : Table reference Bool)
    (tables : List (Table reference Bool)), Runs [false, true] trace s ∧
      s.shared.past.tables = newer :: older :: tables ∧
      servedBy older.routes shareNode = some false ∧ servedBy newer.routes shareNode = some true ∧
      ∃ route ∈ aggregated [false, true] newer.fanOut.answers, route.2 = false ∧
      route.1.address.sameNode shareNode = true := by
  obtain ⟨s, hrun, hp⟩ := exists_runs [false, true] twoTargets (refusedIncumbent)
    (p := fun s => movesIncumbent s.shared.past.tables) (by decide +kernel)
  unfold movesIncumbent at hp
  split at hp
  next newer older tables htables =>
    simp only [Bool.and_eq_true, beq_iff_eq, any_eq_true] at hp
    exact ⟨refusedIncumbent, s, newer, older, tables, hrun, htables, hp.1.1, hp.1.2, hp.2⟩
  next => cases hp

/-- A claim stands for the root of an ambiguous add. -/
theorem claims_follow_ambiguous : ∃ (trace : List (Step reference Bool ℕ)) (s : System reference Bool ℕ),
    Runs [false, true] trace s ∧ s.shared.claimedRoots.length = 1 ∧ Reserved [false, true] s.shared := by
  obtain ⟨s, hrun, hp⟩ := exists_runs [false, true] twoTargets (construction ++ addsAmbiguously 2 13)
    (p := fun s => s.shared.claimedRoots.length == 1) (by decide +kernel)
  exact ⟨_, s, hrun, by simpa using hp, claims_follow reference_lawful hrun⟩

/-- A connection at the share and in the bucket. -/
def bothAdding (time : ℕ) : Adding reference Bool := ⟨false, "a", ⟨"x", [shareNode, bucketNode]⟩, time⟩

/-- The share is claimed for the second child when the first one adds its connection. -/
def partlyTaken : List (Step reference Bool ℕ) :=
  construction ++ addsAmbiguously 2 13 ++ commits (bothAdding 20).connection 20 ++
    checks (bothAdding 20) 3 [(shareNode, true), (shareNode, false), (bucketNode, false)] (.ok [bucketNode]) ++
    acts 2 [⟨.nextGeneration, 4⟩, ⟨.claimRoots false [bucketNode] 4, ()⟩, ⟨.discardClaimsAt 3, ()⟩]

/-- An address that the connection lists, and that the check took from it, is neither claimed nor shown. -/
theorem partly_claimed : ∃ (trace : List (Step reference Bool ℕ)) (s : System reference Bool ℕ),
    Runs [false, true] trace s ∧ s.shared.publisher = none ∧ ∃ held ∈ s.shared.held false, held.standing = .accepted ∧
      ∃ node ∈ held.connection.currentAddresses,
        (∀ claim ∈ s.shared.claimedRoots, ¬(claim.node = node ∧ claim.child = false)) ∧
        ¬s.shared.table.After [false, true] held.committedAt := by
  obtain ⟨s, hrun, hp⟩ := exists_runs [false, true] twoTargets (partlyTaken)
    (p := fun s => s.shared.publisher == none && (s.shared.held false).any fun held => held.standing == .accepted &&
      held.connection.currentAddresses.any fun node =>
        (s.shared.claimedRoots.all fun claim => !(claim.node == node && claim.child == false)) &&
          s.shared.table.fanOut.answers.all fun answer => decide (answer.time ≤ held.committedAt)) (by decide +kernel)
  simp only [Bool.and_eq_true, beq_iff_eq, any_eq_true, all_eq_true, Bool.not_eq_true', Bool.and_eq_false_iff,
    decide_eq_true_eq] at hp
  obtain ⟨hfree, held, hmem, haccepted, node, hnode, hclaims, htimes⟩ := hp
  refine ⟨partlyTaken, s, hrun, hfree, held, hmem, haccepted, node, hnode, fun claim hclaim => ?_, fun hafter => ?_⟩
  · rintro ⟨hn, hc⟩
    rcases hclaims claim hclaim with hne | hne
    · simp [hn] at hne
    · simp [hc] at hne
  · obtain ⟨answer, hanswer, -, hlt⟩ := hafter false mem_cons_self
    exact absurd hlt (Nat.not_lt.mpr (htimes answer hanswer))

end OvStorage.Routing
