import Mathlib.Data.Finset.Card
import OvStorage.ByteCache.Tee

/-!
# The generations of the tees in flight

The map of generations holds the addresses at which a tee is registered, each with as many references as there are
such tees (`Tracks`). While a tee is registered its address's entry stays, so that its generation counts the bumps
since (`generation_counts`).
-/

namespace OvStorage.ByteCache

open Function

variable {ι ε : Type*} [DecidableEq ι] {map : GenerationMap} {a b : String} {t : ι}

/-! ### The map -/

namespace GenerationMap

/-- The entries of the map count the holders of the addresses. -/
def Tracks (map : GenerationMap) (registration : ι → Option (String × ℕ)) : Prop :=
  ∀ a, ∃ holders : Finset ι, (∀ t, t ∈ holders ↔ ∃ start, registration t = some (a, start)) ∧
    (map a).map GenerationEntry.refcount = if holders.card = 0 then none else some holders.card

variable {registration : ι → Option (String × ℕ)} {start : ℕ}

theorem current_register : (map.register a).1.current b = map.current b := by
  by_cases hb : b = a
  · subst hb
    cases h : map b <;> simp [register, current, h]
  · simp [register, current, hb]

theorem register_start : (map.register a).2 = map.current a := by
  cases h : map a <;> simp [register, current, h]

theorem current_bumpKey (h : (map b).isSome) : (map.bumpKey a).current b = map.current b + if a = b then 1 else 0 := by
  obtain ⟨entry, hentry⟩ := Option.isSome_iff_exists.mp h
  by_cases hb : a = b
  · subst hb
    simp [bumpKey, current, hentry, GenerationEntry.bump]
  · simp [bumpKey, current, hb, Ne.symm hb]

theorem current_bumpUnderPrefix {dir : String} (h : (map b).isSome) :
    (map.bumpUnderPrefix dir).current b = map.current b + if dir.toList <+: b.toList then 1 else 0 := by
  obtain ⟨entry, hentry⟩ := Option.isSome_iff_exists.mp h
  by_cases hb : dir.toList <+: b.toList
  · simp [bumpUnderPrefix, current, hentry, hb, GenerationEntry.bump]
  · simp [bumpUnderPrefix, current, hb]

omit [DecidableEq ι] in
theorem Tracks.isSome_iff (h : map.Tracks registration) :
    (map a).isSome ↔ ∃ t start, registration t = some (a, start) := by
  obtain ⟨holders, hmem, hcount⟩ := h a
  constructor
  · intro hsome
    have hne : holders.card ≠ 0 := by
      intro hzero
      rw [if_pos hzero, Option.map_eq_none_iff] at hcount
      simp [hcount] at hsome
    obtain ⟨t, ht⟩ := Finset.card_ne_zero.mp hne
    exact ⟨t, (hmem t).mp ht⟩
  · rintro ⟨t, start, ht⟩
    have hne : holders.card ≠ 0 := Finset.card_ne_zero_of_mem ((hmem t).mpr ⟨start, ht⟩)
    rw [if_neg hne] at hcount
    obtain ⟨entry, hentry, -⟩ := Option.map_eq_some_iff.mp hcount
    rw [hentry, Option.isSome_some]

omit [DecidableEq ι] in
/-- A change that leaves the references. -/
theorem Tracks.of_refcount {map' : GenerationMap} (h : map.Tracks registration)
    (hsame : ∀ a, (map' a).map GenerationEntry.refcount = (map a).map GenerationEntry.refcount) :
    map'.Tracks registration := by
  intro a
  obtain ⟨holders, hmem, hcount⟩ := h a
  exact ⟨holders, hmem, (hsame a).trans hcount⟩

theorem refcount_bumpKey : ((map.bumpKey a) b).map GenerationEntry.refcount = (map b).map GenerationEntry.refcount := by
  by_cases hb : b = a
  · subst hb
    simp [bumpKey, comp_def, GenerationEntry.bump]
  · simp [bumpKey, hb]

theorem refcount_bumpUnderPrefix {dir : String} :
    ((map.bumpUnderPrefix dir) b).map GenerationEntry.refcount = (map b).map GenerationEntry.refcount := by
  unfold bumpUnderPrefix
  split
  · simp [comp_def, GenerationEntry.bump]
  · rfl

/-- The holders of an address after a change of the registration of one tee. -/
private theorem mem_update {holders : Finset ι} (hmem : ∀ u, u ∈ holders ↔ ∃ start, registration u = some (b, start))
    {new : Option (String × ℕ)} (hold : t ∈ holders ↔ ∃ start, new = some (b, start)) (u : ι) :
    u ∈ holders ↔ ∃ start, update registration t new u = some (b, start) := by
  by_cases hu : u = t
  · subst hu
    rw [update_self]
    exact hold
  · rw [update_of_ne hu]
    exact hmem u

theorem Tracks.register (h : map.Tracks registration) (hfree : registration t = none) :
    (map.register a).1.Tracks (update registration t (some (a, start))) := by
  intro b
  obtain ⟨holders, hmem, hcount⟩ := h b
  have hnot : t ∉ holders := by
    rw [hmem t, hfree]
    simp
  by_cases hb : b = a
  · subst hb
    refine ⟨insert t holders, fun u => ?_, ?_⟩
    · by_cases hu : u = t
      · simp [hu]
      · simp [hu, hmem u]
    · have hcard : ((map b).getD ⟨0, 0⟩).refcount = holders.card := by
        split_ifs at hcount with hzero
        · rw [Option.map_eq_none_iff.mp hcount, hzero]
          rfl
        · obtain ⟨entry, hentry, hrefs⟩ := Option.map_eq_some_iff.mp hcount
          rw [hentry]
          exact hrefs
      rw [Finset.card_insert_of_notMem hnot, if_neg holders.card.succ_ne_zero]
      simp [GenerationMap.register, hcard]
  · refine ⟨holders, mem_update hmem ?_, ?_⟩
    · simp [hnot, Ne.symm hb]
    · simpa [GenerationMap.register, hb] using hcount

omit [DecidableEq ι] in
theorem Tracks.release_eq (h : map.Tracks registration) (hheld : registration t = some (a, start)) :
    ∃ entry, map a = some entry ∧ map.release a = update map a
      (if entry.refcount - 1 = 0 then none else some { entry with refcount := entry.refcount - 1 }) := by
  obtain ⟨entry, hentry⟩ := Option.isSome_iff_exists.mp (h.isSome_iff.mpr ⟨t, start, hheld⟩)
  exact ⟨entry, hentry, by simp [GenerationMap.release, hentry]⟩

theorem Tracks.release (h : map.Tracks registration) (hheld : registration t = some (a, start)) :
    (map.release a).Tracks (update registration t none) := by
  obtain ⟨entry, hentry, hrelease⟩ := h.release_eq hheld
  intro b
  obtain ⟨holders, hmem, hcount⟩ := h b
  by_cases hb : b = a
  · subst hb
    have ht : t ∈ holders := (hmem t).mpr ⟨start, hheld⟩
    have hrefs : entry.refcount = holders.card := by
      rw [if_neg (Finset.card_ne_zero_of_mem ht), hentry] at hcount
      simpa using hcount
    refine ⟨holders.erase t, fun u => ?_, ?_⟩
    · by_cases hu : u = t
      · simp [hu]
      · simp [hu, hmem u]
    · rw [hrelease, update_self, hrefs, ← Finset.card_erase_of_mem ht]
      split_ifs
      · rfl
      · rfl
  · refine ⟨holders, mem_update hmem ?_, ?_⟩
    · rw [hmem t, hheld]
      simp [Ne.symm hb]
    · rw [hrelease, update_of_ne hb]
      exact hcount

/-- A release leaves the generation at an address that another tee holds. -/
theorem Tracks.current_release (h : map.Tracks registration) (hheld : registration t = some (a, start)) {u : ι}
    {start' : ℕ} (hother : update registration t none u = some (b, start')) :
    (map.release a).current b = map.current b := by
  have hsome := (h.release hheld).isSome_iff.mpr ⟨u, start', hother⟩
  obtain ⟨entry, hentry, hrelease⟩ := h.release_eq hheld
  rw [hrelease] at hsome ⊢
  by_cases hb : b = a
  · subst hb
    rw [update_self] at hsome
    split_ifs at hsome with hlast
    · cases hsome
    · simp [current, hentry, hlast]
  · simp [current, hb]

end GenerationMap

/-! ### The tees -/

/-- The registration of a tee, for as long as it lives. -/
def TeeStage.registration : TeeStage → Option (String × ℕ)
  | .teeing tee => some (tee.address, tee.startGeneration)
  | .committing tee => some (tee.address, tee.startGeneration)
  | .recording tee => some (tee.address, tee.startGeneration)
  | .writing address startGeneration => some (address, startGeneration)
  | _ => none

/-- The step registers the tee at the address. -/
def TeeStep.Registers (t : ι) (address : String) : TeeStep ι ε → Prop
  | .tee t' request => t' = t ∧ request.address = address
  | .write t' address' => t' = t ∧ address' = address
  | _ => False

/-- The step bumps the generation of the address. -/
def TeeStep.Bumps (address : String) : TeeStep ι ε → Prop
  | .bumpKey address' => address' = address
  | .bumpUnderPrefix dir => dir.toList <+: address.toList
  | _ => False

instance (address : String) : DecidablePred (TeeStep.Bumps (ι := ι) (ε := ε) address) := fun l => by
  cases l <;> unfold TeeStep.Bumps <;> infer_instance

namespace Tees

open GenerationMap TeeStep

variable {w w' : Tees ι ε} {l : TeeStep ι ε} {trace : List (TeeStep ι ε)}

def registration (w : Tees ι ε) (t : ι) : Option (String × ℕ) := (w.stage t).registration

/-- What a step does to the registrations and the generations. -/
inductive Registry (w w' : Tees ι ε) (l : TeeStep ι ε) : Prop
  | registers (t : ι) (address : String) (step : l.Registers t address) (absent : w.stage t = .absent)
      (generations : w'.generations = (w.generations.register address).1)
      (registration : w'.registration = update w.registration t (some (address, w.generations.current address)))
  | releases (t : ι) (address : String) (start : ℕ) (held : w.registration t = some (address, start))
      (generations : w'.generations = w.generations.release address)
      (registration : w'.registration = update w.registration t none)
      (others : ∀ t address, ¬l.Registers t address) (quiet : ∀ address, ¬l.Bumps address)
  | counts (refcounts : ∀ a, (w'.generations a).map GenerationEntry.refcount =
    (w.generations a).map GenerationEntry.refcount)
      (current : ∀ a, (w.generations a).isSome →
        w'.generations.current a = w.generations.current a + if l.Bumps a then 1 else 0)
      (registration : w'.registration = w.registration) (others : ∀ t address, ¬l.Registers t address)

omit [DecidableEq ι] in
theorem registration_eq {stage : TeeStage} (h : w.stage t = stage) : w.registration t = stage.registration := by
  rw [registration, h]

theorem registration_setStage (stage : TeeStage) :
    (w.setStage t stage).registration = update w.registration t stage.registration := by
  funext u
  by_cases hu : u = t
  · subst hu
    simp [registration, setStage]
  · simp [registration, setStage, hu]

theorem registration_keep {stage stage' : TeeStage} (h : w.stage t = stage)
    (hsame : stage.registration = stage'.registration) :
    (w.setStage t stage').registration = w.registration := by
  rw [registration_setStage, ← hsame, ← registration_eq h, update_eq_self]

/-- A step that leaves the registrations and the generations. -/
theorem Registry.keeps (hgen : w'.generations = w.generations) (hreg : w'.registration = w.registration)
    (hreg' : ∀ t address, ¬l.Registers t address) (hquiet : ∀ address, ¬l.Bumps address) : Registry w w' l := by
  refine .counts (fun a => by rw [hgen]) (fun a _ => ?_) hreg hreg'
  rw [hgen, if_neg (hquiet a)]
  rfl

theorem registry_step (h : w.step l = some w') : Registry w w' l := by
  cases takes_step h with
  | tee stage =>
    refine .registers _ _ ⟨rfl, rfl⟩ stage rfl ?_
    rw [start, registration_setStage, ← register_start]
    rfl
  | write stage =>
    refine .registers _ _ ⟨rfl, rfl⟩ stage rfl ?_
    rw [registration_setStage, ← register_start]
    rfl
  | stage stage _ => exact .keeps rfl (registration_keep stage rfl) (fun _ _ => id) fun _ => id
  | accept stage _ _ => exact .keeps rfl (registration_keep stage rfl) (fun _ _ => id) fun _ => id
  | forward stage => exact .keeps rfl (registration_keep stage rfl) (fun _ _ => id) fun _ => id
  | forwardEnd stage => exact .keeps rfl (registration_keep stage rfl) (fun _ _ => id) fun _ => id
  | finish stage => exact .keeps rfl (registration_keep stage rfl) (fun _ _ => id) fun _ => id
  | @commit t tee stage =>
    exact .keeps rfl (registration_keep (w := w.publish tee.put) stage rfl) (fun _ _ => id) fun _ => id
  | @commitAlone t put committed stage =>
    cases committed with
    | true => exact .keeps rfl (registration_keep (w := w.publish put) stage rfl) (fun _ _ => id) fun _ => id
    | false => exact .keeps rfl (registration_keep stage rfl) (fun _ _ => id) fun _ => id
  | dropIdle stage =>
    rcases stage with stage | stage
    · exact .keeps rfl (registration_keep stage rfl) (fun _ _ => id) fun _ => id
    · exact .keeps rfl (registration_keep stage rfl) (fun _ _ => id) fun _ => id
  | abandon stage _ | fail stage | discard stage _ | commitFails stage | record stage 
  | dropTeeing stage | dropCommitting stage
  | dropRecording stage | written stage =>
    exact .releases _ _ _ (registration_eq stage) rfl (registration_setStage _) (fun _ _ => id) fun _ => id
  | bumpKey => exact .counts (fun a => refcount_bumpKey) (fun a ha => current_bumpKey ha) rfl fun _ _ => id
  | bumpUnderPrefix =>
    exact .counts (fun a => refcount_bumpUnderPrefix) (fun a ha => current_bumpUnderPrefix ha) rfl fun _ _ => id

theorem tracks (run : Runs trace w) : w.generations.Tracks w.registration := by
  refine run.stateInvariant (I := fun w => w.generations.Tracks w.registration) ?_ fun w l w' ih h => ?_
  · rintro w rfl a
    exact ⟨∅, fun t => by simp [registration, init, TeeStage.registration], rfl⟩
  · cases registry_step h with
    | registers t address hl habsent hgen hreg =>
      rw [hgen, hreg]
      exact ih.register (registration_eq habsent)
    | releases t address start hheld hgen hreg =>
      rw [hgen, hreg]
      exact ih.release hheld
    | counts hrefs hcurrent hreg =>
      rw [hreg]
      exact ih.of_refcount hrefs

omit [DecidableEq ι] in
theorem Registers.unique {u : ι} (ht : l.Registers t a) (hu : l.Registers u b) : t = u ∧ a = b := by
  cases l <;> simp_all [Registers]

omit [DecidableEq ι] in
theorem Registers.who (h : l.Registers t a) : l.who = some t := by
  cases l <;> simp_all [Registers, TeeStep.who]

/-- A tee that has registered is there. -/
theorem present (run : Runs trace w) : ∀ l ∈ trace, l.who = some t → w.stage t ≠ .absent := by
  refine run.invariant (I := fun trace w => ∀ l ∈ trace, l.who = some t → w.stage t ≠ .absent) ?_
    fun trace w l w' hrun ih h => ?_
  · rintro w - l ⟨⟩
  intro l' hl' hwho
  rcases moves_step h with ⟨u, hu, hmoves⟩ | ⟨hnone, hframe⟩
  · by_cases htu : t = u
    · subst htu
      exact hmoves.present
    · rw [(hmoves.others t htu).1]
      rcases List.mem_append.mp hl' with hmem | hmem
      · exact ih l' hmem hwho
      · obtain rfl := List.mem_singleton.mp hmem
        exact absurd (Option.some.inj (hwho.symm.trans hu)) htu
  · rw [(hframe t).1]
    rcases List.mem_append.mp hl' with hmem | hmem
    · exact ih l' hmem hwho
    · obtain rfl := List.mem_singleton.mp hmem
      cases hwho.symm.trans hnone

/-- The tee is registered at the address, whose generation has gone from its start with each of the bumps. -/
def Counted (w : Tees ι ε) (t : ι) (a : String) (bumps : ℕ) : Prop :=
  ∀ b start, w.registration t = some (b, start) → b = a ∧ w.generations.current a = start + bumps

/-- The generation at the address of a tee that is registered is its start, with a count of the bumps since. -/
theorem counted (run : Runs trace w) : ∀ before l during t a, trace = before ++ l :: during → l.Registers t a →
    w.Counted t a (during.countP (Bumps a ·)) := by
  refine run.invariant (I := fun trace w => ∀ before l during t a, trace = before ++ l :: during → l.Registers t a →
    w.Counted t a (during.countP (Bumps a ·))) ?_ fun trace w l w' hrun ih h => ?_
  · intro w _ before l during t a htrace
    simp at htrace
  intro before l' during t a htrace hl b start hheld
  rcases List.eq_nil_or_concat during with rfl | ⟨during, l'', rfl⟩
  · obtain ⟨-, hlast⟩ := List.append_inj' htrace rfl
    obtain rfl : l = l' := by simpa using hlast
    cases registry_step h with
    | registers u address hu habsent hgen hreg =>
      obtain ⟨rfl, rfl⟩ := Registers.unique hl hu
      rw [hreg, update_self] at hheld
      cases hheld
      refine ⟨rfl, ?_⟩
      rw [hgen, current_register]
      rfl
    | releases u address start' _ _ _ hno => exact absurd hl (hno t a)
    | counts _ _ _ hno => exact absurd hl (hno t a)
  · have hsplit : trace ++ [l] = (before ++ l' :: during) ++ [l''] := by simpa using htrace
    obtain ⟨rfl, hlast⟩ := List.append_inj' hsplit rfl
    obtain rfl : l = l'' := by simpa using hlast
    have hih := ih before l' during t a rfl hl
    have hpresent : w.stage t ≠ .absent := present hrun l' (by simp) (Registers.who hl)
    rw [List.concat_eq_append, List.countP_append, List.countP_singleton]
    cases registry_step h with
    | registers u address hu habsent hgen hreg =>
      have htu : t ≠ u := fun htu => hpresent (htu ▸ habsent)
      rw [hreg, update_of_ne htu] at hheld
      obtain ⟨rfl, hcurrent⟩ := hih b start hheld
      have hquiet : ¬l.Bumps b := by cases l <;> simp_all [Registers, Bumps]
      refine ⟨rfl, ?_⟩
      rw [hgen, current_register, hcurrent]
      simp [hquiet]
    | releases u address start' hu hgen hreg _ hquiet =>
      rw [hreg] at hheld
      have hne : t ≠ u := by
        rintro rfl
        rw [update_self] at hheld
        cases hheld
      obtain ⟨rfl, hcurrent⟩ := hih b start (by rwa [update_of_ne hne] at hheld)
      refine ⟨rfl, ?_⟩
      rw [hgen, (tracks hrun).current_release hu hheld, hcurrent]
      simp [hquiet b]
    | counts hrefs hcurrent hreg =>
      rw [hreg] at hheld
      obtain ⟨rfl, hcurrent'⟩ := hih b start hheld
      refine ⟨rfl, ?_⟩
      rw [hcurrent b ((tracks hrun).isSome_iff.mpr ⟨t, start, hheld⟩), hcurrent', Nat.add_assoc]
      simp

end Tees

end OvStorage.ByteCache
