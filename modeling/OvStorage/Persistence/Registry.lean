import OvStorage.Persistence.Claims

/-!
# The claim registry

Which claims are live on a slot is a matter of the trace (`liveOn`), and so is whether another claim has
been live beside one (`Contended`). `Registered` says how the registry keeps count of both: its step lemmas
`Registered.acquire` and `Registered.drop` carry the count from step to step, and `Registered.isExclusive_iff`
reads it.

The counters saturate. What is proved is for runs in which an acquisition finds them below their maximum
(`Counts`).
-/

namespace OvStorage.Persistence

open Function List

open Address (Bytes utf8)
open Interleave

variable {ι : Type} [DecidableEq ι] (slot : ι → Slot) {base64 : Base64}

/-! ### Who is live -/

/-- What a step does to the claims that are live on a slot. -/
def noteLive (σ : Slot) (live : List ι) : Step ι → List ι
  | .act t .acquire _ => if σ = slot t then live ++ [t] else live
  | .act t .drop _ => live.erase t
  | _ => live

/-- The claims that are live on a slot, the oldest first. -/
def liveOn (σ : Slot) (trace : List (Step ι)) : List ι := trace.foldl (noteLive slot σ) []

/-- Another claim has been live on the slot at a moment at which the claim was. -/
def Contended (t : ι) (trace : List (Step ι)) : Prop :=
  ∃ pre post t', trace = pre ++ post ∧ t ∈ liveOn slot (slot t) pre ∧ t' ∈ liveOn slot (slot t) pre ∧ t' ≠ t

/-- An acquisition finds the counters of its key below their maximum. -/
def Counts (s : Process ι) : Step ι → Prop
  | .act t .acquire _ =>
    ∀ entry, s.claims (slot t).namespaced = some entry → entry.live < Word64.max ∧ entry.contentions < Word64.max
  | _ => True

/-- The runs in which the counters count. -/
abbrev CountedRuns (base64 : Base64) (secrets : Slot → String → Option Bytes) : List (Step ι) → Calls ι → Prop :=
  Run (fun s => s = .idle (.fresh secrets)) fun s l s' => s.next slot base64 l = some s' ∧ Counts slot s.shared l

/-- What the registry says of the claims that are live. -/
structure Registered (trace : List (Step ι)) (s : Process ι) : Prop where
  live_iff : ∀ σ t, t ∈ liveOn slot σ trace ↔ σ = slot t ∧ ∃ claim, s.owned t = .held claim
  nodup : ∀ σ, (liveOn slot σ trace).Nodup
  named : ∀ t claim, s.owned t = .held claim → claim.key = (slot t).key ∧ claim.namespaced = (slot t).namespaced
  /-- An entry is there for as long as a claim is, and counts them. -/
  entry : ∀ t, (s.claims (slot t).namespaced).elim 0 KeyClaims.live = (liveOn slot (slot t) trace).length
  present : ∀ name entry, s.claims name = some entry → 0 < entry.live
  atMost : ∀ t claim entry, s.owned t = .held claim → s.claims (slot t).namespaced = some entry →
    claim.contentionsAtAcquire ≤ entry.contentions
  /-- Contentions are counted for as long as one of those that took part is live. -/
  clean : ∀ t claim entry, s.owned t = .held claim → s.claims (slot t).namespaced = some entry →
    (entry.contentions = claim.contentionsAtAcquire ↔ ¬Contended slot t trace)
  unseen : ∀ t, s.owned t = .unclaimed → ¬Contended slot t trace

variable {slot} {s s' : Process ι} {trace : List (Step ι)} {t t' : ι} {σ σ' : Slot} {claim : PersistenceClaim}

omit [DecidableEq ι] in
theorem Slot.namespaced_toList (σ : Slot) : σ.namespaced.toList = σ.backendKind.toList ++ '\n' :: σ.key.toList := by
  simp [Slot.namespaced]

/-- Where kinds are without newlines, the keys of the registry are of one slot each. -/
theorem Slot.namespaced_inj (hσ : '\n' ∉ σ.backendKind.toList) (hσ' : '\n' ∉ σ'.backendKind.toList)
    (h : σ.namespaced = σ'.namespaced) : σ = σ' := by
  have hlist := congrArg String.toList h
  rw [namespaced_toList, namespaced_toList] at hlist
  have hkind : σ.backendKind.toList = σ'.backendKind.toList := by
    rcases append_eq_append_iff.mp hlist with ⟨as, hkind, hrest⟩ | ⟨as, hkind, hrest⟩
    · cases as with
      | nil => simpa using hkind.symm
      | cons c as =>
        obtain ⟨rfl, -⟩ := List.cons.inj hrest
        exact absurd (by simp [hkind]) hσ'
    · cases as with
      | nil => simpa using hkind
      | cons c as =>
        obtain ⟨rfl, -⟩ := List.cons.inj hrest
        exact absurd (by simp [hkind]) hσ
  rw [hkind] at hlist
  have hkey := append_cancel_left hlist
  cases σ
  cases σ'
  simp_all [String.toList_inj]

theorem liveOn_concat (σ : Slot) (trace : List (Step ι)) (l : Step ι) :
    liveOn slot σ (trace ++ [l]) = noteLive slot σ (liveOn slot σ trace) l := foldl_concat ..

/-! ### Contention -/

theorem Contended.mono (h : Contended slot t trace) (more : List (Step ι)) : Contended slot t (trace ++ more) := by
  obtain ⟨pre, post, t', rfl, ht, ht', hne⟩ := h
  exact ⟨pre, post ++ more, t', by simp, ht, ht', hne⟩

theorem Contended.now (t' : ι) (ht : t ∈ liveOn slot (slot t) trace) (ht' : t' ∈ liveOn slot (slot t) trace)
    (hne : t' ≠ t) :
    Contended slot t trace := ⟨trace, [], t', by simp, ht, ht', hne⟩

theorem contended_concat {l : Step ι} : Contended slot t (trace ++ [l]) ↔ Contended slot t trace ∨
    ∃ t', t ∈ liveOn slot (slot t) (trace ++ [l]) ∧ t' ∈ liveOn slot (slot t) (trace ++ [l]) ∧ t' ≠ t := by
  constructor
  · rintro ⟨pre, post, t', htrace, ht, ht', hne⟩
    rcases eq_nil_or_concat post with rfl | ⟨post', l', rfl⟩
    · rw [append_nil] at htrace
      subst htrace
      exact .inr ⟨t', ht, ht', hne⟩
    · rw [concat_eq_append, ← append_assoc] at htrace
      exact .inl ⟨pre, post', t', (append_inj' htrace rfl).1, ht, ht', hne⟩
  · rintro (h | ⟨t', ht, ht', hne⟩)
    · exact h.mono [l]
    · exact .now t' ht ht' hne

/-- A step brings contention only where it makes a claim live beside another. -/
theorem contended_of_subset {l : Step ι} (h : t ∈ liveOn slot (slot t) (trace ++ [l]) →
      liveOn slot (slot t) (trace ++ [l]) ⊆ liveOn slot (slot t) trace) :
    Contended slot t (trace ++ [l]) ↔ Contended slot t trace := by
  rw [contended_concat]
  refine ⟨?_, Or.inl⟩
  rintro (hold | ⟨t', ht, ht', hne⟩)
  · exact hold
  · exact .now t' (h ht ht) (h ht ht') hne

/-! ### The registry -/

namespace Registered

theorem start (secrets : Slot → String → Option Bytes) : Registered slot [] (Process.fresh secrets : Process ι) where
  live_iff σ t := by simp [liveOn, Process.fresh]
  nodup σ := nodup_nil
  named t claim h := nomatch h
  entry t := rfl
  present name entry h := nomatch h
  atMost t claim entry h := nomatch h
  clean t claim entry h := nomatch h
  unseen t _ := by
    rintro ⟨pre, post, t', htrace, ht, -⟩
    obtain ⟨rfl, -⟩ := append_eq_nil_iff.mp htrace.symm
    simp [liveOn] at ht

theorem live (h : Registered slot trace s) (hheld : s.owned t = .held claim) : t ∈ liveOn slot (slot t) trace :=
  (h.live_iff (slot t) t).mpr ⟨rfl, claim, hheld⟩

/-- A claim that is asked finds its entry, which counts it. -/
theorem find (h : Registered slot trace s) (hheld : s.owned t = .held claim) :
    ∃ entry, s.claims (slot t).namespaced = some entry ∧ entry.live = (liveOn slot (slot t) trace).length := by
  have hentry := h.entry t
  cases hfound : s.claims (slot t).namespaced with
  | none =>
    rw [hfound] at hentry
    exact absurd (length_eq_zero_iff.mp hentry.symm) (ne_nil_of_mem (h.live hheld))
  | some entry =>
    rw [hfound] at hentry
    exact ⟨entry, rfl, hentry⟩

/-- A claim is exclusive when no other has been live beside it. -/
theorem isExclusive_iff (h : Registered slot trace s) (hheld : s.owned t = .held claim) :
    claim.isExclusive s.claims = true ↔ ¬Contended slot t trace := by
  obtain ⟨entry, hfound, hcount⟩ := h.find hheld
  unfold PersistenceClaim.isExclusive
  rw [(h.named t claim hheld).2, hfound, decide_eq_true_iff, h.clean t claim entry hheld hfound]
  refine ⟨And.right, fun hclean => ⟨?_, hclean⟩⟩
  have hall : ∀ t' ∈ liveOn slot (slot t) trace, t' = t := by
    intro t' ht'
    by_contra hne
    exact hclean (.now t' (h.live hheld) ht' hne)
  have hsingle := eq_replicate_of_mem hall
  have hnodup := h.nodup (slot t)
  rw [hsingle, nodup_replicate] at hnodup
  omega

/-- A step that leaves the registry and who holds which claim. -/
theorem frame (h : Registered slot trace s) {l : Step ι} (hlive : ∀ σ live, noteLive slot σ live l = live)
    (hclaims : s'.claims = s.claims)
    (howned : ∀ t, s'.owned t = s.owned t ∨ ∃ claim, s.owned t = .held claim ∧
      s'.owned t = .held claim.recordAdoption) :
    Registered slot (trace ++ [l]) s' := by
  have hliveOn : ∀ σ, liveOn slot σ (trace ++ [l]) = liveOn slot σ trace := by
    intro σ
    rw [liveOn_concat, hlive]
  have hcontended : ∀ t, Contended slot t (trace ++ [l]) ↔ Contended slot t trace :=
    fun t => contended_of_subset fun _ => by rw [hliveOn]; exact List.Subset.refl _
  have hheld : ∀ t claim, s'.owned t = .held claim → ∃ before, s.owned t = .held before ∧ claim.key = before.key ∧
      claim.namespaced = before.namespaced ∧ claim.contentionsAtAcquire = before.contentionsAtAcquire := by
    intro t claim ht
    rcases howned t with hsame | ⟨before, hbefore, hafter⟩
    · exact ⟨claim, hsame ▸ ht, rfl, rfl, rfl⟩
    · rw [hafter] at ht
      cases ht
      exact ⟨before, hbefore, rfl, rfl, rfl⟩
  constructor
  · intro σ t
    rw [hliveOn, h.live_iff]
    rcases howned t with hsame | ⟨before, hbefore, hafter⟩
    · rw [hsame]
    · simp [hbefore, hafter]
  · intro σ
    rw [hliveOn]
    exact h.nodup σ
  · intro t claim ht
    obtain ⟨before, hbefore, hkey, hname, -⟩ := hheld t claim ht
    rw [hkey, hname]
    exact h.named t before hbefore
  · intro t
    rw [hclaims, hliveOn]
    exact h.entry t
  · rw [hclaims]
    exact h.present
  · intro t claim entry ht hfound
    obtain ⟨before, hbefore, -, -, hat⟩ := hheld t claim ht
    rw [hclaims] at hfound
    rw [hat]
    exact h.atMost t before entry hbefore hfound
  · intro t claim entry ht hfound
    obtain ⟨before, hbefore, -, -, hat⟩ := hheld t claim ht
    rw [hclaims] at hfound
    rw [hat, hcontended]
    exact h.clean t before entry hbefore hfound
  · intro t ht
    rw [hcontended]
    rcases howned t with hsame | ⟨before, hbefore, hafter⟩
    · exact h.unseen t (hsame ▸ ht)
    · rw [hafter] at ht
      cases ht

/-- A claim that arrives where others are live is counted as a contention, by them and by itself. -/
theorem acquire (h : Registered slot trace s) (hkind : ∀ t, '\n' ∉ (slot t).backendKind.toList)
    (hcounts : Counts slot s (.act t .acquire () : Step ι)) (hexec : Process.exec slot t .acquire () s = some s') :
    Registered slot (trace ++ [.act t .acquire ()]) s' := by
  simp only [Process.exec] at hexec
  split at hexec
  case h_2 => cases hexec
  next howned =>
  cases hexec
  have hliveOn : ∀ σ, liveOn slot σ (trace ++ [.act t .acquire ()]) =
      if σ = slot t then liveOn slot σ trace ++ [t] else liveOn slot σ trace :=
    fun σ => liveOn_concat σ trace _
  have hnot : ∀ σ, t ∉ liveOn slot σ trace := by
    intro σ hmem
    obtain ⟨-, before, hbefore⟩ := (h.live_iff σ t).mp hmem
    rw [howned] at hbefore
    cases hbefore
  -- the counters of the key, before the claim is counted and after
  obtain ⟨entry, hfound, hacquire, hfirst⟩ : ∃ entry, (s.claims (slot t).namespaced).getD ⟨0, 0⟩ = entry ∧
      entry.acquire = ⟨(liveOn slot (slot t) trace).length + 1,
        if liveOn slot (slot t) trace = [] then entry.contentions else entry.contentions + 1⟩ ∧
      ∀ before, s.claims (slot t).namespaced = some before → before = entry := by
    have hentry := h.entry t
    cases hbefore : s.claims (slot t).namespaced with
    | none =>
      rw [hbefore] at hentry
      have hnil : liveOn slot (slot t) trace = [] := length_eq_zero_iff.mp hentry.symm
      exact ⟨⟨0, 0⟩, rfl, by simp [hnil, KeyClaims.acquire, Word64.saturatingAdd, Word64.max], fun _ h => nomatch h⟩
    | some entry =>
      rw [hbefore] at hentry
      obtain ⟨hlive, hcontentions⟩ := hcounts entry hbefore
      have hpos := h.present _ entry hbefore
      have hlength : entry.live = (liveOn slot (slot t) trace).length := hentry
      have hnonempty : liveOn slot (slot t) trace ≠ [] := ne_nil_of_length_pos (hlength ▸ hpos)
      have hsize := Word64.size_eq
      refine ⟨entry, rfl, ?_, fun _ h => (Option.some.inj h).symm⟩
      rw [KeyClaims.acquire, Word64.saturatingAdd_of_lt (by omega), Word64.saturatingAdd_of_lt (by omega),
        if_neg hnonempty, if_pos (by omega), hlength]
  rw [hfound, hacquire]
  have hlive : t ∈ liveOn slot (slot t) (trace ++ [.act t .acquire ()]) := by
    rw [hliveOn, if_pos rfl]
    exact mem_append_right _ (mem_singleton_self t)
  have hsame : ∀ σ, σ ≠ slot t → liveOn slot σ (trace ++ [.act t .acquire ()]) = liveOn slot σ trace :=
    fun σ hσ => (hliveOn σ).trans (if_neg hσ)
  have hunclaimed : ¬Contended slot t trace := h.unseen t howned
  have hname : ∀ {t'}, (slot t').namespaced = (slot t).namespaced → slot t' = slot t :=
    fun {t'} heq => Slot.namespaced_inj (hkind t') (hkind t) heq
  have hapart : ∀ t', t' ≠ t → t' ∉ liveOn slot (slot t) trace →
      (Contended slot t' (trace ++ [.act t .acquire ()]) ↔ Contended slot t' trace) := by
    intro t' hne hnotin
    refine contended_of_subset fun hmem => ?_
    have hσ : slot t' ≠ slot t := by
      intro heq
      rw [heq, hliveOn, if_pos rfl, mem_append, mem_singleton] at hmem
      exact hmem.elim hnotin hne
    rw [hsame _ hσ]
    exact List.Subset.refl _
  -- those that are live on the key have a contention counted that they had not seen
  have hcontends : ∀ {t' before}, t' ≠ t → s.owned t' = .held before → slot t' = slot t →
      Contended slot t' (trace ++ [.act t .acquire ()]) ∧ liveOn slot (slot t) trace ≠ [] := by
    intro t' before hne hheld hσ
    have hmem : t' ∈ liveOn slot (slot t) trace := hσ ▸ h.live hheld
    refine ⟨.now t ?_ (hσ ▸ hlive) (Ne.symm hne), ne_nil_of_mem hmem⟩
    rw [hσ, hliveOn, if_pos rfl]
    exact mem_append_left _ hmem
  constructor
  · intro σ t'
    rw [hliveOn]
    by_cases hσ : σ = slot t
    · rw [if_pos hσ, mem_append, h.live_iff]
      by_cases heq : t' = t
      · simp [heq, hσ]
      · simp [heq]
    · rw [if_neg hσ, h.live_iff]
      by_cases heq : t' = t
      · simp [heq, hσ]
      · simp [heq]
  · intro σ
    rw [hliveOn]
    by_cases hσ : σ = slot t
    · rw [if_pos hσ, ← concat_eq_append]
      exact (h.nodup σ).concat (hnot σ)
    · rw [if_neg hσ]
      exact h.nodup σ
  · intro t' before ht'
    dsimp only at ht'
    by_cases heq : t' = t
    · rw [heq, update_self] at ht'
      cases ht'
      rw [heq]
      exact ⟨rfl, rfl⟩
    · rw [update_of_ne heq] at ht'
      exact h.named t' before ht'
  · intro t'
    dsimp only
    by_cases hσ : slot t' = slot t
    · rw [hσ, update_self, hliveOn, if_pos rfl, length_append]
      rfl
    · rw [update_of_ne fun heq => hσ (hname heq), hsame _ hσ]
      exact h.entry t'
  · intro name entry' hfound'
    dsimp only at hfound'
    by_cases heq : name = (slot t).namespaced
    · rw [heq, update_self] at hfound'
      cases hfound'
      exact Nat.succ_pos _
    · rw [update_of_ne heq] at hfound'
      exact h.present name entry' hfound'
  · intro t' before entry' ht' hfound'
    dsimp only at ht' hfound'
    by_cases heq : t' = t
    · rw [heq, update_self] at ht' hfound'
      cases ht'
      cases hfound'
      dsimp only
      split_ifs
      · exact Nat.le_refl _
      · exact Nat.le_succ _
    · rw [update_of_ne heq] at ht'
      by_cases hσ : slot t' = slot t
      · obtain ⟨entry₀, hfound₀, -⟩ := h.find ht'
        obtain rfl := hfirst entry₀ (hσ ▸ hfound₀)
        rw [hσ, update_self, if_neg (hcontends heq ht' hσ).2] at hfound'
        cases hfound'
        exact Nat.le_succ_of_le (h.atMost t' before entry₀ ht' hfound₀)
      · rw [update_of_ne fun heq => hσ (hname heq)] at hfound'
        exact h.atMost t' before entry' ht' hfound'
  · intro t' before entry' ht' hfound'
    dsimp only at ht' hfound'
    by_cases heq : t' = t
    · rw [heq, update_self] at ht' hfound'
      cases ht'
      cases hfound'
      rw [heq]
      by_cases hnil : liveOn slot (slot t) trace = []
      · have hclean : ¬Contended slot t (trace ++ [.act t .acquire ()]) := by
          rw [contended_concat]
          rintro (hold | ⟨t₀, -, ht₀, hne⟩)
          · exact hunclaimed hold
          · rw [hliveOn, if_pos rfl, hnil, nil_append, mem_singleton] at ht₀
            exact hne ht₀
        simp [hnil, hclean]
      · obtain ⟨t₀, ht₀⟩ := exists_mem_of_ne_nil _ hnil
        have hcontended : Contended slot t (trace ++ [.act t .acquire ()]) := by
          refine .now t₀ hlive ?_ ?_
          · rw [hliveOn, if_pos rfl]
            exact mem_append_left _ ht₀
          · rintro rfl
            exact hnot _ ht₀
        simp [hnil, hcontended]
    · rw [update_of_ne heq] at ht'
      by_cases hσ : slot t' = slot t
      · obtain ⟨entry₀, hfound₀, -⟩ := h.find ht'
        obtain rfl := hfirst entry₀ (hσ ▸ hfound₀)
        obtain ⟨hcontended, hnonempty⟩ := hcontends heq ht' hσ
        rw [hσ, update_self, if_neg hnonempty] at hfound'
        cases hfound'
        have hatMost := h.atMost t' before entry₀ ht' hfound₀
        simp only [hcontended, not_true_eq_false, iff_false]
        omega
      · rw [update_of_ne fun heq => hσ (hname heq)] at hfound'
        rw [hapart t' heq fun hmem => hσ ((h.live_iff _ t').mp hmem).1.symm]
        exact h.clean t' before entry' ht' hfound'
  · intro t' ht'
    dsimp only at ht'
    by_cases heq : t' = t
    · rw [heq, update_self] at ht'
      cases ht'
    · rw [update_of_ne heq] at ht'
      rw [hapart t' heq fun hmem => ?_]
      · exact h.unseen t' ht'
      · obtain ⟨-, claim, hclaim⟩ := (h.live_iff _ t').mp hmem
        rw [ht'] at hclaim
        cases hclaim

/-- A claim that leaves others behind leaves them its contentions. -/
theorem drop (h : Registered slot trace s) (hkind : ∀ t, '\n' ∉ (slot t).backendKind.toList)
    (hexec : Process.exec slot t .drop () s = some s') : Registered slot (trace ++ [.act t .drop ()]) s' := by
  simp only [Process.exec] at hexec
  split at hexec
  case h_2 => cases hexec
  next claim howned =>
  cases hexec
  obtain ⟨entry, hfound, hcount⟩ := h.find howned
  have hlive := h.live howned
  have hliveOn : ∀ σ, liveOn slot σ (trace ++ [.act t .drop ()]) = (liveOn slot σ trace).erase t :=
    fun σ => liveOn_concat σ trace _
  have hcontended : ∀ t', Contended slot t' (trace ++ [.act t .drop ()]) ↔ Contended slot t' trace :=
    fun t' => contended_of_subset fun _ => by rw [hliveOn]; exact erase_subset
  have hname : ∀ {t'}, (slot t').namespaced = (slot t).namespaced → slot t' = slot t :=
    fun {t'} heq => Slot.namespaced_inj (hkind t') (hkind t) heq
  rw [(h.named t claim howned).2, hfound, Option.bind_some]
  have hother : ∀ {t' before}, update s.owned t .dropped t' = .held before → t' ≠ t ∧ s.owned t' = .held before := by
    intro t' before ht'
    by_cases heq : t' = t
    · rw [heq, update_self] at ht'
      cases ht'
    · rw [update_of_ne heq] at ht'
      exact ⟨heq, ht'⟩
  -- the entry stays where another claim on the key is live, with its contentions
  have hstays : ∀ {t' before}, t' ≠ t → s.owned t' = .held before → slot t' = slot t →
      entry.drop = some { entry with live := entry.live - 1 } := by
    intro t' before hne hheld hσ
    have hlive' : t' ∈ liveOn slot (slot t) trace := hσ ▸ h.live hheld
    refine if_neg ?_
    have htwo : [t, t'].length ≤ (liveOn slot (slot t) trace).length := by
      refine (subperm_of_subset ?_ ?_).length_le
      · simpa using Ne.symm hne
      · simp [hlive, hlive']
    rw [hcount]
    simp only [length_cons, length_nil] at htwo
    omega
  constructor
  · intro σ t'
    rw [hliveOn, (h.nodup σ).mem_erase_iff, h.live_iff]
    by_cases heq : t' = t
    · simp [heq]
    · simp [heq]
  · intro σ
    rw [hliveOn]
    exact (h.nodup σ).erase t
  · intro t' before ht'
    exact h.named t' before (hother ht').2
  · intro t'
    rw [hliveOn]
    dsimp only
    by_cases hσ : slot t' = slot t
    · rw [hσ, update_self, length_erase_of_mem hlive, ← hcount, KeyClaims.drop]
      split_ifs with hzero
      · exact hzero.symm
      · rfl
    · have hnot : t ∉ liveOn slot (slot t') trace := fun hmem => hσ ((h.live_iff _ t).mp hmem).1
      rw [update_of_ne fun heq => hσ (hname heq), erase_of_not_mem hnot]
      exact h.entry t'
  · intro name entry' hfound'
    dsimp only at hfound'
    by_cases heq : name = (slot t).namespaced
    · rw [heq, update_self, KeyClaims.drop] at hfound'
      split_ifs at hfound' with hzero
      cases hfound'
      exact Nat.pos_of_ne_zero hzero
    · rw [update_of_ne heq] at hfound'
      exact h.present name entry' hfound'
  · intro t' before entry' ht' hfound'
    obtain ⟨hne, ht'⟩ := hother ht'
    dsimp only at hfound'
    by_cases hσ : slot t' = slot t
    · rw [hσ, update_self, hstays hne ht' hσ] at hfound'
      cases hfound'
      exact h.atMost t' before entry ht' (hσ ▸ hfound)
    · rw [update_of_ne fun heq => hσ (hname heq)] at hfound'
      exact h.atMost t' before entry' ht' hfound'
  · intro t' before entry' ht' hfound'
    obtain ⟨hne, ht'⟩ := hother ht'
    dsimp only at hfound'
    rw [hcontended]
    by_cases hσ : slot t' = slot t
    · rw [hσ, update_self, hstays hne ht' hσ] at hfound'
      cases hfound'
      exact h.clean t' before entry ht' (hσ ▸ hfound)
    · rw [update_of_ne fun heq => hσ (hname heq)] at hfound'
      exact h.clean t' before entry' ht' hfound'
  · intro t' ht'
    rw [hcontended]
    dsimp only at ht'
    by_cases heq : t' = t
    · rw [heq, update_self] at ht'
      cases ht'
    · rw [update_of_ne heq] at ht'
      exact h.unseen t' ht'

/-- One step of a call keeps what the registry says. -/
theorem step (h : Registered slot trace s) (hkind : ∀ t, '\n' ∉ (slot t).backendKind.toList) {a : Act} {r : a.Answer}
    (hcounts : Counts slot s (.act t a r : Step ι)) (hexec : Process.exec slot t a r s = some s') :
    Registered slot (trace ++ [.act t a r]) s' := by
  cases a with
  | acquire => exact h.acquire hkind hcounts hexec
  | drop => exact h.drop hkind hexec
  | recordAdoption =>
    simp only [Process.exec] at hexec
    split at hexec
    next claim howned =>
      cases hexec
      refine h.frame (fun _ _ => rfl) rfl fun t' => ?_
      by_cases heq : t' = t
      · subst heq
        exact .inr ⟨claim, howned, update_self _ _ _⟩
      · exact .inl (update_of_ne heq _ _)
    next => cases hexec
  | isExclusive =>
    simp only [Process.exec] at hexec
    split at hexec
    next claim howned =>
      split_ifs at hexec
      cases hexec
      exact h.frame (fun _ _ => rfl) rfl fun _ => .inl rfl
    next => cases hexec
  | _ =>
    have hsame : s'.claims = s.claims ∧ s'.owned = s.owned := by
      unfold Process.exec Process.store at hexec
      grind
    exact h.frame (fun _ _ => rfl) hsame.1 fun t' => .inl (congrFun hsame.2 t')

end Registered

/-- In a run in which the counters count, the registry says which claims are live. -/
theorem registered_of_run (hkind : ∀ t, '\n' ∉ (slot t).backendKind.toList) {secrets : Slot → String → Option Bytes}
    {s : Calls ι} (h : CountedRuns slot base64 secrets trace s) : Registered slot trace s.shared := by
  refine h.invariant (I := fun trace s => Registered slot trace s.shared) ?_ ?_
  · rintro s rfl
    exact .start secrets
  · intro trace s l s' _ hreg hstep
    cases l with
    | act t a r => exact hreg.step hkind hstep.2 (Threads.exec_of_step hstep.1)
    | _ =>
      rw [Threads.shared_of_silent (by trivial) hstep.1]
      exact hreg.frame (fun _ _ => rfl) rfl fun _ => .inl rfl

end OvStorage.Persistence
