import OvStorage.Authz.Gate
import OvStorage.Broker.RouteBindings

/-!
# The address of a credential slot

The two slots that establish credentials carry their address in the extensions. `BuiltinAuthLayer`
and `UpstreamCredentialWrapper` (`ovstorage-broker/src/upstream_credential.rs`) beneath it decode it
one after the other, and only the first canonicalizes what it has decoded.

## The model

`slotAction` is what the two slots of the wrapper begin with, a cancellation apart: the address they
act on, the principal, and the provider that is bound to the address. The registry of providers is a
function of the name.
-/

namespace OvStorage.Authz

open Address Broker Interleave

/-! ### The code -/

/-- `ProviderResolutionError`. -/
inductive ProviderResolutionError
  | Unbound
  | UnknownProvider (name : String)
deriving DecidableEq

/-- `UpstreamCredentialWrapper`, without the layer beneath it. -/
structure UpstreamCredentialWrapper (π : Type) where
  providers : String → Option π
  bindings : BrokerOAuthRouteBindings

/-- What a credential slot sets out to do: it leaves the request to the layer beneath, or it acts on an
address. -/
inductive SlotAction (π : Type)
  | inner
  | acts (address : Url) (principal : Bytes) (provider : Except ProviderResolutionError π)
deriving DecidableEq

namespace UpstreamCredentialWrapper

variable {π : Type} (W : UpstreamCredentialWrapper π)

/-- `resolve_provider`. -/
def resolveProvider (address : Url) : Except ProviderResolutionError π :=
  match W.bindings.providerFor address with
  | none => .error .Unbound
  | some name =>
    match W.providers name with
    | some provider => .ok provider
    | none => .error (.UnknownProvider name)

/-- `principal`; what the layer above stamps is valid UTF-8. -/
def principal (extensions : Extensions) : Bytes := (extensions.get ext.PRINCIPAL_ID).getD (utf8 "anonymous")

/-- How `authenticate_connection` and `update_connection_credentials` begin. -/
def slotAction (U : UrlCrate) (extensions : Extensions) : Except Error (SlotAction π) :=
  match ext.upstreamAuthAddress U extensions with
  | .error error => .error error
  | .ok none => .ok .inner
  | .ok (some address) => .ok (.acts address (principal extensions) (W.resolveProvider address))

end UpstreamCredentialWrapper

/-! ### What each of them decodes -/

section

variable {δ : Type}

/-- The slots that establish credentials. -/
def Call.establishes : Call δ → Bool
  | .updateConnectionCredentials _ | .authenticateConnection _ => true
  | _ => false

theorem get_stamp_upstream (cx : Extensions) (principal : ResolvedPrincipal) :
    (BuiltinAuthLayer.stamp cx principal).get ext.UPSTREAM_AUTH_ADDRESS = cx.get ext.UPSTREAM_AUTH_ADDRESS := by
  unfold BuiltinAuthLayer.stamp
  cases principal.displayName with
  | none => rw [Table.get_insert_of_ne _ _ (by decide), Table.get_erase_of_ne _ (by decide)]
  | some name =>
    rw [Table.get_insert_of_ne _ _ (by decide), Table.get_insert_of_ne _ _ (by decide),
      Table.get_erase_of_ne _ (by decide)]

/-- The extensions keep the address as it came. -/
theorem upstreamAuthAddress_stamp (U : UrlCrate) (cx : Extensions) (principal : ResolvedPrincipal) :
    ext.upstreamAuthAddress U (BuiltinAuthLayer.stamp cx principal) =
      ext.upstreamAuthAddress U cx := by
  unfold ext.upstreamAuthAddress
  rw [get_stamp_upstream]

/-- A slot that establishes credentials passes on a call of the same kind, with the principal stamped. -/
theorem BuiltinAuthLayer.Passes.of_establishes {L : BuiltinAuthLayer} {policy : Policy} {principal : ResolvedPrincipal}
    {outer inner : Call δ} (h : L.Passes policy principal outer inner) (hinner : inner.establishes = true) :
    outer.establishes = true ∧ inner.extensions = stamp outer.extensions principal ∧
      L.AdmitsSlot policy principal.id outer.extensions := by
  cases outer with
  | updateConnectionCredentials request => exact ⟨rfl, by rw [h.1]; rfl, h.2⟩
  | authenticateConnection request => exact ⟨rfl, by rw [h.1]; rfl, h.2⟩
  | _ =>
    rw [h.1] at hinner
    cases hinner

/-! ### What the policy was asked, and what the wrapper acts on -/

namespace BuiltinAuthLayer

variable {L : BuiltinAuthLayer} {π ι : Type} [DecidableEq ι] [DecidableEq δ]
  {pre post : List (Event ι (Op δ) (Act.Answer (δ := δ)))} {s : Threads ι Policy (Act.Answer (δ := δ))} {t : ι}

/-- The request that a call of a credential slot serves, and the policy and the principal it was judged for. -/
structure Established (L : BuiltinAuthLayer) (t : ι) (pre : List (Event ι (Op δ) (Act.Answer (δ := δ))))
    (outer inner : Call δ) (policy : Policy) (principal : ResolvedPrincipal) : Prop where
  since : ∃ before during, Since t pre before (.request outer) during ∧
    L.LiveDuring policy t before during (.request outer)
  establishes : outer.establishes = true
  resolved : L.resolvePrincipal outer.extensions = .ok principal
  stamped : inner.extensions = stamp outer.extensions principal

/-- For a call of a credential slot with an address, the policy judged the canonical form of the address, and
that is what the wrapper acts on exactly if the address was canonical as it came. -/
theorem acts_on_judged_iff (W : UpstreamCredentialWrapper π) {inner : Call δ} {r : Except Error inner.Answer}
    (h : L.Runs (pre ++ .act t (.call inner) r :: post) s) (hinner : inner.establishes = true) :
    ∃ outer policy principal, L.Established t pre outer inner policy principal ∧
      ∀ url, ext.upstreamAuthAddress L.urls outer.extensions = .ok (some url) →
        L.isAllowed policy principal.id .UpdateConnectionCredentials (some (canonicalize L.urls url)) = true ∧
          ((∃ id provider, W.slotAction L.urls inner.extensions = .ok (.acts (canonicalize L.urls url) id provider)) ↔
            canonicalize L.urls url = url) := by
  obtain ⟨before, outer, during, policy, principal, hsince, hacts, hresolved, hpasses⟩ := passes_of_run h
  obtain ⟨houter, hstamped, address, haddress, hallowed⟩ := hpasses.of_establishes hinner
  have hload : .act t .load policy ∈ during := mem_actsOf.mp (hacts ▸ List.mem_singleton_self _)
  obtain ⟨s₀, -, hrun, -⟩ := h.split
  refine ⟨outer, policy, principal,
    ⟨⟨before, during, hsince, live_of_load hrun hsince hload⟩, houter, hresolved, hstamped⟩,
    fun url hurl => ?_⟩
  obtain rfl : address = some url := Except.ok.inj (haddress.symm.trans hurl)
  have haction : W.slotAction L.urls inner.extensions =
      .ok (.acts url (UpstreamCredentialWrapper.principal inner.extensions) (W.resolveProvider url)) := by
    rw [UpstreamCredentialWrapper.slotAction, hstamped, upstreamAuthAddress_stamp, hurl]
  refine ⟨hallowed, ?_⟩
  rw [haction]
  constructor
  · rintro ⟨id, provider, heq⟩
    injection heq with heq
    injection heq with heq
    exact heq.symm
  · intro hcanonical
    exact ⟨_, _, by rw [hcanonical]⟩

end BuiltinAuthLayer

end

/-! ### A slot beside the one that was judged -/

/-- `https://h/private%2F..%2Fpublic`, or another path. -/
def onHost (path : String)
    (h : (⟨utf8 "https", true, [], none, some (utf8 "h"), none, utf8 path, none, none⟩ : Parts).WellFormed) :
    Url :=
  ⟨⟨utf8 "https", true, [], none, some (utf8 "h"), none, utf8 path, none, none⟩, h⟩

/-- `https://h/`. -/
def hostRoot : Url := onHost "/" (by decide)

/-- `https://h/public`. -/
def hostPublic : Url := onHost "/public" (by decide)

/-- `https://h/private%2F..%2Fpublic`. -/
def hostPrivatePublic : Url := onHost "/private%2F..%2Fpublic" (by decide)

/-- Credentials may be established below `https://h/public` only. -/
def publicSlotPolicy : Policy :=
  ⟨[⟨utf8 "public", .Allow, [star], some [.UpdateConnectionCredentials], some hostPublic,
    some (utf8 "https://h/public"), 0⟩],
    none⟩

/-- A request to establish credentials for an address. -/
def establishFor (address : Url) : Request Unit := ⟨Table.empty.insert ext.UPSTREAM_AUTH_ADDRESS address.asStr, ()⟩

/-- The provider of the public part, and the one of all the rest. -/
def twoProviders : UpstreamCredentialWrapper String := ⟨some, ⟨[(hostPublic, "public"), (hostRoot, "main")]⟩⟩

namespace BuiltinAuthLayer

/-- A request for an address, up to the call of the wrapper. -/
def establishing (address : Url) : List (Event Unit (Op Unit) (Act.Answer (δ := Unit))) :=
  [.call () (.request (.authenticateConnection (establishFor address))), .act () .load publicSlotPolicy]

/-- What the layer passes on. -/
def established (address : Url) : Call Unit :=
  .authenticateConnection
    { establishFor address with extensions := stamp (establishFor address).extensions ⟨"anonymous", none⟩ }

/-- The call of the wrapper. -/
def establishes (address : Url) : Event Unit (Op Unit) (Act.Answer (δ := Unit)) :=
  .act () (.call (established address)) (.ok ())

theorem runs_establishing (address : Url)
    (h : ((establishing address ++ [establishes address]).foldlM
      (fun s l => Threads.step exec anonymousLayer.prog s l) (.idle publicSlotPolicy)).any (fun _ => true) = true) :
    ∃ s, anonymousLayer.Runs (establishing address ++ [.act () (.call (established address)) (.ok ())]) s := by
  obtain ⟨s, hrun, -⟩ := runs_of_any publicSlotPolicy h
  exact ⟨s, hrun⟩

/-- The policy lets the request pass for `https://h/public`, and the wrapper acts on another address, with another
provider, that the policy denies. -/
theorem acts_beside_judged :
    (∃ s, anonymousLayer.Runs (establishing hostPrivatePublic ++
      [.act () (.call (established hostPrivatePublic)) (.ok ())]) s) ∧
      canonicalize reference hostPrivatePublic = hostPublic ∧
      twoProviders.slotAction reference (established hostPrivatePublic).extensions =
        .ok (.acts hostPrivatePublic (utf8 "anonymous") (.ok "main")) ∧
      twoProviders.resolveProvider hostPublic = .ok "public" ∧
      anonymousLayer.isAllowed publicSlotPolicy "anonymous" .UpdateConnectionCredentials (some hostRoot) = false :=
  ⟨runs_establishing hostPrivatePublic (by decide +kernel), by decide +kernel, by decide +kernel, by decide +kernel,
    by decide +kernel⟩

/-- An address that is canonical as it comes. -/
theorem acts_on_judged_iff_public :
    ∃ id provider, twoProviders.slotAction reference (established hostPublic).extensions =
      .ok (.acts (canonicalize reference hostPublic) id provider) := by
  obtain ⟨s, hrun⟩ := runs_establishing hostPublic (by decide +kernel)
  obtain ⟨outer, policy, principal, hestablished, hjudged⟩ := acts_on_judged_iff twoProviders hrun rfl
  have haddress : ext.upstreamAuthAddress reference outer.extensions = .ok (some hostPublic) := by
    rw [← upstreamAuthAddress_stamp reference outer.extensions principal, ← hestablished.stamped]
    decide +kernel
  exact (hjudged hostPublic haddress).2.mpr (by decide +kernel)

end BuiltinAuthLayer

end OvStorage.Authz
