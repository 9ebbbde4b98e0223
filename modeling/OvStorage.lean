import OvStorage.Authz.Separators
import OvStorage.Authz.Written
import OvStorage.Listing.Closure
import OvStorage.ByteCache.Leases
import OvStorage.ByteCache.Readers
import OvStorage.ByteCache.Tracking
import OvStorage.Availability.Fence
import OvStorage.Cache.Fills
import OvStorage.Alias.Derivation
import OvStorage.Watch.Handover
import OvStorage.Watch.Admission
import OvStorage.Connections.AtRest
import OvStorage.Connections.Successor
import OvStorage.Connections.Expiry
import OvStorage.Authz.CredentialSlot
import OvStorage.Authz.Visibility
import OvStorage.Authz.Attribution
import OvStorage.Authz.Agreement
import OvStorage.Files.Subtree
import OvStorage.Routing.Refusal
import OvStorage.OAuth.Bundles
import OvStorage.Fallback.Cache
import OvStorage.Fallback.Transfer
import OvStorage.Redirect.Overflows
import OvStorage.Redirect.Follower
import OvStorage.Persistence.Lineage
import OvStorage.Alias.Visibility
import OvStorage.Watch.Acceptance
import OvStorage.Auth.Invalidation
import OvStorage.Alias.Termination
import OvStorage.ByteCache.Eviction
import OvStorage.ByteCache.TeeFidelity
import OvStorage.Cache.Isolation
import OvStorage.Authz.GlobLanguage
import OvStorage.Broker.ContinuationSeal
import OvStorage.Sequencing.Wakeup
import OvStorage.ByteCache.StreamingBudget
import OvStorage.Broker.WriteBody
import OvStorage.Files.Changes
import OvStorage.Files.Polling
import OvStorage.HubClient.Extension
import OvStorage.Layer.RetriedListing
import OvStorage.Watch.Registry
