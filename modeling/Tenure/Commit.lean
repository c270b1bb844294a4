import Tenure.Bundle

/-!
# Writes

What planning hands to storage: the new visible history of repaired subscriptions
(`RepairCommit`), bundles written from scratch (`BundleImage`), and what is kept of a repair once
it is committed (`RepairRecord`).
-/

namespace Tenure

/-- The new visible history of one subscription, in the order to be written. -/
structure RepairedSubscription where
  id : SubscriptionId
  start : Instant
  bundleStart : Instant
  alignStart : Instant
  events : List Event
  deriving DecidableEq

structure RepairCommit where
  bundle : BundleId
  /-- The view the repair was checked against; the commit fails if the bundle moved on since. -/
  expectedView : String
  bundleStart : Option Instant
  subscriptions : List RepairedSubscription
  createdBy : String
  deriving DecidableEq

/-- What is kept of a committed repair, for audits. -/
structure RepairRecord where
  number : Nat
  bundle : BundleId
  subscriptions : List SubscriptionId
  eventCount : Nat
  checksum : List UInt8
  createdBy : String
  createdAt : Instant
  deriving DecidableEq

/-- A bundle with its subscriptions and their events, as an import or a transfer makes it. -/
structure BundleImage where
  bundle : Bundle
  subscriptions : List Subscription
  deriving DecidableEq

end Tenure
