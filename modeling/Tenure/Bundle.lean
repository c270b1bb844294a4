import Tenure.History

/-!
# Bundles and subscriptions

A bundle belongs to an account, which knows it by a key of its own, and holds subscriptions: a
base plan and its add-ons. A subscription carries the dates that phases may be laid out from, the
date it has been paid until, and its visible events, those of its active version.
-/

namespace Tenure

structure Bundle where
  id : BundleId
  key : String
  account : AccountId
  start : Instant
  /-- When the bundle or one of its subscriptions was last written to. -/
  updated : Instant
  deriving DecidableEq

/-- A subscription without its events. -/
structure SubscriptionRecord where
  id : SubscriptionId
  bundle : BundleId
  category : Category
  start : Instant
  bundleStart : Instant
  alignStart : Instant
  chargedThrough : Option Instant
  version : Nat
  deriving DecidableEq

/-- A subscription with the events visible at its active version. -/
structure Subscription extends SubscriptionRecord where
  events : List Event
  deriving DecidableEq

namespace Subscription

def standingAt (s : Subscription) (asOf : Instant) : Option Standing :=
  Tenure.standingAt s.events s.category asOf

def effectiveEvents (s : Subscription) : List Event := Tenure.effectiveEvents s.events

def maxOrdering (s : Subscription) : Nat := Tenure.maxOrdering s.events

def isActiveAt (s : Subscription) (asOf : Instant) : Bool :=
  Tenure.isActiveAt s.events s.category asOf

def isBaseLike (s : Subscription) : Bool := s.category.isBaseLike

end Subscription

/-! ## Views -/

/-- The token of what a reader saw of a bundle: the highest ordering among its visible events and
the time of its last update in milliseconds. A write of events raises the ordering. -/
def viewId (maxOrdering : Nat) (updated : Instant) : String :=
  s!"{maxOrdering}-{updated.millis}"

/-- The token of a bundle with these subscriptions. -/
def Bundle.viewId (b : Bundle) (subscriptions : List Subscription) : String :=
  Tenure.viewId (subscriptions.foldl (fun n s => max n s.maxOrdering) 0) b.updated

end Tenure
