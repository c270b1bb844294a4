import Tenure.Bundle

/-!
# Timelines and repairs

A `TimelineView` shows what is visible of a bundle, with a repair folded in if there is one: per
subscription the events kept, the ones deleted and the new ones.

A `Repair` is an operator's edit of the past. For each subscription it names events to delete and
proposes new ones. It carries the view that it was prepared against.
-/

namespace Tenure

/-! ## Views -/

structure SubscriptionTimeline where
  subscription : SubscriptionId
  category : Category
  version : Nat
  existing : List Event
  deleted : List EventId
  /-- Events that a repair adds, phases that follow from them included; not stored yet. -/
  new : List Event
  deriving DecidableEq

namespace SubscriptionTimeline

/-- The timeline of a subscription as it is. -/
def current (s : Subscription) : SubscriptionTimeline :=
  { subscription := s.id, category := s.category, version := s.version,
    existing := s.effectiveEvents, deleted := [], new := [] }

/-- By effective date and ordering; events that tie on both stay as they are. -/
def eventLe (a b : Event) : Bool :=
  a.effective < b.effective || (a.effective == b.effective && a.ordering ≤ b.ordering)

/-- Existing and new events merged in timeline order. -/
def events (t : SubscriptionTimeline) : List Event := sortBy eventLe (t.existing ++ t.new)

end SubscriptionTimeline

structure TimelineView where
  viewId : String
  bundle : BundleId
  subscriptions : List SubscriptionTimeline
  deriving DecidableEq

/-- The timeline of a bundle as it is. -/
def TimelineView.ofBundle (b : Bundle) (subscriptions : List Subscription) : TimelineView :=
  { viewId := b.viewId subscriptions, bundle := b.id,
    subscriptions := subscriptions.map SubscriptionTimeline.current }

/-! ## Repairs -/

/-- An event that an operator proposes. Creations and changes need a plan; a creation may name
the phase to begin with, and begins with the plan's first phase if it does not. -/
structure Proposal where
  type : EventType
  effective : Instant
  plan : Option PlanSpec := none
  phaseType : Option PhaseType := none
  deriving DecidableEq

/-- The edit of one subscription. -/
structure Edit where
  subscription : SubscriptionId
  deleted : List EventId
  proposals : List Proposal
  deriving DecidableEq

def Edit.isNoop (e : Edit) : Bool := e.deleted.isEmpty && e.proposals.isEmpty

structure Repair where
  /-- The view the repair was prepared against. -/
  viewId : String
  edits : List Edit
  deriving DecidableEq

end Tenure
