import Tenure.Event
import Tenure.Sorting

/-!
# Histories

The state of a subscription is computed from its events alone: no clock and no catalog is asked,
so the same events always give the same state.

Two kinds of events lose their effect to one recorded after them (`Event.isSupersededBy`):

- a phase or change event that lies strictly after a change recorded later, since that change
  replaced the plan it was scheduled for;
- a cancellation at or after the date of an uncancellation recorded later.

What remains, in timeline order (`effectiveEvents`), is run through once and leaves a list of
transitions (`transitions`). `standingAt` reads the state at an instant off that list: the last
transition so far gives the plan in force, and the stretch between one start of the subscription
and the next (`Era`) gives its start and end.
-/

namespace Tenure

/-! ## Superseded events -/

/-- The later-recorded event `c` takes the effect of `e` away. -/
def Event.isSupersededBy (e c : Event) : Bool :=
  match e.type with
  | .phase | .change =>
    c.type == .change && e.ordering < c.ordering && c.effective < e.effective
  | .cancel => c.type == .uncancel && e.ordering < c.ordering && c.effective ≤ e.effective
  | _ => false

/-- The identifiers of events that lost their effect. -/
def superseded (events : List Event) : List EventId :=
  (events.filter fun e => events.any e.isSupersededBy).map (·.id)

/-- The events that keep their effect, in timeline order. -/
def effectiveEvents (events : List Event) : List Event :=
  let lost := superseded events
  sortBy Event.le (events.filter fun e => !lost.contains e.id)

/-! ## Transitions -/

inductive Activity
  | active | cancelled
  deriving DecidableEq, Repr

def Activity.all : List Activity := [.active, .cancelled]

/-- One step of a subscription from a plan position to the next. -/
structure Transition where
  event : EventId
  type : EventType
  effective : Instant
  ordering : Nat
  previous : Option Target
  next : Option Target
  activity : Activity
  deriving DecidableEq

/-- What has been reached while running through a history: the target last in force, and whether
it was cancelled since. -/
structure Cursor where
  target : Option Target
  cancelled : Bool
  deriving DecidableEq

namespace Cursor

def start : Cursor := ⟨none, false⟩

def isLive (c : Cursor) : Bool := c.target.isSome && !c.cancelled

/-- Where an event leads: the next target and activity, or nothing for an event that makes no
sense where it stands. A change, phase or cancellation needs a live subscription. -/
def destination? (c : Cursor) : Payload → Option (Option Target × Activity)
  | .create t | .reCreate t | .transfer t | .migrateEntitlement t => some (some t, .active)
  | .change t => if c.isLive then some (some t, .active) else none
  | .phase name =>
    if c.isLive then some (c.target.map fun t => { t with phase := name }, .active) else none
  | .cancel => if c.isLive then some (none, .cancelled) else none
  | .uncancel | .migrateBilling _ => none

def previous (c : Cursor) : Option Target := if c.cancelled then none else c.target

/-- The transition that an event makes, if any. -/
def transition? (c : Cursor) (e : Event) : Option Transition :=
  (c.destination? e.payload).map fun (next, activity) =>
    { event := e.id, type := e.type, effective := e.effective, ordering := e.ordering,
      previous := c.previous, next, activity }

/-- A cancellation leaves the target it ended in place, so that it can be told what was ended. -/
def advance (c : Cursor) (t : Transition) : Cursor :=
  match t.activity with
  | .active => ⟨t.next, false⟩
  | .cancelled => ⟨c.previous, true⟩

end Cursor

/-- The transitions of events in the order given, from a cursor on. -/
def transitionsFrom (c : Cursor) : List Event → List Transition
  | [] => []
  | e :: es => match c.transition? e with
    | none => transitionsFrom c es
    | some t => t :: transitionsFrom (c.advance t) es

def transitions (events : List Event) : List Transition :=
  transitionsFrom .start (effectiveEvents events)

/-! ## Eras -/

/-- A start of the subscription with the transitions up to the next start. -/
structure Era where
  opening : Transition
  rest : List Transition
  deriving DecidableEq

namespace Era

def members (era : Era) : List Transition := era.opening :: era.rest

/-- The date of the first cancellation in the era. -/
def endDate? (era : Era) : Option Instant :=
  (era.members.find? (·.activity == .cancelled)).map (·.effective)

end Era

/-- A history cut at its starts. -/
def eras : List Transition → List Era
  | [] => []
  | t :: ts =>
    if t.type.startsSubscription then
      ⟨t, ts.takeWhile fun u => !u.type.startsSubscription⟩ :: eras ts
    else eras ts

/-- The last era that began by `asOf`, or the first one if none has. -/
def eraAt? (history : List Transition) (asOf : Instant) : Option Era :=
  match (eras history).findRev? (·.opening.effective ≤ asOf) with
  | some era => some era
  | none => (eras history).head?

/-! ## The state at an instant -/

/-- A subscription as it stands at some instant. -/
structure Standing where
  category : Category
  plan : Option String
  phase : Option String
  priceList : Option String
  isCancelled : Bool
  isFutureCancelled : Bool
  start : Instant
  finish : Option Instant
  previous : Option Transition
  pending : Option Transition
  deriving DecidableEq

namespace Standing

/-- Plan, phase and price list in force, if any. -/
def target? (s : Standing) : Option Target :=
  match s.plan, s.phase, s.priceList with
  | some plan, some phase, some priceList => some ⟨plan, phase, priceList⟩
  | _, _, _ => none

/-- The target in force, or the one in force just before the cancellation. -/
def lastActiveTarget? (s : Standing) : Option Target :=
  s.previous.bind fun t => t.next.or t.previous

end Standing

/-- The state as of `asOf`; none when the events hold no start at all. -/
def standingAt (events : List Event) (category : Category) (asOf : Instant) : Option Standing :=
  let history := transitions events
  (eraAt? history asOf).map fun era =>
    let previous := history.findRev? (·.effective ≤ asOf)
    let target := previous.bind (·.next)
    { category
      plan := target.map (·.plan)
      phase := target.map (·.phase)
      priceList := target.map (·.priceList)
      isCancelled := era.endDate?.any (· ≤ asOf)
      isFutureCancelled := era.endDate?.any (asOf < ·)
      start := era.opening.effective
      finish := era.endDate?
      previous
      pending := history.find? (asOf < ·.effective) }

/-- Started by `asOf` and not ended yet. -/
def isActiveAt (events : List Event) (category : Category) (asOf : Instant) : Bool :=
  (standingAt events category asOf).any fun s => s.start ≤ asOf && !s.isCancelled

def finalStanding (events : List Event) (category : Category) : Option Standing :=
  standingAt events category .last

def maxOrdering (events : List Event) : Nat :=
  events.foldl (fun n e => max n e.ordering) 0

end Tenure
