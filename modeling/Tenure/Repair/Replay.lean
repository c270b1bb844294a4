import Tenure.Repair.Rework
import Tenure.Schedule

/-!
# Replaying a repair

The proposals of all edited subscriptions are carried out in one sweep through time, and the
phases that follow from them are filled in. Two agendas are kept, both by date: the proposals
still to come, and the phases in prospect. At one instant proposals go before phases, then
subscriptions go by their identifier, then what was put down first goes first. Together the agendas
are one queue in this order (`Replay.run_drains`).

A phase is entered if its subscription is still on a plan by then. A proposal replaces all phases
its subscription had in prospect by those of its new schedule.

New events are numbered as they arise, behind all events of the bundle. Storage assigns the final
numbers; until then new events have to stand behind the kept ones.
-/

namespace Tenure

structure ReplayContext where
  catalog : Catalog
  bundleStart : Instant
  stamp : Stamp
  /-- The identifiers of new events, and the ordering of the first. -/
  ids : Nat → EventId
  firstOrdering : Nat

structure Operation where
  subscription : SubscriptionId
  proposal : Proposal
  deriving DecidableEq

/-- A phase that a subscription is going to enter unless something comes in between. -/
structure Prospect where
  subscription : SubscriptionId
  date : Instant
  phase : String
  deriving DecidableEq

namespace Operation

def le (a b : Operation) : Bool :=
  a.proposal.effective < b.proposal.effective ||
    (a.proposal.effective == b.proposal.effective &&
      a.subscription.number ≤ b.subscription.number)

end Operation

namespace Prospect

def le (a b : Prospect) : Bool :=
  a.date < b.date || (a.date == b.date && a.subscription.number ≤ b.subscription.number)

/-- The phases of a schedule that lie after `date`. -/
def ofSchedule (subscription : SubscriptionId) (schedule : Schedule) (date : Instant) :
    List Prospect :=
  (schedule.upcoming.filter (date < ·.start)).map fun p => ⟨subscription, p.start, p.phase.name⟩

end Prospect

/-- A replay on its way: the subscriptions as worked out so far, the phases in prospect in order,
and the number of events that have arisen. -/
structure Replay where
  works : List Rework
  prospects : List Prospect
  count : Nat
  deriving DecidableEq

namespace Replay

def work? (r : Replay) (id : SubscriptionId) : Option Rework := r.works.find? (·.id == id)

/-- Put a new event behind those of its subscription. -/
def record (cx : ReplayContext) (r : Replay) (id : SubscriptionId) (date : Instant)
    (payload : Payload) : Replay :=
  let event := { cx.stamp.event (cx.ids r.count) ⟨id, date, payload⟩ with
    ordering := cx.firstOrdering + r.count }
  { r with
    works := r.works.map fun w => if w.id == id then { w with added := w.added ++ [event] } else w
    count := r.count + 1 }

/-- Enter a phase, if the subscription is on a plan at its date. -/
def enter (cx : ReplayContext) (r : Replay) (p : Prospect) : Replay :=
  match (r.work? p.subscription).bind (·.liveAt? p.date) with
  | some _ => r.record cx p.subscription p.date (.phase p.phase)
  | none => r

/-- Enter the phases in prospect that begin before `date`. -/
def advanceTo (cx : ReplayContext) (date : Instant) (r : Replay) : Replay :=
  (r.prospects.takeWhile (·.date < date)).foldl (enter cx)
    { r with prospects := r.prospects.dropWhile (·.date < date) }

def finish (cx : ReplayContext) (r : Replay) : Replay :=
  r.prospects.foldl (enter cx) { r with prospects := [] }

def replaceProspects (r : Replay) (id : SubscriptionId) (prospects : List Prospect) : Replay :=
  { r with
    prospects := sortBy Prospect.le (r.prospects.filter (·.subscription != id) ++ prospects) }

end Replay

namespace Rework

/-- The dates that the subscription's phases are laid out from during the repair. -/
def anchors (w : Rework) (cx : ReplayContext) : Anchors := ⟨cx.bundleStart, w.alignStart⟩

def invalid (w : Rework) (p : Proposal) (fault : TransitionFault) : Error :=
  .repair (.invalidTransition w.id p.type p.effective fault)

/-- The plan that a proposal asks for, which has to be of the subscription's category. -/
def planFor (w : Rework) (cx : ReplayContext) (p : Proposal) : Except Error (Plan × PlanSpec) :=
  match p.plan with
  | none => .error (w.invalid p .noPlan)
  | some spec => do
    let plan ← cx.catalog.findPlan spec p.effective
    if plan.product.category ≠ w.subscription.category then
      throw (w.invalid p .otherCategory)
    return (plan, spec)

/-- The target that a schedule begins with. -/
def targetOf (plan : Plan) (spec : PlanSpec) (schedule : Schedule) : Target :=
  ⟨plan.name, schedule.current.phase.name, spec.priceList⟩

/-- What a proposal does to the subscription as it stands: the new event's payload and the phases
it puts in prospect. -/
def carryOut (w : Rework) (cx : ReplayContext) (p : Proposal) :
    Except Error (Payload × List Prospect) := do
  let live := w.liveAt? p.effective
  match p.type with
  | .create | .reCreate =>
    if live.isSome then
      throw (w.invalid p .stillActive)
    let (plan, spec) ← w.planFor cx p
    let schedule ← cx.catalog.alignOnCreate (w.anchors cx) plan p.phaseType spec.priceList
      p.effective p.effective
    let target := targetOf plan spec schedule
    return (if p.type = .create then .create target else .reCreate target,
      Prospect.ofSchedule w.id schedule p.effective)
  | .change =>
    match live.bind (·.target?) with
    | none => throw (w.invalid p .notActive)
    | some current =>
      let (plan, spec) ← w.planFor cx p
      let schedule ← cx.catalog.alignOnChange (w.anchors cx) current plan spec.priceList
        p.effective p.effective
      return (.change (targetOf plan spec schedule), Prospect.ofSchedule w.id schedule p.effective)
  | .cancel =>
    if live.isNone then
      throw (w.invalid p .notActive)
    return (.cancel, [])
  | other => throw (.repair (.invalidNewEventType w.id other p.effective))

/-- The phases that the kept history still owes once its tail is cut off: those its last
transition put in motion and that lie after the last kept event. A subscription built anew owes
none, nor does one that is left as it is or ends in a cancellation. -/
def owedPhases (w : Rework) (cx : ReplayContext) : Except Error (List Prospect) :=
  if !w.isTouched || w.isRecreated then .ok []
  else match w.lastKept?, (transitions w.kept).getLast? with
    | some date, some t =>
      if t.activity = .cancelled then .ok []
      else (cx.catalog.alignTransition (w.anchors cx) t).map fun schedule =>
        (schedule.map fun s => Prospect.ofSchedule w.id s date).getD []
    | _, _ => .ok []

end Rework

namespace Replay

/-- Carry out one proposal, after the phases that begin before it. -/
def perform (cx : ReplayContext) (r : Replay) (op : Operation) : Except Error Replay :=
  let r := r.advanceTo cx op.proposal.effective
  match r.work? op.subscription with
  | none => .ok r
  | some w =>
    match w.carryOut cx op.proposal with
    | .error e => .error e
    | .ok (payload, prospects) =>
      .ok ((r.record cx op.subscription op.proposal.effective payload).replaceProspects
        op.subscription prospects)

/-- Carry out proposals in the order given, and enter the phases left in the end. -/
def performAll (cx : ReplayContext) (r : Replay) : List Operation → Except Error Replay
  | [] => .ok (r.finish cx)
  | op :: ops =>
    match r.perform cx op with
    | .error e => .error e
    | .ok r => performAll cx r ops

def agenda (works : List Rework) : List Operation :=
  sortBy Operation.le (works.flatMap fun w => w.proposals.map fun p => ⟨w.id, p⟩)

/-- Work out the new events of all edited subscriptions. -/
def run (cx : ReplayContext) (works : List Rework) : Except Error (List Rework) := do
  let owed ← works.mapM (·.owedPhases cx)
  let start : Replay := ⟨works, sortBy Prospect.le owed.flatten, 0⟩
  return (← start.performAll cx (agenda works)).works

end Replay

end Tenure
