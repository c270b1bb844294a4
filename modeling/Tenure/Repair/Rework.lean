import Tenure.Error
import Tenure.Timeline

/-!
# Reworking one subscription

An edit of a subscription deletes a tail of its visible events and proposes new ones.
`cutTail` splits the visible events into those kept and those cut off and refuses deletions that
are no tail. `Rework.prepare` also checks the shape of the proposals: creations only in front,
and a creation exactly when nothing is kept.
-/

namespace Tenure

/-- An edited subscription while a repair is worked out. -/
structure Rework where
  subscription : Subscription
  kept : List Event
  cut : List Event
  /-- The deletions as the operator listed them. -/
  deleted : List EventId
  /-- The proposals by effective date, those of one date as the operator listed them. -/
  proposals : List Proposal
  /-- The new events worked out so far, phases that follow from the proposals included. -/
  added : List Event
  deriving DecidableEq

/-! ## Cutting a tail -/

/-- Split visible events at the first one deleted. Every deletion must name a visible event, and
none may be kept behind the first one deleted. -/
def cutTail (subscription : SubscriptionId) (visible : List Event) (deleted : List EventId) :
    Except RepairError (List Event × List Event) :=
  match deleted.find? fun id => !visible.any (·.id == id) with
  | some missing => .error (.nonExistentDeleteEvent subscription missing)
  | none =>
    let kept := visible.takeWhile fun e => !deleted.contains e.id
    let cut := visible.dropWhile fun e => !deleted.contains e.id
    match cut.find? fun e => !deleted.contains e.id with
    | some late => .error (.invalidDeleteSet subscription late.id late.effective)
    | none => .ok (kept, cut)

/-! ## The shape of proposals -/

namespace Proposal

def dateLe (a b : Proposal) : Bool := a.effective ≤ b.effective

def isFollowUp (p : Proposal) : Bool := p.type == .change || p.type == .cancel

/-- The first proposal that may not stand where it does. -/
def firstDisallowed? : List Proposal → Option Proposal
  | [] => none
  | p :: ps =>
    if p.type.isRecreation || p.isFollowUp then ps.find? fun q => !q.isFollowUp else some p

end Proposal

namespace Rework

def id (w : Rework) : SubscriptionId := w.subscription.id

def isBaseLike (w : Rework) : Bool := w.subscription.isBaseLike

def isRecreated (w : Rework) : Bool := w.proposals.head?.any (·.type.isRecreation)

def isTouched (w : Rework) : Bool := !w.deleted.isEmpty || !w.proposals.isEmpty

def lastKept? (w : Rework) : Option Instant := w.kept.getLast?.map (·.effective)

def firstCut? (w : Rework) : Option Instant := w.cut.head?.map (·.effective)

/-- A subscription built anew starts with its first proposal. -/
def start (w : Rework) : Instant :=
  match w.proposals.head? with
  | some first => if first.type.isRecreation then first.effective else w.subscription.start
  | none => w.subscription.start

def alignStart (w : Rework) : Instant :=
  if w.isRecreated then w.start else w.subscription.alignStart

def events (w : Rework) : List Event := w.kept ++ w.added

/-- The state at `date`, if the subscription is on a plan then. -/
def liveAt? (w : Rework) (date : Instant) : Option Standing :=
  (standingAt w.events w.subscription.category date).filter fun s =>
    s.plan.isSome && !s.isCancelled

/-- Split the visible events and check the shape of the proposals. -/
def prepare (subscription : Subscription) (deleted : List EventId) (proposals : List Proposal) :
    Except RepairError Rework := do
  let (kept, cut) ← cutTail subscription.id subscription.effectiveEvents deleted
  let proposals := sortBy Proposal.dateLe proposals
  if let some p := Proposal.firstDisallowed? proposals then
    throw (.invalidNewEventType subscription.id p.type p.effective)
  let work : Rework := { subscription, kept, cut, deleted, proposals, added := [] }
  match work.lastKept?, work.isRecreated with
  | some last, true => throw (.recreateNotEmpty subscription.id last)
  | none, false => throw (.subscriptionEmpty subscription.id)
  | _, _ => return work

end Rework

end Tenure
