import Tenure.Commit
import Tenure.Error

/-!
# Moving a bundle to another account

The destination gets a new bundle. Each subscription that moves opens there with a transfer event
and takes along the changes and phases still ahead of it; one that has not started yet moves over
at its own start. The subscriptions left behind are cancelled, either at the date of the transfer
or when the time paid for the base plan is over.
-/

namespace Tenure

structure TransferRequest where
  source : AccountId
  destination : AccountId
  /-- The key of the bundle, on either account. -/
  key : String
  date : Instant
  addOns : Bool
  cancelImmediately : Bool
  deriving DecidableEq

structure TransferPlan where
  image : BundleImage
  /-- The cancellations of the subscriptions left behind. -/
  cancels : List Event
  deriving DecidableEq

namespace Subscription

/-- The plan position at `date` of a subscription that has started and is not cancelled. -/
def heldAt? (s : Subscription) (date : Instant) : Option Target :=
  ((s.standingAt date).filter fun st => st.start ≤ date && !st.isCancelled).bind (·.target?)

/-- Where and when the subscription opens on the destination: on the position it holds at the
date, or with its first event after the date. -/
def opening? (s : Subscription) (date : Instant) : Option (Instant × Target) :=
  match s.heldAt? date with
  | some target => some (date, target)
  | none =>
    (s.effectiveEvents.find? (date < ·.effective)).bind fun first =>
      first.payload.target?.map fun target => (first.effective, target)

def ahead (s : Subscription) (start : Instant) : List Event :=
  s.effectiveEvents.filter fun e =>
    start < e.effective && (e.type == .change || e.type == .phase)

def transferred? (s : Subscription) (stamp : Stamp) (bundle : BundleId) (date : Instant)
    (supply : Supply) : Option Subscription :=
  (s.opening? date).map fun (start, target) =>
    let id := supply.subscription 0
    let copies := (s.ahead start).map fun e => ⟨id, e.effective, e.payload⟩
    { id, bundle, category := s.category, start, bundleStart := s.bundleStart,
      alignStart := s.alignStart, chargedThrough := s.chargedThrough, version := 1,
      events := stamp.events supply.event (⟨id, start, .transfer target⟩ :: copies) }

/-- The date at which a cancellation as of `date` ends the subscription; none if it has no history
or has ended by then. -/
def cancelDate? (s : Subscription) (date : Instant) : Option Instant :=
  match s.standingAt date with
  | none => none
  | some st => if st.finish.any (· ≤ date) then none else some (Instant.later date s.start)

end Subscription

def transferAll (stamp : Stamp) (bundle : BundleId) (date : Instant) (supply : Supply) :
    List Subscription → List Subscription × Supply
  | [] => ([], supply)
  | s :: ss => match s.transferred? stamp bundle date supply with
    | none => transferAll stamp bundle date supply ss
    | some moved =>
      let (rest, supply) := transferAll stamp bundle date (supply.drop 0 1 moved.events.length) ss
      (moved :: rest, supply)

def cancelAll (subscriptions : List Subscription) (date : Instant) : List Draft :=
  subscriptions.filterMap fun s => (s.cancelDate? date).map fun d => ⟨s.id, d, .cancel⟩

namespace TransferRequest

/-- The subscriptions to carry over: the base plan, the add-ons if asked for, and none that is
cancelled by the date. -/
def carried (request : TransferRequest) (subscriptions : List Subscription) :
    List Subscription :=
  subscriptions.filter fun s =>
    (s.isBaseLike || request.addOns) && !(s.standingAt request.date).any (·.isCancelled)

/-- The date at which the source ends: at once, or when the time paid for is over. -/
def cancelDate (request : TransferRequest) (base : Subscription) : Instant :=
  match base.chargedThrough with
  | some date => if request.cancelImmediately then request.date else date.later request.date
  | none => request.date

end TransferRequest

/-- Work out a transfer of the bundle `source` with these subscriptions. -/
def planTransfer (source : Bundle) (subscriptions : List Subscription) (request : TransferRequest)
    (context : CallContext) (now : Instant) (supply : Supply) : Except Error TransferPlan :=
  let carried := request.carried subscriptions
  match carried.find? (·.isBaseLike) with
  | none => .error (.nothingToTransfer source.id)
  | some base =>
    let stamp : Stamp := .ofContext context now
    let id := supply.bundle 0
    let (moved, supply) := transferAll stamp id request.date supply carried
    .ok
      { image :=
          { bundle := { id, key := request.key, account := request.destination,
                        start := request.date, updated := now },
            subscriptions := moved }
        cancels := stamp.events supply.event
          (cancelAll subscriptions (request.cancelDate base)) }

end Tenure
