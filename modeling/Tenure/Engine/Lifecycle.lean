import Tenure.Engine

/-!
# The life of a subscription

Creating, changing, cancelling and uncancelling, each at the date asked for, which is now unless
the context names another.

A new subscription is written with all phases of its plan ahead of it, and a change with all
phases of the new plan. Whether a change or a cancellation takes effect at once or when the time
paid for is over is the catalog's decision. Cancelling a base plan cancels its add-ons with it,
and uncancelling it takes those cancellations back.
-/

namespace Tenure.Engine

variable (e : Engine) (context : CallContext) (now : Instant)

/-! ## Creating -/

/-- Create a bundle under a key that the account does not use yet. -/
def createBundle (account : AccountId) (key : String) :
    Store → Except Error Bundle × Store :=
  unlocked fun s =>
    if (s.bundleByKey? account key).isSome then .error (.bundleKeyInUse account key)
    else
      let b : Bundle :=
        { id := (e.supply s).bundle 0, key, account, start := context.requested.getD now,
          updated := now }
      match s.createBundle b with
      | .error err => .error (err.toKeyInUse account)
      | .ok s => .ok (b, s)

/-- The phases ahead, as events to be. -/
def phaseDrafts (id : SubscriptionId) (schedule : Schedule) : List Draft :=
  schedule.upcoming.map fun p => ⟨id, p.start, .phase p.phase.name⟩

/-- The start of the bundle for a new subscription. A base-like one starts it itself and must not
meet another that is active; an add-on takes it from the base plan active at its start. -/
def bundleStartFor (bundle : BundleId) (existing : List Subscription) (category : Category)
    (effective : Instant) : Except Error Instant :=
  if category.isBaseLike then
    if existing.any fun s => s.isBaseLike && s.isActiveAt effective then
      .error (.baseAlreadyActive bundle)
    else .ok effective
  else match existing.find? fun s => s.category == .base && s.isActiveAt effective with
    | some base => .ok base.start
    | none => .error (.missingActiveBase bundle effective)

def newSubscription (bundle : BundleId) (spec : PlanSpec) (s : Store) :
    Except Error Subscription := do
  let effective := context.requested.getD now
  let _ ← Engine.bundle s bundle
  let existing := s.subscriptionsOf bundle
  let plan ← e.catalog.findPlan spec effective
  let category := plan.product.category
  let bundleStart ← bundleStartFor bundle existing category effective
  let schedule ← e.catalog.alignOnCreate ⟨bundleStart, effective⟩ plan none spec.priceList
    effective effective
  let id := (e.supply s).subscription 0
  let target : Target := ⟨plan.name, schedule.current.phase.name, spec.priceList⟩
  let stamp : Stamp := ⟨effective, now, context.createdBy⟩
  return { id, bundle, category, start := effective, bundleStart, alignStart := effective,
           chargedThrough := none, version := 1,
           events := stamp.events (e.supply s).event
             (⟨id, effective, .create target⟩ :: phaseDrafts id schedule) }

def createSubscription (bundle : BundleId) (spec : PlanSpec) :
    Store → Except Error Subscription × Store :=
  e.locked bundle fun s => do
    let sub ← e.newSubscription context now bundle spec s
    s.createSubscription sub now

/-! ## Changing -/

/-- The target held at `date` by a subscription that is live then and not going to end. -/
def liveTarget (sub : Subscription) (date : Instant) : Except Error Target :=
  match (sub.standingAt date).filter (·.start ≤ date) with
  | none => .error (.subscriptionNotActive sub.id)
  | some st =>
    if st.isCancelled || st.isFutureCancelled then .error (.subscriptionCancelled sub.id)
    else match st.target? with
      | some target => .ok target
      | none => .error (.subscriptionNotActive sub.id)

/-- The date at which an action takes effect: when the time paid for is over, if the policy says
so and that is still ahead, otherwise the date asked for. -/
def policyDate (policy : ActionPolicy) (sub : Subscription) (requested : Instant) : Instant :=
  match policy, sub.chargedThrough with
  | .endOfTerm, some date => if requested < date then date else requested
  | _, _ => requested

def changeEvents (id : SubscriptionId) (spec : PlanSpec) (s : Store) :
    Except Error (List Event) := do
  let requested := context.requested.getD now
  let sub ← subscription s id
  let current ← liveTarget sub requested
  let source ← e.catalog.position current requested
  let plan ← e.catalog.findPlan spec requested
  if plan.product.category ≠ sub.category then
    throw (.categoryMismatch plan.name sub.category plan.product.category)
  let terms ← e.catalog.planChange source spec requested
  let effective := policyDate terms.policy sub requested
  let schedule ← e.catalog.alignOnChange ⟨sub.bundleStart, sub.alignStart⟩ current plan
    terms.newPriceList requested effective
  let target : Target := ⟨plan.name, schedule.current.phase.name, terms.newPriceList⟩
  return (Stamp.ofContext context now).events (e.supply s).event
    (⟨id, effective, .change target⟩ :: phaseDrafts id schedule)

/-- Carry out `body` under the lock of the subscription's bundle, then read the subscription. -/
def onSubscription (id : SubscriptionId) (body : Store → Except Error Store) (s : Store) :
    Except Error Subscription × Store :=
  match subscription s id with
  | .error err => (.error err, s)
  | .ok sub => e.locked sub.bundle (fun s => do
      let s ← body s
      return (← subscription s id, s)) s

def changePlan (id : SubscriptionId) (spec : PlanSpec) :
    Store → Except Error Subscription × Store :=
  e.onSubscription id fun s => do
    let events ← e.changeEvents context now id spec s
    let (_, s) ← s.append id events now
    return s

/-! ## Cancelling -/

/-- The date at which an add-on ends along with its base plan at `effective`; none if it has ended
by then or was never created. -/
def cascadeDate? (addOn : Subscription) (effective : Instant) : Option Instant :=
  match addOn.standingAt effective with
  | none => none
  | some st =>
    if st.finish.any (· ≤ effective) then none
    else some (Instant.later effective addOn.start)

/-- The cancellations of add-ons that follow from that of their base plan. -/
def cascade (subscriptions : List Subscription) (effective : Instant) : List Draft :=
  subscriptions.filterMap fun a =>
    if a.category == .addOn then (cascadeDate? a effective).map fun date => ⟨a.id, date, .cancel⟩
    else none

/-- The subscription and the date at which it is going to be cancelled. -/
def cancelDate (id : SubscriptionId) (s : Store) : Except Error (Subscription × Instant) := do
  let requested := context.requested.getD now
  let sub ← subscription s id
  let current ← liveTarget sub requested
  let source ← e.catalog.position current requested
  let policy ← e.catalog.cancelPolicy source requested
  return (sub, policyDate policy sub requested)

/-- The events of a cancellation, with the bundle they belong to. -/
def cancelEvents (id : SubscriptionId) (s : Store) : Except Error (BundleId × List Event) := do
  let (sub, effective) ← e.cancelDate context now id s
  let cascaded := if sub.category == .base then cascade (s.subscriptionsOf sub.bundle) effective
    else []
  return (sub.bundle, (Stamp.ofContext context now).events (e.supply s).event
    (⟨id, effective, .cancel⟩ :: cascaded))

def cancel (id : SubscriptionId) : Store → Except Error Subscription × Store :=
  e.onSubscription id fun s => do
    let (bundle, events) ← e.cancelEvents context now id s
    let (_, s) ← s.appendToBundle bundle events now
    return s

/-- Add-ons that are going to end at the same date as their base plan. -/
def endingWith (subscriptions : List Subscription) (date : Instant) (finish : Option Instant) :
    List Subscription :=
  subscriptions.filter fun a =>
    a.category == .addOn &&
      (a.standingAt date).any fun st => st.isFutureCancelled && st.finish == finish

/-- The subscription and its state, with the cancellation that is still ahead. -/
def pendingCancel (id : SubscriptionId) (s : Store) : Except Error (Subscription × Standing) := do
  let sub ← subscription s id
  match (sub.standingAt (context.requested.getD now)).filter (·.isFutureCancelled) with
  | none => throw (.notFutureCancelled id)
  | some st => return (sub, st)

/-- The events that take a cancellation back, with the bundle they belong to. -/
def uncancelEvents (id : SubscriptionId) (s : Store) : Except Error (BundleId × List Event) := do
  let date := context.requested.getD now
  let (sub, st) ← pendingCancel context now id s
  let addOns := if sub.category == .base then
    endingWith (s.subscriptionsOf sub.bundle) date st.finish else []
  return (sub.bundle, (Stamp.ofContext context now).events (e.supply s).event
    ((id :: addOns.map (·.id)).map fun i => ⟨i, date, .uncancel⟩))

def uncancel (id : SubscriptionId) : Store → Except Error Subscription × Store :=
  e.onSubscription id fun s => do
    let (bundle, events) ← e.uncancelEvents context now id s
    let (_, s) ← s.appendToBundle bundle events now
    return s

/-- Note until when a subscription has been paid for. -/
def setChargedThrough (id : SubscriptionId) (date : Option Instant) (s : Store) :
    Except Error Unit × Store :=
  match subscription s id with
  | .error err => (.error err, s)
  | .ok sub => e.locked sub.bundle (fun s => do
      let s ← s.setChargedThrough id date
      return ((), s)) s

end Tenure.Engine
