import Tenure.Commit
import Tenure.Schedule

/-!
# Importing an account

Subscriptions that were kept elsewhere come in as lists of cases: each says on which phase of
which plan the subscription was from one date to the next. `Catalog.alignCases` turns the cases
into events, so that the imported history reads like one that was kept here: the first case
starts the subscription, a case on the same plan enters a phase, a case on another plan changes
to it. A last case with an end is cancelled there; one without continues into the plan's later
phases.

At the date a subscription has been paid until, a marker tells billing what to go on with
(`billingMarker?`).
-/

namespace Tenure

/-! ## Requests -/

/-- A stretch of a subscription's past on one phase of a plan. -/
structure MigrationCase where
  plan : String
  phaseType : PhaseType
  priceList : String
  effective : Instant
  /-- The start of the next case; on the last case a cancellation. -/
  finish : Option Instant
  deriving DecidableEq

structure SubscriptionMigration where
  category : Category
  cases : List MigrationCase
  chargedThrough : Option Instant
  deriving DecidableEq

structure BundleMigration where
  key : String
  subscriptions : List SubscriptionMigration
  deriving DecidableEq

structure AccountMigration where
  account : AccountId
  bundles : List BundleMigration
  deriving DecidableEq

/-! ## Cases to events -/

/-- An event to be: what happens, and when. -/
structure TimedPayload where
  effective : Instant
  payload : Payload
  deriving DecidableEq

namespace MigrationCase

def dateLe (a b : MigrationCase) : Bool := a.effective ≤ b.effective

/-- The first case that does not end where the next one starts. -/
def firstGap? : List MigrationCase → Option MigrationCase
  | a :: b :: cs => if a.finish = some b.effective then firstGap? (b :: cs) else some a
  | _ => none

/-- What a case does to a subscription on `previousPlan`. -/
def payload (previousPlan : Option String) (plan : Plan) (target : Target) : Payload :=
  match previousPlan with
  | none => .migrateEntitlement target
  | some name => if name = plan.name then .phase target.phase else .change target

end MigrationCase

/-- A plan with the place of one of its phases. -/
structure PlanPlace where
  plan : Plan
  index : Nat
  phase : Phase
  deriving DecidableEq

namespace Catalog

/-- The place of a case: the first phase of its type in its plan. -/
def placeOf (catalog : Catalog) (now : Instant) (c : MigrationCase) :
    Except CatalogError PlanPlace := do
  let plan ← catalog.findPlanByName c.plan now
  match plan.indexOfType? c.phaseType, plan.phases.find? (·.type == c.phaseType) with
  | some index, some phase => return ⟨plan, index, phase⟩
  | _, _ => throw (.unknownPhase s!"{plan.name} {c.phaseType.name}")

/-- The events of consecutive cases, and the place of the last one. -/
def alignEach (catalog : Catalog) (now : Instant) (previous : Option PlanPlace) :
    List MigrationCase → Except CatalogError (List TimedPayload × Option PlanPlace)
  | [] => .ok ([], previous)
  | c :: cs => do
    let place ← catalog.placeOf now c
    let payload := MigrationCase.payload (previous.map (·.plan.name)) place.plan
      ⟨place.plan.name, place.phase.name, c.priceList⟩
    let (events, last) ← catalog.alignEach now (some place) cs
    return (⟨c.effective, payload⟩ :: events, last)

/-- What follows the last case: its cancellation, or the phases still ahead of it. -/
def alignEnd (last : MigrationCase) (place : Option PlanPlace) :
    Except Error (List TimedPayload) :=
  match last.finish, place with
  | some finish, _ => .ok [⟨finish, .cancel⟩]
  | none, some place => (phaseChain place.plan place.index last.effective).map fun chain =>
    chain.upcoming.map fun p => ⟨p.start, .phase p.phase.name⟩
  | none, none => .ok []

/-- The events that cases describe, oldest first. The catalog is asked as of `now`. -/
def alignCases (catalog : Catalog) (cases : List MigrationCase) (now : Instant) :
    Except Error (List TimedPayload) := do
  let cases := sortBy MigrationCase.dateLe cases
  match cases.getLast? with
  | none => throw (.invalidMigration .noCases)
  | some last =>
    if let some c := MigrationCase.firstGap? cases then
      throw (.invalidMigration (.gap c.plan c.effective))
    let (events, place) ← catalog.alignEach now none cases
    let ending ← alignEnd last place
    return events ++ ending

end Catalog

/-! ## Billing -/

/-- The marker for billing at the date paid until; none if the subscription has not started or
has ended by then. -/
def billingMarker? (events : List Event) (category : Category) (start chargedThrough : Instant) :
    Option Payload :=
  if chargedThrough < start then none
  else match standingAt events category chargedThrough with
    | none => none
    | some s =>
      if s.finish.any (· ≤ chargedThrough) then none
      else s.lastActiveTarget?.map .migrateBilling

/-! ## Bundles -/

structure ImportContext where
  catalog : Catalog
  stamp : Stamp

namespace ImportContext

/-- All cases have to be on plans of the subscription's category. -/
def checkCategory (cx : ImportContext) (m : SubscriptionMigration) : Except Error Unit :=
  m.cases.forM fun c => do
    let plan ← cx.catalog.findPlanByName c.plan cx.stamp.now
    if plan.product.category ≠ m.category then
      throw (.categoryMismatch plan.name m.category plan.product.category)

/-- Put the billing marker in front of the first event that is not before it. -/
def withMarker (events : List Event) (marker : Event) : List Event :=
  let place := bisect (·.effective < marker.effective) events
  events.take place ++ marker :: events.drop place

/-- The events of a subscription from its cases, the billing marker included. -/
def addMarker (cx : ImportContext) (id : EventId) (subscription : SubscriptionId)
    (m : SubscriptionMigration) (start : Instant) (events : List Event) : List Event :=
  match m.chargedThrough with
  | none => events
  | some date => match billingMarker? events m.category start date with
    | none => events
    | some payload => withMarker events (cx.stamp.event id ⟨subscription, date, payload⟩)

/-- One subscription of a bundle. The first base-like one starts the bundle, `bundleStart` once
there is one. -/
def planSubscription (cx : ImportContext) (bundle : BundleId) (key : String)
    (bundleStart : Option Instant) (supply : Supply) (m : SubscriptionMigration) :
    Except Error Subscription := do
  cx.checkCategory m
  let id := supply.subscription 0
  let cases ← cx.catalog.alignCases m.cases cx.stamp.now
  let events := cx.stamp.events supply.event (cases.map fun e => ⟨id, e.effective, e.payload⟩)
  match events.head?.map (·.effective) with
  | none => throw (.invalidMigration .noCases)
  | some start =>
    match bundleStart.or (if m.category.isBaseLike then some start else none) with
    | none => throw (.invalidMigration (.addOnsWithoutBase key))
    | some bundleStart =>
      return { id, bundle, category := m.category, start, bundleStart, alignStart := start,
               chargedThrough := m.chargedThrough, version := 1,
               events := cx.addMarker (supply.event events.length) id m start events }

def planSubscriptions (cx : ImportContext) (bundle : BundleId) (key : String)
    (bundleStart : Option Instant) (supply : Supply) :
    List SubscriptionMigration → Except Error (List Subscription × Supply)
  | [] => .ok ([], supply)
  | m :: ms => do
    let s ← cx.planSubscription bundle key bundleStart supply m
    let (rest, supply) ← cx.planSubscriptions bundle key (some s.bundleStart)
      (supply.drop 0 1 s.events.length) ms
    return (s :: rest, supply)

end ImportContext

namespace SubscriptionMigration

def firstDate? (m : SubscriptionMigration) : Option Instant :=
  (sortBy MigrationCase.dateLe m.cases).head?.map (·.effective)

/-- Base-like subscriptions first, then by the date of the first case; one without cases goes
before those that have some. -/
def le (a b : SubscriptionMigration) : Bool :=
  match a.category.isBaseLike, b.category.isBaseLike with
  | true, false => true
  | false, true => false
  | _, _ => match a.firstDate?, b.firstDate? with
    | none, _ => true
    | some _, none => false
    | some x, some y => x ≤ y

end SubscriptionMigration

namespace ImportContext

/-- One bundle, which starts with its first subscription. -/
def planBundle (cx : ImportContext) (account : AccountId) (supply : Supply)
    (m : BundleMigration) : Except Error (BundleImage × Supply) := do
  let id := supply.bundle 0
  let (subscriptions, supply) ← cx.planSubscriptions id m.key none (supply.drop 1 0 0)
    (sortBy SubscriptionMigration.le m.subscriptions)
  match subscriptions.head? with
  | none => throw (.invalidMigration (.noSubscriptions m.key))
  | some first =>
    return ({ bundle := { id, key := m.key, account, start := first.bundleStart,
                          updated := cx.stamp.now },
              subscriptions }, supply)

def planBundles (cx : ImportContext) (account : AccountId) (supply : Supply) :
    List BundleMigration → Except Error (List BundleImage)
  | [] => .ok []
  | m :: ms => do
    let (image, supply) ← cx.planBundle account supply m
    return image :: (← cx.planBundles account supply ms)

end ImportContext

/-- The first key that is taken, be it by a bundle that exists or by an earlier one. -/
def firstTakenKey? (taken : List String) : List BundleMigration → Option String
  | [] => none
  | m :: ms => if taken.contains m.key then some m.key else firstTakenKey? (m.key :: taken) ms

/-- The bundles that an account migration describes. One key in use rejects the whole import. -/
def planMigration (catalog : Catalog) (migration : AccountMigration) (existing : List Bundle)
    (context : CallContext) (now : Instant) (supply : Supply) :
    Except Error (List BundleImage) :=
  match firstTakenKey? (existing.map (·.key)) migration.bundles with
  | some key => .error (.bundleKeyInUse migration.account key)
  | none =>
    let cx : ImportContext := ⟨catalog, .ofContext context now⟩
    cx.planBundles migration.account supply migration.bundles

end Tenure
