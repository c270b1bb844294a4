import Tenure.Commit
import Tenure.Repair.Replay

/-!
# Planning a repair

`planRepair` checks a repair against a bundle as loaded and works out what it does: the timeline
that a dry run shows and the commit that storage writes. Nothing here reads a clock or writes.

The checks, in order:

1. the repair was prepared on the bundle's current view;
2. some subscription of the bundle has a history;
3. every edit is of a subscription of the bundle;
4. each edit cuts a tail and proposes well-formed events (`Rework.prepare`);
5. no proposal precedes what the base plan or the subscription itself keeps (`dateFault?`);
6. a base plan built anew takes every add-on along, each built anew (`recreationFault?`);
7. no add-on is built anew before the base plan starts (`startFault?`);
8. add-ons keep nothing from the first event cut off the base plan on (`keptFault?`).

Then the proposals are replayed.
-/

namespace Tenure

/-- What a repair comes to: the timeline to show and the commit to write. -/
structure RepairPlan where
  view : TimelineView
  commit : RepairCommit
  deriving DecidableEq

/-! ## Gathering edits -/

namespace Repair

/-- The first subscription edited that the bundle does not have. -/
def stranger? (repair : Repair) (subscriptions : List Subscription) : Option SubscriptionId :=
  (repair.edits.find? fun e => !subscriptions.any (·.id == e.subscription)).map (·.subscription)

/-- The edited subscriptions, in the order in which the bundle has them, each with its edits taken
together. An edit goes to the first subscription of its identifier. -/
def gather (edits : List Edit) : List Subscription → List (Subscription × Edit)
  | [] => []
  | s :: ss => match edits.filter (·.subscription == s.id) with
    | [] => gather edits ss
    | own =>
      (s, ⟨s.id, own.flatMap (·.deleted), own.flatMap (·.proposals)⟩)
        :: gather (edits.filter (·.subscription != s.id)) ss

def prepareAll (repair : Repair) (subscriptions : List Subscription) :
    Except RepairError (List Rework) :=
  (gather repair.edits subscriptions).mapM fun (s, e) => Rework.prepare s e.deleted e.proposals

end Repair

/-! ## Checks across subscriptions -/

/-- A bundle together with the edited ones among its subscriptions. -/
structure Workbench where
  bundle : Bundle
  subscriptions : List Subscription
  works : List Rework

namespace Workbench

def base? (b : Workbench) : Option Subscription := b.subscriptions.find? (·.isBaseLike)

/-- The base plan, if it is edited. -/
def editedBase? (b : Workbench) : Option Rework := b.works.find? (·.isBaseLike)

def work? (b : Workbench) (id : SubscriptionId) : Option Rework := b.works.find? (·.id == id)

def addOns (b : Workbench) : List Subscription := b.subscriptions.filter (·.category == .addOn)

def isBaseRecreated (b : Workbench) : Bool := b.editedBase?.any (·.isRecreated)

/-- The date of the last event that the base plan keeps. One that is not edited keeps all. -/
def lastBaseKept? (b : Workbench) : Option Instant :=
  match b.editedBase? with
  | some w => w.lastKept?
  | none => b.base?.bind fun s => s.effectiveEvents.getLast?.map (·.effective)

/-- What is wrong with the date of a proposal. -/
def dateFault? (lastBaseKept : Option Instant) (w : Rework) (p : Proposal) : Option RepairError :=
  match lastBaseKept.filter (p.effective < ·) with
  | some last => some (.newEventBeforeBaseRemaining w.id p.effective last)
  | none => (w.lastKept?.filter (p.effective < ·)).map fun last =>
    if w.isBaseLike then .newEventBeforeBaseRemaining w.id p.effective last
    else .newEventBeforeOwnRemaining w.id p.effective last

def datesFault? (b : Workbench) : Option RepairError :=
  b.works.findSome? fun w => w.proposals.findSome? (dateFault? b.lastBaseKept? w)

/-- An add-on that a base plan built anew leaves behind. -/
def recreationFault? (b : Workbench) : Option RepairError :=
  if b.isBaseRecreated then
    b.addOns.findSome? fun s => match b.work? s.id with
      | none => some (.baseRecreateMissingAddOn s.id)
      | some w => if w.isRecreated then none else some (.baseRecreateMissingAddOnCreate s.id)
  else none

/-- The start of the base plan, after the repair. -/
def baseStart? (b : Workbench) : Option Instant :=
  (b.editedBase?.map (·.start)).or (b.base?.map (·.start))

/-- An add-on built anew before the base plan starts. -/
def startFault? (b : Workbench) : Option RepairError :=
  b.baseStart?.bind fun baseStart =>
    (b.works.find? fun w =>
      w.isRecreated && w.subscription.category == .addOn && w.start < baseStart).map
        fun w => .addOnCreateBeforeBaseStart w.id w.start baseStart

def keptOf (b : Workbench) (s : Subscription) : List Event :=
  match b.work? s.id with
  | some w => w.kept
  | none => s.effectiveEvents

/-- An add-on that keeps an event from the first one cut off the base plan on. -/
def keptFault? (b : Workbench) : Option RepairError :=
  (b.editedBase?.bind (·.firstCut?)).bind fun firstCut =>
    b.addOns.findSome? fun s =>
      ((b.keptOf s).find? (firstCut ≤ ·.effective)).map fun e =>
        .missingAddOnDelete s.id e.effective firstCut

def fault? (b : Workbench) : Option RepairError :=
  b.datesFault?.or <| b.recreationFault?.or <| b.startFault?.or b.keptFault?

/-- The start of the bundle that phases may be laid out from: a base plan built anew moves it. -/
def bundleStart (b : Workbench) : Instant :=
  match b.editedBase?.filter (·.isRecreated), b.base? with
  | some w, _ => w.start
  | none, some s => s.bundleStart
  | none, none => b.bundle.start

def nextOrdering (b : Workbench) : Nat :=
  b.subscriptions.foldl (fun n s => max n s.maxOrdering) 0 + 1

/-! ## Results -/

def timelineOf (works : List Rework) (s : Subscription) : SubscriptionTimeline :=
  match (works.find? (·.id == s.id)).filter (·.isTouched) with
  | some w =>
    { subscription := s.id, category := s.category, version := s.version, existing := w.kept,
      deleted := w.deleted, new := w.added }
  | none => .current s

def repaired (b : Workbench) (w : Rework) : RepairedSubscription :=
  { id := w.id
    start := w.start
    bundleStart := if b.isBaseRecreated then b.bundleStart else w.subscription.bundleStart
    alignStart := w.alignStart
    events := w.events }

end Workbench

/-- Check a repair against a bundle as loaded and work it out. New events get the
identifiers `ids`. -/
def planRepair (catalog : Catalog) (bundle : Bundle) (currentView : String)
    (subscriptions : List Subscription) (repair : Repair) (context : CallContext) (now : Instant)
    (ids : Nat → EventId) : Except Error RepairPlan := do
  if repair.viewId ≠ currentView then
    throw (.repair (.viewChanged bundle.id repair.viewId currentView))
  if subscriptions.all fun s => (finalStanding s.events s.category).isNone then
    throw (.repair (.noActiveSubscriptions bundle.id))
  if let some id := repair.stranger? subscriptions then
    throw (.repair (.unknownSubscription bundle.id id))
  let works ← repair.prepareAll subscriptions
  let bench : Workbench := ⟨bundle, subscriptions, works⟩
  if let some fault := bench.fault? then
    throw (.repair fault)
  let works ← Replay.run
    { catalog, bundleStart := bench.bundleStart, stamp := .ofContext context now, ids,
      firstOrdering := bench.nextOrdering } works
  return {
    view :=
      { viewId := currentView, bundle := bundle.id,
        subscriptions := subscriptions.map (Workbench.timelineOf works) }
    commit :=
      { bundle := bundle.id, expectedView := repair.viewId,
        bundleStart := if bench.isBaseRecreated then some bench.bundleStart else none,
        subscriptions := (works.filter (·.isTouched)).map bench.repaired,
        createdBy := context.createdBy } }

end Tenure
