import Tenure.Engine
import Tenure.Migration
import Tenure.Transfer

/-!
# Planned operations

Repairs, imports and transfers are planned first, as pure functions of what is stored, and then
written in one go. A dry run of a repair stops after the planning.
-/

namespace Tenure.Engine

variable (e : Engine) (context : CallContext) (now : Instant)

/-! ## Repairs -/

/-- Plan a repair against a bundle as it is stored. -/
def planStored (id : BundleId) (repair : Repair) (s : Store) : Except Error RepairPlan :=
  match s.bundle? id with
  | none => .error (.repair (.unknownBundle id))
  | some b =>
    let subscriptions := s.subscriptionsOf id
    planRepair e.catalog b (b.viewId subscriptions) subscriptions repair context now
      (e.supply s).event

/-- A refused commit; a view that moved on in between is a matter of the repair. -/
def commitError (id : BundleId) : StoreError → Error
  | .viewChanged _ expected current => .repair (.viewChanged id expected current)
  | err => .store err

/-- Repair a bundle, and give the timeline that results: the computed one for a dry run, the
stored one otherwise. -/
def repair (id : BundleId) (repair : Repair) (dryRun : Bool) :
    Store → Except Error TimelineView × Store :=
  e.locked id fun s => do
    let plan ← e.planStored context now id repair s
    if dryRun then return (plan.view, s)
    let (_, s) ← (s.commitRepair plan.commit now).mapError (commitError id)
    return (← timeline s id, s)

/-! ## Imports and transfers -/

/-- Import the bundles of an account, all or none. -/
def migrate (migration : AccountMigration) : Store → Except Error (List Bundle) × Store :=
  unlocked fun s => do
    let images ← planMigration e.catalog migration (s.bundlesOf migration.account) context now
      (e.supply s)
    let s ← (s.commitBundles images [] now).mapError (·.toKeyInUse migration.account)
    return (images.map (·.bundle), s)

/-- Move a bundle to another account, and give the bundle there. -/
def transfer (request : TransferRequest) (s : Store) : Except Error Bundle × Store :=
  match s.bundleByKey? request.source request.key with
  | none => (.error (.bundleKeyNotFound request.key), s)
  | some source =>
    if (s.bundleByKey? request.destination request.key).isSome then
      (.error (.bundleKeyInUse request.destination request.key), s)
    else e.locked source.id (fun s => do
      let plan ← planTransfer source (s.subscriptionsOf source.id) request context now
        (e.supply s)
      let s ← (s.commitBundles [plan.image] plan.cancels now).mapError
        (·.toKeyInUse request.destination)
      return (plan.image.bundle, s)) s

end Tenure.Engine
