import Tenure.Run
import Tenure.Session

/-!
# Operations by their calls of storage

An operation is stated as a function of the store that is applied under a lock and leaves nothing
behind when it fails. What carries it out is a chain of separate calls of storage (`Step.chain`):
tries for the lock, reads, a write, a read of what was written, the release of the lock. Each call
may fail, and what a call has saved stays even if a later one fails.
-/

namespace Tenure

namespace Sql

variable {α β : Type}

/-- A call of storage, with its failures as the engine reports them. -/
def reporting (report : StoreError → Error) (c : Sql StoreError α) : Sql Error α := fun faults =>
  (c faults).adaptExcept report

/-- What the engine makes of rows that it has read. -/
def plan (f : Store → Except Error α) : Sql Error α := fun _ x =>
  match f x.saved with
  | .ok a => .ok a x
  | .error err => .error err x

/-- Read rows, and go on with what `f` makes of them. -/
def look [Dated β] (read : Store → β) (f : Store → Except Error α) : Sql Error α := do
  let _ ← reporting .store (query read)
  plan f

def readBack [Dated β] (read : Store → β) (f : Store → Except Error α) : Sql Error Unit := do
  let _ ← reporting .store fun faults => perform faults.readBack (fetch read) faults
  let _ ← plan f

/-- Try for the lock on a bundle, up to `left` times from the `k`-th try on. -/
def acquireFrom (e : Engine) (bundle : BundleId) : (k left : Nat) → Sql Error Unit
  | _, 0 => throw (.lockTimeout bundle e.settings.attempts)
  | k, left + 1 => do
    unless ← reporting .store (tryLock bundle e.owner (e.tries k) e.ttlMillis) do
      acquireFrom e bundle (k + 1) left

/-- Give the lock on a bundle back once `body` is done or has failed. A failure of `body` is what is
reported then, and otherwise one of giving the lock back. -/
def releasing (e : Engine) (bundle : BundleId) (body : Sql Error Unit) : Sql Error Unit :=
  fun faults x =>
    match body faults x with
    | .ok _ y => reporting .store (unlock bundle e.owner) faults y
    | .error err y => match reporting .store (unlock bundle e.owner) faults y with
      | .ok _ z | .error _ z => .error err z

/-- Carry out `body` while holding the lock on a bundle. -/
def holding (e : Engine) (bundle : BundleId) (body : Sql Error Unit) : Sql Error Unit := do
  acquireFrom e bundle 0 e.settings.attempts
  releasing e bundle body

def holdingFor (e : Engine) (id : SubscriptionId) (body : Sql Error Unit) : Sql Error Unit := do
  let sub ← look (·.subscription? id) (Engine.subscription · id)
  holding e sub.bundle body

end Sql

open Sql in
/-- The calls of storage that carry out a step. -/
def Step.chain : Step → Sql Error Unit
  | ⟨e, context, now, .createBundle account key⟩ => do
    let b ← look (·.bundleByKey? account key) fun s =>
      if (s.bundleByKey? account key).isSome then .error (.bundleKeyInUse account key)
      else .ok { id := (e.supply s).bundle 0, key, account,
                 start := context.requested.getD now, updated := now }
    reporting (·.toKeyInUse account) (createBundle b)
  | ⟨e, context, now, .createSubscription bundle spec⟩ => holding e bundle do
    let _ ← look (·.bundle? bundle) (Engine.bundle · bundle)
    let sub ← look (·.subscriptionsOf bundle) (e.newSubscription context now bundle spec)
    let _ ← reporting .store (createSubscription sub now)
  | ⟨e, context, now, .changePlan id spec⟩ => holdingFor e id do
    let events ← look (·.subscription? id) (e.changeEvents context now id spec)
    let _ ← reporting .store (append id events now)
    readBack (·.subscription? id) (Engine.subscription · id)
  | ⟨e, context, now, .cancel id⟩ => holdingFor e id do
    let (sub, _) ← look (·.subscription? id) (e.cancelDate context now id)
    if sub.category == .base then
      look (·.subscriptionsOf sub.bundle) fun _ => .ok ()
    let (bundle, events) ← plan (e.cancelEvents context now id)
    let _ ← reporting .store (appendToBundle bundle events now)
    readBack (·.subscription? id) (Engine.subscription · id)
  | ⟨e, context, now, .uncancel id⟩ => holdingFor e id do
    let (sub, _) ← look (·.subscription? id) (Engine.pendingCancel context now id)
    if sub.category == .base then
      look (·.subscriptionsOf sub.bundle) fun _ => .ok ()
    let (bundle, events) ← plan (e.uncancelEvents context now id)
    let _ ← reporting .store (appendToBundle bundle events now)
    readBack (·.subscription? id) (Engine.subscription · id)
  | ⟨e, _, _, .setChargedThrough id date⟩ => holdingFor e id do
    reporting .store (setChargedThrough id date)
  | ⟨e, context, now, .repair bundle repair dryRun⟩ => holding e bundle do
    look (·.bundle? bundle) fun s =>
      if (s.bundle? bundle).isSome then .ok () else .error (.repair (.unknownBundle bundle))
    let made ← look (·.subscriptionsOf bundle) (e.planStored context now bundle repair)
    unless dryRun do
      let _ ← reporting (Engine.commitError bundle) (commitRepair made.commit now)
      readBack (·.bundle? bundle) (Engine.bundle · bundle)
      readBack (·.subscriptionsOf bundle) (Engine.timeline · bundle)
  | ⟨e, context, now, .migrate migration⟩ => do
    let images ← look (·.bundlesOf migration.account) fun s =>
      planMigration e.catalog migration (s.bundlesOf migration.account) context now (e.supply s)
    reporting (·.toKeyInUse migration.account) (commitBundles images [] now)
  | ⟨e, context, now, .transfer request⟩ => do
    let source ← look (·.bundleByKey? request.source request.key) fun s =>
      match s.bundleByKey? request.source request.key with
      | none => .error (.bundleKeyNotFound request.key)
      | some source => .ok source
    look (·.bundleByKey? request.destination request.key) fun s =>
      if (s.bundleByKey? request.destination request.key).isSome then
        .error (.bundleKeyInUse request.destination request.key) else .ok ()
    holding e source.id do
      let made ← look (·.subscriptionsOf source.id) fun s =>
        planTransfer source (s.subscriptionsOf source.id) request context now (e.supply s)
      reporting (·.toKeyInUse request.destination) (commitBundles [made.image] made.cancels now)

/-- What a chain comes to, and what is saved then. -/
def Sql.result : EStateM.Result Error Session Unit → Except Error Unit × Store
  | .ok _ x => (.ok (), x.saved)
  | .error err x => (.error err, x.saved)

/-- What a step comes to where `faults` go wrong, and the store after it. -/
def Step.staged (st : Step) (faults : Faults) (s : Store) : Except Error Unit × Store :=
  Sql.result (st.chain faults { saved := s })

end Tenure
