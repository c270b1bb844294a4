import Tenure.Generator
import Tenure.Repair.Plan

/-!
# The engine

An engine answers questions about a store and carries out operations on it, by the rules of a
catalog. An operation takes the store, and the clock's reading as `now`, and gives a result or an
error together with the store as it is afterwards.

Every change to an existing bundle is made while holding the lock on the bundle (`locked`), so
engines that share a store take turns. An engine tries for a lock a number of times, and its clock
goes on in between.

What is done under the lock is a function that gives an error or a new store. Here it is carried out
as a whole or not at all; the statements by which it is, any of which may fail, are those of
`Tenure.Engine.Staged`.
-/

namespace Tenure

instance : MonadLift (Except StoreError) (Except Error) := ⟨Except.mapError Error.store⟩

structure Engine where
  catalog : Catalog
  settings : Settings
  /-- The name under which the engine holds locks. -/
  owner : String
  /-- What the clock reads at each try for a lock. -/
  tries : Nat → Instant
  ids : Generator

namespace Engine

/-- An engine with settings that are in order. -/
def open? (catalog : Catalog) (settings : Settings) (owner : String) (tries : Nat → Instant)
    (ids : Generator) : Except Error Engine :=
  match settings.validate with
  | .error e => .error (.settings e)
  | .ok () => .ok ⟨catalog, settings, owner, tries, ids⟩

/-- The identifiers that the engine gives out next. Whoever holds a lock makes no difference. -/
def supply (e : Engine) (s : Store) : Supply := e.ids.draw { s with locks := [] }

/-! ## Locking -/

/-- The age at which a lock counts as abandoned. -/
def ttlMillis (e : Engine) : Int := e.settings.lockTtlSeconds * 1000

/-- Try for the lock on a bundle, up to `left` times from the `k`-th try on. -/
def acquireFrom (e : Engine) (bundle : BundleId) : (k left : Nat) → Store →
    Except Error Unit × Store
  | _, 0, s => (.error (.lockTimeout bundle e.settings.attempts), s)
  | k, left + 1, s =>
    match s.tryLock bundle e.owner (e.tries k) e.ttlMillis with
    | (true, s) => (.ok (), s)
    | (false, s) => e.acquireFrom bundle (k + 1) left s

/-- Take the lock on a bundle. -/
def acquire (e : Engine) (bundle : BundleId) (s : Store) : Except Error Unit × Store :=
  e.acquireFrom bundle 0 e.settings.attempts s

/-- Carry out `body` while holding the lock on a bundle. -/
def locked {α : Type} (e : Engine) (bundle : BundleId)
    (body : Store → Except Error (α × Store)) (s : Store) : Except Error α × Store :=
  match e.acquire bundle s with
  | (.error err, s) => (.error err, s)
  | (.ok (), s) => match body s with
    | .error err => (.error err, s.unlock bundle e.owner)
    | .ok (a, s) => (.ok a, s.unlock bundle e.owner)

/-- Carry out `body` without a lock. -/
def unlocked {α : Type} (body : Store → Except Error (α × Store)) (s : Store) :
    Except Error α × Store :=
  match body s with
  | .error err => (.error err, s)
  | .ok (a, s) => (.ok a, s)

/-! ## Reading -/

def bundle (s : Store) (id : BundleId) : Except Error Bundle :=
  match s.bundle? id with
  | some b => .ok b
  | none => .error (.bundleNotFound id)

def subscription (s : Store) (id : SubscriptionId) : Except Error Subscription :=
  match s.subscription? id with
  | some sub => .ok sub
  | none => .error (.subscriptionNotFound id)

/-- The state of a subscription as of a date; none if it was never created. -/
def standing (s : Store) (id : SubscriptionId) (asOf : Instant) :
    Except Error (Option Standing) :=
  (subscription s id).map (·.standingAt asOf)

def timeline (s : Store) (id : BundleId) : Except Error TimelineView :=
  (bundle s id).map fun b => .ofBundle b (s.subscriptionsOf id)

end Engine

/-- A key that is taken, as the engine reports it. -/
def StoreError.toKeyInUse (account : AccountId) : StoreError → Error
  | .duplicateKey _ key => .bundleKeyInUse account key
  | e => .store e

end Tenure
