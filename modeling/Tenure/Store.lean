import Tenure.Commit
import Tenure.Error
import Tenure.Hash.Blake3
import Tenure.Payload.Encoding

/-!
# The store

What is kept: bundles, subscriptions, events, records of repairs, and locks. Rows are only ever
added; of the fields, a bundle's start and update time and a subscription's dates and version
change. The event at place `n` of the list has the ordering `n + 1`, so orderings are given out
in the order of recording and none is given out twice.

A subscription shows the events of its active version. A repair writes a whole new version and
leaves the older ones as they were.

Every write is given as a function from the store to an error or a new store. The statements that
it is made of, and what is saved when one of them fails, are those of `Tenure.Session`. Dates are
kept in milliseconds.
-/

namespace Tenure

/-- Who holds a bundle, and since which millisecond. -/
structure Lock where
  bundle : BundleId
  owner : String
  acquiredAt : Int
  deriving DecidableEq

structure Store where
  bundles : List Bundle := []
  records : List SubscriptionRecord := []
  events : List Event := []
  repairs : List RepairRecord := []
  locks : List Lock := []
  deriving DecidableEq

namespace Store

/-! ## Reading -/

def bundle? (s : Store) (id : BundleId) : Option Bundle := s.bundles.find? (·.id == id)

def bundleByKey? (s : Store) (account : AccountId) (key : String) : Option Bundle :=
  s.bundles.find? fun b => b.account == account && b.key == key

/-- By start, then by key. -/
def bundleLe (a b : Bundle) : Bool :=
  a.start < b.start || (a.start == b.start && (a.key == b.key || decide (a.key < b.key)))

def bundlesOf (s : Store) (account : AccountId) : List Bundle :=
  sortBy bundleLe (s.bundles.filter (·.account == account))

def record? (s : Store) (id : SubscriptionId) : Option SubscriptionRecord :=
  s.records.find? (·.id == id)

/-- By effective date, then in the order of recording. -/
def eventLe (a b : Event) : Bool :=
  a.effective < b.effective || (a.effective == b.effective && a.ordering ≤ b.ordering)

/-- The events of one version of a subscription. -/
def eventsAt (s : Store) (id : SubscriptionId) (version : Nat) : List Event :=
  sortBy eventLe (s.events.filter fun e => e.subscription == id && e.version == version)

/-- A subscription with the events of its active version. -/
def visible (s : Store) (r : SubscriptionRecord) : Subscription :=
  { r with events := s.eventsAt r.id r.version }

def subscription? (s : Store) (id : SubscriptionId) : Option Subscription :=
  (s.record? id).map s.visible

/-- Add-ons last, then by start, then by identifier. -/
def recordLe (a b : SubscriptionRecord) : Bool :=
  match a.category == .addOn, b.category == .addOn with
  | false, true => true
  | true, false => false
  | _, _ => a.start < b.start || (a.start == b.start && a.id.number ≤ b.id.number)

def subscriptionsOf (s : Store) (bundle : BundleId) : List Subscription :=
  (sortBy recordLe (s.records.filter (·.bundle == bundle))).map s.visible

/-- The view token of a bundle. -/
def viewOf (s : Store) (id : BundleId) : Except StoreError String :=
  match s.bundle? id with
  | none => .error (.unknownBundle id)
  | some b =>
    let visible := s.events.filter fun e => s.records.any fun r =>
      r.bundle == id && r.id == e.subscription && r.version == e.version
    .ok (viewId (maxOrdering visible) b.updated)

def repairsOf (s : Store) (bundle : BundleId) : List RepairRecord :=
  s.repairs.filter (·.bundle == bundle)

def eventCount (s : Store) : Nat := s.events.length

/-! ## Rows -/

/-- Identifiers of bundles are unique, and so are keys within an account. -/
def insertBundle (s : Store) (b : Bundle) : Except StoreError Store :=
  if s.bundles.any fun c => c.id == b.id || (c.account == b.account && c.key == b.key) then
    .error (.duplicateKey b.account b.key)
  else
    .ok { s with bundles := s.bundles ++
      [{ b with start := b.start.floorMillis, updated := b.updated.floorMillis }] }

/-- A subscription is new and belongs to a bundle that exists. -/
def insertRecord (s : Store) (r : SubscriptionRecord) (version : Nat) : Except StoreError Store :=
  if s.records.any (·.id == r.id) || !s.bundles.any (·.id == r.bundle) then
    .error .brokenConstraint
  else
    .ok { s with records := s.records ++
      [{ r with
          start := r.start.floorMillis
          bundleStart := r.bundleStart.floorMillis
          alignStart := r.alignStart.floorMillis
          chargedThrough := r.chargedThrough.map (·.floorMillis)
          version }] }

/-- An event as it is stored next. -/
def stamped (s : Store) (e : Event) (version : Nat) : Event :=
  { e with version, ordering := s.events.length + 1, stored := true }

/-- An event is new to its version and belongs to a subscription that exists. Gives the event back
as it was stored, with the dates as they came. -/
def insertEvent (s : Store) (e : Event) (version : Nat) : Except StoreError (Event × Store) :=
  if s.events.any (fun f => f.id == e.id && f.version == version)
      || !s.records.any (·.id == e.subscription) then
    .error .brokenConstraint
  else
    let stored := s.stamped e version
    .ok (stored, { s with events := s.events ++
      [{ stored with
          effective := e.effective.floorMillis
          processed := e.processed.floorMillis
          requested := e.requested.floorMillis }] })

def insertEvents (s : Store) (version : Nat) : List Event → Except StoreError Store
  | [] => .ok s
  | e :: es => do
    let (_, s) ← s.insertEvent e version
    s.insertEvents version es

/-- Note a write to a bundle. -/
def touch (s : Store) (id : BundleId) (now : Instant) : Except StoreError Store :=
  if s.bundles.any (·.id == id) then
    .ok { s with bundles := s.bundles.map fun b =>
      if b.id == id then { b with updated := now.floorMillis } else b }
  else .error (.unknownBundle id)

/-- The record of a subscription that has to exist. -/
def requireRecord (s : Store) (id : SubscriptionId) : Except StoreError SubscriptionRecord :=
  match s.record? id with
  | some r => .ok r
  | none => .error (.unknownSubscription id)

/-! ## Bundles and subscriptions -/

def createBundle (s : Store) (b : Bundle) : Except StoreError Store := s.insertBundle b

/-- Insert a subscription with its first events, at version 1. -/
def createSubscription (s : Store) (sub : Subscription) (now : Instant) :
    Except StoreError (Subscription × Store) := do
  let s ← s.insertRecord sub.toSubscriptionRecord 1
  let s ← s.insertEvents 1 sub.events
  let s ← s.touch sub.bundle now
  match s.subscription? sub.id with
  | some stored => return (stored, s)
  | none => throw (.unknownSubscription sub.id)

def setChargedThrough (s : Store) (id : SubscriptionId) (date : Option Instant) :
    Except StoreError Store :=
  if s.records.any (·.id == id) then
    .ok { s with records := s.records.map fun r =>
      if r.id == id then { r with chargedThrough := date.map (·.floorMillis) } else r }
  else .error (.unknownSubscription id)

/-! ## Appending events -/

/-- Append one event of a bundle at the active version of its subscription. -/
def appendOne (s : Store) (bundle : BundleId) (e : Event) : Except StoreError (Event × Store) := do
  let r ← s.requireRecord e.subscription
  if r.bundle ≠ bundle then
    throw (.foreignSubscription e.subscription bundle)
  s.insertEvent e r.version

def appendAll (s : Store) (bundle : BundleId) : List Event → Except StoreError (List Event × Store)
  | [] => .ok ([], s)
  | e :: es => do
    let (stored, s) ← s.appendOne bundle e
    let (rest, s) ← s.appendAll bundle es
    return (stored :: rest, s)

/-- Append events to subscriptions of one bundle, all of them or none. -/
def appendToBundle (s : Store) (bundle : BundleId) (es : List Event) (now : Instant) :
    Except StoreError (List Event × Store) := do
  let (stored, s) ← s.appendAll bundle es
  return (stored, ← s.touch bundle now)

/-- Append events to one subscription. -/
def append (s : Store) (id : SubscriptionId) (es : List Event) (now : Instant) :
    Except StoreError (List Event × Store) :=
  match es.find? (·.subscription != id) with
  | some stray => .error (.strayEvent stray.id stray.subscription id)
  | none => do
    let r ← s.requireRecord id
    s.appendToBundle r.bundle es now

/-! ## Repairs -/

/-- The bytes that the checksum of a repair is taken of: per subscription its identifier, then per
event its identifier, its date in milliseconds and its payload. -/
def checksumInput (subscriptions : List (SubscriptionId × List Event)) : List UInt8 :=
  subscriptions.flatMap fun (id, events) =>
    Uuid.bytes id.number ++ events.flatMap fun e =>
      let millis := e.effective.millis % (UInt64.size : Int)
      Uuid.bytes e.id.number ++ Bytes.bigEndian 8 millis.toNat ++ e.payload.encode

/-- Let a subscription show another version, with the dates that go with it. -/
def setVersion (s : Store) (sub : RepairedSubscription) (version : Nat) : Store :=
  { s with records := s.records.map fun r =>
      if r.id == sub.id then
        { r with
          version
          start := sub.start.floorMillis
          bundleStart := sub.bundleStart.floorMillis
          alignStart := sub.alignStart.floorMillis }
      else r }

/-- Write the new history of a subscription as its next version. -/
def writeVersion (s : Store) (bundle : BundleId) (sub : RepairedSubscription) :
    Except StoreError Store := do
  let r ← s.requireRecord sub.id
  if r.bundle ≠ bundle then
    throw (.foreignSubscription sub.id bundle)
  let s ← s.insertEvents (r.version + 1) sub.events
  return s.setVersion sub (r.version + 1)

def writeVersions (s : Store) (bundle : BundleId) :
    List RepairedSubscription → Except StoreError Store
  | [] => .ok s
  | sub :: subs => do
    let s ← s.writeVersion bundle sub
    s.writeVersions bundle subs

/-- Move the start of a bundle, if there is one to move it to. -/
def setBundleStart (s : Store) (id : BundleId) (start : Option Instant) : Store :=
  match start with
  | none => s
  | some date => { s with bundles := s.bundles.map fun b =>
      if b.id == id then { b with start := date.floorMillis } else b }

/-- Keep a record of a repair. Gives it back with the time as it came. -/
def insertRepair (s : Store) (commit : RepairCommit) (now : Instant) : RepairRecord × Store :=
  let record : RepairRecord :=
    { number := s.repairs.length + 1
      bundle := commit.bundle
      subscriptions := commit.subscriptions.map (·.id)
      eventCount := (commit.subscriptions.flatMap (·.events)).length
      checksum := Blake3.hash
        (checksumInput (commit.subscriptions.map fun sub => (sub.id, sub.events)))
      createdBy := commit.createdBy
      createdAt := now }
  (record, { s with repairs := s.repairs ++ [{ record with createdAt := now.floorMillis }] })

/-- Write a repair, if the bundle still has the view that it was checked against. -/
def commitRepair (s : Store) (commit : RepairCommit) (now : Instant) :
    Except StoreError (RepairRecord × Store) := do
  let current ← s.viewOf commit.bundle
  if current ≠ commit.expectedView then
    throw (.viewChanged commit.bundle commit.expectedView current)
  let s ← s.writeVersions commit.bundle commit.subscriptions
  let s ← (s.setBundleStart commit.bundle commit.bundleStart).touch commit.bundle now
  return s.insertRepair commit now

/-! ## Whole bundles -/

def insertSubscriptions (s : Store) : List Subscription → Except StoreError Store
  | [] => .ok s
  | sub :: subs => do
    let s ← s.insertRecord sub.toSubscriptionRecord 1
    let s ← s.insertEvents 1 sub.events
    s.insertSubscriptions subs

def insertImages (s : Store) (now : Instant) : List BundleImage → Except StoreError Store
  | [] => .ok s
  | image :: images => do
    let s ← s.insertBundle image.bundle
    let s ← s.insertSubscriptions image.subscriptions
    let s ← s.touch image.bundle.id now
    s.insertImages now images

def appendEach (s : Store) (now : Instant) : List Event → Except StoreError Store
  | [] => .ok s
  | e :: es => do
    let r ← s.requireRecord e.subscription
    let (_, s) ← s.appendOne r.bundle e
    let s ← s.touch r.bundle now
    s.appendEach now es

/-- Write bundles from scratch and append events to subscriptions that exist, all or nothing. -/
def commitBundles (s : Store) (images : List BundleImage) (appended : List Event)
    (now : Instant) : Except StoreError Store := do
  let s ← s.insertImages now images
  s.appendEach now appended

/-! ## Locks -/

/-- Drop the lock on a bundle if it is older than `ttl` nanoseconds. An age that reaches back beyond
the calendar is never exceeded. -/
def expire (s : Store) (bundle : BundleId) (now : Instant) (ttl : Int) : Store :=
  match now.shift? (-ttl) with
  | none => s
  | some cutoff => { s with locks := s.locks.filter fun l =>
      !(l.bundle == bundle && l.acquiredAt < cutoff.millis) }

/-- Add a lock on a bundle, unless it has one, whoever holds it. -/
def insertLock (s : Store) (bundle : BundleId) (owner : String) (now : Instant) : Bool × Store :=
  if s.locks.any (·.bundle == bundle) then (false, s)
  else (true, { s with locks := s.locks ++ [⟨bundle, owner, now.millis⟩] })

/-- Take the lock on a bundle. Fails while there is one that has not expired. -/
def takeLock (s : Store) (bundle : BundleId) (owner : String) (now : Instant) (ttl : Int) :
    Bool × Store :=
  (s.expire bundle now ttl).insertLock bundle owner now

/-- Drop the lock on a bundle if it is older than `ttlMillis`. -/
def expireLock (s : Store) (bundle : BundleId) (now : Instant) (ttlMillis : Int) : Store :=
  s.expire bundle now (ttlMillis * nanosPerMilli)

/-- Take the lock on a bundle, by an age in milliseconds. -/
def tryLock (s : Store) (bundle : BundleId) (owner : String) (now : Instant) (ttlMillis : Int) :
    Bool × Store :=
  s.takeLock bundle owner now (ttlMillis * nanosPerMilli)

/-- Give a lock back; one that somebody else holds stays. -/
def unlock (s : Store) (bundle : BundleId) (owner : String) : Store :=
  { s with locks := s.locks.filter fun l => !(l.bundle == bundle && l.owner == owner) }

end Store

end Tenure
