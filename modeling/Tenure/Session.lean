import Tenure.Store

/-!
# Sessions

What a call of storage comes to is a function of the store. How it gets there is by statements over
a connection to a database, one after the other, and each of them may fail. What a statement writes
is saved at once or, within a transaction, kept in a working copy that is saved at the end and given
up when something fails (`Sql.transaction`).

Reading fails by itself on a date behind the end of the calendar, which is what the milliseconds
of a leap second there name (`readsBack`).

That a call of storage is carried out as a whole or not at all is not part of these definitions. It
is proved of each call, against the function of the store that it realises.
-/

namespace Tenure

/-! ## Dates that read back -/

/-- The milliseconds that are kept of the date name a date. -/
def Instant.readsBack (t : Instant) : Bool := (ofMillis? t.millis).isSome

/-- What is read from rows, with the dates that stand in it. -/
class Dated (α : Type) where
  dates : α → List Instant

section Dated

variable {α : Type} [Dated α]

instance : Dated (Option α) := ⟨fun x => x.toList.flatMap Dated.dates⟩
instance : Dated (List α) := ⟨fun xs => xs.flatMap Dated.dates⟩
instance : Dated Bundle := ⟨fun b => [b.start, b.updated]⟩
instance : Dated SubscriptionRecord :=
  ⟨fun r => [r.start, r.bundleStart, r.alignStart] ++ r.chargedThrough.toList⟩
instance : Dated Event := ⟨fun e => [e.effective, e.processed, e.requested]⟩
instance : Dated Subscription :=
  ⟨fun sub => Dated.dates sub.toSubscriptionRecord ++ Dated.dates sub.events⟩

/-- The rows that operations read; locks and records of repairs are not among them. -/
instance : Dated Store :=
  ⟨fun s => Dated.dates s.bundles ++ Dated.dates s.records ++ Dated.dates s.events⟩

def readsBack (x : α) : Bool := (Dated.dates x).all (·.readsBack)

end Dated

/-! ## Connections -/

/-- What goes wrong in the course of an operation. -/
structure Faults where
  /-- By the number of the statement, counted from the first one of the operation. -/
  statement : Nat → Option StoreError := fun _ => none
  /-- When the outcome of a write is read. -/
  readBack : Option StoreError := none
  /-- When a lock is given back. -/
  release : Option StoreError := none

structure Session where
  saved : Store
  /-- The working copy of the transaction that is open. -/
  working : Option Store := none
  statements : Nat := 0

/-- What statements see. -/
def Session.current (x : Session) : Store := x.working.getD x.saved

def Session.write (x : Session) (s : Store) : Session :=
  if x.working.isSome then { x with working := some s } else { x with saved := s }

/-- Statements over a connection, up to the first failure. What was done before it stays. -/
abbrev Sql (ε : Type) := ReaderT Faults (EStateM ε Session)

namespace Sql

variable {α : Type}

/-- Do what `f` says, unless it goes wrong. -/
def perform (fault : Option StoreError) (f : Store → Except StoreError (α × Store)) :
    Sql StoreError α := fun _ x =>
  match fault with
  | some err => .error err x
  | none => match f x.current with
    | .error err => .error err x
    | .ok (a, s) => .ok a (x.write s)

/-- The next statement. -/
def exec (f : Store → Except StoreError (α × Store)) : Sql StoreError α := fun faults x =>
  perform (faults.statement x.statements) f faults { x with statements := x.statements + 1 }

/-- A write that gives nothing back. -/
def noValue {ε : Type} (f : Store → Except ε Store) (s : Store) : Except ε (Unit × Store) :=
  (f s).map ((), ·)

def update (f : Store → Except StoreError Store) : Sql StoreError Unit := exec (noValue f)

/-- Something that may go wrong but does not change anything. -/
def attempt : Sql StoreError Unit := update .ok

/-- What is read, if all dates in it do read back. -/
def fetch [Dated α] (read : Store → α) (s : Store) : Except StoreError (α × Store) :=
  if readsBack (read s) then .ok (read s, s) else .error .sqlite

def query [Dated α] (read : Store → α) : Sql StoreError α := exec (fetch read)

def commit : Sql StoreError Unit := do
  attempt
  modify fun x => { x with saved := x.current, working := none }

def rollback : Sql StoreError Unit := modify fun x => { x with working := none }

/-- Carry out `body` on a working copy, and save it unless something fails on the way. -/
def transaction (body : Sql StoreError α) : Sql StoreError α := do
  attempt
  modify fun x => { x with working := some x.saved }
  tryCatch (do let a ← body; commit; pure a) fun err => do rollback; throw err

/-! ## Rows -/

def insertEvents (version : Nat) : List Event → Sql StoreError Unit
  | [] => return ()
  | e :: es => do
    let _ ← exec (·.insertEvent e version)
    insertEvents version es

def insertSubscription (sub : Subscription) : Sql StoreError Unit := do
  update (·.insertRecord sub.toSubscriptionRecord 1)
  insertEvents 1 sub.events

def requireRecord (id : SubscriptionId) : Sql StoreError SubscriptionRecord :=
  exec fun s => (s.requireRecord id).map (·, s)

/-! ## Calls of storage -/

def createBundle (b : Bundle) : Sql StoreError Unit := update (·.createBundle b)

def createSubscription (sub : Subscription) (now : Instant) : Sql StoreError Subscription :=
  transaction do
    insertSubscription sub
    update (·.touch sub.bundle now)
    match ← query (·.subscription? sub.id) with
    | some stored => return stored
    | none => throw (.unknownSubscription sub.id)

def setChargedThrough (id : SubscriptionId) (date : Option Instant) : Sql StoreError Unit :=
  update (·.setChargedThrough id date)

def appendOne (bundle : BundleId) (e : Event) : Sql StoreError Event := do
  let r ← requireRecord e.subscription
  if r.bundle ≠ bundle then
    throw (.foreignSubscription e.subscription bundle)
  exec (·.insertEvent e r.version)

def appendAll (bundle : BundleId) : List Event → Sql StoreError (List Event)
  | [] => return []
  | e :: es => do
    let stored ← appendOne bundle e
    let rest ← appendAll bundle es
    return stored :: rest

def appendToBundle (bundle : BundleId) (es : List Event) (now : Instant) :
    Sql StoreError (List Event) :=
  transaction do
    let stored ← appendAll bundle es
    update (·.touch bundle now)
    return stored

def append (id : SubscriptionId) (es : List Event) (now : Instant) : Sql StoreError (List Event) :=
  match es.find? (·.subscription != id) with
  | some stray => throw (.strayEvent stray.id stray.subscription id)
  | none => do
    let r ← requireRecord id
    appendToBundle r.bundle es now

/-- The view of a bundle, for which the bundle is read. -/
def viewOf (bundle : BundleId) : Sql StoreError String := do
  let _ ← query (·.bundle? bundle)
  exec fun s => (s.viewOf bundle).map (·, s)

def writeVersion (bundle : BundleId) (sub : RepairedSubscription) : Sql StoreError Unit := do
  let r ← requireRecord sub.id
  if r.bundle ≠ bundle then
    throw (.foreignSubscription sub.id bundle)
  insertEvents (r.version + 1) sub.events
  update fun s => .ok (s.setVersion sub (r.version + 1))

def writeVersions (bundle : BundleId) : List RepairedSubscription → Sql StoreError Unit
  | [] => return ()
  | sub :: subs => do
    writeVersion bundle sub
    writeVersions bundle subs

def setBundleStart (bundle : BundleId) (start : Option Instant) : Sql StoreError Unit :=
  if start.isSome then update fun s => .ok (s.setBundleStart bundle start) else return ()

/-- The payloads are encoded for the checksum before the transaction opens. -/
def commitRepair (commit : RepairCommit) (now : Instant) : Sql StoreError RepairRecord := do
  attempt
  transaction do
    let current ← viewOf commit.bundle
    if current ≠ commit.expectedView then
      throw (.viewChanged commit.bundle commit.expectedView current)
    writeVersions commit.bundle commit.subscriptions
    setBundleStart commit.bundle commit.bundleStart
    update (·.touch commit.bundle now)
    exec fun s => .ok (s.insertRepair commit now)

def insertSubscriptions : List Subscription → Sql StoreError Unit
  | [] => return ()
  | sub :: subs => do
    insertSubscription sub
    insertSubscriptions subs

def insertImages (now : Instant) : List BundleImage → Sql StoreError Unit
  | [] => return ()
  | image :: images => do
    update (·.insertBundle image.bundle)
    insertSubscriptions image.subscriptions
    update (·.touch image.bundle.id now)
    insertImages now images

def appendEach (now : Instant) : List Event → Sql StoreError Unit
  | [] => return ()
  | e :: es => do
    let r ← requireRecord e.subscription
    let _ ← appendOne r.bundle e
    update (·.touch r.bundle now)
    appendEach now es

def commitBundles (images : List BundleImage) (appended : List Event) (now : Instant) :
    Sql StoreError Unit :=
  transaction do
    insertImages now images
    appendEach now appended

def tryLock (bundle : BundleId) (owner : String) (now : Instant) (ttlMillis : Int) :
    Sql StoreError Bool :=
  transaction do
    if (now.shift? (-(ttlMillis * nanosPerMilli))).isSome then
      update fun s => .ok (s.expireLock bundle now ttlMillis)
    exec fun s => .ok (s.insertLock bundle owner now)

def unlock (bundle : BundleId) (owner : String) : Sql StoreError Unit := fun faults =>
  perform faults.release (noValue fun s => .ok (s.unlock bundle owner)) faults

end Sql

end Tenure
