import Tenure.Catalog
import Tenure.Event
import Tenure.Settings

/-!
# Errors

Every operation that fails says why. The causes are data; their wording is in `message?` and
takes the `Names` under which the reader knows bundles, subscriptions, events and accounts.

`StoreError` is what storage refuses, `RepairError` what is wrong with a repair, and `Error` all
that an operation of the engine may fail with. An error has a code for programs and a kind that
tells a caller how to react: only a conflict with somebody else is worth another try.
-/

namespace Tenure

/-! ## Storage -/

inductive StoreError
  | unknownBundle (bundle : BundleId)
  | unknownSubscription (subscription : SubscriptionId)
  /-- An event of one subscription handed in for another. -/
  | strayEvent (event : EventId) (owner expected : SubscriptionId)
  | foreignSubscription (subscription : SubscriptionId) (bundle : BundleId)
  | duplicateKey (account : AccountId) (key : String)
  | viewChanged (bundle : BundleId) (expected current : String)
  /-- A row that exists twice, or that refers to one that does not exist. -/
  | brokenConstraint
  /-- Anything else that the database did not carry out, or a row that does not read back. -/
  | sqlite
  | serialization (reason : String)
  | core (reason : String)
  deriving DecidableEq, Repr

def StoreError.message? (names : Names) : StoreError → Option String
  | .unknownBundle b => some s!"not found: bundle {names.bundle b}"
  | .unknownSubscription s => some s!"not found: subscription {names.subscription s}"
  | .strayEvent e owner expected =>
    some <| s!"constraint violation: event {names.event e} targets subscription "
      ++ s!"{names.subscription owner}, not {names.subscription expected}"
  | .foreignSubscription s b =>
    some <| s!"constraint violation: subscription {names.subscription s} "
      ++ s!"does not belong to bundle {names.bundle b}"
  | .duplicateKey account key =>
    some s!"bundle key {key} already used by account {names.account account}"
  | .viewChanged b expected current =>
    some s!"view of bundle {names.bundle b} changed: expected {expected}, found {current}"
  | .brokenConstraint | .sqlite => none
  | .serialization reason => some s!"serialization error: {reason}"
  | .core reason => some s!"core error: {reason}"

/-! ## Kinds -/

/-- How a caller should take a failure. -/
inductive ErrorKind
  /-- A stale read or a bundle somebody else holds: read again and try again. -/
  | concurrencyConflict
  /-- Something asked for does not exist. -/
  | structural
  /-- The edit makes no sense in time. -/
  | temporal
  /-- The catalog has no answer. -/
  | catalog
  deriving DecidableEq, Repr

def ErrorKind.word : ErrorKind → String
  | .concurrencyConflict => "ConcurrencyConflict"
  | .structural => "Structural"
  | .temporal => "Temporal"
  | .catalog => "Catalog"

/-! ## Repairs -/

/-- Why a proposed event cannot be applied where it stands. -/
inductive TransitionFault
  | stillActive | notActive | noPlan | otherCategory
  deriving DecidableEq, Repr

def TransitionFault.message : TransitionFault → String
  | .stillActive => "subscription is still active"
  | .notActive => "subscription is not active"
  | .noPlan => "no plan given"
  | .otherCategory => "plan belongs to another product category"

/-- Why a repair is rejected. Nothing is written then. -/
inductive RepairError
  | viewChanged (bundle : BundleId) (expected current : String)
  | unknownBundle (bundle : BundleId)
  | unknownSubscription (bundle : BundleId) (subscription : SubscriptionId)
  | noActiveSubscriptions (bundle : BundleId)
  | nonExistentDeleteEvent (subscription : SubscriptionId) (event : EventId)
  | invalidDeleteSet (subscription : SubscriptionId) (event : EventId) (effective : Instant)
  | recreateNotEmpty (subscription : SubscriptionId) (lastRemaining : Instant)
  | subscriptionEmpty (subscription : SubscriptionId)
  | newEventBeforeBaseRemaining (subscription : SubscriptionId) (effective lastRemaining : Instant)
  | newEventBeforeOwnRemaining (subscription : SubscriptionId) (effective lastRemaining : Instant)
  | baseRecreateMissingAddOn (subscription : SubscriptionId)
  | baseRecreateMissingAddOnCreate (subscription : SubscriptionId)
  | addOnCreateBeforeBaseStart (subscription : SubscriptionId) (effective baseStart : Instant)
  | missingAddOnDelete (subscription : SubscriptionId) (effective firstDeleted : Instant)
  | invalidNewEventType (subscription : SubscriptionId) (type : EventType) (effective : Instant)
  | invalidTransition (subscription : SubscriptionId) (type : EventType) (effective : Instant)
      (fault : TransitionFault)
  deriving DecidableEq

namespace RepairError

def code : RepairError → String
  | .viewChanged .. => "VIEW_CHANGED"
  | .unknownBundle _ => "UNKNOWN_BUNDLE"
  | .unknownSubscription .. => "UNKNOWN_SUBSCRIPTION"
  | .noActiveSubscriptions _ => "NO_ACTIVE_SUBSCRIPTIONS"
  | .nonExistentDeleteEvent .. => "NON_EXISTENT_DELETE_EVENT"
  | .invalidDeleteSet .. => "INVALID_DELETE_SET"
  | .recreateNotEmpty .. => "SUB_RECREATE_NOT_EMPTY"
  | .subscriptionEmpty _ => "SUB_EMPTY"
  | .newEventBeforeBaseRemaining .. => "NEW_EVENT_BEFORE_LAST_BP_REMAINING"
  | .newEventBeforeOwnRemaining .. => "NEW_EVENT_BEFORE_LAST_AO_REMAINING"
  | .baseRecreateMissingAddOn _ => "BP_RECREATE_MISSING_AO"
  | .baseRecreateMissingAddOnCreate _ => "BP_RECREATE_MISSING_AO_CREATE"
  | .addOnCreateBeforeBaseStart .. => "AO_CREATE_BEFORE_BP_START"
  | .missingAddOnDelete .. => "MISSING_AO_DELETE_EVENT"
  | .invalidNewEventType .. => "INVALID_NEW_EVENT_TYPE"
  | .invalidTransition .. => "INVALID_TRANSITION"

def kind : RepairError → ErrorKind
  | .viewChanged .. => .concurrencyConflict
  | .unknownBundle _ | .unknownSubscription .. | .noActiveSubscriptions _
  | .nonExistentDeleteEvent .. | .baseRecreateMissingAddOn _ | .invalidNewEventType .. =>
    .structural
  | .invalidDeleteSet .. | .recreateNotEmpty .. | .subscriptionEmpty _
  | .newEventBeforeBaseRemaining .. | .newEventBeforeOwnRemaining ..
  | .baseRecreateMissingAddOnCreate _ | .addOnCreateBeforeBaseStart .. | .missingAddOnDelete ..
  | .invalidTransition .. => .temporal

def message (names : Names) : RepairError → String
  | .viewChanged b expected current =>
    s!"bundle {names.bundle b} changed since the repair was prepared "
      ++ s!"(expected view {expected}, found {current})"
  | .unknownBundle b => s!"unknown bundle {names.bundle b}"
  | .unknownSubscription b s =>
    s!"subscription {names.subscription s} is not part of bundle {names.bundle b}"
  | .noActiveSubscriptions b => s!"bundle {names.bundle b} has no active subscriptions"
  | .nonExistentDeleteEvent s e =>
    s!"event {names.event e} is not a visible event of subscription {names.subscription s}"
  | .invalidDeleteSet s e date =>
    s!"subscription {names.subscription s} keeps event {names.event e} at {date.text} "
      ++ "after a deleted event"
  | .recreateNotEmpty s last =>
    s!"subscription {names.subscription s} is re-created but keeps events up to {last.text}"
  | .subscriptionEmpty s =>
    s!"subscription {names.subscription s} would be left without events"
  | .newEventBeforeBaseRemaining s date last =>
    s!"new event for {names.subscription s} at {date.text} precedes the last base plan event "
      ++ s!"at {last.text}"
  | .newEventBeforeOwnRemaining s date last =>
    s!"new event for {names.subscription s} at {date.text} precedes its last remaining event "
      ++ s!"at {last.text}"
  | .baseRecreateMissingAddOn s =>
    s!"base plan is re-created but add-on {names.subscription s} is missing from the repair"
  | .baseRecreateMissingAddOnCreate s =>
    s!"base plan is re-created but add-on {names.subscription s} "
      ++ "does not start with a creation"
  | .addOnCreateBeforeBaseStart s date baseStart =>
    s!"add-on {names.subscription s} re-created at {date.text}, "
      ++ s!"before the base plan start {baseStart.text}"
  | .missingAddOnDelete s date firstDeleted =>
    s!"add-on {names.subscription s} keeps an event at {date.text}, "
      ++ s!"after the first deleted base plan event at {firstDeleted.text}"
  | .invalidNewEventType s type date =>
    s!"{type.word} at {date.text} is not allowed as a new event for {names.subscription s}"
  | .invalidTransition s type date fault =>
    s!"{type.word} at {date.text} is invalid for {names.subscription s}: {fault.message}"

end RepairError

/-! ## Migrations -/

/-- Why an import is refused. -/
inductive MigrationFault
  | noCases
  /-- A case that does not end where the next one starts. -/
  | gap (plan : String) (start : Instant)
  | addOnsWithoutBase (key : String)
  | noSubscriptions (key : String)
  deriving DecidableEq

def MigrationFault.message : MigrationFault → String
  | .noCases => "no migration cases"
  | .gap plan start =>
    s!"case on {plan} starting {start.text} does not end where the next case starts"
  | .addOnsWithoutBase key => s!"bundle {key} has add-ons but no base subscription"
  | .noSubscriptions key => s!"bundle {key} has no subscriptions"

/-! ## The engine -/

inductive Error
  | store (cause : StoreError)
  /-- A phase that would end after the last day of the calendar. -/
  | phaseBeyondCalendar (phase : String)
  | catalog (cause : CatalogError)
  | repair (cause : RepairError)
  | settings (cause : SettingsError)
  | lockTimeout (bundle : BundleId) (attempts : Nat)
  | bundleNotFound (bundle : BundleId)
  | bundleKeyNotFound (key : String)
  | subscriptionNotFound (subscription : SubscriptionId)
  | bundleKeyInUse (account : AccountId) (key : String)
  | baseAlreadyActive (bundle : BundleId)
  | missingActiveBase (bundle : BundleId) (date : Instant)
  | categoryMismatch (plan : String) (expected found : Category)
  | subscriptionCancelled (subscription : SubscriptionId)
  | subscriptionNotActive (subscription : SubscriptionId)
  | notFutureCancelled (subscription : SubscriptionId)
  | invalidMigration (fault : MigrationFault)
  | nothingToTransfer (bundle : BundleId)
  deriving DecidableEq

namespace Error

def code : Error → String
  | .repair e => e.code
  | .lockTimeout .. => "LOCK_TIMEOUT"
  | .catalog _ => "CATALOG_ERROR"
  | .store _ | .phaseBeyondCalendar _ => "STORAGE_ERROR"
  | .settings _ => "CONFIG_ERROR"
  | .bundleNotFound _ | .bundleKeyNotFound _ => "BUNDLE_NOT_FOUND"
  | .subscriptionNotFound _ => "SUBSCRIPTION_NOT_FOUND"
  | .bundleKeyInUse .. => "BUNDLE_KEY_IN_USE"
  | .baseAlreadyActive _ => "BASE_ALREADY_ACTIVE"
  | .missingActiveBase .. => "MISSING_ACTIVE_BASE"
  | .categoryMismatch .. => "CATEGORY_MISMATCH"
  | .subscriptionCancelled _ => "SUBSCRIPTION_CANCELLED"
  | .subscriptionNotActive _ => "SUBSCRIPTION_NOT_ACTIVE"
  | .notFutureCancelled _ => "NOT_FUTURE_CANCELLED"
  | .invalidMigration _ => "INVALID_MIGRATION"
  | .nothingToTransfer _ => "NOTHING_TO_TRANSFER"

/-- Failures of infrastructure and unmet preconditions have no kind. -/
def kind? : Error → Option ErrorKind
  | .repair e => some e.kind
  | .lockTimeout .. => some .concurrencyConflict
  | .catalog _ => some .catalog
  | .bundleNotFound _ | .bundleKeyNotFound _ | .subscriptionNotFound _ => some .structural
  | _ => none

def isRetryable (e : Error) : Bool := e.kind? == some .concurrencyConflict

def repairCode? : Error → Option String
  | .repair e => some e.code
  | _ => none

/-- The text of the error. Failures of the database and unreadable sources have none. -/
def message? (names : Names) : Error → Option String
  | .store e => (e.message? names).map ("storage error: " ++ ·)
  | .phaseBeyondCalendar phase =>
    some s!"core error: invalid data: phase {phase} ends beyond the calendar"
  | .catalog e => some s!"catalog error: {e.message}"
  | .repair e => some s!"repair rejected: {e.message names}"
  | .settings e => e.message?.map ("configuration error: " ++ ·)
  | .lockTimeout b attempts =>
    some s!"could not lock bundle {names.bundle b} after {attempts} attempts"
  | .bundleNotFound b => some s!"bundle not found: {names.bundle b}"
  | .bundleKeyNotFound key => some s!"bundle not found: {key}"
  | .subscriptionNotFound s => some s!"subscription not found: {names.subscription s}"
  | .bundleKeyInUse account key =>
    some s!"bundle key {key} already used by account {names.account account}"
  | .baseAlreadyActive b =>
    some s!"bundle {names.bundle b} already has an active base subscription"
  | .missingActiveBase b date =>
    some s!"bundle {names.bundle b} has no active base subscription at {date.text}"
  | .categoryMismatch plan expected found =>
    some s!"plan {plan} is {found.name}, subscription is {expected.name}"
  | .subscriptionCancelled s =>
    some s!"subscription {names.subscription s} is cancelled or pending cancellation"
  | .subscriptionNotActive s => some s!"subscription {names.subscription s} is not active"
  | .notFutureCancelled s =>
    some s!"subscription {names.subscription s} has no pending cancellation"
  | .invalidMigration fault => some s!"invalid migration: {fault.message}"
  | .nothingToTransfer b => some s!"nothing to transfer from bundle {names.bundle b}"

end Error

/-- Catalog failures are failures of the operation that asked. -/
instance : MonadLift (Except CatalogError) (Except Error) := ⟨Except.mapError Error.catalog⟩

instance : MonadLift (Except RepairError) (Except Error) := ⟨Except.mapError Error.repair⟩

end Tenure
