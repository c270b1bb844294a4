import Tenure.Ident
import Tenure.Plan

/-!
# Events

All that ever happens to a subscription is kept as events. An event says when it takes effect,
what it does (`Payload`), and when it was asked for and recorded. Storage numbers events in the
order of recording; the number is zero until then.

On a timeline events stand by effective date, those of one instant in the order of recording, and
those not recorded yet in the order of their identifiers (`Event.le`).
-/

namespace Tenure

/-! ## Types of events -/

inductive EventType
  | create | reCreate | change | cancel | uncancel | phase | transfer | migrateEntitlement
  | migrateBilling
  deriving DecidableEq, Repr

namespace EventType

def all : List EventType :=
  [.create, .reCreate, .change, .cancel, .uncancel, .phase, .transfer, .migrateEntitlement,
    .migrateBilling]

def name : EventType → String
  | .create => "CREATE"
  | .reCreate => "RE_CREATE"
  | .change => "CHANGE"
  | .cancel => "CANCEL"
  | .uncancel => "UNCANCEL"
  | .phase => "PHASE"
  | .transfer => "TRANSFER"
  | .migrateEntitlement => "MIGRATE_ENTITLEMENT"
  | .migrateBilling => "MIGRATE_BILLING"

def ofName? : String → Option EventType
  | "CREATE" => some .create
  | "RE_CREATE" => some .reCreate
  | "CHANGE" => some .change
  | "CANCEL" => some .cancel
  | "UNCANCEL" => some .uncancel
  | "PHASE" => some .phase
  | "TRANSFER" => some .transfer
  | "MIGRATE_ENTITLEMENT" => some .migrateEntitlement
  | "MIGRATE_BILLING" => some .migrateBilling
  | _ => none

theorem ofName?_name (t : EventType) : ofName? t.name = some t := by cases t <;> rfl

/-- The name in one word, as documents and repair messages spell it. -/
def word : EventType → String
  | .create => "Create"
  | .reCreate => "ReCreate"
  | .change => "Change"
  | .cancel => "Cancel"
  | .uncancel => "Uncancel"
  | .phase => "Phase"
  | .transfer => "Transfer"
  | .migrateEntitlement => "MigrateEntitlement"
  | .migrateBilling => "MigrateBilling"

/-- The types by which a repair may build a subscription from nothing. -/
def isRecreation : EventType → Bool
  | .create | .reCreate => true
  | _ => false

/-- The types that open a subscription's history. -/
def startsSubscription : EventType → Bool
  | .create | .reCreate | .transfer | .migrateEntitlement => true
  | _ => false

def isMigration : EventType → Bool
  | .migrateEntitlement | .migrateBilling => true
  | _ => false

end EventType

/-! ## What events do -/

inductive Payload
  | create (target : Target)
  | reCreate (target : Target)
  | change (target : Target)
  | transfer (target : Target)
  | migrateEntitlement (target : Target)
  | migrateBilling (target : Target)
  | phase (name : String)
  | cancel
  | uncancel
  deriving DecidableEq, Repr

namespace Payload

def type : Payload → EventType
  | .create _ => .create
  | .reCreate _ => .reCreate
  | .change _ => .change
  | .transfer _ => .transfer
  | .migrateEntitlement _ => .migrateEntitlement
  | .migrateBilling _ => .migrateBilling
  | .phase _ => .phase
  | .cancel => .cancel
  | .uncancel => .uncancel

/-- The plan, phase and price list the event moves to; a phase event names the phase only. -/
def target? : Payload → Option Target
  | .create t | .reCreate t | .change t | .transfer t | .migrateEntitlement t
  | .migrateBilling t => some t
  | .phase _ | .cancel | .uncancel => none

end Payload

/-! ## Events -/

@[ext] structure Event where
  id : EventId
  subscription : SubscriptionId
  effective : Instant
  processed : Instant
  requested : Instant
  payload : Payload
  /-- The version of the subscription that the event belongs to. -/
  version : Nat
  /-- Assigned by storage, zero until then. -/
  ordering : Nat
  stored : Bool
  createdBy : String
  deriving DecidableEq

namespace Event

def type (e : Event) : EventType := e.payload.type

/-- Timeline order: by effective date, then recording, then identifier. -/
def le (a b : Event) : Bool :=
  a.effective < b.effective ||
    (a.effective == b.effective &&
      (a.ordering < b.ordering || (a.ordering == b.ordering && a.id.number ≤ b.id.number)))

/-- Order by effective date alone, for lists whose ties are already as they should be. -/
def dateLe (a b : Event) : Bool := a.effective ≤ b.effective

theorem le_total (a b : Event) : le a b = true ∨ le b a = true := by
  simp only [le, Bool.or_eq_true, Bool.and_eq_true, decide_eq_true_eq, beq_iff_eq,
    Instant.lt_def, Instant.ext_iff]
  omega

theorem le_trans (a b c : Event) (hab : le a b = true) (hbc : le b c = true) :
    le a c = true := by
  simp only [le, Bool.or_eq_true, Bool.and_eq_true, decide_eq_true_eq, beq_iff_eq,
    Instant.lt_def, Instant.ext_iff] at *
  omega

end Event

/-- Who asks for a change, and for when; copied onto the records that the change leaves. -/
structure CallContext where
  /-- A token of the caller's, not interpreted. -/
  userToken : Nat := 0
  requested : Option Instant := none
  createdBy : String
  deriving DecidableEq

/-! ## New events -/

/-- An event to be: what happens to which subscription, and when. -/
structure Draft where
  subscription : SubscriptionId
  effective : Instant
  payload : Payload
  deriving DecidableEq

/-- Who records an event, when, and for which date it was asked. -/
structure Stamp where
  requested : Instant
  now : Instant
  createdBy : String
  deriving DecidableEq

namespace Stamp

/-- A context's stamp; what is asked for without a date is asked for now. -/
def ofContext (context : CallContext) (now : Instant) : Stamp :=
  ⟨context.requested.getD now, now, context.createdBy⟩

/-- An event that is not stored yet. -/
def event (stamp : Stamp) (id : EventId) (d : Draft) : Event :=
  { id, subscription := d.subscription, effective := d.effective,
    processed := stamp.now, requested := stamp.requested, payload := d.payload, version := 0,
    ordering := 0, stored := false, createdBy := stamp.createdBy }

/-- Events under the first of these identifiers. -/
def events (stamp : Stamp) (ids : Nat → EventId) : List Draft → List Event
  | [] => []
  | d :: ds => stamp.event (ids 0) d :: stamp.events (fun n => ids (n + 1)) ds

@[simp] theorem length_events (stamp : Stamp) (ids : Nat → EventId) (ds : List Draft) :
    (stamp.events ids ds).length = ds.length := by
  induction ds generalizing ids with
  | nil => rfl
  | cons d ds ih => simp [events, ih]

end Stamp

end Tenure
