import Tenure.Document
import Tenure.Document.Words

/-!
# Forms of the domain

The forms in which catalogs, events, subscriptions, timelines and requests come as documents.
-/

namespace Tenure.Form

/-! ## Catalog -/

def category : Form := word (Category.all.map Category.word)
def billingPeriod : Form := word (BillingPeriod.all.map BillingPeriod.word)
def phaseType : Form := word (PhaseType.all.map PhaseType.word)
def timeUnit : Form := word (TimeUnit.all.map TimeUnit.word)
def actionPolicy : Form := word (ActionPolicy.all.map ActionPolicy.word)
def alignment : Form := word (Alignment.all.map Alignment.word)

def duration : Form := record [("unit", timeUnit), ("number", natural 32)]

def product : Form := record [("name", text), ("category", category)]

def phase : Form := record [("name", text), ("phase_type", phaseType), ("duration", duration)]

def plan : Form :=
  record [("name", text), ("product", product), ("billing_period", billingPeriod),
    ("price_list", text), ("phases", list phase)]

def planSpec : Form :=
  record [("product", text), ("billing_period", billingPeriod), ("price_list", text)]

def position : Form :=
  record [("plan_name", text), ("product", text), ("category", category),
    ("billing_period", billingPeriod), ("price_list", text), ("phase_type", phaseType)]

def changeTerms : Form :=
  record [("policy", actionPolicy), ("alignment", alignment), ("new_price_list", text)]

/-! ## Events -/

def eventType : Form := word (EventType.all.map EventType.word)

def target : Form := record [("plan", text), ("phase", text), ("price_list", text)]

/-- A payload says its type and carries what the type needs; the phase of a phase event is given
by name only. -/
def payload : Form :=
  variants [EventType.cancel.word, EventType.uncancel.word]
    ((EventType.phase.word, named [("phase", text)]) ::
      [EventType.create, .reCreate, .change, .transfer, .migrateEntitlement, .migrateBilling].map
        fun type => (type.word, target))

def event : Form :=
  record [("event_id", uuid), ("subscription_id", uuid), ("effective_date", timestamp),
    ("processed_date", timestamp), ("requested_date", timestamp), ("payload", payload),
    ("active_version", natural 32), ("total_ordering", natural 64), ("from_disk", bool),
    ("created_by", text)]

def callContext : Form :=
  record [("user_token", uuid), ("requested_date", optional timestamp), ("created_by", text)]

/-! ## Bundles and subscriptions -/

def bundle : Form :=
  record [("bundle_id", uuid), ("key", text), ("account_id", uuid), ("start_date", timestamp),
    ("last_system_update_time", timestamp)]

def subscription : Form :=
  record [("subscription_id", uuid), ("bundle_id", uuid), ("category", category),
    ("start_date", timestamp), ("bundle_start_date", timestamp), ("align_start_date", timestamp),
    ("charged_through_date", optional timestamp), ("active_version", natural 32),
    ("events", list event)]

def activity : Form := word (Activity.all.map Activity.word)

def transition : Form :=
  record [("event_id", uuid), ("event_type", eventType), ("effective_date", timestamp),
    ("total_ordering", natural 64), ("previous", optional target), ("next", optional target),
    ("next_state", activity)]

def standing : Form :=
  record [("category", category), ("current_plan", optional text),
    ("current_phase", optional text), ("current_price_list", optional text),
    ("is_cancelled", bool), ("is_future_cancelled", bool), ("start_date", timestamp),
    ("end_date", optional timestamp), ("previous_transition", optional transition),
    ("pending_transition", optional transition)]

/-! ## Timelines and repairs -/

def subscriptionTimeline : Form :=
  record [("subscription_id", uuid), ("category", category), ("active_version", natural 32),
    ("existing_events", list event), ("deleted_events", list uuid), ("new_events", list event)]

def timelineView : Form :=
  record [("view_id", text), ("bundle_id", uuid), ("subscriptions", list subscriptionTimeline)]

def proposal : Form :=
  record [("event_type", eventType), ("effective_date", timestamp), ("plan", optional planSpec),
    ("phase_type", optional phaseType)]

def edit : Form :=
  record [("subscription_id", uuid), ("deleted_events", list uuid), ("new_events", list proposal)]

def repair : Form := record [("view_id", text), ("subscriptions", list edit)]

/-! ## Imports and transfers -/

def migrationCase : Form :=
  record [("plan", text), ("phase_type", phaseType), ("price_list", text),
    ("effective_date", timestamp), ("end_date", optional timestamp)]

def subscriptionMigration : Form :=
  record [("category", category), ("cases", list migrationCase),
    ("charged_through_date", optional timestamp)]

def bundleMigration : Form :=
  record [("key", text), ("subscriptions", list subscriptionMigration)]

def accountMigration : Form := record [("account_id", uuid), ("bundles", list bundleMigration)]

def transferRequest : Form :=
  record [("source_account", uuid), ("destination_account", uuid), ("bundle_key", text),
    ("transfer_date", timestamp), ("transfer_add_ons", bool), ("cancel_immediately", bool)]

end Tenure.Form
