import Tenure.Catalog.Sample
import Tenure.Engine.Lifecycle
import Tenure.Engine.Planned

/-!
# Runs

Everything that ever happens to a store is a sequence of calls of engines. A `Step` is one call:
the engine that carries it out, the context it is made in and the reading of its clock. Engines
that share a store may differ in their catalogs and settings, and clocks may stand still or go
back, so the steps of a run have nothing in common but the store.

`Run allowed s s'` leads from `s` to `s'` by steps that `allowed` admits where they are taken, and
a store is `Reachable` if a run leads to it from the empty store.
-/

namespace Tenure

/-- An operation of the engine with its arguments. -/
inductive Call
  | createBundle (account : AccountId) (key : String)
  | createSubscription (bundle : BundleId) (spec : PlanSpec)
  | changePlan (subscription : SubscriptionId) (spec : PlanSpec)
  | cancel (subscription : SubscriptionId)
  | uncancel (subscription : SubscriptionId)
  | setChargedThrough (subscription : SubscriptionId) (date : Option Instant)
  | repair (bundle : BundleId) (repair : Repair) (dryRun : Bool)
  | migrate (migration : AccountMigration)
  | transfer (request : TransferRequest)

def Call.dates : Call → List Instant
  | .setChargedThrough _ date => date.toList
  | .repair _ request _ => request.edits.flatMap fun x => x.proposals.map (·.effective)
  | .migrate migration => migration.bundles.flatMap fun b => b.subscriptions.flatMap fun m =>
      (m.cases.flatMap fun c => c.effective :: c.finish.toList) ++ m.chargedThrough.toList
  | .transfer request => [request.date]
  | _ => []

/-- One call of an engine. -/
structure Step where
  engine : Engine
  context : CallContext
  now : Instant
  call : Call

/-- An outcome without the value that it gives. -/
def outcome {α : Type} (r : Except Error α × Store) : Except Error Unit × Store :=
  (r.1.map fun _ => (), r.2)

/-- What a step comes to, and the store after it. -/
def Step.run (st : Step) (s : Store) : Except Error Unit × Store :=
  match st.call with
  | .createBundle account key => outcome (st.engine.createBundle st.context st.now account key s)
  | .createSubscription bundle spec =>
    outcome (st.engine.createSubscription st.context st.now bundle spec s)
  | .changePlan id spec => outcome (st.engine.changePlan st.context st.now id spec s)
  | .cancel id => outcome (st.engine.cancel st.context st.now id s)
  | .uncancel id => outcome (st.engine.uncancel st.context st.now id s)
  | .setChargedThrough id date => outcome (st.engine.setChargedThrough id date s)
  | .repair bundle repair dryRun =>
    outcome (st.engine.repair st.context st.now bundle repair dryRun s)
  | .migrate migration => outcome (st.engine.migrate st.context st.now migration s)
  | .transfer request => outcome (st.engine.transfer st.context st.now request s)

def Step.after (st : Step) (s : Store) : Store := (st.run s).2

def Step.Succeeds (st : Step) (s : Store) : Prop := (st.run s).1 = .ok ()

/-- Nothing is asked for in a leap second. -/
def Step.OffLeaps (st : Step) : Prop :=
  ∀ t ∈ st.context.requested.getD st.now :: st.call.dates, t.isLeap = false

instance (st : Step) : Decidable st.OffLeaps := inferInstanceAs (Decidable (∀ t ∈ _ :: _, _))

/-- A sequence of steps from one store to another, each admitted where it is taken. -/
inductive Run (allowed : Store → Step → Prop) : Store → Store → Prop
  | refl (s : Store) : Run allowed s s
  | step {s t : Store} (st : Step) :
      Run allowed s t → allowed t st → Run allowed s (st.after t)

/-- Steps of any engines, with any arguments. -/
def anyStep : Store → Step → Prop := fun _ _ => True

/-- A store that operations of engines lead to from the empty one. -/
def Store.Reachable (s : Store) : Prop := Run anyStep {} s

namespace Run

variable {allowed : Store → Step → Prop} {s t u : Store}

theorem trans (h : Run allowed s t) (h' : Run allowed t u) : Run allowed s u := by
  induction h' with
  | refl => exact h
  | step st _ ha ih => exact .step st ih ha

theorem mono {allowed' : Store → Step → Prop} (hle : ∀ s st, allowed s st → allowed' s st)
    (h : Run allowed s t) : Run allowed' s t := by
  induction h with
  | refl => exact .refl _
  | step st _ ha ih => exact .step st ih (hle _ _ ha)

/-- What every step keeps, a run keeps. -/
theorem preserves {P : Store → Prop} (hstep : ∀ s st, allowed s st → P s → P (st.after s))
    (h : Run allowed s t) (hs : P s) : P t := by
  induction h with
  | refl => exact hs
  | step st _ ha ih => exact hstep _ _ ha ih

end Run

/-! ## Runs on the sample catalog -/

namespace Sample

/-- Midnight of a day of the epoch. -/
def day (n : Nat) : Instant := (Instant.ofMillis? (n * 86400000)).getD .last

/-- An engine on the sample catalog, under which everything takes effect at once. Nobody else locks
its bundles, so what the clock reads at its tries makes no difference. -/
def engine : Engine where
  catalog := Catalog.Sample.catalog .immediate
  settings := {}
  owner := "engine"
  tries _ := day 0
  ids := .counting

def caller : CallContext := { createdBy := "operator" }

/-- A call on some day, as of that day. -/
def step (n : Nat) (call : Call) : Step := ⟨engine, caller, day n, call⟩

/-- The store after steps taken from the empty one. -/
def after (steps : List Step) : Store := steps.foldl (fun s st => st.after s) {}

theorem run_after {allowed : Store → Step → Prop} {steps : List Step}
    (h : ∀ st ∈ steps, ∀ s, allowed s st) : Run allowed {} (after steps) := by
  have hrun (s : Store) (hs : Run allowed {} s) :
      Run allowed {} (steps.foldl (fun s st => st.after s) s) := by
    induction steps generalizing s with
    | nil => exact hs
    | cons st steps ih =>
      exact ih (fun u hu => h u (.tail _ hu)) _ (.step st hs (h st (.head _) s))
  exact hrun {} (.refl _)

theorem reachable_after (steps : List Step) : (after steps).Reachable :=
  run_after fun _ _ _ => trivial

/-- A bundle with one subscription, on a plan that opens with a trial of 30 days. -/
def trial : List Step :=
  [step 0 (.createBundle ⟨1⟩ "key"),
    step 0 (.createSubscription ⟨1⟩ ⟨"pistol", .monthly, "DEFAULT"⟩)]

/-- A repair of it that cuts the phase behind the trial off and cancels on day 20. -/
def cutTrial : Repair := ⟨"2-0", [⟨⟨1⟩, [⟨2⟩], [⟨.cancel, day 20, none, none⟩]⟩]⟩

end Sample

end Tenure
