import Tenure.Error
import Tenure.History

/-!
# Schedules

The phases of a plan are laid end to end from an anchor date (`layOut`), up to the first one
without end. A schedule is such a chain seen from a date: the phase in force and the phases still
ahead (`Schedule.seenFrom`).

The anchor is the catalog's choice. A creation is laid out from the start of the bundle or of the
subscription (`alignOnCreate`), a change also from the change itself (`alignOnChange`).
`alignTransition` finds back the schedule that a recorded transition put in motion.
-/

namespace Tenure

/-! ## Chains of phases -/

structure TimedPhase where
  plan : String
  phase : Phase
  start : Instant
  deriving DecidableEq

structure Schedule where
  /-- The phase in force at the date the schedule is seen from. -/
  current : TimedPhase
  /-- The phases after it, nearest first. -/
  upcoming : List TimedPhase
  deriving DecidableEq

namespace Schedule

def phases (s : Schedule) : List TimedPhase := s.current :: s.upcoming

def next? (s : Schedule) : Option TimedPhase := s.upcoming.head?

/-- Move on to the last phase that has begun by `date`, or stay at the first. -/
def seenFrom (date : Instant) (current : TimedPhase) : List TimedPhase → Schedule
  | [] => ⟨current, []⟩
  | p :: ps =>
    if (p :: ps).any (·.start ≤ date) then seenFrom date p ps else ⟨current, p :: ps⟩

def moveTo (date : Instant) (s : Schedule) : Schedule := seenFrom date s.current s.upcoming

end Schedule

/-- Lay phases end to end from `anchor` on, stopping after one without end. -/
def layOut (plan : String) (anchor : Instant) : List Phase → Except Error (List TimedPhase)
  | [] => .ok []
  | phase :: rest =>
    let timed : TimedPhase := ⟨plan, phase, anchor⟩
    if phase.duration.isUnlimited then .ok [timed]
    else match phase.duration.addTo anchor with
      | none => .error (.phaseBeyondCalendar phase.name)
      | some next => (layOut plan next rest).map (timed :: ·)

/-- The chain of a plan's phases from the one at place `index` on, which begins at `anchor`. -/
def phaseChain (plan : Plan) (index : Nat) (anchor : Instant) : Except Error Schedule :=
  match layOut plan.name anchor (plan.phases.drop index) with
  | .error e => .error e
  | .ok [] => .error (.catalog (.unknownPhase s!"{plan.name} has no phase #{index}"))
  | .ok (first :: rest) => .ok ⟨first, rest⟩

/-! ## Anchors -/

/-- The dates that a subscription's phases may be laid out from. -/
structure Anchors where
  bundleStart : Instant
  alignStart : Instant
  deriving DecidableEq

def Anchors.onCreate (a : Anchors) : Alignment → Instant
  | .startOfBundle => a.bundleStart
  | _ => a.alignStart

/-- The anchor for a change that takes effect at `effective`. -/
def Anchors.onChange (a : Anchors) (effective : Instant) (samePriceList : Bool) :
    Alignment → Instant
  | .startOfBundle => a.bundleStart
  | .startOfSubscription => a.alignStart
  | .changeOfPlan => effective
  | .changeOfPriceList => if samePriceList then a.alignStart else effective

/-! ## Alignment -/

namespace Catalog

def phaseOfType (plan : Plan) (type : PhaseType) : Except CatalogError Nat :=
  match plan.indexOfType? type with
  | some index => .ok index
  | none => .error (.unknownPhase s!"{plan.name} {type.name}")

def position (catalog : Catalog) (target : Target) (date : Instant) :
    Except CatalogError Position := do
  let plan ← catalog.findPlanByName target.plan date
  match plan.phase? target.phase with
  | none => throw (.unknownPhase target.phase)
  | some phase =>
    return { planName := plan.name, product := plan.product.name,
             category := plan.product.category, billingPeriod := plan.billingPeriod,
             priceList := target.priceList, phaseType := phase.type }

/-- The place and date at which the chain of a new subscription starts. With a phase type to
begin with, the earlier phases are left out and the chain starts at the effective date. -/
def chainStart (catalog : Catalog) (anchors : Anchors) (plan : Plan) (initial : Option PhaseType)
    (priceList : String) (requested effective : Instant) : Except CatalogError (Nat × Instant) :=
  match initial with
  | some type => (phaseOfType plan type).map fun index => (index, effective)
  | none =>
    (catalog.creationAlignment ⟨plan.product.name, plan.billingPeriod, priceList⟩ requested).map
      fun alignment => (0, anchors.onCreate alignment)

/-- The schedule of a new subscription, seen from its effective date. -/
def alignOnCreate (catalog : Catalog) (anchors : Anchors) (plan : Plan)
    (initial : Option PhaseType) (priceList : String) (requested effective : Instant) :
    Except Error Schedule := do
  let (index, anchor) ← catalog.chainStart anchors plan initial priceList requested effective
  let chain ← phaseChain plan index anchor
  return chain.moveTo effective

/-- The schedule of `plan` after a change away from `current`, seen from its effective date. -/
def alignOnChange (catalog : Catalog) (anchors : Anchors) (current : Target) (plan : Plan)
    (priceList : String) (requested effective : Instant) : Except Error Schedule := do
  let source ← catalog.position current requested
  let terms ← catalog.planChange source ⟨plan.product.name, plan.billingPeriod, priceList⟩
    requested
  let anchor := anchors.onChange effective (current.priceList == priceList) terms.alignment
  let chain ← phaseChain plan 0 anchor
  return chain.moveTo effective

/-- The phase that follows a phase of `plan` which began at `start`, and the first to begin after
`after`. For callers that follow a plan phase by phase. -/
def nextPhase (plan : Plan) (phase : String) (start after : Instant) :
    Except Error (Option TimedPhase) := do
  match plan.phaseIndex? phase with
  | none => throw (.catalog (.unknownPhase phase))
  | some index =>
    let chain ← phaseChain plan index start
    return chain.upcoming.find? (after < ·.start)

/-- The schedule that the alignment of a recorded transition gives; none for a phase event, and
for a change from nothing. -/
def alignRecorded (catalog : Catalog) (anchors : Anchors) (t : Transition) (plan : Plan)
    (target : Target) : Except Error (Option Schedule) :=
  match t.type, t.previous with
  | .phase, _ => .ok none
  | .change, some previous =>
    (catalog.alignOnChange anchors previous plan target.priceList t.effective t.effective).map some
  | .change, none => .ok none
  | _, _ =>
    (catalog.alignOnCreate anchors plan none target.priceList t.effective t.effective).map some

/-- The schedule that a recorded transition put in motion. A phase entered by a phase event, or
one that the recomputed alignment does not arrive at, began exactly at the transition. -/
def alignTransition (catalog : Catalog) (anchors : Anchors) (t : Transition) :
    Except Error (Option Schedule) := do
  match t.next with
  | none => return none
  | some target =>
    let plan ← catalog.findPlanByName target.plan t.effective
    let aligned ← catalog.alignRecorded anchors t plan target
    match aligned.filter (·.current.phase.name == target.phase) with
    | some schedule => return some schedule
    | none =>
      match plan.phaseIndex? target.phase with
      | none => throw (.catalog (.unknownPhase target.phase))
      | some index =>
        let chain ← phaseChain plan index t.effective
        return some (chain.moveTo t.effective)

end Catalog

end Tenure
