import Tenure.Duration

/-!
# Products, plans and phases

A product is sold under plans, one for each billing period and price list. A plan is a row of
phases that a subscription goes through one after the other; a phase without end is where it
stays.

`PlanSpec` is what a customer asks for, `Position` is where a subscription stands within the
catalog.
-/

namespace Tenure

/-! ## Categories, periods and kinds of phases -/

inductive Category
  | base | addOn | standalone
  deriving DecidableEq, Repr

namespace Category

def all : List Category := [.base, .addOn, .standalone]

def name : Category → String
  | .base => "BASE"
  | .addOn => "ADD_ON"
  | .standalone => "STANDALONE"

def ofName? : String → Option Category
  | "BASE" => some .base
  | "ADD_ON" => some .addOn
  | "STANDALONE" => some .standalone
  | _ => none

/-- Base and standalone subscriptions anchor a bundle; add-ons hang off them. -/
def isBaseLike : Category → Bool
  | .base | .standalone => true
  | .addOn => false

end Category

inductive BillingPeriod
  | monthly | quarterly | annual | noBillingPeriod
  deriving DecidableEq, Repr

def BillingPeriod.all : List BillingPeriod := [.monthly, .quarterly, .annual, .noBillingPeriod]

def BillingPeriod.name : BillingPeriod → String
  | .monthly => "MONTHLY"
  | .quarterly => "QUARTERLY"
  | .annual => "ANNUAL"
  | .noBillingPeriod => "NO_BILLING_PERIOD"

inductive PhaseType
  | trial | discount | fixedTerm | evergreen
  deriving DecidableEq, Repr

def PhaseType.all : List PhaseType := [.trial, .discount, .fixedTerm, .evergreen]

def PhaseType.name : PhaseType → String
  | .trial => "TRIAL"
  | .discount => "DISCOUNT"
  | .fixedTerm => "FIXEDTERM"
  | .evergreen => "EVERGREEN"

/-! ## Plans -/

structure Product where
  name : String
  category : Category
  deriving DecidableEq, Repr

structure Phase where
  name : String
  type : PhaseType
  duration : Duration
  deriving DecidableEq, Repr

structure Plan where
  name : String
  product : Product
  billingPeriod : BillingPeriod
  priceList : String
  phases : List Phase
  deriving DecidableEq, Repr

namespace Plan

/-- The first phase of that name. -/
def phase? (p : Plan) (name : String) : Option Phase :=
  p.phases.find? (·.name == name)

def phaseIndex? (p : Plan) (name : String) : Option Nat :=
  p.phases.findIdx? (·.name == name)

/-- The place of the first phase of that type. -/
def indexOfType? (p : Plan) (type : PhaseType) : Option Nat :=
  p.phases.findIdx? (·.type == type)

def initialPhase? (p : Plan) : Option Phase := p.phases.head?

end Plan

/-! ## Asking for a plan, standing on a plan -/

/-- What a caller asks for: a product on a billing period from a price list. -/
structure PlanSpec where
  product : String
  billingPeriod : BillingPeriod
  priceList : String
  deriving DecidableEq, Repr

/-- A place inside the catalog: a plan and the type of the phase in force. -/
structure Position where
  planName : String
  product : String
  category : Category
  billingPeriod : BillingPeriod
  priceList : String
  phaseType : PhaseType
  deriving DecidableEq, Repr

/-- The plan, phase and price list that an event moves a subscription onto. -/
structure Target where
  plan : String
  phase : String
  priceList : String
  deriving DecidableEq, Repr

end Tenure
