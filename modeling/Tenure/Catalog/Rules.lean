import Tenure.Catalog

/-!
# Catalogs given by rules

A rule book lists plans, some of which exist only from a date on, and rules for creations,
changes and cancellations. A rule applies from its own date on and to what its filters name; of
the rules that apply the first one decides, and where none does the answer is the mildest one:
immediate, from the start of the subscription.
-/

namespace Tenure.Catalog

/-- Something that holds from a date on, or always. -/
structure Since (α : Type) where
  since : Option Instant
  value : α

def Since.isInForce {α : Type} (s : Since α) (date : Instant) : Bool :=
  match s.since with
  | none => true
  | some since => since ≤ date

/-- Alignment of creations; `none` when the catalog has no version to answer with. -/
structure CreateRule where
  product : Option String
  priceList : Option String
  alignment : Option Alignment

/-- Terms of changes; `none` for a change that is not allowed. -/
structure ChangeRule where
  source : Option String
  destination : Option String
  phase : Option String
  terms : Option (ActionPolicy × Alignment × Option String)

structure CancelRule where
  product : Option String
  phase : Option String
  priceList : Option String
  policy : ActionPolicy

structure RuleBook where
  plans : List (Since Plan)
  priceLists : Option (List String)
  create : List (Since CreateRule)
  change : List (Since ChangeRule)
  cancel : List (Since CancelRule)

namespace RuleBook

/-- A filter that is not given lets everything pass. -/
def admits (filter : Option String) (asked : String) : Bool :=
  match filter with
  | none => true
  | some wanted => wanted == asked

/-- The plans that exist at `date`, in the order of the book. -/
def plansAt (book : RuleBook) (date : Instant) : List Plan :=
  (book.plans.filter (·.isInForce date)).map (·.value)

/-- The first rule in force at `date` whose filters pass. -/
def firstRule? {α : Type} (rules : List (Since α)) (date : Instant) (applies : α → Bool) :
    Option α :=
  (rules.find? fun r => r.isInForce date && applies r.value).map (·.value)

def findPlan (book : RuleBook) (spec : PlanSpec) (date : Instant) : Except CatalogError Plan :=
  if book.priceLists.any fun lists => !lists.contains spec.priceList then
    .error (.unknownPriceList spec.priceList)
  else
    match (book.plansAt date).find? fun p =>
      p.product.name == spec.product && p.billingPeriod == spec.billingPeriod with
    | some plan => .ok plan
    | none => .error (.noMatchingPlan spec.product spec.billingPeriod.name spec.priceList)

def findPlanByName (book : RuleBook) (name : String) (date : Instant) :
    Except CatalogError Plan :=
  match (book.plansAt date).find? (·.name == name) with
  | some plan => .ok plan
  | none => .error (.unknownPlan name)

def findPhase (book : RuleBook) (name : String) (date : Instant) : Except CatalogError Phase :=
  match ((book.plansAt date).flatMap (·.phases)).find? (·.name == name) with
  | some phase => .ok phase
  | none => .error (.unknownPhase name)

def cancelPolicy (book : RuleBook) (current : Position) (date : Instant) : ActionPolicy :=
  match firstRule? book.cancel date fun r =>
    admits r.product current.product && admits r.phase current.phaseType.name
      && admits r.priceList current.priceList with
  | some rule => rule.policy
  | none => .immediate

def planChange (book : RuleBook) (source : Position) (spec : PlanSpec) (date : Instant) :
    Except CatalogError ChangeTerms :=
  match firstRule? book.change date fun r =>
    admits r.source source.product && admits r.destination spec.product
      && admits r.phase source.phaseType.name with
  | none => .ok ⟨.immediate, .startOfSubscription, spec.priceList⟩
  | some rule => match rule.terms with
    | none => .error (.illegalPlanChange source.planName spec.product)
    | some (policy, alignment, priceList) =>
      .ok ⟨policy, alignment, priceList.getD spec.priceList⟩

def creationAlignment (book : RuleBook) (spec : PlanSpec) (date : Instant) :
    Except CatalogError Alignment :=
  match firstRule? book.create date fun r =>
    admits r.product spec.product && admits r.priceList spec.priceList with
  | none => .ok .startOfSubscription
  | some rule => match rule.alignment with
    | none => .error (.noEffectiveVersion date.text)
    | some alignment => .ok alignment

/-- The catalog that answers by the book. -/
def catalog (book : RuleBook) : Catalog where
  findPlan := book.findPlan
  findPlanByName := book.findPlanByName
  findPhase name date _ := book.findPhase name date
  cancelPolicy current date := .ok (book.cancelPolicy current date)
  planChange := book.planChange
  creationAlignment := book.creationAlignment

end RuleBook

end Tenure.Catalog
