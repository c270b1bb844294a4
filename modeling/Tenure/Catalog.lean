import Tenure.Plan

/-!
# Catalogs

A catalog resolves names to plans and answers questions of policy: when a cancellation or a plan
change takes effect, and which date the phases of a plan are laid out from. The same question on
the same date always has the same answer, which is why a catalog is a record of plain functions.
-/

namespace Tenure

/-- When a requested action takes effect. -/
inductive ActionPolicy
  | immediate | endOfTerm
  deriving DecidableEq, Repr

def ActionPolicy.all : List ActionPolicy := [.immediate, .endOfTerm]

/-- Which date the phases of a plan are laid out from. -/
inductive Alignment
  | startOfBundle | startOfSubscription | changeOfPlan | changeOfPriceList
  deriving DecidableEq, Repr

def Alignment.all : List Alignment :=
  [.startOfBundle, .startOfSubscription, .changeOfPlan, .changeOfPriceList]

/-- The catalog's terms for a plan change. -/
structure ChangeTerms where
  policy : ActionPolicy
  alignment : Alignment
  newPriceList : String
  deriving DecidableEq, Repr

/-- A question that the catalog has no answer to. -/
inductive CatalogError
  | unknownPlan (name : String)
  | unknownPhase (name : String)
  | unknownPriceList (name : String)
  | noMatchingPlan (product billingPeriod priceList : String)
  | illegalPlanChange (source destination : String)
  | noEffectiveVersion (date : String)
  deriving DecidableEq, Repr

def CatalogError.message : CatalogError → String
  | .unknownPlan name => s!"unknown plan: {name}"
  | .unknownPhase name => s!"unknown phase: {name}"
  | .unknownPriceList name => s!"unknown price list: {name}"
  | .noMatchingPlan product period list =>
    s!"no plan for product {product} ({period}) in price list {list}"
  | .illegalPlanChange source destination =>
    s!"plan change from {source} to {destination} is not allowed"
  | .noEffectiveVersion date => s!"catalog has no version effective at {date}"

/-- The questions a catalog answers, each as of a date. -/
structure Catalog where
  findPlan : PlanSpec → Instant → Except CatalogError Plan
  findPlanByName : String → Instant → Except CatalogError Plan
  /-- The phase of that name for a subscription that started at the last argument. -/
  findPhase : String → Instant → Instant → Except CatalogError Phase
  cancelPolicy : Position → Instant → Except CatalogError ActionPolicy
  planChange : Position → PlanSpec → Instant → Except CatalogError ChangeTerms
  creationAlignment : PlanSpec → Instant → Except CatalogError Alignment

end Tenure
