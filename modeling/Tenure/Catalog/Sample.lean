import Tenure.Catalog

/-!
# A sample catalog

Five monthly plans that do not change over time. The base plans `shotgun` and `pistol` open with
a trial of 30 days, `assault-rifle` has a single phase without end. Of the add-ons,
`laser-scope` opens with a month at a discount and `telescopic-scope` has a single phase.

Base plans are laid out from their own start, add-ons from the start of the bundle. A change to
the product and price list already held is not allowed.
-/

namespace Tenure.Catalog.Sample

private def phase (plan type : String) (kind : PhaseType) (duration : Duration) : Phase :=
  ⟨plan ++ "-" ++ type, kind, duration⟩

private def trial (plan : String) : Phase := phase plan "trial" .trial ⟨.days, 30⟩
private def discount (plan : String) : Phase := phase plan "discount" .discount ⟨.months, 1⟩
private def evergreen (plan : String) : Phase := phase plan "evergreen" .evergreen ⟨.unlimited, 0⟩

private def monthly (product : String) (category : Category) (phases : List (String → Phase)) :
    Plan :=
  let name := product ++ "-monthly"
  { name, product := ⟨product, category⟩, billingPeriod := .monthly, priceList := "DEFAULT",
    phases := phases.map (· name) }

def plans : List Plan :=
  [ monthly "shotgun" .base [trial, evergreen],
    monthly "pistol" .base [trial, evergreen],
    monthly "assault-rifle" .base [evergreen],
    monthly "laser-scope" .addOn [discount, evergreen],
    monthly "telescopic-scope" .addOn [evergreen] ]

/-- Add-ons follow the bundle, all others their own start. -/
def alignmentOf (product : String) : Except CatalogError Alignment :=
  match plans.find? (·.product.name == product) with
  | none => .error (.unknownPlan product)
  | some plan => .ok <| match plan.product.category with
    | .addOn => .startOfBundle
    | _ => .startOfSubscription

/-- The sample catalog under which cancellations and changes take effect as `policy` says. -/
def catalog (policy : ActionPolicy) : Catalog where
  findPlan spec _ :=
    match plans.find? fun p =>
      p.product.name == spec.product && p.billingPeriod == spec.billingPeriod with
    | some plan => .ok plan
    | none => .error (.noMatchingPlan spec.product spec.billingPeriod.name spec.priceList)
  findPlanByName name _ :=
    match plans.find? (·.name == name) with
    | some plan => .ok plan
    | none => .error (.unknownPlan name)
  findPhase name _ _ :=
    match (plans.flatMap (·.phases)).find? (·.name == name) with
    | some phase => .ok phase
    | none => .error (.unknownPhase name)
  cancelPolicy _ _ := .ok policy
  planChange source spec _ :=
    if source.product == spec.product && source.priceList == spec.priceList then
      .error (.illegalPlanChange source.planName spec.product)
    else
      (alignmentOf spec.product).map fun alignment => ⟨policy, alignment, spec.priceList⟩
  creationAlignment spec _ := alignmentOf spec.product

end Tenure.Catalog.Sample
