import Tenure.Catalog
import Tenure.History

/-!
# Words

How documents spell the values of small types. An `EventType` is spelled as `EventType.word`
says.
-/

namespace Tenure

def Category.word : Category → String
  | .base => "Base"
  | .addOn => "AddOn"
  | .standalone => "Standalone"

def BillingPeriod.word : BillingPeriod → String
  | .monthly => "Monthly"
  | .quarterly => "Quarterly"
  | .annual => "Annual"
  | .noBillingPeriod => "NoBillingPeriod"

def PhaseType.word : PhaseType → String
  | .trial => "Trial"
  | .discount => "Discount"
  | .fixedTerm => "FixedTerm"
  | .evergreen => "Evergreen"

def TimeUnit.word : TimeUnit → String
  | .days => "Days"
  | .months => "Months"
  | .years => "Years"
  | .unlimited => "Unlimited"

def ActionPolicy.word : ActionPolicy → String
  | .immediate => "Immediate"
  | .endOfTerm => "EndOfTerm"

def Alignment.word : Alignment → String
  | .startOfBundle => "StartOfBundle"
  | .startOfSubscription => "StartOfSubscription"
  | .changeOfPlan => "ChangeOfPlan"
  | .changeOfPriceList => "ChangeOfPriceList"

def Activity.word : Activity → String
  | .active => "Active"
  | .cancelled => "Cancelled"

end Tenure
