import Tenure.Document
import Tenure.Document.Words

/-!
# Answers of a catalog as documents
-/

namespace Tenure

def Duration.document (d : Duration) : Document :=
  .record [("unit", .text d.unit.word), ("number", .integer d.number)]

def Product.document (p : Product) : Document :=
  .record [("name", .text p.name), ("category", .text p.category.word)]

def Phase.document (p : Phase) : Document :=
  .record [("name", .text p.name), ("phase_type", .text p.type.word),
    ("duration", p.duration.document)]

def Plan.document (p : Plan) : Document :=
  .record [("name", .text p.name), ("product", p.product.document),
    ("billing_period", .text p.billingPeriod.word), ("price_list", .text p.priceList),
    ("phases", .list (p.phases.map Phase.document))]

def Position.document (p : Position) : Document :=
  .record [("plan_name", .text p.planName), ("product", .text p.product),
    ("category", .text p.category.word), ("billing_period", .text p.billingPeriod.word),
    ("price_list", .text p.priceList), ("phase_type", .text p.phaseType.word)]

def ChangeTerms.document (t : ChangeTerms) : Document :=
  .record [("policy", .text t.policy.word), ("alignment", .text t.alignment.word),
    ("new_price_list", .text t.newPriceList)]

def Alignment.document (a : Alignment) : Document := .text a.word

end Tenure
