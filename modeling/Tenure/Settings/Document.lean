import Tenure.Document
import Tenure.Settings

/-!
# Settings from documents

A document gives settings by name, or the first ones of them in order. What it does not give keeps
its default. The settings are not validated here.
-/

namespace Tenure.Settings

/-- The value of a setting, if the document gives one; outside, a value of the wrong form. -/
def number? (bits : Nat) : Option Document → Option (Option Nat)
  | none => some none
  | some d => match Form.natural bits d with
    | some (.integer n) => some (some n.toNat)
    | _ => none

/-- Attempts, backoff and age, each if given. -/
def ofFields? (attempts backoff ttl : Option Document) : Option Settings := do
  let defaults : Settings := {}
  let attempts ← number? 32 attempts
  let backoff ← number? 64 backoff
  let ttl ← number? 64 ttl
  return ⟨attempts.getD defaults.attempts, backoff.getD defaults.backoffMillis,
    ttl.getD defaults.ttlSeconds⟩

def ofDocument? : Document → Option Settings
  | .record fields =>
    ofFields? (Document.lookup? fields "lock_retry_attempts")
      (Document.lookup? fields "lock_retry_backoff_ms") (Document.lookup? fields "lock_ttl_secs")
  | .list items => if items.length ≤ 3 then ofFields? items[0]? items[1]? items[2]? else none
  | _ => none

end Tenure.Settings
