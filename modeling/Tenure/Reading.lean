import Tenure.Payload.Encoding

/-!
# Reading data from outside

Names, numbers and bytes that come from elsewhere either stand for a value or are refused with a
reason.
-/

namespace Tenure

/-- Why a datum cannot be read. -/
inductive DataError
  | unknownEventType (name : String)
  | unknownCategory (name : String)
  /-- Milliseconds that lie outside the calendar. -/
  | beyondCalendar (millis : Int)
  /-- Bytes that no payload is stored as. -/
  | unreadablePayload
  deriving DecidableEq, Repr

/-- The text of the error; unreadable bytes have none of their own. -/
def DataError.message? : DataError → Option String
  | .unknownEventType name => some s!"invalid data: unknown event type: {name}"
  | .unknownCategory name => some s!"invalid data: unknown product category: {name}"
  | .beyondCalendar millis => some s!"timestamp out of range: {millis}"
  | .unreadablePayload => none

def EventType.read (name : String) : Except DataError EventType :=
  match ofName? name with
  | some type => .ok type
  | none => .error (.unknownEventType name)

def Category.read (name : String) : Except DataError Category :=
  match ofName? name with
  | some category => .ok category
  | none => .error (.unknownCategory name)

/-- The instant that a number of milliseconds names. -/
def Instant.read (millis : Int) : Except DataError Instant :=
  match ofMillis? millis with
  | some t => .ok t
  | none => .error (.beyondCalendar millis)

/-- The payload that bytes begin with. -/
def Payload.read (bytes : List UInt8) : Except DataError Payload :=
  match decode? bytes with
  | some payload => .ok payload
  | none => .error .unreadablePayload

end Tenure
