import Tenure.Event
import Tenure.MessagePack

/-!
# Stored payloads

A payload is stored as MessagePack: cancellations and uncancellations as their name, all others
as a map of one entry from the name to an array of the fields (`Payload.encode`).

Reading (`Payload.decode?`) also accepts what other writers may produce: the number of the
variant in the place of its name, the fields as a map by name, and a value of nil for the two
variants without fields. What follows the value is not looked at.
-/

namespace Tenure

/-- The types in the order in which payloads number them. -/
def EventType.numbered : List EventType :=
  [.create, .reCreate, .change, .transfer, .migrateEntitlement, .migrateBilling, .phase, .cancel,
    .uncancel]

namespace Payload

/-! ## Fields -/

/-- The names of the fields that a payload of a type has. -/
def fieldNames : EventType → List String
  | .cancel | .uncancel => []
  | .phase => ["phase"]
  | _ => ["plan", "phase", "price_list"]

def fields : Payload → List String
  | .create t | .reCreate t | .change t | .transfer t | .migrateEntitlement t
  | .migrateBilling t => [t.plan, t.phase, t.priceList]
  | .phase name => [name]
  | .cancel | .uncancel => []

/-- The payload of a type with these fields, if they are as many as the type has. -/
def ofFields? : EventType → List String → Option Payload
  | .create, [p, f, l] => some (.create ⟨p, f, l⟩)
  | .reCreate, [p, f, l] => some (.reCreate ⟨p, f, l⟩)
  | .change, [p, f, l] => some (.change ⟨p, f, l⟩)
  | .transfer, [p, f, l] => some (.transfer ⟨p, f, l⟩)
  | .migrateEntitlement, [p, f, l] => some (.migrateEntitlement ⟨p, f, l⟩)
  | .migrateBilling, [p, f, l] => some (.migrateBilling ⟨p, f, l⟩)
  | .phase, [name] => some (.phase name)
  | .cancel, [] => some .cancel
  | .uncancel, [] => some .uncancel
  | _, _ => none

theorem ofFields?_fields (p : Payload) : ofFields? p.type p.fields = some p := by
  cases p <;> rfl

/-! ## Writing -/

def encode (p : Payload) : List UInt8 :=
  match p with
  | .cancel | .uncancel => Packed.writeText p.type.word
  | _ =>
    Packed.shortMapHeader 1 :: Packed.writeText p.type.word
      ++ Packed.shortArrayHeader p.fields.length :: p.fields.flatMap Packed.writeText

/-! ## Reading -/

/-- The type that a value names, by its word or its number. -/
def typeOf? (v : Packed) : Option EventType :=
  match v with
  | .unsigned n => EventType.numbered[n]?
  | v => v.content?.bind fun bs => EventType.numbered.find? fun t => Packed.utf8 t.word == bs

/-- The field that a key of a map stands for: by name or number, or no field of these. -/
inductive FieldKey
  | known (index : Nat)
  | unknown
  deriving DecidableEq

def fieldKey? (names : List String) (key : Packed) : Option FieldKey :=
  match key with
  | .unsigned n => some (if n < names.length then .known n else .unknown)
  | key => key.content?.map fun bs =>
    match names.findIdx? fun name => Packed.utf8 name == bs with
    | some index => .known index
    | none => .unknown

/-- The fields out of a map. Each has to be there once; entries for other fields are passed
over. -/
def fieldsOfMap? (names : List String) (entries : List (Packed × Packed)) :
    Option (List String) := do
  let keyed ← entries.mapM fun (key, value) => (fieldKey? names key).map fun k => (k, value)
  (List.range names.length).mapM fun index =>
    match keyed.filter fun (k, _) => k = .known index with
    | [(_, value)] => value.asText?
    | _ => none

/-- The fields, from an array of as many texts or from a map. -/
def fieldsOf? (names : List String) : Packed → Option (List String)
  | .array items => if items.length = names.length then items.mapM Packed.asText? else none
  | .map entries => fieldsOfMap? names entries
  | _ => none

/-- The payload that a value stands for. -/
def ofPacked? : Packed → Option Payload
  | .map [(key, value)] => do
    let type ← typeOf? key
    match fieldNames type, value with
    | [], .nil => ofFields? type []
    | [], _ => none
    | names, value => ofFields? type (← fieldsOf? names value)
  | .map _ => none
  | v => do ofFields? (← typeOf? v) []

/-- How deep values may nest. -/
def depthLimit : Nat := 1024

/-- The payload at the front of a byte string. -/
def decode? (bs : List UInt8) : Option Payload :=
  (Packed.read? depthLimit bs).bind fun (value, _) => ofPacked? value

end Payload

end Tenure
