import Tenure.Ident
import Tenure.Timestamp

/-!
# Documents

Values come and go as documents: trees of records, lists, texts, numbers and truth values. A `Form`
says which documents stand for values of some kind and how each of them is written. What is
written has again that form and is written in the same way.

Records are lenient. Fields that are not asked for are passed over, a field that is missing
counts as null, and a record may also be given as the list of all its fields in order.
-/

namespace Tenure

/-- A document. Numbers with a fraction or an exponent occur, but nothing here is written as one,
so their value is not kept. -/
inductive Document
  | null
  | bool (b : Bool)
  | integer (n : Int)
  | inexact
  | text (s : String)
  | list (items : List Document)
  | record (fields : List (String × Document))
  deriving Inhabited

namespace Document

/-- The value of a field, if the record has it. -/
def lookup? (fields : List (String × Document)) (name : String) : Option Document :=
  (fields.find? (·.1 == name)).map (·.2)

end Document

/-- Takes a document of some form to the document that is written for the same value; other
documents to nothing. -/
abbrev Form := Document → Option Document

namespace Form

/-! ## Simple values -/

def bool : Form
  | .bool b => some (.bool b)
  | _ => none

def text : Form
  | .text s => some (.text s)
  | _ => none

/-- A whole number that is not negative and fits into so many bits. -/
def natural (bits : Nat) : Form
  | .integer n => if 0 ≤ n ∧ n < Nat.pow 2 bits then some (.integer n) else none
  | _ => none

/-- A UUID, written with hyphens and in lower case. -/
def uuid : Form
  | .text s => (Uuid.ofText? s).map fun n => .text (Uuid.text n)
  | _ => none

/-- A date, written in UTC. -/
def timestamp : Form
  | .text s => (Timestamp.ofText? s).map fun t => .text (Timestamp.text t)
  | _ => none

/-! ## Compound values -/

/-- A value that may be null. -/
def optional (form : Form) : Form
  | .null => some .null
  | d => form d

def list (item : Form) : Form
  | .list items => (items.mapM item).map .list
  | _ => none

/-- A record with its fields by name. -/
def named (fields : List (String × Form)) : Form
  | .record given => do
    let written ← fields.mapM fun (name, form) =>
      (form ((Document.lookup? given name).getD .null)).map fun d => (name, d)
    return .record written
  | _ => none

/-- A record with its fields by name, or all of them in order. -/
def record (fields : List (String × Form)) : Form
  | .list items =>
    if items.length = fields.length then
      named fields (.record ((fields.map (·.1)).zip items))
    else none
  | d => named fields d

/-- One of several words, also as the name of a single null field, or a single field whose name
says which form its value has. -/
def variants (words : List String) (carrying : List (String × Form)) : Form
  | .text s => if words.contains s then some (.text s) else none
  | .record [(name, .null)] => if words.contains name then some (.text name) else none
  | .record [(name, d)] => do
    let (_, form) ← carrying.find? (·.1 == name)
    return .record [(name, ← form d)]
  | _ => none

def word (words : List String) : Form := variants words []

end Form

end Tenure
