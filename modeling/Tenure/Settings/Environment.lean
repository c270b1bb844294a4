import Tenure.Settings

/-!
# Settings from the environment

The variable `ENTITLEMENT__LOCK_TTL_SECS` gives the setting `lock_ttl_secs`, and the others are
named likewise; the case of names does not matter. Settings that no variable names keep their
default, and variables that name no setting are passed over. A name may go on below a setting, as
a path (`isPath`); then the setting is no number and cannot be read.

A value is read as a truth value, a whole number, a decimal number or a text, whichever fits
first (`Value.ofText`), and then taken as the number of a setting (`Value.toNumber?`).
-/

namespace Tenure.Settings

/-! ## Numbers -/

/-- The number that digits write, if there are only digits and at least one. -/
def digits? (cs : List Char) : Option Nat :=
  if !cs.isEmpty && cs.all Char.isDigit then
    some (cs.foldl (fun n c => 10 * n + (c.toNat - 48)) 0)
  else none

def splitSign : List Char → Bool × List Char
  | '-' :: cs => (true, cs)
  | '+' :: cs => (false, cs)
  | cs => (false, cs)

/-- A whole number with or without a sign. -/
def integer? (cs : List Char) : Option Int :=
  let (negative, cs) := splitSign cs
  (digits? cs).map fun n => if negative then -(n : Int) else n

/-- The number `mantissa * 10 ^ exponent` in double precision. Exponents far out of range are cut
off first: with them the number is infinite or zero. -/
def double (mantissa : Nat) (exponent : Int) : Float :=
  if mantissa = 0 then 0
  else
    let magnitude := exponent + (toString mantissa).length
    if 400 < magnitude then 1.0 / 0.0
    else if magnitude < -400 then 0
    else if exponent < 0 then Float.ofScientific mantissa true exponent.natAbs
    else Float.ofScientific mantissa false exponent.natAbs

/-- A decimal number without a sign: digits with a point among or beside them, and an exponent. -/
def unsignedDecimal? (cs : List Char) : Option Float := do
  let isExponentMark (c : Char) : Bool := c == 'e' || c == 'E'
  let number := cs.takeWhile (!isExponentMark ·)
  let whole := number.takeWhile (· != '.')
  let part := (number.dropWhile (· != '.')).drop 1
  let mantissa ← digits? (whole ++ part)
  let exponent ← match cs.dropWhile (!isExponentMark ·) with
    | [] => some 0
    | _ :: exponent => integer? exponent
  return double mantissa (exponent - part.length)

/-- A decimal number. Infinity and the undefined number have names. -/
def decimal? (cs : List Char) : Option Float :=
  let (negative, cs) := splitSign cs
  let magnitude := match String.ofList (cs.map Char.toLower) with
    | "inf" | "infinity" => some (1.0 / 0.0)
    | "nan" => some (0.0 / 0.0)
    | _ => unsignedDecimal? cs
  magnitude.map fun x => if negative then -x else x

/-! ## Values -/

inductive Value
  | bool (b : Bool)
  | integer (n : Int)
  | decimal (x : Float)
  | text (s : String)

namespace Value

/-- Whole numbers have 64 bits with the sign; longer ones are read as decimal. -/
def fitsInteger (n : Int) : Bool := -9223372036854775808 ≤ n && n < 9223372036854775808

def ofText (s : String) : Value :=
  let lower := String.ofList (s.toList.map Char.toLower)
  if lower = "true" then .bool true
  else if lower = "false" then .bool false
  else match (integer? s.toList).filter fitsInteger with
    | some n => .integer n
    | none => match decimal? s.toList with
      | some x => .decimal x
      | none => .text lower

/-- The whole number of 64 bits next to a decimal one, a half going away from zero. Below zero the
nearest is zero, which is also taken for what is no number. -/
def nearest (x : Float) : Nat := x.round.toUInt64.toNat

/-- The number that a setting of so many bits takes from the value. -/
def toNumber? (bits : Nat) (v : Value) : Option Nat :=
  let number := match v with
    | .bool b => some b.toNat
    | .integer n => n.toNat?
    | .decimal x => some (nearest x)
    | .text "true" | .text "on" | .text "yes" => some 1
    | .text "false" | .text "off" | .text "no" => some 0
    | .text _ => none
  number.filter (· < Nat.pow 2 bits)

end Value

/-! ## Variables -/

/-- A character of a name in lower case. The sign for a kelvin is the one character beyond ASCII
whose lower case is an ASCII letter. -/
def lowerCase (c : Char) : Char := if c == '\u212a' then 'k' else c.toLower

/-- A variable's name behind the mark of this program. Its parts are set apart by full stops, for
which two underscores may stand. -/
def path? (name : String) : Option (List Char) :=
  ((String.ofList (name.toList.map lowerCase)).dropPrefix? "entitlement__").map fun rest =>
    (rest.toString.replace "__" ".").toList

def isPartChar (c : Char) : Bool := c.isAlphanum || c == ' ' || c == '_' || c == '-'

def isPadding (c : Char) : Bool := c == ' ' || c == '\t'

/-- How far a path has been read. Behind its first part come parts after full stops and places in
brackets, `a.b[2]`; a place is a whole number with blanks or tabs around it. -/
inductive PathState
  | partStart
  | inPart
  | placeStart
  | placeSign
  | inPlace (place : Nat)
  | behindPlace
  | closed

namespace PathState

/-- Read one more character, if it may stand there. Places have 64 bits with the sign. -/
def step (s : PathState) (c : Char) : Option PathState :=
  let digit (place : Nat) : Option PathState :=
    if c.isDigit then some (.inPlace (10 * place + (c.toNat - 48))) else none
  let closing : Option PathState :=
    if c == ']' then some .closed else if isPadding c then some .behindPlace else none
  let further : Option PathState :=
    if c == '.' then some .partStart else if c == '[' then some .placeStart else none
  match s with
  | .partStart => if isPartChar c then some .inPart else none
  | .inPart => if isPartChar c then some .inPart else further
  | .placeStart =>
    if isPadding c then some .placeStart else if c == '-' then some .placeSign else digit 0
  | .placeSign => digit 0
  | .inPlace place => (digit place).or (if place < 9223372036854775808 then closing else none)
  | .behindPlace => closing
  | .closed => further

def isEnd : PathState → Bool
  | .inPart | .closed => true
  | _ => false

end PathState

/-- A path that is written in order. -/
def isPath (cs : List Char) : Bool :=
  (cs.foldlM PathState.step .partStart).any PathState.isEnd

/-- What the environment says about a setting. -/
inductive Reading
  | absent
  | value (text : String)
  /-- There are parts below the setting's name, which has none. -/
  | nested

/-- The last variable that names the setting counts. -/
def readingOf (environment : List (String × String)) (field : String) : Reading :=
  environment.foldl (fun found (name, text) => match path? name with
    | none => found
    | some path =>
      if !isPath path || path.takeWhile isPartChar ≠ field.toList then found
      else if path.all isPartChar then .value text
      else .nested) .absent

/-- A setting of so many bits. -/
def fromVariables (environment : List (String × String)) (field : String) (bits default : Nat) :
    Except SettingsError Nat :=
  match readingOf environment field with
  | .absent => .ok default
  | .nested => .error .unreadable
  | .value text => match (Value.ofText text).toNumber? bits with
    | some n => .ok n
    | none => .error .unreadable

/-- The settings that variables give, validated. -/
def ofEnvironment (environment : List (String × String)) : Except SettingsError Settings := do
  let defaults : Settings := {}
  let attempts ← fromVariables environment "lock_retry_attempts" 32 defaults.attempts
  let backoff ← fromVariables environment "lock_retry_backoff_ms" 64 defaults.backoffMillis
  let ttl ← fromVariables environment "lock_ttl_secs" 64 defaults.ttlSeconds
  let settings : Settings := ⟨attempts, backoff, ttl⟩
  settings.validate
  return settings

end Tenure.Settings
