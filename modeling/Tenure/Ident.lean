import Tenure.Bytes
import Tenure.Hex

/-!
# Identifiers

Bundles, subscriptions, events and accounts are known by 128-bit numbers, written as UUIDs. The
four kinds are types of their own, so that one is never taken for another. Identifiers are
ordered by their number, which is also the order of their bytes.

New identifiers come out of a supply, which has those of each kind in a row (`Supply`).
-/

namespace Tenure

/-! ## UUID text -/

namespace Uuid

/-- The hyphenated form, in groups of 8, 4, 4, 4 and 12 digits. -/
def text (n : Nat) : String :=
  let digits := Hex.digits 32 n
  let group (start length : Nat) : List Char := (digits.drop start).take length
  String.ofList <| group 0 8 ++ ['-'] ++ group 8 4 ++ ['-'] ++ group 12 4 ++ ['-'] ++ group 16 4
    ++ ['-'] ++ group 20 12

/-- A hyphenated UUID: 36 characters with hyphens in their four places. -/
def ofHyphenated? (cs : List Char) : Option Nat :=
  let isHyphenPlace (i : Nat) : Bool := i == 8 || i == 13 || i == 18 || i == 23
  if cs.length = 36 ∧ cs.zipIdx.all (fun (c, i) => !isHyphenPlace i || c == '-') then
    Hex.number? ((cs.zipIdx.filter fun (_, i) => !isHyphenPlace i).map (·.1))
  else none

/-- Reads 32 digits in a row, or the hyphenated form by itself, in braces, or as a URN, whose
front may be in either case. -/
def ofText? (s : String) : Option Nat :=
  let cs := s.toList
  match cs.length with
  | 32 => Hex.number? cs
  | 36 => ofHyphenated? cs
  | 38 => if cs.head? = some '\x7b' ∧ cs.getLast? = some '\x7d'
          then ofHyphenated? ((cs.drop 1).take 36) else none
  | 45 => if (cs.take 9).map Char.toLower = "urn:uuid:".toList then ofHyphenated? (cs.drop 9)
          else none
  | _ => none

/-- The sixteen bytes of an identifier, the highest first. -/
def bytes (n : Nat) : List UInt8 := Bytes.bigEndian 16 n

end Uuid

/-! ## The four kinds -/

structure EventId where
  number : Nat
  deriving DecidableEq, Repr, Inhabited

structure SubscriptionId where
  number : Nat
  deriving DecidableEq, Repr, Inhabited

structure BundleId where
  number : Nat
  deriving DecidableEq, Repr, Inhabited

structure AccountId where
  number : Nat
  deriving DecidableEq, Repr, Inhabited

def EventId.text (id : EventId) : String := Uuid.text id.number
def SubscriptionId.text (id : SubscriptionId) : String := Uuid.text id.number
def BundleId.text (id : BundleId) : String := Uuid.text id.number
def AccountId.text (id : AccountId) : String := Uuid.text id.number

/-- The short form for a log: the kind and the first eight digits. -/
def Uuid.label (kind : String) (n : Nat) : String :=
  kind ++ "(" ++ ((text n).take 8).toString ++ ")"

def EventId.label (id : EventId) : String := Uuid.label "EventId" id.number
def SubscriptionId.label (id : SubscriptionId) : String := Uuid.label "SubscriptionId" id.number
def BundleId.label (id : BundleId) : String := Uuid.label "BundleId" id.number
def AccountId.label (id : AccountId) : String := Uuid.label "AccountId" id.number

/-! ## New identifiers -/

/-- The identifiers that are given out next, those of each kind one after the other. -/
structure Supply where
  bundle : Nat → BundleId
  subscription : Nat → SubscriptionId
  event : Nat → EventId

namespace Supply

/-- Numbers counted through, those of each kind from a place of their own. -/
def counting (bundle subscription event : Nat) : Supply :=
  ⟨fun n => ⟨bundle + n⟩, fun n => ⟨subscription + n⟩, fun n => ⟨event + n⟩⟩

/-- The supply without its first bundles, subscriptions and events. -/
def drop (supply : Supply) (bundles subscriptions events : Nat) : Supply where
  bundle n := supply.bundle (bundles + n)
  subscription n := supply.subscription (subscriptions + n)
  event n := supply.event (events + n)

@[simp] theorem drop_zero (supply : Supply) : supply.drop 0 0 0 = supply := by
  simp [drop]

@[simp] theorem drop_drop (supply : Supply) (b b' s s' e e' : Nat) :
    (supply.drop b s e).drop b' s' e' = supply.drop (b + b') (s + s') (e + e') := by
  simp [drop, Nat.add_assoc]

end Supply

/-! ## Names for readers -/

/-- How messages call the things that identifiers stand for. -/
structure Names where
  bundle : BundleId → String := BundleId.text
  subscription : SubscriptionId → String := SubscriptionId.text
  event : EventId → String := EventId.text
  account : AccountId → String := AccountId.text

end Tenure
