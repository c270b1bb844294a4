/-!
# Hexadecimal digits

Numbers and bytes in hexadecimal digits. Writing gives lower case (`digits`, `text`), reading takes
either case (`number?`, `bytes?`).
-/

namespace Tenure.Hex

/-! ## Numbers -/

/-- The last `count` digits of `n`. -/
def digits : (count n : Nat) → List Char
  | 0, _ => []
  | count + 1, n => digits count (n / 16) ++ [Nat.digitChar (n % 16)]

def value? (c : Char) : Option Nat :=
  if '0' ≤ c ∧ c ≤ '9' then some (c.toNat - 48)
  else if 'a' ≤ c ∧ c ≤ 'f' then some (c.toNat - 87)
  else if 'A' ≤ c ∧ c ≤ 'F' then some (c.toNat - 55)
  else none

/-- The number that digits write; no number if another character is among them. -/
def number? (cs : List Char) : Option Nat :=
  cs.foldlM (fun n c => (value? c).map (16 * n + ·)) 0

/-! ## Bytes -/

/-- Two digits for each byte. -/
def text (bytes : List UInt8) : String :=
  String.ofList (bytes.flatMap fun b => digits 2 b.toNat)

/-- The bytes that pairs of digits write. -/
def bytes? : List Char → Option (List UInt8)
  | [] => some []
  | [_] => none
  | a :: b :: cs => do
    let n ← number? [a, b]
    return UInt8.ofNat n :: (← bytes? cs)

end Tenure.Hex
