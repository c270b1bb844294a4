/-!
# Bytes

Whole numbers as bytes. The highest byte stands first (`bigEndian`, `ofBigEndian`), except in the
words of a hash, where the lowest does (`ofLittleEndian`).
-/

namespace Tenure.Bytes

/-- The last `width` bytes of `n`, the highest first. -/
def bigEndian : (width n : Nat) → List UInt8
  | 0, _ => []
  | width + 1, n => bigEndian width (n / 256) ++ [UInt8.ofNat (n % 256)]

def ofBigEndian (bytes : List UInt8) : Nat :=
  bytes.foldl (fun n b => 256 * n + b.toNat) 0

def ofLittleEndian : List UInt8 → Nat
  | [] => 0
  | b :: bs => b.toNat + 256 * ofLittleEndian bs

/-- The number that `bytes` write in two's complement, the highest first: of the numbers with
these last bytes the one next to zero, and of two such the negative one. -/
def ofTwosComplement (bytes : List UInt8) : Int :=
  Int.bmod (ofBigEndian bytes) (Nat.pow 256 bytes.length)

end Tenure.Bytes
