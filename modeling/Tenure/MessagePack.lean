import Tenure.Bytes

/-!
# MessagePack

The binary form in which payloads are stored. A value starts with a header byte that gives its
type and, for short values, its length; longer ones carry the length behind the header. Writing
takes the shortest header (`textHeader`), reading accepts every width.

`Packed.read?` reads one value off the front of a byte string and leaves the rest alone, so that
values can stand one behind the other.
-/

namespace Tenure

/-- A MessagePack value. Text is kept as bytes, since bytes may be read as text and the other way
round. Floats and values of extension types are recognised but not looked into. -/
inductive Packed
  | nil
  | bool (b : Bool)
  | unsigned (n : Nat)
  | signed (n : Int)
  | float
  | text (bytes : List UInt8)
  | bytes (bytes : List UInt8)
  | extension
  | array (items : List Packed)
  | map (entries : List (Packed × Packed))

namespace Packed

/-! ## Writing -/

/-- The shortest header of a text of `length` bytes. -/
def textHeader (length : Nat) : List UInt8 :=
  if length < 32 then [UInt8.ofNat (0xa0 + length)]
  else if length < 256 then 0xd9 :: Bytes.bigEndian 1 length
  else if length < 65536 then 0xda :: Bytes.bigEndian 2 length
  else 0xdb :: Bytes.bigEndian 4 length

def utf8 (s : String) : List UInt8 := s.toUTF8.data.toList

def writeText (s : String) : List UInt8 := textHeader (utf8 s).length ++ utf8 s

def shortArrayHeader (length : Nat) : UInt8 := UInt8.ofNat (0x90 + length)

def shortMapHeader (length : Nat) : UInt8 := UInt8.ofNat (0x80 + length)

/-! ## Reading -/

def take? (n : Nat) (bs : List UInt8) : Option (List UInt8 × List UInt8) :=
  let front := bs.take n
  if front.length = n then some (front, bs.drop n) else none

def takeNat? (width : Nat) (bs : List UInt8) : Option (Nat × List UInt8) :=
  (take? width bs).map fun (front, rest) => (Bytes.ofBigEndian front, rest)

/-- What a header announces: a whole value, or one whose content follows. -/
inductive Header
  | whole (value : Packed)
  | text (length : Nat)
  | bytes (length : Nat)
  /-- Content of that length behind one byte for its type. -/
  | extension (length : Nat)
  | array (length : Nat)
  | map (length : Nat)

/-- Read a header with the numbers that belong to it. The byte 0xc1 is never used. -/
def readHeader? : List UInt8 → Option (Header × List UInt8)
  | [] => none
  | b :: bs =>
    let n := b.toNat
    let sized (width : Nat) (header : Nat → Header) : Option (Header × List UInt8) :=
      (takeNat? width bs).map fun (length, rest) => (header length, rest)
    let number (width : Nat) : Option (Header × List UInt8) :=
      (takeNat? width bs).map fun (value, rest) => (.whole (.unsigned value), rest)
    let twosComplement (width : Nat) : Option (Header × List UInt8) :=
      (take? width bs).map fun (front, rest) =>
        (.whole (.signed (Bytes.ofTwosComplement front)), rest)
    let skipped (width : Nat) : Option (Header × List UInt8) :=
      (take? width bs).map fun (_, rest) => (.whole .float, rest)
    if n < 0x80 then some (.whole (.unsigned n), bs)
    else if n < 0x90 then some (.map (n - 0x80), bs)
    else if n < 0xa0 then some (.array (n - 0x90), bs)
    else if n < 0xc0 then some (.text (n - 0xa0), bs)
    else if 0xe0 ≤ n then some (.whole (.signed ((n : Int) - 256)), bs)
    else match n with
      | 0xc0 => some (.whole .nil, bs)
      | 0xc2 => some (.whole (.bool false), bs)
      | 0xc3 => some (.whole (.bool true), bs)
      | 0xc4 => sized 1 .bytes
      | 0xc5 => sized 2 .bytes
      | 0xc6 => sized 4 .bytes
      | 0xc7 => sized 1 .extension
      | 0xc8 => sized 2 .extension
      | 0xc9 => sized 4 .extension
      | 0xca => skipped 4
      | 0xcb => skipped 8
      | 0xcc => number 1
      | 0xcd => number 2
      | 0xce => number 4
      | 0xcf => number 8
      | 0xd0 => twosComplement 1
      | 0xd1 => twosComplement 2
      | 0xd2 => twosComplement 4
      | 0xd3 => twosComplement 8
      | 0xd4 => some (.extension 1, bs)
      | 0xd5 => some (.extension 2, bs)
      | 0xd6 => some (.extension 4, bs)
      | 0xd7 => some (.extension 8, bs)
      | 0xd8 => some (.extension 16, bs)
      | 0xd9 => sized 1 .text
      | 0xda => sized 2 .text
      | 0xdb => sized 4 .text
      | 0xdc => sized 2 .array
      | 0xdd => sized 4 .array
      | 0xde => sized 2 .map
      | 0xdf => sized 4 .map
      | _ => none

/-- Read `count` things one behind the other. -/
def readMany? {α : Type} (read : List UInt8 → Option (α × List UInt8)) :
    (count : Nat) → List UInt8 → Option (List α × List UInt8)
  | 0, bs => some ([], bs)
  | count + 1, bs => do
    let (item, bs) ← read bs
    let (items, bs) ← readMany? read count bs
    return (item :: items, bs)

/-- Read a value whose parts are read by `inner`. Without it the value may not be of a kind that
has parts, even if it has none. -/
def readWith? (inner : Option (List UInt8 → Option (Packed × List UInt8))) (bs : List UInt8) :
    Option (Packed × List UInt8) := do
  let (header, bs) ← readHeader? bs
  match header with
  | .whole value => return (value, bs)
  | .text length =>
    let (content, bs) ← take? length bs
    return (.text content, bs)
  | .bytes length =>
    let (content, bs) ← take? length bs
    return (.bytes content, bs)
  | .extension length =>
    let _ ← inner
    let (_, bs) ← take? (length + 1) bs
    return (.extension, bs)
  | .array length =>
    let (items, bs) ← readMany? (← inner) length bs
    return (.array items, bs)
  | .map length =>
    let read ← inner
    let entry (bs : List UInt8) : Option ((Packed × Packed) × List UInt8) := do
      let (key, bs) ← read bs
      let (value, bs) ← read bs
      return ((key, value), bs)
    let (entries, bs) ← readMany? entry length bs
    return (.map entries, bs)

/-- Read a value that nests at most `depth` deep, and give back what follows it. Arrays, maps and
values of extension types nest. -/
def read? : (depth : Nat) → List UInt8 → Option (Packed × List UInt8)
  | 0 => readWith? none
  | depth + 1 => readWith? (some (read? depth))

/-! ## Content -/

/-- The bytes of a text, or of bytes that may stand for one. -/
def content? : Packed → Option (List UInt8)
  | .text bs | .bytes bs => some bs
  | _ => none

/-- The text of a value; none if it is no text or not valid UTF-8. -/
def asText? (v : Packed) : Option String :=
  v.content?.bind fun bs => String.fromUTF8? bs.toByteArray

end Packed

end Tenure
