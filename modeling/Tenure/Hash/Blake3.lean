import Tenure.Bytes

/-!
# BLAKE3

The hash that repairs are recorded under. The input is cut into chunks of 1024 bytes and each
chunk into blocks of 64; the blocks of a chunk are compressed one into the next, and the chunks
are joined in pairs, level by level, until one node is left. Compressing that node once more with
the root flag gives the hash.
-/

namespace Tenure.Blake3

/-! ## Compression -/

def initialWords : Array UInt32 :=
  #[0x6A09E667, 0xBB67AE85, 0x3C6EF372, 0xA54FF53A, 0x510E527F, 0x9B05688C, 0x1F83D9AB, 0x5BE0CD19]

/-- The order in which a round takes the words that the round before took in order. -/
def permutation : Array Nat := #[2, 6, 3, 10, 7, 0, 4, 13, 1, 11, 12, 5, 9, 14, 15, 8]

def chunkStart : UInt32 := 1
def chunkEnd : UInt32 := 2
def parentFlag : UInt32 := 4
def rootFlag : UInt32 := 8

def rotateRight (x n : UInt32) : UInt32 := (x >>> n) ||| (x <<< (32 - n))

def word (ws : Array UInt32) (i : Nat) : UInt32 := ws.getD i 0

/-- Mix two message words into a column or a diagonal. -/
def mix (v : Array UInt32) (a b c d : Nat) (x y : UInt32) : Array UInt32 :=
  let va := word v a + word v b + x
  let vd := rotateRight (word v d ^^^ va) 16
  let vc := word v c + vd
  let vb := rotateRight (word v b ^^^ vc) 12
  let va := va + vb + y
  let vd := rotateRight (vd ^^^ va) 8
  let vc := vc + vd
  let vb := rotateRight (vb ^^^ vc) 7
  (((v.setIfInBounds a va).setIfInBounds b vb).setIfInBounds c vc).setIfInBounds d vd

/-- One round: the four columns, then the four diagonals. -/
def round (v m : Array UInt32) : Array UInt32 :=
  let v := mix v 0 4 8 12 (word m 0) (word m 1)
  let v := mix v 1 5 9 13 (word m 2) (word m 3)
  let v := mix v 2 6 10 14 (word m 4) (word m 5)
  let v := mix v 3 7 11 15 (word m 6) (word m 7)
  let v := mix v 0 5 10 15 (word m 8) (word m 9)
  let v := mix v 1 6 11 12 (word m 10) (word m 11)
  let v := mix v 2 7 8 13 (word m 12) (word m 13)
  mix v 3 4 9 14 (word m 14) (word m 15)

def rounds : (count : Nat) → (v m : Array UInt32) → Array UInt32
  | 0, v, _ => v
  | count + 1, v, m => rounds count (round v m) (permutation.map (word m))

/-- A node of the tree, ready to be compressed. -/
structure Node where
  chaining : Array UInt32
  block : Array UInt32
  counter : Nat
  length : Nat
  flags : UInt32

/-- The eight words that a node compresses to. -/
def Node.compress (n : Node) (extraFlags : UInt32) : Array UInt32 :=
  let start := n.chaining ++ initialWords.take 4
    ++ #[UInt32.ofNat n.counter, UInt32.ofNat (n.counter >>> 32), UInt32.ofNat n.length,
        n.flags ||| extraFlags]
  let v := rounds 7 start n.block
  (Array.range 8).map fun i => word v i ^^^ word v (i + 8)

/-! ## Chunks -/

/-- Cut a list into pieces of `size` entries, the last one being what is left. `fuel` bounds the
number of pieces; the length of the list is enough. -/
def pieces {α : Type} (size : Nat) : (fuel : Nat) → List α → List (List α)
  | 0, _ => []
  | fuel + 1, xs => if xs.isEmpty then [] else xs.take size :: pieces size fuel (xs.drop size)

/-- The sixteen words of a block, the lowest byte first; a short block is filled with zeros. -/
def blockWords (bytes : List UInt8) : Array UInt32 :=
  (Array.range 16).map fun i =>
    UInt32.ofNat (Bytes.ofLittleEndian ((bytes.drop (4 * i)).take 4))

/-- Compress the blocks of chunk number `counter` up to the last, which is left as a node. -/
def chunkNode (counter : Nat) (chaining : Array UInt32) (flags : UInt32) :
    List (List UInt8) → Node
  | [] => ⟨chaining, blockWords [], counter, 0, flags ||| chunkEnd⟩
  | [block] => ⟨chaining, blockWords block, counter, block.length, flags ||| chunkEnd⟩
  | block :: blocks =>
    let node : Node := ⟨chaining, blockWords block, counter, block.length, flags⟩
    chunkNode counter (node.compress 0) 0 blocks

/-! ## The tree -/

def parent (left right : Node) : Node :=
  ⟨initialWords, left.compress 0 ++ right.compress 0, 0, 64, parentFlag⟩

/-- Join neighbours; an odd one at the end goes up as it is. -/
def pairUp : List Node → List Node
  | left :: right :: rest => parent left right :: pairUp rest
  | rest => rest

/-- Join level by level until one node is left. -/
def joinAll : (fuel : Nat) → List Node → List Node
  | 0, nodes => nodes
  | fuel + 1, nodes => if nodes.length ≤ 1 then nodes else joinAll fuel (pairUp nodes)

def wordBytes (w : UInt32) : List UInt8 :=
  [w.toUInt8, (w >>> 8).toUInt8, (w >>> 16).toUInt8, (w >>> 24).toUInt8]

/-- The 32 bytes of the hash. -/
def hash (input : List UInt8) : List UInt8 :=
  let chunks := match pieces 1024 input.length input with
    | [] => [[]]
    | chunks => chunks
  let nodes := chunks.zipIdx.map fun (chunk, i) =>
    chunkNode i initialWords chunkStart (pieces 64 chunk.length chunk)
  match joinAll nodes.length nodes with
  | root :: _ => (root.compress rootFlag).toList.flatMap wordBytes
  | [] => []

end Tenure.Blake3
