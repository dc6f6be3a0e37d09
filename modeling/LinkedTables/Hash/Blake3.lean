/-!
# BLAKE3

The hash of a byte string in its plain mode, thirty-two bytes, written as sixty-four digits in base
sixteen. The bytes are cut into chunks of 1024, a chunk into blocks of 64. The blocks of a chunk are
compressed one after the other; the chunks are the leaves of a binary tree in which every left
subtree is full and at least as large as the right one. Only the last compression at the root is
marked as such.
-/

namespace LinkedTables

namespace Blake3

def initial : Array UInt32 :=
  #[0x6A09E667, 0xBB67AE85, 0x3C6EF372, 0xA54FF53A, 0x510E527F, 0x9B05688C, 0x1F83D9AB, 0x5BE0CD19]

def permutation : Array Nat := #[2, 6, 3, 10, 7, 0, 4, 13, 1, 11, 12, 5, 9, 14, 15, 8]

def chunkStart : UInt32 := 1
def chunkEnd : UInt32 := 2
def isParent : UInt32 := 4
def isRoot : UInt32 := 8

def rotateRight (x : UInt32) (n : UInt32) : UInt32 := (x >>> n) ||| (x <<< (32 - n))

/-- Mixes four words of the state with two words of the message. -/
def quarter (s : Array UInt32) (a b c d : Nat) (x y : UInt32) : Array UInt32 :=
  let va := s.getD a 0 + s.getD b 0 + x
  let vd := rotateRight (s.getD d 0 ^^^ va) 16
  let vc := s.getD c 0 + vd
  let vb := rotateRight (s.getD b 0 ^^^ vc) 12
  let va := va + vb + y
  let vd := rotateRight (vd ^^^ va) 8
  let vc := vc + vd
  let vb := rotateRight (vb ^^^ vc) 7
  (((s.setIfInBounds a va).setIfInBounds b vb).setIfInBounds c vc).setIfInBounds d vd

def round (s m : Array UInt32) : Array UInt32 :=
  let w := fun i => m.getD i 0
  let s := quarter s 0 4 8 12 (w 0) (w 1)
  let s := quarter s 1 5 9 13 (w 2) (w 3)
  let s := quarter s 2 6 10 14 (w 4) (w 5)
  let s := quarter s 3 7 11 15 (w 6) (w 7)
  let s := quarter s 0 5 10 15 (w 8) (w 9)
  let s := quarter s 1 6 11 12 (w 10) (w 11)
  let s := quarter s 2 7 8 13 (w 12) (w 13)
  quarter s 3 4 9 14 (w 14) (w 15)

def permute (m : Array UInt32) : Array UInt32 := permutation.map fun i => m.getD i 0

def rounds : Nat → Array UInt32 → Array UInt32 → Array UInt32
  | 0, s, _ => s
  | n + 1, s, m => rounds n (round s m) (permute m)

/-- A compression that is still to be done; the root is marked only when it is known to be the root.
-/
structure Node where
  chaining : Array UInt32
  block : Array UInt32
  counter : UInt64
  length : UInt32
  flags : UInt32

/-- The first eight words of the compression. -/
def Node.compress (n : Node) (flags : UInt32) : Array UInt32 :=
  let start := n.chaining ++ initial.extract 0 4
    ++ #[n.counter.toUInt32, (n.counter >>> 32).toUInt32, n.length, flags]
  let s := rounds 7 start n.block
  (Array.range 8).map fun i => s.getD i 0 ^^^ s.getD (i + 8) 0

def Node.chain (n : Node) : Array UInt32 := n.compress n.flags

/-- Four bytes are a word, the least significant one first; missing bytes are zero. -/
def word (bytes : ByteArray) (at_ : Nat) : UInt32 :=
  let byte := fun i => if h : at_ + i < bytes.size then bytes[at_ + i].toUInt32 else 0
  byte 0 ||| (byte 1 <<< 8) ||| (byte 2 <<< 16) ||| (byte 3 <<< 24)

def blockAt (bytes : ByteArray) (from_ : Nat) : Array UInt32 :=
  (Array.range 16).map fun i => word bytes (from_ + 4 * i)

/-- The last block of a chunk, chained to the blocks before it. -/
def chunkNode (chunk : ByteArray) (counter : UInt64) : Nat → Nat → Array UInt32 → Node
  | 0, from_, cv => ⟨cv, blockAt chunk from_, counter, 0, chunkEnd⟩
  | fuel + 1, from_, cv =>
    let first : UInt32 := if from_ == 0 then chunkStart else 0
    if chunk.size ≤ from_ + 64 then
      ⟨cv, blockAt chunk from_, counter, (chunk.size - from_).toUInt32, first ||| chunkEnd⟩
    else
      let node : Node := ⟨cv, blockAt chunk from_, counter, 64, first⟩
      chunkNode chunk counter fuel (from_ + 64) node.chain

/-- The leaves of the tree; there is at least one. -/
def leaves (bytes : ByteArray) : List Node :=
  (List.range (max 1 ((bytes.size + 1023) / 1024))).map fun i =>
    chunkNode (bytes.extract (1024 * i) (1024 * i + 1024)) (UInt64.ofNat i) 16 0 initial

/-- The greatest power of two below a number. -/
def leftSize (n : Nat) : Nat := Nat.pow 2 (n - 1).log2

def parent (left right : Node) : Node := ⟨initial, left.chain ++ right.chain, 0, 64, isParent⟩

/-- The node over a row of leaves. The fuel bounds the height. -/
def root : Nat → List Node → Node
  | _, [] => chunkNode ByteArray.empty 0 16 0 initial
  | _, [n] => n
  | 0, n :: _ => n
  | fuel + 1, ns =>
    let k := leftSize ns.length
    parent (root fuel (ns.take k)) (root fuel (ns.drop k))

def hexByte (b : UInt32) : List Char :=
  let digit := fun (n : UInt32) => (Nat.digitChar n.toNat)
  [digit ((b >>> 4) &&& 0xF), digit (b &&& 0xF)]

def hexWord (w : UInt32) : List Char :=
  hexByte w ++ hexByte (w >>> 8) ++ hexByte (w >>> 16) ++ hexByte (w >>> 24)

def hash (bytes : ByteArray) : String :=
  let ns := leaves bytes
  let node := root ns.length ns
  String.ofList ((node.compress (node.flags ||| isRoot)).toList.flatMap hexWord)

end Blake3

end LinkedTables
