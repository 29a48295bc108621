import WireLayout.Bytes

/-!
# BLAKE3

The hash that identifies a schema text. The text is cut into chunks of 1024 bytes and these into
blocks of 64; the blocks of a chunk are compressed one after the other, and the chunks are joined
pairwise by a binary tree whose left half is the largest power of two that leaves something to the
right.
-/

namespace WireLayout.Blake3

/-- The initial chaining value. -/
def initialWords : List UInt32 :=
  [0x6A09E667, 0xBB67AE85, 0x3C6EF372, 0xA54FF53A, 0x510E527F, 0x9B05688C, 0x1F83D9AB, 0x5BE0CD19]

/-- How the words of a message change their places from round to round. -/
def permutation : List Nat := [2, 6, 3, 10, 7, 0, 4, 13, 1, 11, 12, 5, 9, 14, 15, 8]

/-- The flag of a chunk's first block. -/
def chunkStart : UInt32 := 1

/-- The flag of a chunk's last block. -/
def chunkEnd : UInt32 := 2

/-- The flag of a join of two subtrees. -/
def parent : UInt32 := 4

/-- The flag of the last compression. -/
def root : UInt32 := 8

/-- The word rotated to the right. -/
def rotate (w : UInt32) (count : UInt32) : UInt32 := (w >>> count) ||| (w <<< (32 - count))

/-- The word at a place. -/
def word (words : List UInt32) (i : Nat) : UInt32 := words.getD i 0

/-- Mixes two words of the message into the four state words at the places given. -/
def mix (state : List UInt32) (a b c d : Nat) (x y : UInt32) : List UInt32 :=
  let a1 := word state a + word state b + x
  let d1 := rotate (word state d ^^^ a1) 16
  let c1 := word state c + d1
  let b1 := rotate (word state b ^^^ c1) 12
  let a2 := a1 + b1 + y
  let d2 := rotate (d1 ^^^ a2) 8
  let c2 := c1 + d2
  let b2 := rotate (b1 ^^^ c2) 7
  (((state.set a a2).set b b2).set c c2).set d d2

/-- The places that one round mixes, with the places of the message words: columns, then
diagonals. -/
def quarters : List (Nat × Nat × Nat × Nat × Nat) :=
  [(0, 4, 8, 12, 0), (1, 5, 9, 13, 2), (2, 6, 10, 14, 4), (3, 7, 11, 15, 6),
    (0, 5, 10, 15, 8), (1, 6, 11, 12, 10), (2, 7, 8, 13, 12), (3, 4, 9, 14, 14)]

/-- One round. -/
def round (state message : List UInt32) : List UInt32 :=
  quarters.foldl (fun state (a, b, c, d, i) =>
    mix state a b c d (word message i) (word message (i + 1))) state

/-- Some rounds, the message permuted between them. -/
def rounds : Nat → List UInt32 → List UInt32 → List UInt32
  | 0, state, _ => state
  | n + 1, state, message => rounds n (round state message) (permutation.map (word message))

/-- What is compressed: a chaining value, a message of sixteen words, the chunk's number, the number
of bytes in the message and flags. -/
structure Node where
  /-- The chaining value. -/
  chaining : List UInt32
  /-- The message. -/
  message : List UInt32
  /-- The chunk's number. -/
  counter : Nat
  /-- The number of bytes in the message. -/
  length : Nat
  /-- The flags. -/
  flags : UInt32

/-- The first eight words of the compression, with some flags added. -/
def Node.compress (n : Node) (flags : UInt32) : List UInt32 :=
  let state := n.chaining ++ initialWords.take 4 ++
    [UInt32.ofNat n.counter, UInt32.ofNat (n.counter / Nat.pow 2 32), UInt32.ofNat n.length,
      n.flags ||| flags]
  let final := rounds 7 state n.message
  List.zipWith (· ^^^ ·) (final.take 8) (final.drop 8)

/-- The sixteen words of a block; what it lacks is zero. -/
def blockWords (block : Bytes) : List UInt32 :=
  (List.range 16).map fun i => UInt32.ofNat (Bytes.toNat ((block.drop (4 * i)).take 4))

/-- Compresses the blocks of a chunk up to the last one, which is left as a node. -/
def chunkFrom (counter : Nat) : Nat → List UInt32 → UInt32 → Bytes → Node
  | blocks, chaining, flags, bytes =>
    let node (flags : UInt32) : Node :=
      { chaining, message := blockWords (bytes.take 64), counter, length := min 64 bytes.length
        flags }
    match blocks with
    | 0 => node (flags ||| chunkEnd)
    | blocks + 1 =>
      if bytes.length ≤ 64 then node (flags ||| chunkEnd)
      else chunkFrom counter blocks ((node flags).compress 0) 0 (bytes.drop 64)

/-- The node of a chunk. -/
def chunk (counter : Nat) (bytes : Bytes) : Node :=
  chunkFrom counter 16 initialWords chunkStart bytes

/-- The node that joins two subtrees. -/
def join (left right : Node) : Node :=
  { chaining := initialWords, message := left.compress 0 ++ right.compress 0, counter := 0
    length := 64, flags := parent }

/-- The node of the bytes from a chunk on; `height` bounds the height of the tree. -/
def tree (counter : Nat) : Nat → Bytes → Node
  | 0, bytes => chunk counter bytes
  | height + 1, bytes =>
    let half := 1024 * Nat.pow 2 height
    if bytes.length ≤ half then tree counter height bytes
    else join (tree counter height (bytes.take half))
      (tree (counter + Nat.pow 2 height) height (bytes.drop half))

/-- The hash of some bytes: 32 bytes. -/
def hash (bytes : Bytes) : Bytes :=
  ((tree 0 (Nat.log2 (bytes.length / 1024 + 1) + 1) bytes).compress root).flatMap fun w =>
    Bytes.ofNat 4 w.toNat

end WireLayout.Blake3
