import TinyScript.Text.Basic

/-!
# BLAKE2b

The hash function BLAKE2b without a key. The input is cut into blocks of 128 bytes, the last one filled
up with zeros; each block is mixed into a chain of eight words in twelve rounds, together with the number
of bytes so far. The digest is the beginning of the chain, every word with its least significant byte
first. Only digests of one word are needed here.
-/

namespace TinyScript.Blake2b

/-- The initial chain. -/
def initial : Array UInt64 :=
  #[0x6a09e667f3bcc908, 0xbb67ae8584caa73b, 0x3c6ef372fe94f82b, 0xa54ff53a5f1d36f1,
    0x510e527fade682d1, 0x9b05688c2b3e6c1f, 0x1f83d9abfb41bd6b, 0x5be0cd19137e2179]

/-- The order in which each round takes the words of a block; after ten rounds it begins anew. -/
def schedule : List (List Nat) :=
  [[0, 1, 2, 3, 4, 5, 6, 7, 8, 9, 10, 11, 12, 13, 14, 15],
   [14, 10, 4, 8, 9, 15, 13, 6, 1, 12, 0, 2, 11, 7, 5, 3],
   [11, 8, 12, 0, 5, 2, 15, 13, 10, 14, 3, 6, 7, 1, 9, 4],
   [7, 9, 3, 1, 13, 12, 11, 14, 2, 6, 5, 10, 4, 0, 15, 8],
   [9, 0, 5, 7, 2, 4, 10, 15, 14, 1, 11, 12, 6, 8, 3, 13],
   [2, 12, 6, 10, 0, 11, 8, 3, 4, 13, 7, 5, 15, 14, 1, 9],
   [12, 5, 1, 15, 14, 13, 4, 10, 0, 7, 6, 3, 9, 2, 8, 11],
   [13, 11, 7, 14, 12, 1, 3, 9, 5, 0, 15, 4, 8, 6, 2, 10],
   [6, 15, 14, 9, 11, 3, 0, 8, 12, 2, 13, 7, 1, 4, 10, 5],
   [10, 2, 8, 4, 7, 6, 1, 5, 15, 11, 9, 14, 3, 12, 13, 0],
   [0, 1, 2, 3, 4, 5, 6, 7, 8, 9, 10, 11, 12, 13, 14, 15],
   [14, 10, 4, 8, 9, 15, 13, 6, 1, 12, 0, 2, 11, 7, 5, 3]]

/-- The four words that each of the eight steps of a round mixes: columns first, then diagonals. -/
def lanes : List (Nat × Nat × Nat × Nat) :=
  [(0, 4, 8, 12), (1, 5, 9, 13), (2, 6, 10, 14), (3, 7, 11, 15),
   (0, 5, 10, 15), (1, 6, 11, 12), (2, 7, 8, 13), (3, 4, 9, 14)]

def rotate (w n : UInt64) : UInt64 := (w >>> n) ||| (w <<< (64 - n))

/-- Mix two words of a block into four words of the state. -/
def mix (v : Array UInt64) (lane : Nat × Nat × Nat × Nat) (x y : UInt64) : Array UInt64 :=
  let (i, j, k, l) := lane
  let a := v.getD i 0
  let b := v.getD j 0
  let c := v.getD k 0
  let d := v.getD l 0
  let a := a + b + x
  let d := rotate (d ^^^ a) 32
  let c := c + d
  let b := rotate (b ^^^ c) 24
  let a := a + b + y
  let d := rotate (d ^^^ a) 16
  let c := c + d
  let b := rotate (b ^^^ c) 63
  (((v.setIfInBounds i a).setIfInBounds j b).setIfInBounds k c).setIfInBounds l d

/-- The steps of a round, each with the next two words of the block. -/
def steps (block : Array UInt64) : Array UInt64 → List (Nat × Nat × Nat × Nat) → List Nat → Array UInt64
  | v, lane :: rest, x :: y :: order =>
    steps block (mix v lane (block.getD x 0) (block.getD y 0)) rest order
  | v, _, _ => v

/-- Mix a block into the chain, given the number of bytes up to its end. -/
def compress (chain block : Array UInt64) (count : Nat) (isLast : Bool) : Array UInt64 :=
  let v := chain ++ initial
  let v := v.modify 12 (· ^^^ count.toUInt64)
  let v := v.modify 13 (· ^^^ (count >>> 64).toUInt64)
  let v := if isLast then v.modify 14 (~~~ ·) else v
  let v := schedule.foldl (fun v order => steps block v lanes order) v
  (Array.range 8).map fun i => chain.getD i 0 ^^^ v.getD i 0 ^^^ v.getD (i + 8) 0

/-- The number with the given bytes, least significant first. -/
def littleEndian (bs : List UInt8) : UInt64 := bs.foldr (fun b w => w <<< 8 ||| b.toUInt64) 0

/-- `n` words of eight bytes each; missing bytes are zeros. -/
def words : Nat → List UInt8 → List UInt64
  | 0, _ => []
  | n + 1, bs => littleEndian (bs.take 8) :: words n (bs.drop 8)

def blockSize : Nat := 128

def blockOf (bs : List UInt8) : Array UInt64 := (words 16 bs).toArray

/-- Mix all blocks into the chain; `count` bytes came before, and `fuel` bounds the number of blocks. -/
def absorb : Nat → Array UInt64 → Nat → List UInt8 → Array UInt64
  | 0, chain, _, _ => chain
  | fuel + 1, chain, count, bs =>
    if bs.length ≤ blockSize then compress chain (blockOf bs) (count + bs.length) true
    else
      absorb fuel (compress chain (blockOf (bs.take blockSize)) (count + blockSize) false)
        (count + blockSize) (bs.drop blockSize)

/-- The digest of one word. -/
def digest (t : Text) : UInt64 :=
  let chain := initial.modify 0 (· ^^^ 0x01010008)
  (absorb (t.size / blockSize + 1) chain 0 t.bytes).getD 0 0

end TinyScript.Blake2b
