/-
  ComponentFlow.Random.Stream — the seeded stream of 32-bit words behind weight initialisation:
  the ChaCha block function with twelve rounds, counting blocks from zero, under a key that is
  spread out from a 64-bit seed.
-/

namespace ComponentFlow.Random

/-- The sixteen words of a block. -/
abbrev Block := Array UInt32

def rotateLeft (x : UInt32) (n : UInt32) : UInt32 := (x <<< n) ||| (x >>> (32 - n))

def word (b : Block) (i : Nat) : UInt32 := b.getD i 0

/-- Mixes four words. -/
def quarterRound (s : Block) (a b c d : Nat) : Block :=
  let xa := word s a + word s b
  let xd := rotateLeft (word s d ^^^ xa) 16
  let xc := word s c + xd
  let xb := rotateLeft (word s b ^^^ xc) 12
  let xa := xa + xb
  let xd := rotateLeft (xd ^^^ xa) 8
  let xc := xc + xd
  let xb := rotateLeft (xb ^^^ xc) 7
  (((s.setIfInBounds a xa).setIfInBounds b xb).setIfInBounds c xc).setIfInBounds d xd

/-- The columns, then the diagonals. -/
def doubleRound (s : Block) : Block :=
  let s := quarterRound s 0 4 8 12
  let s := quarterRound s 1 5 9 13
  let s := quarterRound s 2 6 10 14
  let s := quarterRound s 3 7 11 15
  let s := quarterRound s 0 5 10 15
  let s := quarterRound s 1 6 11 12
  let s := quarterRound s 2 7 8 13
  quarterRound s 3 4 9 14

/-- Words fixed for every key. -/
def constants : Array UInt32 := #[0x61707865, 0x3320646e, 0x79622d32, 0x6b206574]

/-- Block number `counter` of the stream with this key of eight words. -/
def block (key : Array UInt32) (counter : UInt64) : Block :=
  let start := constants ++ key ++ #[counter.toUInt32, (counter >>> 32).toUInt32, 0, 0]
  let mixed := (List.range 6).foldl (fun s _ => doubleRound s) start
  Array.zipWith (· + ·) mixed start

/-- One step of the generator that spreads a seed over a key. -/
def keyStep (s : UInt64) : UInt64 × UInt32 :=
  let s := s * 6364136223846793005 + 11634580027462260723
  let x := (((s >>> 18) ^^^ s) >>> 27).toUInt32
  let turn := (s >>> 59).toUInt32
  (s, (x >>> turn) ||| (x <<< ((32 - turn) &&& 31)))

def keyWords : Nat → UInt64 → List UInt32
  | 0, _ => []
  | n + 1, s => let (s, w) := keyStep s; w :: keyWords n s

/-- The key of a seed. -/
def keyOfSeed (seed : UInt64) : Array UInt32 := (keyWords 8 seed).toArray

/-- The first `n` words of a seed's stream, or a few more. -/
def stream (seed : UInt64) (n : Nat) : Array UInt32 :=
  let key := keyOfSeed seed
  (List.range ((n + 15) / 16)).foldl (fun acc i => acc ++ block key i.toUInt64) #[]

/-- A uniform value in `[0, 1)` with 24 bits, from one word. -/
def unit (w : UInt32) : Float32 := (w >>> 8).toFloat32 * Float32.ofBits 0x33800000

end ComponentFlow.Random
