import TrieCache.Bytes

namespace TrieCache.Keccak

/-- Five lanes of the state that share a row number. -/
structure Plane where
  a : UInt64
  b : UInt64
  c : UInt64
  d : UInt64
  e : UInt64

/-- The state of the permutation, as five planes. -/
structure State where
  p : Plane
  q : Plane
  r : Plane
  s : Plane
  t : Plane

def rotate (x : UInt64) (n : UInt64) : UInt64 :=
  (x <<< n) ||| (x >>> (64 - n))

namespace Plane

def zero : Plane := ⟨0, 0, 0, 0, 0⟩

def xor (x y : Plane) : Plane :=
  ⟨x.a ^^^ y.a, x.b ^^^ y.b, x.c ^^^ y.c, x.d ^^^ y.d, x.e ^^^ y.e⟩

/-- What each column receives from the parities of its two neighbours. -/
def diffuse (x : Plane) : Plane :=
  ⟨x.e ^^^ rotate x.b 1, x.a ^^^ rotate x.c 1, x.b ^^^ rotate x.d 1, x.c ^^^ rotate x.e 1,
    x.d ^^^ rotate x.a 1⟩

/-- The non-linear step, within one plane. -/
def mix (x : Plane) : Plane :=
  ⟨x.a ^^^ (~~~x.b &&& x.c), x.b ^^^ (~~~x.c &&& x.d), x.c ^^^ (~~~x.d &&& x.e),
    x.d ^^^ (~~~x.e &&& x.a), x.e ^^^ (~~~x.a &&& x.b)⟩

def ofLanes (lanes : List UInt64) : Plane :=
  ⟨lanes.getD 0 0, lanes.getD 1 0, lanes.getD 2 0, lanes.getD 3 0, lanes.getD 4 0⟩

end Plane

namespace State

def zero : State := ⟨.zero, .zero, .zero, .zero, .zero⟩

def xor (x y : State) : State :=
  ⟨x.p.xor y.p, x.q.xor y.q, x.r.xor y.r, x.s.xor y.s, x.t.xor y.t⟩

/-- Adds to every lane the parities of two neighbouring columns. -/
def theta (x : State) : State :=
  let d := (x.p.xor (x.q.xor (x.r.xor (x.s.xor x.t)))).diffuse
  ⟨x.p.xor d, x.q.xor d, x.r.xor d, x.s.xor d, x.t.xor d⟩

/-- Rotates every lane by its own amount and moves it to its new place. -/
def shuffle (x : State) : State :=
  ⟨⟨x.p.a, rotate x.q.b 44, rotate x.r.c 43, rotate x.s.d 21, rotate x.t.e 14⟩,
    ⟨rotate x.p.d 28, rotate x.q.e 20, rotate x.r.a 3, rotate x.s.b 45, rotate x.t.c 61⟩,
    ⟨rotate x.p.b 1, rotate x.q.c 6, rotate x.r.d 25, rotate x.s.e 8, rotate x.t.a 18⟩,
    ⟨rotate x.p.e 27, rotate x.q.a 36, rotate x.r.b 10, rotate x.s.c 15, rotate x.t.d 56⟩,
    ⟨rotate x.p.c 62, rotate x.q.d 55, rotate x.r.e 39, rotate x.s.a 41, rotate x.t.b 2⟩⟩

def chi (x : State) : State :=
  ⟨x.p.mix, x.q.mix, x.r.mix, x.s.mix, x.t.mix⟩

def round (x : State) (constant : UInt64) : State :=
  let y := x.theta.shuffle.chi
  { y with p := { y.p with a := y.p.a ^^^ constant } }

end State

/-- The constants added to the first lane, one a round. -/
def roundConstants : List UInt64 :=
  [0x0000000000000001, 0x0000000000008082, 0x800000000000808a, 0x8000000080008000,
    0x000000000000808b, 0x0000000080000001, 0x8000000080008081, 0x8000000000008009,
    0x000000000000008a, 0x0000000000000088, 0x0000000080008009, 0x000000008000000a,
    0x000000008000808b, 0x800000000000008b, 0x8000000000008089, 0x8000000000008003,
    0x8000000000008002, 0x8000000000000080, 0x000000000000800a, 0x800000008000000a,
    0x8000000080008081, 0x8000000000008080, 0x0000000080000001, 0x8000000080008008]

def permute (x : State) : State :=
  roundConstants.foldl State.round x

/-- How many bytes one permutation absorbs. -/
def rate : Nat := 136

def laneOfBytes (bytes : Bytes) : UInt64 :=
  bytes.foldr (fun b x => (x <<< 8) ||| b.toUInt64) 0

def bytesOfLane (x : UInt64) : Bytes :=
  [x.toUInt8, (x >>> 8).toUInt8, (x >>> 16).toUInt8, (x >>> 24).toUInt8,
    (x >>> 32).toUInt8, (x >>> 40).toUInt8, (x >>> 48).toUInt8, (x >>> 56).toUInt8]

def lanes : Nat → Bytes → List UInt64
  | 0, _ => []
  | n + 1, bytes => laneOfBytes (bytes.take 8) :: lanes n (bytes.drop 8)

def blockState (block : Bytes) : State :=
  let l := lanes 17 block
  ⟨.ofLanes l, .ofLanes (l.drop 5), .ofLanes (l.drop 10), .ofLanes (l.drop 15), .zero⟩

/-- Fills the last block up: a one bit, zeros, and a one bit at the very end. -/
def padding (length : Nat) : Bytes :=
  match rate - length % rate with
  | 0 => []
  | 1 => [0x81]
  | n + 2 => 0x01 :: (List.replicate n 0 ++ [0x80])

/-- Adds the bytes to the state, a block before each permutation. -/
def absorb (x : State) (bytes : Bytes) : State :=
  if bytes.isEmpty then x
  else absorb (permute (x.xor (blockState (bytes.take rate)))) (bytes.drop rate)
termination_by bytes.length
decreasing_by
  simp only [List.isEmpty_iff] at *
  have := List.length_pos_iff.2 ‹_›
  simp only [List.length_drop, rate]
  omega

def digest (data : Bytes) : Bytes :=
  let plane := (absorb .zero (data ++ padding data.length)).p
  bytesOfLane plane.a ++ bytesOfLane plane.b ++ bytesOfLane plane.c ++ bytesOfLane plane.d

theorem length_digest (data : Bytes) : (digest data).length = 32 := by
  simp [digest, bytesOfLane]

end TrieCache.Keccak
