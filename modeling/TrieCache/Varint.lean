import TrieCache.Bytes

namespace TrieCache.Varint

def encode (n : Nat) : Bytes :=
  if n < 128 then [n.toUInt8] else (n % 128 + 128).toUInt8 :: encode (n / 128)
termination_by n
decreasing_by omega

/-- Why no number could be read. -/
inductive Fault
  /-- The bytes end inside the number, or the number is out of range. -/
  | noNumber
  /-- The number goes on past its longest form. -/
  | unterminated
deriving DecidableEq

/-- Reads a number of at most `room` bytes. Leading zero groups are allowed. -/
def decodeGroups : (room : Nat) → Bytes → Except Fault (Nat × Bytes)
  | _, [] => .error .noNumber
  | 0, _ :: _ => .error .unterminated
  | room + 1, b :: rest =>
    if b < 128 then .ok (b.toNat, rest)
    else do
      let (high, rest) ← decodeGroups room rest
      .ok (b.toNat - 128 + 128 * high, rest)

/-- Reads a number of `bits` bits, which takes at most a byte for every seven of them. -/
def decode (bits : Nat) (bytes : Bytes) : Except Fault (Nat × Bytes) := do
  let (n, rest) ← decodeGroups ((bits + 6) / 7) bytes
  if n < 1 <<< bits then .ok (n, rest) else .error .noNumber

end TrieCache.Varint
