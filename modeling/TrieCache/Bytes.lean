namespace TrieCache

abbrev Bytes := List UInt8

namespace Bytes

def hexDigit (n : Nat) : Char :=
  if n < 10 then Char.ofNat (48 + n) else Char.ofNat (87 + n)

def hexPair (b : UInt8) : List Char :=
  [hexDigit (b.toNat / 16), hexDigit (b.toNat % 16)]

/-- Two lower-case hexadecimal digits per byte. -/
def hex (bytes : Bytes) : String :=
  String.ofList (bytes.flatMap hexPair)

/-- The bytes of a number, most significant first, without leading zeros; none for zero. -/
def bigEndian (n : Nat) : Bytes :=
  if n = 0 then [] else bigEndian (n / 256) ++ [n.toUInt8]
termination_by n
decreasing_by omega

/-- The number whose bytes, most significant first, are given. -/
def toNat (bytes : Bytes) : Nat :=
  bytes.foldl (fun n b => 256 * n + b.toNat) 0

theorem toNat_append_singleton (bytes : Bytes) (b : UInt8) :
    toNat (bytes ++ [b]) = 256 * toNat bytes + b.toNat := by
  simp [toNat]

theorem toNat_bigEndian (n : Nat) : toNat (bigEndian n) = n := by
  induction n using bigEndian.induct with
  | case1 => simp [bigEndian, toNat]
  | case2 n hn ih =>
    rw [bigEndian, if_neg hn, toNat_append_singleton, ih]
    simp only [Nat.toUInt8, UInt8.toNat_ofNat']
    omega

end Bytes

end TrieCache
