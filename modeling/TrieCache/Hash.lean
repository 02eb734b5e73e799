import Std.Data.ExtTreeMap
import Std.Data.ExtTreeSet
import TrieCache.Keccak

namespace TrieCache

/-- Thirty-two bytes that name a trie node. -/
structure Hash where
  bytes : Bytes
  length_bytes : bytes.length = 32
deriving DecidableEq

namespace Hash

theorem eq_of_bytes {h k : Hash} (e : h.bytes = k.bytes) : h = k := by
  cases h
  cases k
  cases e
  rfl

/-- The hash no node has; it names the meta-root. -/
def zero : Hash := ⟨List.replicate 32 0, List.length_replicate⟩

def isZero (h : Hash) : Bool := h = zero

def fill (b : UInt8) : Hash := ⟨List.replicate 32 b, List.length_replicate⟩

/-- Bytes that should have been a hash but have another length. -/
structure LengthError where
  length : Nat
deriving DecidableEq

def LengthError.message (e : LengthError) : String :=
  s!"could not convert a slice of {e.length} bytes into a TrieHash"

def ofBytes (bytes : Bytes) : Except LengthError Hash :=
  if h : bytes.length = 32 then .ok ⟨bytes, h⟩ else .error ⟨bytes.length⟩

def keccak (data : Bytes) : Hash := ⟨Keccak.digest data, Keccak.length_digest data⟩

def hex (h : Hash) : String := Bytes.hex h.bytes

instance : ToString Hash := ⟨fun h => "0x" ++ h.hex⟩

/-- The first byte, which picks the shard of the clean cache. -/
def firstByte (h : Hash) : UInt8 := h.bytes.headD 0

theorem ofBytes_bytes (h : Hash) : ofBytes h.bytes = .ok h := by
  simp [ofBytes, h.length_bytes]

/-- Hashes are ordered as their bytes are, the first difference deciding. -/
instance : Ord Hash := ⟨fun h k => compare h.bytes k.bytes⟩

instance : Std.TransOrd Hash where
  eq_swap := Std.OrientedCmp.eq_swap (α := Bytes)
  isLE_trans := Std.TransCmp.isLE_trans (α := Bytes)

instance : Std.LawfulEqOrd Hash where
  compare_self := Std.ReflCmp.compare_self (α := Bytes)
  eq_of_compare h := eq_of_bytes (Std.LawfulEqCmp.eq_of_compare (α := Bytes) h)

end Hash

/-- A finite map from hashes, in which equal contents are equal maps. -/
abbrev HashMap (β : Type) := Std.ExtTreeMap Hash β

abbrev HashSet := Std.ExtTreeSet Hash

def HashSet.ofList (hashes : List Hash) : HashSet := Std.ExtTreeSet.ofList hashes compare

end TrieCache
