import TrieCache.Hash
import TrieCache.Saturating

namespace TrieCache.Clean

/-- A hash and the blob cached under it. -/
abbrev Entry := Hash × Bytes

/-- The bytes a blob is accounted with: its own and those of its hash. -/
def cost (blob : Bytes) : Nat := satAdd 32 blob.length

/-- Entries, most recently used first, and the sum of their costs. -/
structure Shard where
  entries : List Entry := []
  bytes : Nat := 0
deriving DecidableEq

namespace Shard

def empty : Shard := {}

def find? (s : Shard) (h : Hash) : Option Bytes :=
  (s.entries.find? (·.1 = h)).map (·.2)

def contains (s : Shard) (h : Hash) : Bool :=
  s.entries.any (·.1 = h)

def touch (s : Shard) (h : Hash) : Shard :=
  match s.find? h with
  | none => s
  | some blob => { s with entries := (h, blob) :: s.entries.filter (·.1 ≠ h) }

def remove (s : Shard) (h : Hash) : Shard :=
  match s.find? h with
  | none => s
  | some blob => ⟨s.entries.filter (·.1 ≠ h), s.bytes - cost blob⟩

def dropOver (budget : Nat) : List Entry → (bytes : Nat) → List Entry × Nat
  | [], bytes => ([], bytes)
  | e :: rest, bytes =>
    if bytes ≤ budget then (e :: rest, bytes) else dropOver budget rest (bytes - cost e.2)

/-- Drops the entries used longest ago until the rest fits the budget. -/
def evict (budget : Nat) (s : Shard) : Shard :=
  let (kept, bytes) := dropOver budget s.entries.reverse s.bytes
  ⟨kept.reverse, bytes⟩

/-- Caches a blob as the most recently used. One that is over budget by itself changes nothing. -/
def insert (budget : Nat) (s : Shard) (h : Hash) (blob : Bytes) : Shard :=
  if budget < cost blob then s
  else
    let rest := s.remove h
    evict budget ⟨(h, blob) :: rest.entries, satAdd rest.bytes (cost blob)⟩

end Shard

end TrieCache.Clean
