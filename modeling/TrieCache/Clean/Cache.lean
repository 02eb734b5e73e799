import TrieCache.Clean.Shard

namespace TrieCache.Clean

abbrev shardCount : Nat := 16

structure Cache where
  shards : Vector Shard shardCount
  shardBudget : Nat
deriving DecidableEq

namespace Cache

def new (maxBytes : Nat) : Cache :=
  ⟨Vector.replicate shardCount .empty, max (maxBytes / shardCount) 1⟩

def shardOf (h : Hash) : Fin shardCount :=
  Fin.ofNat shardCount h.firstByte.toNat

def shard (c : Cache) (h : Hash) : Shard := c.shards[shardOf h]

def update (c : Cache) (h : Hash) (f : Shard → Shard) : Cache :=
  { c with shards := c.shards.set (shardOf h) (f (c.shard h)) }

/-- The blob cached under `h`, which a hit makes the most recently used of its shard. -/
def get (c : Cache) (h : Hash) : Option Bytes × Cache :=
  ((c.shard h).find? h, c.update h (·.touch h))

def contains (c : Cache) (h : Hash) : Bool :=
  (c.shard h).contains h

def set (c : Cache) (h : Hash) (blob : Bytes) : Cache :=
  c.update h (·.insert c.shardBudget h blob)

def remove (c : Cache) (h : Hash) : Cache :=
  c.update h (·.remove h)

def removeAll (c : Cache) (hashes : List Hash) : Cache :=
  hashes.foldl remove c

def setAll (c : Cache) (entries : List Entry) : Cache :=
  entries.foldl (fun c e => c.set e.1 e.2) c

def length (c : Cache) : Nat :=
  c.shards.foldl (fun n s => n + s.entries.length) 0

def isEmpty (c : Cache) : Bool := c.length = 0

def size (c : Cache) : Nat :=
  c.shards.foldl (fun n s => n + s.bytes) 0

/-- All entries, shard by shard, the least recently used of each shard first. -/
def entries (c : Cache) : List Entry :=
  c.shards.toList.flatMap (·.entries.reverse)

end Cache

end TrieCache.Clean
