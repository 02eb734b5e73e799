import TrieCache.Hash

namespace TrieCache.Dirty

/-- What is kept in a hash table. -/
inductive Collection
  /-- The explicit children of a node. -/
  | children (parent : Hash)
  | preimages
  /-- The queued set with so many others in front of it. -/
  | useless (position : Nat)

/-- The order in which hash tables are gone through during a call, from ascending order. -/
structure Arrangement where
  arrange : Collection → List Hash → List Hash
  perm : ∀ c hashes, (arrange c hashes).Perm hashes

def Arrangement.ascending : Arrangement := ⟨fun _ hashes => hashes, fun _ _ => .refl _⟩

end TrieCache.Dirty
