import TrieCache.Saturating

namespace TrieCache

/-- A number of nodes and the sum of their sizes. -/
structure Amount where
  nodes : Nat := 0
  size : Nat := 0
deriving DecidableEq

def Amount.add (a b : Amount) : Amount :=
  ⟨satAdd a.nodes b.nodes, satAdd a.size b.size⟩

end TrieCache
