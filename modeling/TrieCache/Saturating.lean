namespace TrieCache

def wordMax : Nat := UInt64.size - 1

/-- The sum of two 64-bit counts, or `wordMax` if it is larger. Differences need no such care: those
of natural numbers stop at zero. -/
def satAdd (a b : Nat) : Nat := min (a + b) wordMax

/-- The product of two 64-bit counts, or `wordMax` if it is larger. -/
def satMul (a b : Nat) : Nat := min (a * b) wordMax

theorem satAdd_eq {a b : Nat} (h : a + b ≤ wordMax) : satAdd a b = a + b :=
  Nat.min_eq_left h

theorem satMul_eq {a b : Nat} (h : a * b ≤ wordMax) : satMul a b = a * b :=
  Nat.min_eq_left h

end TrieCache
