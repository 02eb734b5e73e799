import TrieCache.Dirty.State

namespace TrieCache.Dirty

def oldestFirst (d : Dirty) : List (Hash × Record) :=
  (d.flush.forward d.records d.records.size).filterMap fun h =>
    d.records[h]?.map fun r => (h, r)

/-- Splits nodes, of which `size` bytes are in memory, after the fewest that have to leave until at
most `limit` bytes are left. -/
def splitOver (limit : Nat) :
    List (Hash × Record) → (size : Nat) → List (Hash × Record) × List (Hash × Record)
  | [], _ => ([], [])
  | n :: rest, size =>
    if size ≤ limit then ([], n :: rest)
    else
      let (leaving, staying) := splitOver limit rest (size - n.2.footprint)
      (n :: leaving, staying)

/-- The nodes that leave and those that stay for the memory to hold at most `limit` bytes. -/
def overflow (d : Dirty) (limit : Nat) : List (Hash × Record) × List (Hash × Record) :=
  splitOver limit d.oldestFirst d.memorySize

def evict (d : Dirty) (leaving staying : List (Hash × Record)) : Dirty :=
  let d := leaving.foldl (fun d n => d.remove n.1) d
  let (flush, records) := d.flush.truncateFront d.records (staying.head?.map (·.1))
  { d with flush, records }

end TrieCache.Dirty
