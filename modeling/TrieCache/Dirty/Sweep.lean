import TrieCache.Dirty.State

namespace TrieCache.Dirty

/-- A sweep under way. -/
structure Sweep where
  dirty : Dirty
  /-- The nodes it has dropped, raw blobs left out. -/
  dropped : List Hash := []
  /-- How many more nodes it can meet before its time is up; `none` if it never is. -/
  left : Option Nat := none
  interrupted : Bool := false

namespace Sweep

def drop (s : Sweep) (h : Hash) : Sweep :=
  match s.dirty.records[h]? with
  | none => s
  | some r =>
    { s with
      dirty := s.dirty.remove h
      dropped := if r.isRaw then s.dropped else h :: s.dropped }

def tick (s : Sweep) : Sweep :=
  match s.left with
  | none => s
  | some 0 => { s with interrupted := true }
  | some (left + 1) => { s with left := some left }

/-- The record of `h`, which is neither the meta-root nor fresh. -/
def met? (d : Dirty) (h : Hash) : Option Record :=
  if h.isZero || d.fresh.contains h then none else d.records[h]?

/-- Sweeps down from `h` along paths of less than `depth` nodes; `none` if a path is longer. -/
def run (order : Arrangement) : (depth : Nat) → Sweep → Hash → Option Sweep
  | 0, _, _ => none
  | depth + 1, s, h =>
    match met? s.dirty h with
    | none => some s
    | some r =>
      let s := s.tick
      if s.interrupted || s.dirty.version ≤ r.version then some s
      else do
        let below ← (r.arrangedChildren order h).foldlM (run order depth)
          { s with dirty := s.dirty.unlink h }
        some (below.drop h)

end Sweep

/-- Drops every stale node that is reached from `root` through stale nodes, as long as there is time
to meet another node. Without a limit a sweep that meets a cycle of stale nodes goes round it for
ever; then there is no result. -/
def sweep (d : Dirty) (order : Arrangement) (left : Option Nat) (root : Hash) : Option Sweep :=
  Sweep.run order (left.getD d.records.size + 1) { dirty := d, left } root

end TrieCache.Dirty
