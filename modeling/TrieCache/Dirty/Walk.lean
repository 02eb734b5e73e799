import TrieCache.Dirty.State

namespace TrieCache.Dirty

/-- A walk under way: the nodes entered so far, and those left again, the last one first. -/
structure Walk where
  seen : HashSet := ∅
  left : List Hash := []

/-- Walks down from `h`. The children of the nodes to be entered are given by `next`; `depth` bounds
the length of a path. -/
def Walk.visit (next : Hash → Option (List Hash)) : (depth : Nat) → Walk → Hash → Walk
  | 0, w, _ => w
  | depth + 1, w, h =>
    if w.seen.contains h then w
    else
      match next h with
      | none => w
      | some children =>
        let below := children.foldl (visit next depth) { w with seen := w.seen.insert h }
        { below with left := h :: below.left }

/-- The nodes that can be entered from `root`, each after its children unless they form a cycle. -/
def postorder (next : Hash → Option (List Hash)) (depth : Nat) (root : Hash) : List Hash :=
  (Walk.visit next depth {} root).left.reverse

def depthBound (d : Dirty) : Nat := d.records.size + 1

def cachedChildren (d : Dirty) (h : Hash) : Option (List Hash) :=
  d.records[h]?.map (·.children)

def arrangedChildren (d : Dirty) (order : Arrangement) (h : Hash) : Option (List Hash) :=
  d.records[h]?.map fun r => r.arrangedChildren order h

def closure (d : Dirty) (order : Arrangement) (root : Hash) : List Hash :=
  postorder (d.arrangedChildren order) d.depthBound root

def claim (d : Dirty) (h : Hash) : Dirty :=
  { d with records := d.records.modify h fun r => { r with version := d.version } }

/-- Claims everything cached below `root` for the current version. -/
def stamp (d : Dirty) (order : Arrangement) (root : Hash) : Dirty :=
  (d.closure order root).foldl claim d

def freshChildren (d : Dirty) (order : Arrangement) (h : Hash) : Option (List Hash) :=
  if d.fresh.contains h then d.arrangedChildren order h else none

/-- The fresh nodes that are reached from `root` through fresh nodes, each after its children. -/
def freshClosure (d : Dirty) (order : Arrangement) (root : Hash) : List Hash :=
  postorder (d.freshChildren order) d.depthBound root

end TrieCache.Dirty
