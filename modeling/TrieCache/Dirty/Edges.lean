import TrieCache.Dirty.State

namespace TrieCache.Dirty

/-- Whether `child` can have an edge to it: it is cached, and not the meta-root. -/
def tracks (d : Dirty) (child : Hash) : Bool :=
  !child.isZero && d.records.contains child

def Record.addEdge (r : Record) (child : Hash) : Record :=
  let edges := r.edges.getD ∅
  { r with edges := some (edges.insert child (min (edges.getD child 0 + 1) maxEdgeCount)) }

def Record.addParent (r : Record) : Record :=
  { r with parents := min (r.parents + 1) maxParents }

/-- Records that `parent` depends on `child`. An edge that is there already stays as it is, except
under the meta-root, which counts its edges. -/
def reference (d : Dirty) (child parent : Hash) : Dirty :=
  if d.tracks child then
    match d.records[parent]? with
    | none => d
    | some p =>
      let known := (p.edges.getD ∅).contains child
      if known && !parent.isZero then d
      else
        let size := if p.edges.isNone then satAdd d.childrenSize edgeMapCost else d.childrenSize
        { d with
          records := (d.records.modify parent (·.addEdge child)).modify child Record.addParent
          childrenSize := if known then size else satAdd size edgeCost }
  else d

end TrieCache.Dirty
