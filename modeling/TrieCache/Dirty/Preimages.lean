import TrieCache.Dirty.State

namespace TrieCache.Dirty

/-- The preimages that are recorded, in the order in which they are written. -/
def preimageList (d : Dirty) (order : Arrangement) : List (Hash × Bytes) :=
  match d.preimages with
  | none => []
  | some preimages =>
    (order.arrange .preimages preimages.keys).filterMap fun h => preimages[h]?.map fun p => (h, p)

def clearPreimages (d : Dirty) : Dirty :=
  match d.preimages with
  | none => d
  | some _ => { d with preimages := some ∅, preimagesSize := 0 }

/-- Records a preimage, unless there is one already or none are recorded. -/
def insertPreimage (d : Dirty) (h : Hash) (preimage : Bytes) : Dirty :=
  match d.preimages with
  | none => d
  | some preimages =>
    if preimages.contains h then d
    else
      { d with
        preimages := some (preimages.insert h preimage)
        preimagesSize := satAdd d.preimagesSize (satAdd 32 preimage.length) }

end TrieCache.Dirty
