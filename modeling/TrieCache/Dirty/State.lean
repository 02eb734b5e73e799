import TrieCache.Amount
import TrieCache.Dirty.FlushList

namespace TrieCache

/-- What has left memory since the last commit. -/
structure Stats where
  /-- Nodes dropped as stale. -/
  swept : Amount := {}
  /-- Nodes flushed to make room. -/
  flushed : Amount := {}
deriving DecidableEq

/-- Everything about the cached nodes. -/
structure Dirty where
  /-- The cached nodes, and the meta-root under the zero hash. -/
  records : Dirty.Records
  flush : Dirty.FlushList := .empty
  /-- The nodes inserted since the last commit. -/
  fresh : HashSet := ∅
  /-- The version of new nodes. -/
  version : Nat := 0
  /-- The sets of dropped hashes that may still be on disk, in the order they were dropped. -/
  useless : List HashSet := []
  /-- The preimages recorded and not yet written; `none` if they are not recorded at all. -/
  preimages : Option (HashMap Bytes)
  /-- The sum of the nodes' payloads. -/
  dirtiesSize : Nat := 0
  /-- The bytes accounted to edges. Of the meta-root only the edges count, not their map. -/
  childrenSize : Nat := 0
  preimagesSize : Nat := 0
  stats : Stats := {}

namespace Dirty

def new (preimages : Bool) : Dirty :=
  { records := (∅ : Records).insert Hash.zero Record.metaRoot
    preimages := if preimages then some ∅ else none }

def hashes (d : Dirty) : List Hash :=
  d.records.keys.filter fun h => !h.isZero

def liveNodes (d : Dirty) : Nat := d.records.size - 1

def live (d : Dirty) : Amount := ⟨d.liveNodes, d.dirtiesSize⟩

/-- Caches a node at the newest end of the flush list. One that is cached already stays. -/
def insert (d : Dirty) (h : Hash) (content : Content) (size : Nat) : Dirty :=
  if d.records.contains h then d
  else
    let record : Record := { content, size, version := d.version }
    let (flush, records) := d.flush.pushBack (d.records.insert h record) h
    { d with
      records
      flush
      fresh := d.fresh.insert h
      dirtiesSize := satAdd d.dirtiesSize record.payload }

/-- Drops a record and its accounting, without touching the flush list. -/
def remove (d : Dirty) (h : Hash) : Dirty :=
  match d.records[h]? with
  | none => d
  | some r =>
    { d with
      records := d.records.erase h
      fresh := d.fresh.erase h
      dirtiesSize := d.dirtiesSize - r.payload
      childrenSize := d.childrenSize - r.edgesSize }

def unlink (d : Dirty) (h : Hash) : Dirty :=
  let (flush, records) := d.flush.unlink d.records h
  { d with flush, records }

def roots (d : Dirty) : HashMap Nat :=
  match d.records[Hash.zero]? with
  | none => ∅
  | some r => r.edges.getD ∅

def forgetRoot (d : Dirty) (root : Hash) : Dirty :=
  if d.records.contains root then d
  else if d.roots.contains root then
    { d with
      records := d.records.modify Hash.zero fun r =>
        { r with edges := r.edges.map fun edges => edges.erase root }
      childrenSize := d.childrenSize - edgeCost }
  else d

/-- The memory used by the cached nodes, their records and their edges. -/
def memorySize (d : Dirty) : Nat :=
  satAdd (satAdd d.dirtiesSize (satMul d.liveNodes recordCost)) d.childrenSize
    - satMul d.roots.size edgeCost

/-- Drops a node that has been written: from the list, the records and the meta-root's edges. -/
def uncache (d : Dirty) (h : Hash) : Dirty :=
  ((d.unlink h).remove h).forgetRoot h

def nextVersion (d : Dirty) : Dirty :=
  { d with version := satAdd d.version 1 }

end Dirty

end TrieCache
