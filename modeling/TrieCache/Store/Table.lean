import Std.Data.ExtTreeMap
import TrieCache.Metrics
import TrieCache.Store.Batch

namespace TrieCache.Store

/-- Why a store did not do as it was told. -/
inductive DiskError
  /-- What lies behind the store failed. -/
  | backend (cause : String)
  /-- The store itself refused. -/
  | refused (reason : String)
deriving DecidableEq

def DiskError.message : DiskError → String
  | .backend cause => s!"key-value backend error: {cause}"
  | .refused reason => s!"key-value store error: {reason}"

abbrev Table := Std.ExtTreeMap Bytes Bytes

namespace Table

def apply (t : Table) : Op → Table
  | .put key value => t.insert key value
  | .delete key => t.erase key

/-- Applies a batch in the order its operations were added. -/
def write (t : Table) (b : Batch) : Table :=
  b.ops.toList.foldl apply t

/-- Looks a key up and counts the read. -/
def read (t : Table) (key : Bytes) (c : Counters) : Option Bytes × Counters :=
  match t[key]? with
  | some value => (some value, { c with storeReads := c.storeReads + 1 })
  | none =>
    (none, { c with storeReads := c.storeReads + 1, storeMisses := c.storeMisses + 1 })

end Table

end TrieCache.Store

def TrieCache.Counters.batchWritten (c : Counters) (b : Store.Batch) : Counters :=
  { c with
    batchWrites := c.batchWrites + 1
    batchOps := c.batchOps + b.ops.size
    batchBytes := c.batchBytes + b.size }
