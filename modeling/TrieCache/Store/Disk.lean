import TrieCache.Store.Table

namespace TrieCache.Store

structure Attempt where
  batch : Batch
  succeeded : Bool
deriving DecidableEq

/-- A store that fails on demand, and remembers which batches it was asked to write. -/
structure Disk where
  table : Table := ∅
  /-- How many more batches can be written; `none` for any number. -/
  writesLeft : Option Nat := none
  /-- How many more operations can be added to batches; `none` for any number. -/
  putsLeft : Option Nat := none
  readsFail : Bool := false
  /-- Whether failures are blamed on what lies behind the store. -/
  backendFails : Bool := false
  /-- The batches written or refused, oldest first. -/
  attempts : List Attempt := []

namespace Disk

def failure (d : Disk) (reason : String) : DiskError :=
  if d.backendFails then .backend reason else .refused reason

/-- Looks a key up. A read that fails is not counted. -/
def read (d : Disk) (key : Bytes) (c : Counters) : Except DiskError (Option Bytes) × Counters :=
  if d.readsFail then (.error (d.failure "injected read failure"), c)
  else
    let (value, c) := d.table.read key c
    (.ok value, c)

end Disk

/-- A batch under way to a disk. -/
structure Writer where
  disk : Disk
  counters : Counters
  batch : Batch := .empty
  /-- How many operations the batches written so far held. -/
  settled : Nat := 0

/-- What was being done when the disk failed. -/
inductive Stage
  | adding
  | writing
deriving DecidableEq

/-- A writer that the disk has stopped. -/
structure Halt where
  writer : Writer
  stage : Stage
  cause : DiskError

namespace Writer

def start (disk : Disk) (counters : Counters) : Writer := { disk, counters }

def add (w : Writer) (op : Op) : Except Halt Writer :=
  if w.disk.putsLeft = some 0 then
    .error ⟨w, .adding, w.disk.failure "injected put failure"⟩
  else
    .ok { w with
      disk := { w.disk with putsLeft := w.disk.putsLeft.map (· - 1) }
      batch := w.batch.push op }

/-- Adds operations in order, without writing. -/
def addAll : List Op → Writer → Except Halt Writer
  | [], w => .ok w
  | op :: ops, w => w.add op >>= addAll ops

/-- Writes the batch and starts an empty one. A batch that fails changes nothing in the store. -/
def flush (w : Writer) : Except Halt Writer :=
  let attempt (succeeded : Bool) := w.disk.attempts ++ [⟨w.batch, succeeded⟩]
  if w.disk.writesLeft = some 0 then
    .error
      { writer := { w with disk := { w.disk with attempts := attempt false } }
        stage := .writing
        cause := w.disk.failure "injected write failure" }
  else
    .ok
      { disk := { w.disk with
          table := w.disk.table.write w.batch
          writesLeft := w.disk.writesLeft.map (· - 1)
          attempts := attempt true }
        counters := w.counters.batchWritten w.batch
        settled := w.settled + w.batch.ops.size }

/-- Writes the batch if its size calls for it. -/
def flushIf (due : Nat → Bool) (w : Writer) : Except Halt Writer :=
  if due w.batch.size then w.flush else .ok w

/-- Adds operations in order, writing the batch whenever its size calls for it. -/
def pour (due : Nat → Bool) : List Op → Writer → Except Halt Writer
  | [], w => .ok w
  | op :: ops, w => w.add op >>= flushIf due >>= pour due ops

end Writer

/-- How many bytes a batch should gather before it is written. -/
def idealBatchSize : Nat := 100 * 1024

end TrieCache.Store
