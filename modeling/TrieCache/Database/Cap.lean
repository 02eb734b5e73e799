import TrieCache.Database.Basic
import TrieCache.Dirty.Flush

namespace TrieCache.Database

def flushPreimages (d : Dirty) (order : Dirty.Arrangement) (w : Store.Writer) :
    Except Store.Halt Store.Writer :=
  match d.preimages with
  | none => .ok w
  | some _ =>
    Store.Writer.addAll ((d.preimageList order).map fun p => Store.putPreimage p.1 p.2) w
      >>= Store.Writer.flushIf fun size => decide (Store.idealBatchSize < size)

def preimagesDue (db : Database) : Bool :=
  decide (db.config.preimageThreshold < db.dirty.preimagesSize)

def capFailed (db : Database) (logged : Bool) (halt : Store.Halt) : Except Error Unit × Database :=
  let db := { db with disk := halt.writer.disk, counters := halt.writer.counters }
  (.error (.disk halt.cause), if logged then db.report (.flushFailed halt.cause) else db)

/-- Writes the oldest nodes to disk and drops them, until the memory used is at most `limit`.
Nothing is dropped unless everything was written. -/
def cap (db : Database) (order : Dirty.Arrangement) (limit : Nat) : Except Error Unit × Database :=
  let start := Store.Writer.start db.disk db.counters
  match if db.preimagesDue then flushPreimages db.dirty order start else .ok start with
  | .error halt => db.capFailed false halt
  | .ok w =>
    let (leaving, staying) := db.dirty.overflow limit
    let due := fun size => decide (Store.idealBatchSize ≤ size)
    match Store.Writer.pour due (leaving.map fun n => Store.putNode n.1 n.2.encoded) w
        >>= Store.Writer.flush with
    | .error halt => db.capFailed (halt.stage = .writing) halt
    | .ok w =>
      let dirty := if db.preimagesDue then db.dirty.clearPreimages else db.dirty
      let dirty := dirty.evict leaving staying
      let done : Amount :=
        ⟨db.dirty.records.size - dirty.records.size, db.dirty.dirtiesSize - dirty.dirtiesSize⟩
      let total := dirty.stats.flushed.add done
      (.ok (),
        { db with
          disk := w.disk
          dirty := { dirty with stats := { dirty.stats with flushed := total } }
          counters := { w.counters with
            flushedNodes := w.counters.flushedNodes + done.nodes
            flushedSize := w.counters.flushedSize + done.size
            flushes := w.counters.flushes + 1 } }.report (.flushed done total dirty.live))

end TrieCache.Database
