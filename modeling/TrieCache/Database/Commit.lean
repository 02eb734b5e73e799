import TrieCache.Database.Basic

namespace TrieCache.Database

/-- The fresh nodes below `root` with their stored forms, in the order they are written. -/
def pending (d : Dirty) (order : Dirty.Arrangement) (root : Hash) : List (Hash × Bytes) :=
  (d.freshClosure order root).filterMap fun h => d.records[h]?.map fun r => (h, r.encoded)

/-- Moves a node that has been written to the clean cache; with `uncache` it leaves memory, and one
that had left before is passed over. -/
def settle (uncache : Bool) (db : Database) (written : Hash × Bytes) : Database :=
  if uncache && !db.dirty.records.contains written.1 then db
  else
    let db := if uncache then { db with dirty := db.dirty.uncache written.1 } else db
    match db.cleans with
    | none => db
    | some cleans =>
      { db with
        cleans := some (cleans.set written.1 written.2)
        counters := { db.counters with
          cleanWritten := db.counters.cleanWritten + written.2.length } }

/-- Takes over what a writer has done, the first nodes of `nodes` being in the batches that were
written. -/
def settleAll (db : Database) (uncache : Bool) (nodes : List (Hash × Bytes)) (w : Store.Writer) :
    Database :=
  (nodes.take w.settled).foldl (settle uncache)
    { db with disk := w.disk, counters := w.counters }

def writePreimages (db : Database) (order : Dirty.Arrangement) : Except Store.Halt Store.Writer :=
  let start := Store.Writer.start db.disk db.counters
  match db.dirty.preimages with
  | none => .ok start
  | some _ => do
    let puts := (db.dirty.preimageList order).map fun p => Store.putPreimage p.1 p.2
    let w ← Store.Writer.addAll puts start
    let w ← w.flush
    .ok (Store.Writer.start w.disk w.counters)

/-- What is left to do once everything is written: `before` is what was cached at the start. -/
def finish (db : Database) (root : Hash) (report : Bool) (before : Dirty) : Database :=
  let dirty := db.dirty.clearPreimages
  let gone : Amount :=
    ⟨before.records.size - dirty.records.size, before.dirtiesSize - dirty.dirtiesSize⟩
  { db with
    dirty := { dirty with fresh := ∅, stats := {} }
    counters := { db.counters with
      committedNodes := db.counters.committedNodes + gone.nodes
      committedSize := db.counters.committedSize + gone.size
      commits := db.counters.commits + 1 } }.report
    (.committed root report (gone.add dirty.stats.flushed) dirty.stats.swept dirty.live)

/-- Writes all preimages and every fresh node that is reached from `root` through fresh nodes. With
`uncache` the written nodes leave memory, those of a batch as soon as it is written. -/
def commit (db : Database) (order : Dirty.Arrangement) (root : Hash) (report uncache : Bool) :
    Except Error Unit × Database :=
  match db.writePreimages order with
  | .error halt =>
    (.error (.disk halt.cause),
      { db with disk := halt.writer.disk, counters := halt.writer.counters })
  | .ok w =>
    let nodes := pending db.dirty order root
    let due := fun size => decide (Store.idealBatchSize ≤ size)
    match Store.Writer.pour due (nodes.map fun n => Store.putNode n.1 n.2) w
        >>= Store.Writer.flush with
    | .error halt =>
      let cause := Error.disk halt.cause
      (.error cause,
        (db.settleAll uncache nodes halt.writer).report (.commitFailed root cause))
    | .ok w => (.ok (), (db.settleAll uncache nodes w).finish root report db.dirty)

end TrieCache.Database
