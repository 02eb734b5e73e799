import TrieCache.Database.Basic
import TrieCache.Dirty.Sweep

namespace TrieCache.Database

/-- What a sweep leaves behind in the accounts of the database. -/
def account (db : Database) (root : Hash) (s : Dirty.Sweep) : Database :=
  let dirty := s.dirty.forgetRoot root
  let done : Amount :=
    ⟨db.dirty.records.size - dirty.records.size, db.dirty.dirtiesSize - dirty.dirtiesSize⟩
  let total := dirty.stats.swept.add done
  let db := if s.interrupted then db.report .sweepOvertime else db
  let db := db.updateCleans (·.removeAll s.dropped)
  { db with
    dirty := { dirty with stats := { dirty.stats with swept := total } }
    counters := { db.counters with
      sweptNodes := db.counters.sweptNodes + done.nodes
      sweptSize := db.counters.sweptSize + done.size
      sweeps := db.counters.sweeps + 1 } }.report (.swept root done total dirty.live)

/-- Drops the stale nodes below `root` while there is time, and returns the hashes of those that may
be on disk. No result if the sweep never ends. -/
def sweep (db : Database) (order : Dirty.Arrangement) (clock : List Duration) (root : Hash) :
    Option (Except Error (List Hash) × Database) :=
  if root.isZero then some (.error .metaRoot, db.report .metaRootRefused)
  else do
    let s ← db.dirty.sweep order (db.config.allowance clock) root
    some (.ok s.dropped, db.account root s)

def dereference (db : Database) (order : Dirty.Arrangement) (clock : List Duration) (root : Hash) :
    Option (Except Error Unit × Database) := do
  let (result, db) ← db.sweep order clock root
  some (result.map fun _ => (), db)

/-- Drops the stale nodes below `root` from memory, and queues them to be deleted from disk. -/
def dereferenceStored (db : Database) (order : Dirty.Arrangement) (clock : List Duration)
    (root : Hash) : Option (Except Error Unit × Database) := do
  let (result, db) ← db.sweep order clock root
  match result with
  | .error e => some (.error e, db)
  | .ok dropped =>
    let useless := db.dirty.useless ++ [HashSet.ofList dropped]
    some (.ok (), { db with dirty := { db.dirty with useless } })

/-- The hashes in the first `count` queued sets that are not cached again. -/
def garbage (d : Dirty) (order : Dirty.Arrangement) (count : Nat) : List Hash :=
  (d.useless.take count).zipIdx.flatMap fun (set, position) =>
    (order.arrange (.useless position) set.toList).filter fun h => !d.records.contains h

/-- Deletes the nodes of up to `count` queued sets from disk. If that fails all sets stay queued. -/
def collect (db : Database) (order : Dirty.Arrangement) (count : Nat) :
    Except Error Unit × Database :=
  let sets := min db.dirty.useless.length count
  let garbage := garbage db.dirty order sets
  let due := fun size => decide (Store.idealBatchSize < size)
  match Store.Writer.pour due (garbage.map Store.deleteNode) (.start db.disk db.counters)
      >>= Store.Writer.flush with
  | .error halt =>
    (.error (.disk halt.cause),
      { db with disk := halt.writer.disk, counters := halt.writer.counters })
  | .ok w =>
    (.ok (),
      { db with
        disk := w.disk
        counters := w.counters
        dirty := { db.dirty with useless := db.dirty.useless.drop sets } }.report
          (.collected garbage.length sets))

def forgetUseless (db : Database) : Database :=
  { db with dirty := { db.dirty with useless := [] } }

def uselessTotal (db : Database) : Nat :=
  db.dirty.useless.foldl (fun n u => n + u.size) 0

end TrieCache.Database
