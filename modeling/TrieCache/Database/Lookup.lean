import TrieCache.Database.Basic

namespace TrieCache.Database

def lookupClean (db : Database) (h : Hash) : Option Bytes × Database :=
  match db.cleans with
  | none => (none, db)
  | some cleans =>
    let (found, cleans) := cleans.get h
    let db := { db with cleans := some cleans }
    match found with
    | none => (none, db)
    | some encoded =>
      (some encoded,
        { db with counters := { db.counters with
            cleanHits := db.counters.cleanHits + 1
            cleanRead := db.counters.cleanRead + encoded.length } })

def lookupDirty (db : Database) (h : Hash) : Option Dirty.Record × Database :=
  match db.dirty.records[h]? with
  | none =>
    (none, { db with counters := { db.counters with
        dirtyMisses := db.counters.dirtyMisses + 1 } })
  | some r =>
    (some r,
      { db with counters := { db.counters with
          dirtyHits := db.counters.dirtyHits + 1
          dirtyRead := db.counters.dirtyRead + r.size } })

def fillClean (db : Database) (h : Hash) (encoded : Bytes) : Database :=
  match db.cleans with
  | none => db
  | some cleans =>
    { db with
      cleans := some (cleans.set h encoded)
      counters := { db.counters with
        cleanMisses := db.counters.cleanMisses + 1
        cleanWritten := db.counters.cleanWritten + encoded.length } }

/-- Looks on disk, where an empty value counts as none. -/
def lookupDisk (db : Database) (h : Hash) : Except Error (Option Bytes) × Database :=
  let (found, counters) := db.disk.read (Store.nodeKey h) db.counters
  let db := { db with counters }
  match found with
  | .error e => (.error (.disk e), db)
  | .ok none => (.ok none, db)
  | .ok (some encoded) =>
    if encoded.isEmpty then (.ok none, db) else (.ok (some encoded), db.fillClean h encoded)

/-- A node as it was found. -/
inductive Found
  | stored (encoded : Bytes)
  | cached (record : Dirty.Record)

/-- Looks a node up, in the clean cache, then among the cached nodes, then on disk. -/
def lookup (db : Database) (h : Hash) : Except Error Found × Database :=
  if h.isZero then (.error (.notFound h), db)
  else
    match db.lookupClean h with
    | (some encoded, db) => (.ok (.stored encoded), db)
    | (none, db) =>
      match db.lookupDirty h with
      | (some r, db) => (.ok (.cached r), db)
      | (none, db) =>
        match db.lookupDisk h with
        | (.ok (some encoded), db) => (.ok (.stored encoded), db)
        | (.ok none, db) => (.error (.notFound h), db)
        | (.error e, db) => (.error e, db)

def Found.blob : Found → Bytes
  | .stored encoded => encoded
  | .cached r => r.encoded

def Found.node : Found → Except DecodeError Node
  | .stored encoded => Node.decode encoded
  | .cached r => r.node

def blob (db : Database) (h : Hash) : Except Error Bytes × Database :=
  let (found, db) := db.lookup h
  (found.map Found.blob, db)

def node (db : Database) (h : Hash) : Except Error Node × Database :=
  let (found, db) := db.lookup h
  (found.bind fun f => f.node.mapError (.decode h), db)

/-- The preimage of a hash, from memory or from disk; none if preimages are not recorded. -/
def preimage (db : Database) (h : Hash) : Except Error (Option Bytes) × Database :=
  match db.dirty.preimages with
  | none => (.ok none, db)
  | some preimages =>
    match preimages[h]? with
    | some preimage => (.ok (some preimage), db)
    | none =>
      let (found, counters) := db.disk.read (Store.preimageKey h) db.counters
      (found.mapError .disk, { db with counters })

end TrieCache.Database
