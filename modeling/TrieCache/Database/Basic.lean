import TrieCache.Clean.File
import TrieCache.Database.Config
import TrieCache.Dirty.Edges
import TrieCache.Dirty.Preimages
import TrieCache.Dirty.Walk
import TrieCache.Store.Disk
import TrieCache.Store.Key

namespace TrieCache

structure Database where
  config : Config
  dirty : Dirty
  /-- Blobs that are on disk, if a cache of them is kept. -/
  cleans : Option Clean.Cache
  disk : Store.Disk
  counters : Counters
  /-- What has been logged, the last event first. -/
  log : List Event

namespace Database

def report (db : Database) (e : Event) : Database :=
  { db with log := e :: db.log }

/-- A database over a disk. The clean cache is restored from its journal, if there is one; `place`
turns the journal's path into the one shown in the log. -/
def new (disk : Store.Disk) (counters : Counters) (log : List Event) (files : Directory)
    (place : String → String) (config : Config) : Database :=
  let db : Database :=
    { config, dirty := .new config.preimages, cleans := none, disk, counters, log }
  if config.cleanCacheSize = 0 then db
  else
    match config.journal with
    | none => { db with cleans := some (.new config.cleanCacheSize) }
    | some path =>
      let (cleans, e) := Clean.Cache.load files path (place path) config.cleanCacheSize
      { db with cleans := some cleans }.report e

def insertContent (db : Database) (h : Hash) (content : Dirty.Content) (size : Nat) : Database :=
  if db.dirty.records.contains h then db
  else
    { db with
      dirty := db.dirty.insert h content size
      counters := { db.counters with dirtyWritten := db.counters.dirtyWritten + size } }

/-- Caches a node whose stored form has `size` bytes. -/
def insert (db : Database) (h : Hash) (size : Nat) (node : Node) : Database :=
  db.insertContent h (.collapsed node) size

/-- Caches bytes that are never looked into. -/
def insertBlob (db : Database) (h : Hash) (blob : Bytes) : Database :=
  db.insertContent h (.raw blob) blob.length

def insertNode (db : Database) (node : Node) : Hash × Database :=
  let encoded := node.encode
  let h := Hash.keccak encoded
  (h, db.insert h encoded.length node)

def reference (db : Database) (child parent : Hash) : Database :=
  let db' := { db with dirty := db.dirty.reference child parent }
  if db.dirty.tracks child && !db.dirty.records.contains parent then
    db'.report (.uncachedParent parent)
  else db'

/-- Claims everything cached below `root` for the current version. -/
def stamp (db : Database) (order : Dirty.Arrangement) (elapsed : Duration) (root : Hash) :
    Database :=
  let db' := { db with dirty := db.dirty.stamp order root }
  if db.config.stampWarning < elapsed then db'.report (.stampOvertime root) else db'

def nextVersion (db : Database) : Database :=
  { db with dirty := db.dirty.nextVersion }

/-- The memory used by cached nodes, and that used by preimages. -/
def size (db : Database) : Nat × Nat :=
  (db.dirty.memorySize, db.dirty.preimagesSize)

def insertPreimage (db : Database) (h : Hash) (preimage : Bytes) : Database :=
  { db with dirty := db.dirty.insertPreimage h preimage }

def updateCleans (db : Database) (f : Clean.Cache → Clean.Cache) : Database :=
  { db with cleans := db.cleans.map f }

end Database

end TrieCache
