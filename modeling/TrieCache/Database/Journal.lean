import TrieCache.Database.Basic

namespace TrieCache.Database

/-- Saves the clean cache, if there is one. `place` is the path shown in the log. -/
def saveCache (db : Database) (files : Directory) (path place : String) :
    Except Error Unit × Database × Directory :=
  match db.cleans with
  | none => (.ok (), db, files)
  | some cleans =>
    let db := db.report (.journalWriting place)
    match cleans.save files path with
    | (.ok count, files) => (.ok (), db.report (.journalWritten count place), files)
    | (.error e, files) => (.error (.journal e), db.report (.journalFailed e), files)

/-- Saves the clean cache at each of `ticks` ticks, failures being logged only, and then stops. -/
def savePeriodically (files : Directory) (path place : String) :
    (ticks : Nat) → Database → Database × Directory
  | 0, db => (db.report .savingStopped, files)
  | ticks + 1, db =>
    let (_, db, files) := db.saveCache files path place
    savePeriodically files path place ticks db

end TrieCache.Database
