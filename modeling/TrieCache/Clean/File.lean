import TrieCache.Event

namespace TrieCache.Clean.Cache

/-- The cache that a journal describes, in a budget of its own, or an empty one if there is no
journal that can be read. `place` is the path shown in the log. -/
def load (d : Directory) (path place : String) (maxBytes : Nat) : Cache × Event :=
  match d.read path with
  | .ok bytes =>
    match Journal.decode bytes with
    | .ok entries => ((new maxBytes).setAll entries, .journalLoaded entries.length place)
    | .error e => (new maxBytes, .journalUnreadable place (.content e))
  | .error .notFound => (new maxBytes, .journalMissing place)
  | .error .isADirectory => (new maxBytes, .journalUnreadable place (.file .isADirectory))
  | .error e => (new maxBytes, .journalUnopened place e)

def journal (c : Cache) : Bytes := Journal.encode c.entries

/-- Writes the journal by way of a temporary file, and tells how many entries it holds. -/
def save (c : Cache) (d : Directory) (path : String) : Except FileError Nat × Directory :=
  let (result, d) := d.replace path c.journal
  (result.map fun _ => c.entries.length, d)

end TrieCache.Clean.Cache
