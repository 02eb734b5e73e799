import TrieCache.Amount
import TrieCache.Clean.Journal
import TrieCache.Error

namespace TrieCache

inductive Level
  | error
  | warn
  | info
  | debug
  | trace
deriving DecidableEq

def Level.name : Level → String
  | .error => "ERROR"
  | .warn => "WARN"
  | .info => "INFO"
  | .debug => "DEBUG"
  | .trace => "TRACE"

/-- Why the journal of the clean cache could not be read. -/
inductive JournalFault
  | file (cause : FileError)
  | content (cause : Clean.Journal.Fault)
deriving DecidableEq

def JournalFault.message : JournalFault → String
  | .file cause => cause.message
  | .content cause => cause.message

/-- Something worth a line in the log. -/
inductive Event
  | uncachedParent (parent : Hash)
  | stampOvertime (root : Hash)
  | sweepOvertime
  | metaRootRefused
  | swept (root : Hash) (done total live : Amount)
  | collected (deleted sets : Nat)
  | flushFailed (cause : Store.DiskError)
  | flushed (done total live : Amount)
  | commitFailed (root : Hash) (cause : Error)
  | committed (root : Hash) (report : Bool) (done stale live : Amount)
  | journalLoaded (count : Nat) (path : String)
  | journalUnreadable (path : String) (cause : JournalFault)
  | journalMissing (path : String)
  | journalUnopened (path : String) (cause : FileError)
  | journalWriting (path : String)
  | journalWritten (count : Nat) (path : String)
  | journalFailed (cause : FileError)
  | savingStopped
deriving DecidableEq

namespace Event

def level : Event → Level
  | metaRootRefused | flushFailed _ | commitFailed _ _ | journalFailed _ => .error
  | stampOvertime _ | sweepOvertime | journalUnreadable _ _ | journalUnopened _ _ => .warn
  | journalWriting _ | journalWritten _ _ => .info
  | committed _ report _ _ _ => if report then .info else .debug
  | swept _ _ _ _ | collected _ _ | flushed _ _ _ | journalLoaded _ _ | journalMissing _ => .debug
  | uncachedParent _ | savingStopped => .trace

/-- The text of an event. Durations are not kept, so `time` is written for each of them. -/
def message (time : String) : Event → String
  | uncachedParent parent => s!"ignoring reference from uncached parent {parent}"
  | stampOvertime root => s!"reference_version overtime: root {root} took {time}"
  | sweepOvertime => s!"dereference overtime, interrupting after {time}"
  | metaRootRefused => Error.metaRoot.message
  | swept root done total live =>
    s!"dereferenced trie {root} from memory database: nodes {done.nodes}, size {done.size}, " ++
      s!"time {time}, gcnodes {total.nodes}, gcsize {total.size}, gctime {time}, " ++
      s!"livenodes {live.nodes}, livesize {live.size}"
  | collected deleted sets =>
    s!"useless gc deleted {deleted} nodes from {sets} sets in {time}"
  | flushFailed cause => "failed to write flush list to disk: " ++ cause.message
  | flushed done total live =>
    s!"persisted nodes from memory database: nodes {done.nodes}, size {done.size}, " ++
      s!"time {time}, flushnodes {total.nodes}, flushsize {total.size}, flushtime {time}, " ++
      s!"livenodes {live.nodes}, livesize {live.size}"
  | commitFailed root cause =>
    s!"failed to commit trie {root} from trie database: " ++ cause.message
  | committed root _ done stale live =>
    s!"persisted trie {root} from memory database: nodes {done.nodes}, size {done.size}, " ++
      s!"time {time}, gcnodes {stale.nodes}, gcsize {stale.size}, gctime {time}, " ++
      s!"livenodes {live.nodes}, livesize {live.size}"
  | journalLoaded count path => s!"loaded {count} clean cache entries from {path}"
  | journalUnreadable path cause =>
    s!"ignoring unreadable clean cache journal {path}: " ++ cause.message
  | journalMissing path => s!"no clean cache journal at {path}"
  | journalUnopened path cause => s!"cannot open clean cache journal {path}: " ++ cause.message
  | journalWriting path => s!"writing clean trie cache to {path}"
  | journalWritten count path =>
    s!"persisted {count} clean trie cache entries to {path} in {time}"
  | journalFailed cause => "failed to persist clean trie cache: " ++ cause.message
  | savingStopped => "stopped saving the clean trie cache"

def line (time : String) (e : Event) : String :=
  e.level.name ++ " " ++ e.message time

end Event

end TrieCache
