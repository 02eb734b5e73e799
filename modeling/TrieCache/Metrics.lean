namespace TrieCache

/-- Totals since the start. They are exact; they are shown modulo `2 ^ 64`. -/
structure Counters where
  storeReads : Nat := 0
  storeMisses : Nat := 0
  batchWrites : Nat := 0
  batchOps : Nat := 0
  batchBytes : Nat := 0
  cleanHits : Nat := 0
  cleanMisses : Nat := 0
  cleanRead : Nat := 0
  cleanWritten : Nat := 0
  dirtyHits : Nat := 0
  dirtyMisses : Nat := 0
  dirtyRead : Nat := 0
  dirtyWritten : Nat := 0
  flushedNodes : Nat := 0
  flushedSize : Nat := 0
  flushes : Nat := 0
  sweptNodes : Nat := 0
  sweptSize : Nat := 0
  sweeps : Nat := 0
  committedNodes : Nat := 0
  committedSize : Nat := 0
  commits : Nat := 0
deriving DecidableEq

/-- How a metric is kept: as a running total, or as the samples of a duration. -/
inductive MetricKind
  | counter
  | histogram
deriving DecidableEq

def MetricKind.name : MetricKind → String
  | .counter => "counter"
  | .histogram => "histogram"

structure Metric where
  name : String
  kind : MetricKind
  description : String
  /-- The total of a counter, or the number of samples of a histogram. -/
  total : Counters → Nat

namespace Metric

def ofStore : List Metric :=
  [⟨"kv.read", .counter, "Number of key-value reads", Counters.storeReads⟩,
    ⟨"kv.read_miss", .counter, "Number of key-value reads that found nothing",
      Counters.storeMisses⟩,
    ⟨"kv.batch_write", .counter, "Number of batches written", Counters.batchWrites⟩,
    ⟨"kv.batch_ops", .counter, "Number of operations applied by batch writes",
      Counters.batchOps⟩,
    ⟨"kv.batch_bytes", .counter, "Bytes written by batch writes", Counters.batchBytes⟩]

def ofCache : List Metric :=
  [⟨"trie.memcache.clean.hit", .counter, "Clean cache hits", Counters.cleanHits⟩,
    ⟨"trie.memcache.clean.miss", .counter, "Clean cache misses that were filled from disk",
      Counters.cleanMisses⟩,
    ⟨"trie.memcache.clean.read", .counter, "Bytes read from the clean cache",
      Counters.cleanRead⟩,
    ⟨"trie.memcache.clean.write", .counter, "Bytes written into the clean cache",
      Counters.cleanWritten⟩,
    ⟨"trie.memcache.dirty.hit", .counter, "Dirty cache hits", Counters.dirtyHits⟩,
    ⟨"trie.memcache.dirty.miss", .counter, "Dirty cache misses", Counters.dirtyMisses⟩,
    ⟨"trie.memcache.dirty.read", .counter, "Bytes read from the dirty cache",
      Counters.dirtyRead⟩,
    ⟨"trie.memcache.dirty.write", .counter, "Bytes inserted into the dirty cache",
      Counters.dirtyWritten⟩,
    ⟨"trie.memcache.flush.nodes", .counter, "Nodes flushed to disk by cap",
      Counters.flushedNodes⟩,
    ⟨"trie.memcache.flush.size", .counter, "Bytes flushed to disk by cap",
      Counters.flushedSize⟩,
    ⟨"trie.memcache.flush.time", .histogram, "Time spent in cap, in seconds",
      Counters.flushes⟩,
    ⟨"trie.memcache.gc.nodes", .counter, "Nodes dropped by dereferencing",
      Counters.sweptNodes⟩,
    ⟨"trie.memcache.gc.size", .counter, "Bytes dropped by dereferencing",
      Counters.sweptSize⟩,
    ⟨"trie.memcache.gc.time", .histogram, "Time spent dereferencing, in seconds",
      Counters.sweeps⟩,
    ⟨"trie.memcache.commit.nodes", .counter, "Nodes removed from the dirty cache by commit",
      Counters.committedNodes⟩,
    ⟨"trie.memcache.commit.size", .counter, "Bytes removed from the dirty cache by commit",
      Counters.committedSize⟩,
    ⟨"trie.memcache.commit.time", .histogram, "Time spent in commit, in seconds",
      Counters.commits⟩]

def all : List Metric := ofStore ++ ofCache

def shown (m : Metric) (c : Counters) : Nat := m.total c % UInt64.size

end Metric

/-- The names and totals of the metrics that have anything to show. -/
def Counters.report (c : Counters) : List (String × Nat) :=
  (Metric.all.map fun m => (m.name, m.shown c)).filter fun r => r.2 ≠ 0

end TrieCache
