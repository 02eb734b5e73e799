namespace TrieCache

/-- A span of time, in nanoseconds. -/
abbrev Duration := Nat

def Duration.ofMillis (millis : Nat) : Duration := 1000000 * millis

/-- The default limit of a sweep, in milliseconds. -/
def sweepLimitMillis : Nat := 300

/-- The default of how many milliseconds a stamp may take without a warning. -/
def stampWarningMillis : Nat := 400

structure Config where
  /-- The bytes given to the clean cache; none if zero. -/
  cleanCacheSize : Nat := 0
  /-- The journal the clean cache is restored from. -/
  journal : Option String := none
  /-- Whether preimages are recorded. -/
  preimages : Bool := true
  /-- Preimages are flushed along with nodes once they take more bytes than this. -/
  preimageThreshold : Nat := 4 * 1024 * 1024
  /-- A sweep is interrupted once it takes as long as this. -/
  sweepLimit : Duration := .ofMillis sweepLimitMillis
  /-- A stamp that takes longer is worth a warning. -/
  stampWarning : Duration := .ofMillis stampWarningMillis
deriving DecidableEq

/-- How many nodes a sweep can meet before its time is up, if it is ever up: `clock` is read at each
of them, and stands still after these readings. -/
def Config.allowance (c : Config) (clock : List Duration) : Option Nat :=
  if c.sweepLimit = 0 then some 0
  else clock.findIdx? fun elapsed => decide (c.sweepLimit ≤ elapsed)

end TrieCache
