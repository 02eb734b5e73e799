import TrieCache.Store.Table

namespace TrieCache.Store

/-- Takes what a writer does with one operation through a list of them, up to the first that it
refuses; the state it was in by then is kept. -/
def feed {σ ε : Type} (step : σ → Op → Except ε σ) : σ → List Op → σ × Option ε
  | s, [] => (s, none)
  | s, op :: ops =>
    match step s op with
    | .ok s' => feed step s' ops
    | .error e => (s, some e)

/-- A writer that keeps the first operations it is given, as many as its room allows. -/
structure Recorder where
  room : Option Nat
  ops : Array Op := #[]

def Recorder.take (r : Recorder) (op : Op) : Except DiskError Recorder :=
  if r.room = some 0 then .error (.refused "recorder full")
  else .ok ⟨r.room.map (· - 1), r.ops.push op⟩

/-- What a recorder holds after a batch, and the error that stopped it. -/
def Batch.record (b : Batch) (room : Option Nat) : Array Op × Option DiskError :=
  let (r, e) := feed Recorder.take { room } b.ops.toList
  (r.ops, e)

end TrieCache.Store
