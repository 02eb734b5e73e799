import TrieCache.Bytes
import TrieCache.Saturating

namespace TrieCache.Store

inductive Op
  | put (key value : Bytes)
  | delete (key : Bytes)
deriving DecidableEq

namespace Op

def key : Op → Bytes
  | put key _ => key
  | delete key => key

/-- The bytes an operation adds to the size of its batch. -/
def size : Op → Nat
  | put key value => satAdd key.length value.length
  | delete key => key.length

end Op

/-- The operations gathered so far, oldest first, and their size. -/
structure Batch where
  ops : Array Op := #[]
  size : Nat := 0
deriving DecidableEq

namespace Batch

def empty : Batch := {}

def push (b : Batch) (op : Op) : Batch :=
  ⟨b.ops.push op, satAdd b.size op.size⟩

def append (b : Batch) (ops : List Op) : Batch :=
  ops.foldl push b

/-- Adds the operations of `b` to `into`, in order. -/
def replayInto (b into : Batch) : Batch :=
  into.append b.ops.toList

theorem ops_append (b : Batch) (ops : List Op) :
    (b.append ops).ops.toList = b.ops.toList ++ ops := by
  induction ops generalizing b with
  | nil => simp [append]
  | cons op rest ih =>
    rw [append, List.foldl_cons, ← append, ih]
    simp [push]

end Batch

end TrieCache.Store
