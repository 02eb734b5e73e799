import TrieCache.Proofs.Database.Retry
import TrieCache.Proofs.Dirty.Descent
import TrieCache.Store.Replay

namespace TrieCache

open Dirty (Arrangement Descends)
open Store (Op Batch Writer Halt DiskError putNode)

namespace Database

/-- A commit under way: the database as it is by now, and the batch being filled. -/
structure Committer where
  db : Database
  batch : Batch := .empty

namespace Committer

/-- Why a commit ends early, and the database by then. -/
abbrev Stop := DiskError × Database

def writer (c : Committer) : Writer :=
  { disk := c.db.disk, counters := c.db.counters, batch := c.batch }

def resume (c : Committer) : Except Halt Writer → Except Stop Committer
  | .ok w => .ok ⟨{ c.db with disk := w.disk, counters := w.counters }, w.batch⟩
  | .error halt =>
    .error (halt.cause, { c.db with disk := halt.writer.disk, counters := halt.writer.counters })

def replay (uncache : Bool) (db : Database) : Op → Except DiskError Database
  | .put key value =>
    match Hash.ofBytes key with
    | .ok h => .ok (db.settle uncache (h, value))
    | .error e => .error (.refused e.message)
  | .delete _ => .error (.refused "commit batches never delete")

def settleBatch (uncache : Bool) (written : Batch) (c : Committer) : Except Stop Committer :=
  match Store.feed (replay uncache) c.db written.ops.toList with
  | (db, none) => .ok { c with db }
  | (db, some cause) => .error (cause, db)

def flush (uncache : Bool) (c : Committer) : Except Stop Committer :=
  c.resume c.writer.flush >>= settleBatch uncache c.batch

/-- Puts a node that is still cached into the batch, which is written once it is large enough. -/
def leave (uncache : Bool) (c : Committer) (h : Hash) : Except Stop Committer :=
  match c.db.dirty.records[h]? with
  | none => .ok c
  | some r => do
    let c ← c.resume (c.writer.add (putNode h r.encoded))
    if Store.idealBatchSize ≤ c.batch.size then c.flush uncache else .ok c

def next (order : Arrangement) (c : Committer) : Hash → Option (List Hash) :=
  c.db.dirty.freshChildren order

def conclude (root : Hash) (report : Bool) (before : Dirty) :
    Except Stop Committer → Except Error Unit × Database
  | .error (cause, db) => (.error (.disk cause), db.report (.commitFailed root (.disk cause)))
  | .ok c => (.ok (), c.db.finish root report before)

end Committer

variable {db : Database} {order : Arrangement} {root h : Hash} {report uncache : Bool}
  {nodes taken held rest : List (Hash × Bytes)} {w : Writer} {listed : List Hash}

section Settle

theorem disk_settle (uncache : Bool) (db : Database) (n : Hash × Bytes) :
    (db.settle uncache n).disk = db.disk := by
  rw [settle]
  split
  · rfl
  · cases uncache <;> simp only [Bool.false_eq_true, ↓reduceIte] <;> split <;> rfl

end Settle

namespace Committer

/-- What a commit under way is when the writer that is given all nodes at once has come to `w`. -/
def view (db : Database) (uncache : Bool) (nodes : List (Hash × Bytes)) (w : Writer) : Committer :=
  ⟨db.settleAll uncache nodes w, w.batch⟩

def viewAll (db : Database) (uncache : Bool) (nodes : List (Hash × Bytes)) :
    Except Halt Writer → Except Stop Committer
  | .ok w => .ok (view db uncache nodes w)
  | .error halt => .error (halt.cause, db.settleAll uncache nodes halt.writer)

/-- Of `nodes` a writer has written some and holds some in its batch; the rest are to come. -/
structure Holds (nodes rest : List (Hash × Bytes)) (w : Writer) (taken held : List (Hash × Bytes)) :
    Prop where
  split : nodes = taken ++ held ++ rest
  settled : w.settled = taken.length
  batch : w.batch.ops.toList = nodePuts held

theorem Holds.take (hh : Holds nodes rest w taken held) : nodes.take w.settled = taken := by
  rw [hh.split, hh.settled, List.append_assoc, List.take_left]

theorem disk_settles (nodes : List (Hash × Bytes)) (db : Database) :
    (nodes.foldl (settle uncache) db).disk = db.disk := by
  induction nodes generalizing db with
  | nil => rfl
  | cons n nodes ih => rw [List.foldl_cons, ih, disk_settle]

def due (size : Nat) : Bool := decide (Store.idealBatchSize ≤ size)

theorem Holds.add {n : Hash × Bytes} {w' : Writer} (hh : Holds nodes (n :: rest) w taken held)
    (hr : w.add (putNode n.1 n.2) = .ok w') : Holds nodes rest w' taken (held ++ [n]) := by
  rw [Writer.add] at hr
  split at hr
  · cases hr
  · cases hr
    refine ⟨?_, hh.settled, ?_⟩
    · rw [hh.split]
      simp
    · rw [nodePuts, List.map_append, ← nodePuts, ← hh.batch]
      exact Array.toList_push

theorem Holds.flush {w' : Writer} (hh : Holds nodes rest w taken held) (hr : w.flush = .ok w') :
    Holds nodes rest w' (taken ++ held) [] := by
  rw [Writer.flush] at hr
  split at hr
  · cases hr
  · cases hr
    refine ⟨by rw [List.append_nil, hh.split], ?_, rfl⟩
    rw [List.length_append, ← hh.settled, ← Array.length_toList, hh.batch, nodePuts,
      List.length_map]

theorem Holds.step {n : Hash × Bytes} {w' : Writer} (hh : Holds nodes (n :: rest) w taken held)
    (hr : (w.add (putNode n.1 n.2) >>= Writer.flushIf due) = .ok w') :
    ∃ taken held, Holds nodes rest w' taken held := by
  cases hadd : w.add (putNode n.1 n.2) with
  | error halt =>
    rw [hadd] at hr
    cases hr
  | ok w₁ =>
    rw [hadd] at hr
    change w₁.flushIf due = .ok w' at hr
    rw [Writer.flushIf] at hr
    split at hr
    · exact ⟨_, _, (hh.add hadd).flush hr⟩
    · cases hr
      exact ⟨_, _, hh.add hadd⟩

theorem Holds.pour {w' : Writer} (hh : Holds nodes rest w taken held)
    (hr : Writer.pour due (nodePuts rest) w = .ok w') :
    ∃ taken held, Holds nodes [] w' taken held := by
  induction rest generalizing w taken held with
  | nil =>
    cases hr
    exact ⟨taken, held, hh⟩
  | cons n rest ih =>
    rw [nodePuts, List.map_cons, Writer.pour] at hr
    cases hstep : w.add (putNode n.1 n.2) >>= Writer.flushIf due with
    | error halt =>
      rw [hstep] at hr
      cases hr
    | ok w₁ =>
      rw [hstep] at hr
      obtain ⟨taken, held, hh'⟩ := hh.step hstep
      exact ih hh' hr

end Committer

open Committer

def storedForms (d : Dirty) (hs : List Hash) : List (Hash × Bytes) :=
  hs.filterMap fun h => d.records[h]?.map fun r => (h, r.encoded)

section Steady

variable {d d' : Dirty} {gone hs : List Hash}

end Steady

theorem commit_eq_conclude (hp : db.writePreimages order = .ok w) :
    db.commit order root report uncache = conclude root report db.dirty
      (viewAll db uncache (pending db.dirty order root)
        (Writer.pour due (nodePuts (pending db.dirty order root)) w >>= Writer.flush)) := by
  rw [commit, hp]
  dsimp only
  split
  · next halt hr =>
    change (Writer.pour due (nodePuts (pending db.dirty order root)) w >>= Writer.flush) = _ at hr
    rw [hr]
    rfl
  · next w' hr =>
    change (Writer.pour due (nodePuts (pending db.dirty order root)) w >>= Writer.flush) = _ at hr
    rw [hr]
    rfl

end Database

end TrieCache
