import TrieCache.Proofs.Database.Committer

namespace TrieCache

open Dirty (FlushList Record Records)
open Store (Writer Halt handed written putNode)

namespace Dirty

/-- Links lead from an entry to the next one, and end behind the last one. -/
def Chained (rs : Records) : Option Hash → List (Hash × Record) → Prop
  | link, [] => link = none
  | link, n :: rest => link = some n.1 ∧ rs[n.1]? = some n.2 ∧ Chained rs n.2.next rest

variable {d d' : Dirty} {rs : Records} {link stop : Option Hash} {limit size : Nat} {h : Hash}
  {ns leaving staying : List (Hash × Record)} {p q order : List Hash}

/-- Nodes are dropped from a link on, as far as the links lead, up to `stop`. -/
inductive Evicts (stop : Option Hash) : Dirty → Option Hash → Dirty → Prop
  | reached {d : Dirty} {link : Option Hash} : link = stop → Evicts stop d link d
  | ended {d : Dirty} : none ≠ stop → Evicts stop d none d
  | dropped {d d' : Dirty} {h : Hash} {r : Record} : some h ≠ stop → d.records[h]? = some r →
    Evicts stop (d.remove h) r.next d' → Evicts stop d (some h) d'
  | missing {d : Dirty} {h : Hash} : some h ≠ stop → d.records[h]? = none →
    Evicts stop d (some h) d

theorem Evicts.unique {d'' : Dirty} (h₁ : Evicts stop d link d') (h₂ : Evicts stop d link d'') :
    d'' = d' := by
  induction h₁ with
  | reached hs =>
    cases h₂ with
    | reached => rfl
    | ended hne => exact absurd hs hne
    | dropped hne => exact absurd hs hne
    | missing hne => exact absurd hs hne
  | ended hne =>
    cases h₂ with
    | reached hs => exact absurd hs hne
    | ended => rfl
  | dropped hne hg _ ih =>
    cases h₂ with
    | reached hs => exact absurd hs hne
    | dropped _ hg' hd =>
      rw [hg, Option.some.injEq] at hg'
      subst hg'
      exact ih hd
    | missing _ hg' =>
      rw [hg] at hg'
      cases hg'
  | missing hne hg =>
    cases h₂ with
    | reached hs => exact absurd hs hne
    | dropped _ hg' =>
      rw [hg] at hg'
      cases hg'
    | missing => rfl

theorem Chained.remove (hc : Chained d.records link ns) (hn : h ∉ ns.map Prod.fst) :
    Chained (d.remove h).records link ns := by
  induction ns generalizing link with
  | nil => exact hc
  | cons n ns ih =>
    obtain ⟨hlink, hg, hrest⟩ := hc
    rw [List.map_cons, List.mem_cons, not_or] at hn
    refine ⟨hlink, ?_, ih hrest hn.2⟩
    rw [records_remove, Map.get_erase, if_neg hn.1, hg]

end Dirty

namespace Database

/-- Where the loop comes to if the links lead through `ns`: behind the nodes that have to leave. -/
def spilled (limit : Nat) (ns : List (Hash × Record)) (size : Nat) (w : Writer) :
    Except Halt (Writer × Option Hash) :=
  (Writer.pour Committer.due
    ((Dirty.splitOver limit ns size).1.map fun n => putNode n.1 n.2.encoded) w).map
      fun w => (w, (Dirty.splitOver limit ns size).2.head?.map Prod.fst)

variable {db db' : Database} {d : Dirty} {order : Dirty.Arrangement} {limit size : Nat}
  {link : Option Hash} {w : Writer} {ns : List (Hash × Record)} {n : Hash × Record}
  {outcome : Except Halt (Writer × Option Hash)} {listed : List Hash}
  {result : Except Error Unit × Database}

def capPreimages (db : Database) (order : Dirty.Arrangement) : Except Halt Writer :=
  if db.preimagesDue then flushPreimages db.dirty order (.start db.disk db.counters)
  else .ok (.start db.disk db.counters)

def capDone (db : Database) (d : Dirty) (stop : Option Hash) (w : Writer) : Database :=
  let (flush, records) := d.flush.truncateFront d.records stop
  let done : Amount :=
    ⟨db.dirty.records.size - records.size, db.dirty.dirtiesSize - d.dirtiesSize⟩
  let total := d.stats.flushed.add done
  let dirty := { d with flush, records, stats := { d.stats with flushed := total } }
  { db with
    disk := w.disk
    dirty
    counters := { w.counters with
      flushedNodes := w.counters.flushedNodes + done.nodes
      flushedSize := w.counters.flushedSize + done.size
      flushes := w.counters.flushes + 1 } }.report (.flushed done total dirty.live)

theorem flush_spilled (limit : Nat) (ns : List (Hash × Record)) (size : Nat) (w : Writer) :
    (spilled limit ns size w >>= fun s => s.1.flush) =
      Writer.pour Committer.due
        ((Dirty.splitOver limit ns size).1.map fun n => putNode n.1 n.2.encoded) w >>=
        Writer.flush := by
  rw [spilled]
  cases Writer.pour Committer.due _ w with
  | error halt => rfl
  | ok w' => rfl

theorem cap_eq (db : Database) (order : Dirty.Arrangement) (limit : Nat) : db.cap order limit =
    match db.capPreimages order with
    | .error halt => db.capFailed false halt
    | .ok w =>
      match spilled limit db.dirty.oldestFirst db.dirty.memorySize w >>= fun s => s.1.flush with
      | .error halt => db.capFailed (halt.stage = .writing) halt
      | .ok w' => (.ok (), db.capDone
          ((db.leaving limit).foldl (fun d n => d.remove n.1) db.cleared)
          ((db.dirty.overflow limit).2.head?.map Prod.fst) w') := by
  simp only [flush_spilled]
  rfl

end Database

end TrieCache
