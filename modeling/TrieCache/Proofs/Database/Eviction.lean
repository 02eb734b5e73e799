import TrieCache.Proofs.Database.Evictor
import TrieCache.Proofs.Database.FreshClosure

namespace TrieCache

open Dirty (Record)
open Store (Writer putNode putPreimage)

/-- The shortest first part of a list whose costs bring `size` down to `limit`, or all of the list
if not even that does. -/
structure Surplus (cost : Hash → Nat) (limit size : Nat) (order gone : List Hash) : Prop where
  initial : gone <+: order
  enough : size - (gone.map cost).sum ≤ limit ∨ gone = order
  shortest : ∀ gone', gone' <+: order → size - (gone'.map cost).sum ≤ limit → gone <+: gone'

variable {cost : Hash → Nat} {limit size : Nat}

namespace Dirty

variable {d : Dirty} {ns : List (Hash × Record)} {order : List Hash}

theorem surplus_splitOver (hcost : ∀ n ∈ ns, n.2.footprint = cost n.1) :
    Surplus cost limit size (ns.map Prod.fst) ((splitOver limit ns size).1.map Prod.fst) := by
  induction ns generalizing size with
  | nil => exact ⟨List.prefix_rfl, .inr rfl, fun _ _ _ => List.nil_prefix⟩
  | cons n ns ih =>
    have hsum (hs : List Hash) : size - ((n.1 :: hs).map cost).sum =
        size - n.2.footprint - (hs.map cost).sum := by
      rw [hcost n List.mem_cons_self, List.map_cons, List.sum_cons, Nat.sub_sub]
    rw [splitOver]
    split
    · next hle => exact ⟨List.nil_prefix, .inl hle, fun _ _ _ => List.nil_prefix⟩
    · next hlt =>
      have ih : Surplus cost limit (size - n.2.footprint) (ns.map Prod.fst)
          ((splitOver limit ns (size - n.2.footprint)).1.map Prod.fst) :=
        ih fun m hm => hcost m (List.mem_cons_of_mem n hm)
      refine ⟨List.cons_prefix_cons.2 ⟨rfl, ih.initial⟩, ?_, ?_⟩
      · rw [List.map_cons, hsum, List.map_cons]
        exact ih.enough.imp_right (congrArg _)
      · intro gone hp he
        obtain rfl | ⟨rest, rfl, hrest⟩ := List.prefix_cons_iff.1 hp
        · exact absurd he hlt
        · rw [hsum] at he
          exact List.cons_prefix_cons.2 ⟨rfl, ih.shortest rest hrest he⟩

end Dirty

namespace Database

def duePreimages (db : Database) (order : Dirty.Arrangement) : List (Hash × Bytes) :=
  if db.preimagesDue then db.dirty.preimageList order else []

variable {db db' : Database} {order : Dirty.Arrangement} {listed : List Hash} {e : Error}

theorem excused_capPreimages (db : Database) (order : Dirty.Arrangement) :
    Writer.Excused (db.capPreimages order) := by
  rw [capPreimages, flushPreimages]
  split
  · split
    · exact .ok _
    · exact (Writer.Excused.addAll _ _).bind fun w => .flushIf _ w
  · exact .ok _

theorem disk_capFailed (db : Database) (logged : Bool) (halt : Store.Halt) :
    (db.capFailed logged halt).2.disk = halt.writer.disk := by
  cases logged <;> rfl

/-- Making room only fails if the disk takes no more operations or no more batches. -/
theorem refused_of_cap (hc : db.cap order limit = (.error e, db')) :
    db'.disk.putsLeft = some 0 ∨ db'.disk.writesLeft = some 0 := by
  rw [cap_eq] at hc
  split at hc
  · next halt hp =>
    have hexcused := excused_capPreimages db order halt hp
    rwa [← disk_capFailed db false, hc] at hexcused
  · next w hp =>
    split at hc
    · next halt hr =>
      rw [flush_spilled] at hr
      have hexcused := ((Writer.Excused.pour _ _ w).bind Writer.Excused.flush) halt hr
      rwa [← disk_capFailed db (halt.stage = .writing), hc] at hexcused
    · cases hc

theorem capOps_eq (hw : db.dirty.WellFormed listed) :
    db.capOps order limit = ((db.duePreimages order).map fun p => putPreimage p.1 p.2) ++
      nodePuts (storedForms db.dirty ((db.leaving limit).map Prod.fst)) := by
  have hforms : storedForms db.dirty ((db.leaving limit).map Prod.fst) =
      (db.leaving limit).map fun n => (n.1, n.2.encoded) := by
    rw [storedForms, List.filterMap_map, ← List.filterMap_eq_map]
    apply List.filterMap_congr
    intro n hn
    rw [Function.comp_apply, (get_of_mem_leaving hw hn).2]
    rfl
  rw [capOps, duePreimages, preimagePuts, hforms, nodePuts, List.map_map]
  split <;> rfl

theorem leaving_keys (hw : db.dirty.WellFormed listed) (limit : Nat) :
    (db.leaving limit).map Prod.fst <+: listed := by
  have hsplit := Dirty.splitOver_append limit db.dirty.oldestFirst db.dirty.memorySize
  rw [← Dirty.oldestFirst_keys hw.listed, ← hsplit, List.map_append]
  exact List.prefix_append _ _

end Database

section Main

variable {disk : Store.Disk} {counters : Counters} {log : List Event} {files : Directory}
  {place : String → String} {config : Config} {db : Database} {calls : List Call}

end Main

end TrieCache
