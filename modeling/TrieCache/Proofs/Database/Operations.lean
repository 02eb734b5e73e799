import TrieCache.Proofs.Database.Collection
import TrieCache.Proofs.Database.Eviction

namespace TrieCache

open Dirty (Record)
open Store (Op putNode putPreimage deleteNode)

namespace Dirty

/-- The preimages in memory are put, each once. -/
def PutsPreimages (d : Dirty) (ops : List Op) : Prop :=
  ∃ preimages : List (Hash × Bytes), (preimages.map Prod.fst).Nodup ∧
    (∀ p, p ∈ preimages ↔ d.remembered p.1 = some p.2) ∧
    ops = preimages.map fun p => putPreimage p.1 p.2

/-- The cached nodes `hs` are put in this order. -/
def PutsNodes (d : Dirty) (hs : List Hash) (ops : List Op) : Prop :=
  List.Forall₂ (fun h op => ∃ r, d.records[h]? = some r ∧ op = putNode h r.encoded) hs ops

/-- What the program counts for a cached node. -/
def footprintOf (d : Dirty) (h : Hash) : Nat := (d.records[h]?.map Record.footprint).getD 0

variable {d : Dirty} {arrangement : Arrangement} {count : Nat}

theorem putsPreimages (d : Dirty) (arrangement : Arrangement) :
    d.PutsPreimages (Database.preimagePuts d arrangement) :=
  ⟨d.preimageList arrangement, nodup_preimageList d arrangement, fun _ => mem_preimageList, rfl⟩

theorem putsNodes {hs : List Hash} (hc : ∀ h ∈ hs, d.records.contains h) :
    d.PutsNodes hs (Database.nodePuts (Database.storedForms d hs)) := by
  induction hs with
  | nil => exact .nil
  | cons h hs ih =>
    obtain ⟨r, hr⟩ := Map.contains_iff.1 (hc h List.mem_cons_self)
    rw [Database.storedForms, List.filterMap_cons, hr]
    exact .cons ⟨r, hr, rfl⟩ (ih fun k hk => hc k (List.mem_cons_of_mem h hk))

end Dirty

namespace Database

/-- What making room has to write if the flush list is `listed`: the preimages if they take too many
bytes, and the first nodes of the list, as many as have to leave. -/
def CapPuts (db : Database) (listed : List Hash) (limit : Nat) (ops : List Op) : Prop :=
  ∃ preimages nodes gone, ops = preimages ++ nodes ∧
    (if db.config.preimageThreshold < db.dirty.preimagesSize then db.dirty.PutsPreimages preimages
      else preimages = []) ∧
    Surplus db.dirty.footprintOf limit db.dirty.memorySize listed gone ∧
    db.dirty.PutsNodes gone nodes

/-- What a commit has to write: the preimages, and every fresh node that is reached from the root
through fresh nodes, once. -/
def CommitPuts (d : Dirty) (root : Hash) (ops : List Op) : Prop :=
  ∃ preimages nodes reached, ops = preimages ++ nodes ∧ d.PutsPreimages preimages ∧
    reached.Nodup ∧ (∀ h, h ∈ reached ↔ Dirty.Reaches d.freshEdges root h) ∧
    d.PutsNodes reached nodes

/-- What collecting has to delete: of each of the first `count` queued sets, one after the other,
every node once that is not cached. -/
def CollectDeletes (d : Dirty) (count : Nat) (ops : List Op) : Prop :=
  ∃ gone : List (List Hash), ops = gone.flatten.map deleteNode ∧
    List.Forall₂ (fun set hs => hs.Nodup ∧ ∀ h, h ∈ hs ↔ h ∈ set ∧ ¬d.records.contains h)
      (d.useless.take count) gone

variable {db : Database} {listed : List Hash}

theorem capPuts_capOps (hw : db.dirty.WellFormed listed) (arrangement : Dirty.Arrangement)
    (limit : Nat) : db.CapPuts listed limit (db.capOps arrangement limit) := by
  refine ⟨_, _, (db.leaving limit).map Prod.fst, capOps_eq hw, ?_, ?_, ?_⟩
  · rw [duePreimages, preimagesDue]
    by_cases hdue : db.config.preimageThreshold < db.dirty.preimagesSize
    · rw [if_pos hdue, if_pos (decide_eq_true hdue)]
      exact db.dirty.putsPreimages arrangement
    · rw [if_neg hdue, if_neg (by simpa using hdue), List.map_nil]
  · rw [← Dirty.oldestFirst_keys hw.listed]
    apply Dirty.surplus_splitOver
    intro n hn
    rw [Dirty.footprintOf, (Dirty.mem_oldestFirst hw.listed hn).2, Option.map_some,
      Option.getD_some]
  · apply Dirty.putsNodes
    exact fun h hh => ((hw.mem_order h).1 ((leaving_keys hw limit).subset hh)).2

theorem commitPuts_commitOps (d : Dirty) (arrangement : Dirty.Arrangement) (root : Hash) :
    CommitPuts d root (commitOps d arrangement root) := by
  refine ⟨_, _, d.freshClosure arrangement root, rfl, d.putsPreimages arrangement,
    Dirty.nodup_freshClosure d arrangement root, fun _ => Dirty.mem_freshClosure, ?_⟩
  apply Dirty.putsNodes
  intro h hh
  exact ((Dirty.isSome_freshEdges d h).1 (Dirty.mem_freshClosure.1 hh).isSome_right).2

theorem nodup_uncached (d : Dirty) (arrangement : Dirty.Arrangement) (set : HashSet)
    (position : Nat) : ((arrangement.arrange (.useless position) set.toList).filter
      fun h => !d.records.contains h).Nodup := by
  apply List.Nodup.filter
  rw [(arrangement.perm _ _).nodup_iff]
  exact Std.ExtTreeSet.distinct_toList.imp fun hne he => hne (Std.compare_eq_iff_eq.2 he)

theorem collectDeletes_collectOps (db : Database) (arrangement : Dirty.Arrangement)
    (count : Nat) : CollectDeletes db.dirty count (db.collectOps arrangement count) := by
  rw [CollectDeletes, ← db.take_setsCollected, collectOps, garbage]
  generalize db.dirty.useless.take (db.setsCollected count) = sets
  refine ⟨_, congrArg _ List.flatMap_def, ?_⟩
  have hfst : sets = sets.zipIdx.map Prod.fst := (List.zipIdx_map_fst 0 sets).symm
  conv => enter [2]; rw [hfst]
  rw [List.forall₂_map_left_iff, List.forall₂_map_right_iff, List.forall₂_same]
  rintro ⟨set, position⟩ _
  exact ⟨nodup_uncached db.dirty arrangement set position, fun _ => mem_uncached⟩

end Database

end TrieCache
