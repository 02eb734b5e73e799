import TrieCache.Database.Cap
import TrieCache.Proofs.Database.Flush

namespace TrieCache.Database

open Store (Op)
open Store.Writer (Outcome Wrote)

def leaving (db : Database) (limit : Nat) : List (Hash × Dirty.Record) :=
  (db.dirty.overflow limit).1

/-- All that is written to make room. -/
def capOps (db : Database) (arrangement : Dirty.Arrangement) (limit : Nat) : List Op :=
  (if db.preimagesDue then preimagePuts db.dirty arrangement else []) ++
    (db.leaving limit).map fun n => Store.putNode n.1 n.2.encoded

/-- The cached nodes as they are before any of them leaves: preimages may have been written. -/
def cleared (db : Database) : Dirty :=
  if db.preimagesDue then db.dirty.clearPreimages else db.dirty

variable {db db' : Database} {d : Dirty} {w : Store.Writer} {arrangement : Dirty.Arrangement}
  {limit : Nat} {k : Hash}

theorem outcome_flushPreimages (d : Dirty) (arrangement : Dirty.Arrangement) (w : Store.Writer) :
    Outcome (preimagePuts d arrangement) w (flushPreimages d arrangement w) := by
  rw [flushPreimages]
  split
  · next hp =>
    rw [preimagePuts, Dirty.preimageList, hp]
    exact Store.Writer.Writes.refl w
  · have ho := (Outcome.addAll (preimagePuts d arrangement) w).bind
      (Outcome.flushIf fun size => decide (Store.idealBatchSize < size))
    rwa [List.append_nil] at ho

theorem outcome_capPreimages (db : Database) (arrangement : Dirty.Arrangement)
    (w : Store.Writer) :
    Outcome (if db.preimagesDue then preimagePuts db.dirty arrangement else []) w
      (if db.preimagesDue then flushPreimages db.dirty arrangement w else .ok w) := by
  split
  · exact outcome_flushPreimages db.dirty arrangement w
  · exact Store.Writer.Writes.refl w

/-- Making room that fails has written the first part of what it had to, and drops nothing. -/
theorem cap_error {e : Error} (hc : db.cap arrangement limit = (.error e, db')) :
    ∃ done, done <+: db.capOps arrangement limit ∧ Stores db db' done ∧ db'.dirty = db.dirty ∧
      db'.cleans = db.cleans ∧ db'.config = db.config := by
  have hpre := outcome_capPreimages db arrangement (.start db.disk db.counters)
  rw [cap] at hc
  split at hc
  · next halt hr =>
    cases hc
    rw [hr] at hpre
    obtain ⟨refused, pending, _, done, he, hw⟩ := hpre
    have hdone : done <+: db.capOps arrangement limit := by
      apply List.IsPrefix.trans ⟨pending, _⟩ (List.prefix_append _ _)
      exact he.symm
    exact ⟨done, hdone, .of_wrote hw rfl, rfl, rfl, rfl⟩
  · next w hr =>
    dsimp only at hc
    split at hc
    · next halt hflush =>
      cases hc
      rw [hr] at hpre
      obtain ⟨done, refused, hdone, hw⟩ :=
        Store.Writer.wrote_of_error (hpre.bind (Outcome.pour _ _)) hflush
      refine ⟨done, (List.prefix_append _ _).trans hdone, .of_wrote hw ?_, ?_, ?_, ?_⟩
      all_goals split <;> rfl
    · cases hc

/-- Making room that succeeds has written everything, and drops the nodes that had to leave. -/
theorem cap_ok (hc : db.cap arrangement limit = (.ok (), db')) :
    Stores db db' (db.capOps arrangement limit) ∧ db'.cleans = db.cleans ∧ db'.config = db.config ∧
      ∃ stats, db'.dirty =
        { db.cleared.evict (db.leaving limit) (db.dirty.overflow limit).2 with stats } := by
  have hpre := outcome_capPreimages db arrangement (.start db.disk db.counters)
  rw [cap] at hc
  split at hc
  · cases hc
  · next w hr =>
    dsimp only at hc
    split at hc
    · cases hc
    · next w' hflush =>
      cases hc
      rw [hr] at hpre
      obtain ⟨hw, _⟩ := Store.Writer.wrote_of_ok (hpre.bind (Outcome.pour _ _)) hflush
      exact ⟨.of_wrote hw rfl, rfl, rfl, _, rfl⟩

theorem cleared_eq (db : Database) : db.cleared = { db.dirty with
    preimages := db.cleared.preimages, preimagesSize := db.cleared.preimagesSize } := by
  rw [cleared, Dirty.clearPreimages]
  split
  · split <;> rfl
  · rfl

theorem records_cleared (db : Database) : db.cleared.records = db.dirty.records := by
  rw [cleared_eq]

theorem nodes_cleared (db : Database) :
    db.dirty.Trims db.cleared ∧ db.cleared.oldestFirst = db.dirty.oldestFirst ∧
      db.cleared.records = db.dirty.records ∧ db.cleared.useless = db.dirty.useless := by
  rw [cleared_eq]
  exact ⟨.of_eq rfl rfl rfl rfl rfl fun _ hk => hk, rfl, rfl, rfl⟩

section Flushes

variable {order : List Hash}

theorem get_of_mem_leaving {n : Hash × Dirty.Record} (hw : db.dirty.WellFormed order)
    (hn : n ∈ db.leaving limit) : n.1 ≠ Hash.zero ∧ db.dirty.records[n.1]? = some n.2 := by
  have hm : n ∈ db.dirty.oldestFirst := by
    rw [← Dirty.splitOver_append limit db.dirty.oldestFirst db.dirty.memorySize]
    exact List.mem_append_left _ hn
  obtain ⟨ho, hr⟩ := Dirty.mem_oldestFirst hw.listed hm
  exact ⟨((hw.mem_order n.1).1 ho).1, hr⟩

theorem owned_of_capOps {op : Op} (hw : db.dirty.WellFormed order)
    (ho : op ∈ db.capOps arrangement limit) :
    Owned db.dirty op := by
  rcases List.mem_append.1 ho with ho | ho
  · split at ho
    · exact owned_of_preimagePuts ho db.dirty
    · cases ho
  · obtain ⟨n, hn, rfl⟩ := List.mem_map.1 ho
    obtain ⟨hz, hr⟩ := get_of_mem_leaving hw hn
    exact .inr ⟨n.1, n.2, hz, hr, rfl⟩

theorem shrinks_evict_leaving (hw : db.dirty.WellFormed order) (limit : Nat) :
    db.cleared.Shrinks
      (db.cleared.evict (db.leaving limit) (db.dirty.overflow limit).2) := by
  obtain ⟨_, hold, _⟩ := db.nodes_cleared
  exact .evict (hold ▸ Dirty.splitOver_append ..) fun n hn => (get_of_mem_leaving hw hn).1

theorem fresh_of_cap {result : Except Error Unit} (hw : db.dirty.WellFormed order)
    (hc : db.cap arrangement limit = (result, db')) (k : Hash) : k ∈ db'.dirty.fresh ↔
      k ∈ db.dirty.fresh ∧ (db.dirty.records.contains k → db'.dirty.records.contains k) := by
  cases result with
  | error e =>
    obtain ⟨_, _, _, hd, _⟩ := cap_error hc
    rw [hd]
    exact (and_iff_left id).symm
  | ok u =>
    obtain ⟨_, _, _, stats, hd⟩ := cap_ok hc
    obtain ⟨_, _, hrecords, _⟩ := db.nodes_cleared
    have hfresh : db.cleared.fresh = db.dirty.fresh := by
      rw [cleared_eq]
    have hevict := (shrinks_evict_leaving hw limit).fresh k
    rw [hfresh, hrecords] at hevict
    rw [hd]
    exact hevict

theorem flushes_of_cap {result : Except Error Unit} (hw : db.dirty.WellFormed order)
    (hc : db.cap arrangement limit = (result, db')) : ∃ ops, Flushes db db' ops := by
  cases result with
  | error e =>
    obtain ⟨done, hdone, hs, hd, hcleans, hconfig⟩ := cap_error hc
    have howned : ∀ op ∈ done, Owned db.dirty op := by
      intro op ho
      exact owned_of_capOps hw (hdone.subset ho)
    exact ⟨done, .of_dirty_eq hd hcleans hconfig hs howned⟩
  | ok u =>
    obtain ⟨hs, hcleans, hconfig, stats, hd⟩ := cap_ok hc
    obtain ⟨htrims, _, hrecords, huseless⟩ := db.nodes_cleared
    have hevict := shrinks_evict_leaving hw limit
    have hleft : db.dirty.Trims db'.dirty := by
      rw [hd]
      exact (htrims.trans (.of_shrinks hevict)).trans (.of_eq rfl rfl rfl rfl rfl fun _ hk => hk)
    refine ⟨db.capOps arrangement limit, hleft, ?_, hs, fun op => owned_of_capOps hw, ?_, ?_,
      hconfig⟩
    · rw [hd]
      exact hevict.useless.trans huseless
    · intro k r hr hk
      have hc : db.cleared.records.contains k := by
        rw [hrecords]
        exact Map.contains_of_get hr
      have hm : k ∈ (db.leaving limit).map Prod.fst := by
        by_contra hm
        have hk' := (Dirty.contains_evict db.cleared _ (db.dirty.overflow limit).2 k).2 ⟨hc, hm⟩
        rw [hd] at hk
        exact absurd (hk'.symm.trans hk) nofun
      obtain ⟨n, hn, rfl⟩ := List.mem_map.1 hm
      obtain ⟨_, hr'⟩ := get_of_mem_leaving hw hn
      rw [hr, Option.some.injEq] at hr'
      subst hr'
      have hput := List.mem_map_of_mem (f := fun n => Store.putNode n.1 n.2.encoded) hn
      exact List.mem_append_right _ hput
    · intro k v hk
      rw [clean?, hcleans] at hk
      exact .inl hk

end Flushes

end TrieCache.Database
