import Mathlib.Algebra.Order.Monoid.Prod
import TrieCache.Database.Lookup
import TrieCache.Database.Sweep
import TrieCache.Proofs.Database.Cap
import TrieCache.Proofs.Database.Commit

namespace TrieCache

/-- How many nodes have been counted when they left memory, and their bytes. -/
def Counters.removed (c : Counters) : Nat × Nat :=
  (c.sweptNodes + c.flushedNodes + c.committedNodes, c.sweptSize + c.flushedSize + c.committedSize)

section Removed

variable (c : Counters) (n : Nat × Nat)

theorem Counters.removed_swept : Counters.removed { c with
    sweptNodes := c.sweptNodes + n.1
    sweptSize := c.sweptSize + n.2
    sweeps := c.sweeps + 1 } = c.removed + n := by
  simp only [removed, Prod.ext_iff, Prod.fst_add, Prod.snd_add]
  omega

theorem Counters.removed_flushed : Counters.removed { c with
    flushedNodes := c.flushedNodes + n.1
    flushedSize := c.flushedSize + n.2
    flushes := c.flushes + 1 } = c.removed + n := by
  simp only [removed, Prod.ext_iff, Prod.fst_add, Prod.snd_add]
  omega

theorem Counters.removed_committed : Counters.removed { c with
    committedNodes := c.committedNodes + n.1
    committedSize := c.committedSize + n.2
    commits := c.commits + 1 } = c.removed + n := by
  simp only [removed, Prod.ext_iff, Prod.fst_add, Prod.snd_add]
  omega

end Removed

namespace Dirty

def fewer (d d' : Dirty) : Nat × Nat :=
  (d.records.size - d'.records.size, d.dirtiesSize - d'.dirtiesSize)

variable {d d' : Dirty}

theorem fewer_of_eq (hr : d'.records.size = d.records.size) (hd : d'.dirtiesSize = d.dirtiesSize) :
    d.fewer d' = 0 := by
  rw [fewer, hr, hd, Nat.sub_self, Nat.sub_self]
  rfl

theorem fewer_insertPreimage (d : Dirty) (h : Hash) (preimage : Bytes) :
    d.fewer (d.insertPreimage h preimage) = 0 := by
  rw [insertPreimage]
  split
  · exact fewer_of_eq rfl rfl
  · split <;> exact fewer_of_eq rfl rfl

theorem fewer_reference (d : Dirty) (child parent : Hash) :
    d.fewer (d.reference child parent) = 0 := by
  rcases reference_cases d child parent with he | ⟨_, _, _, _, he⟩
  · rw [he]
    exact fewer_of_eq rfl rfl
  · rw [he]
    exact fewer_of_eq (Std.ExtTreeMap.size_modify.trans Std.ExtTreeMap.size_modify) rfl

theorem fewer_stamp (d : Dirty) (arrangement : Arrangement) (root : Hash) :
    d.fewer (d.stamp arrangement root) = 0 := by
  rw [stamp]
  suffices hs : ∀ (claimed : List Hash) (d' : Dirty),
      (claimed.foldl claim d').records.size = d'.records.size ∧
        (claimed.foldl claim d').dirtiesSize = d'.dirtiesSize from
    fewer_of_eq (hs _ d).1 (hs _ d).2
  intro claimed
  induction claimed with
  | nil => exact fun _ => ⟨rfl, rfl⟩
  | cons h claimed ih =>
    intro d'
    rw [List.foldl_cons, (ih _).1, (ih _).2]
    exact ⟨Std.ExtTreeMap.size_modify, rfl⟩

end Dirty

namespace Store.Writer

def last : Except Halt Writer → Writer
  | .ok w => w
  | .error halt => halt.writer

theorem removed_bind {r : Except Halt Writer} {f : Writer → Except Halt Writer} {c : Counters}
    (hr : (last r).counters.removed = c.removed)
    (hf : ∀ w, (last (f w)).counters.removed = w.counters.removed) :
    (last (r >>= f)).counters.removed = c.removed := by
  cases r with
  | error halt => exact hr
  | ok w => exact (hf w).trans hr

theorem removed_add (op : Op) (w : Writer) :
    (last (w.add op)).counters.removed = w.counters.removed := by
  rw [add]
  split <;> rfl

theorem removed_flush (w : Writer) : (last w.flush).counters.removed = w.counters.removed := by
  rw [flush]
  dsimp only
  split <;> rfl

theorem removed_flushIf (due : Nat → Bool) (w : Writer) :
    (last (w.flushIf due)).counters.removed = w.counters.removed := by
  rw [flushIf]
  split
  · exact removed_flush w
  · rfl

theorem removed_addAll (ops : List Op) (w : Writer) :
    (last (addAll ops w)).counters.removed = w.counters.removed := by
  induction ops generalizing w with
  | nil => rfl
  | cons op ops ih => exact removed_bind (removed_add op w) ih

theorem removed_pour (due : Nat → Bool) (ops : List Op) (w : Writer) :
    (last (pour due ops w)).counters.removed = w.counters.removed := by
  induction ops generalizing w with
  | nil => rfl
  | cons op ops ih =>
    exact removed_bind (removed_bind (removed_add op w) (removed_flushIf due)) ih

theorem removed_of_pour {due : Nat → Bool} {ops : List Op} {w : Writer} {r : Except Halt Writer}
    (hr : (pour due ops w >>= flush) = r) : (last r).counters.removed = w.counters.removed :=
  hr ▸ removed_bind (removed_pour due ops w) removed_flush

end Store.Writer

namespace Database

open Store.Writer (last removed_bind removed_of_pour removed_flush removed_flushIf removed_addAll)

variable {db db' : Database} {arrangement : Dirty.Arrangement} {clock : List Duration} {root : Hash}

theorem removed_insertContent (db : Database) (h : Hash) (content : Dirty.Content) (size : Nat) :
    (db.insertContent h content size).counters.removed = db.counters.removed := by
  rw [insertContent]
  split <;> rfl

theorem removed_reference (db : Database) (child parent : Hash) :
    (db.reference child parent).counters.removed = db.counters.removed := by
  rw [reference]
  split <;> rfl

theorem removed_stamp (db : Database) (arrangement : Dirty.Arrangement) (elapsed : Duration)
    (root : Hash) : (db.stamp arrangement elapsed root).counters.removed = db.counters.removed := by
  rw [stamp]
  split <;> rfl

theorem removed_flushPreimages (d : Dirty) (arrangement : Dirty.Arrangement) (w : Store.Writer) :
    (last (flushPreimages d arrangement w)).counters.removed = w.counters.removed := by
  rw [flushPreimages]
  split
  · rfl
  · exact removed_bind (removed_addAll _ w) (removed_flushIf _)

theorem removed_writePreimages (db : Database) (arrangement : Dirty.Arrangement) :
    (last (db.writePreimages arrangement)).counters.removed = db.counters.removed := by
  rw [writePreimages_eq]
  split
  · rfl
  · exact removed_bind (removed_bind (removed_addAll _ _) removed_flush) fun _ => rfl

theorem removed_capFailed {logged : Bool} {halt : Store.Halt} {result : Except Error Unit}
    (hc : db.capFailed logged halt = (result, db'))
    (hw : halt.writer.counters.removed = db.counters.removed) :
    db'.counters.removed = db.counters.removed + db.dirty.fewer db'.dirty := by
  rw [capFailed] at hc
  cases hc
  rw [← hw, Dirty.fewer_of_eq, add_zero]
  all_goals split <;> rfl

theorem removed_cap {limit : Nat} {result : Except Error Unit}
    (hc : db.cap arrangement limit = (result, db')) :
    db'.counters.removed = db.counters.removed + db.dirty.fewer db'.dirty := by
  have hpre : (last (if db.preimagesDue then flushPreimages db.dirty arrangement
      (.start db.disk db.counters) else .ok (.start db.disk db.counters))).counters.removed =
        db.counters.removed := by
    split
    · exact removed_flushPreimages db.dirty arrangement _
    · rfl
  rw [cap] at hc
  split at hc
  · next halt hr =>
    rw [hr] at hpre
    exact removed_capFailed hc hpre
  · next w hr =>
    rw [hr] at hpre
    dsimp only at hc
    split at hc
    · next halt hflush => exact removed_capFailed hc ((removed_of_pour hflush).trans hpre)
    · next w' hflush =>
      have hw : w'.counters.removed = db.counters.removed :=
        (removed_of_pour hflush).trans hpre
      cases hc
      rw [← hw]
      exact Counters.removed_flushed w'.counters (db.dirty.fewer _)

theorem removed_sweep {result : Except Error (List Hash)}
    (hs : db.sweep arrangement clock root = some (result, db')) :
    db'.counters.removed = db.counters.removed + db.dirty.fewer db'.dirty := by
  rw [sweep] at hs
  split at hs
  · cases hs
    exact (add_zero _).symm.trans (congrArg _ (Dirty.fewer_of_eq rfl rfl).symm)
  · rw [Option.bind_eq_bind, Option.bind_eq_some_iff] at hs
    obtain ⟨s, _, hs⟩ := hs
    cases hs
    have hc : (if s.interrupted then db.report .sweepOvertime else db).counters =
        db.counters := by
      split <;> rfl
    rw [← hc]
    exact Counters.removed_swept _ (db.dirty.fewer _)

theorem removed_dereference {result : Except Error Unit}
    (hs : db.dereference arrangement clock root = some (result, db')) :
    db'.counters.removed = db.counters.removed + db.dirty.fewer db'.dirty := by
  rw [dereference, Option.bind_eq_bind, Option.bind_eq_some_iff] at hs
  obtain ⟨⟨r, db₁⟩, hs, he⟩ := hs
  cases he
  exact removed_sweep hs

theorem removed_dereferenceStored {result : Except Error Unit}
    (hs : db.dereferenceStored arrangement clock root = some (result, db')) :
    db'.counters.removed = db.counters.removed + db.dirty.fewer db'.dirty := by
  rw [dereferenceStored, Option.bind_eq_bind, Option.bind_eq_some_iff] at hs
  obtain ⟨⟨r, db₁⟩, hs, he⟩ := hs
  have hc := removed_sweep hs
  cases r <;> cases he <;> exact hc

theorem removed_settle (uncache : Bool) (db : Database) (n : Hash × Bytes) :
    (db.settle uncache n).counters.removed = db.counters.removed := by
  rw [settle]
  split
  · rfl
  · dsimp only
    split <;> split <;> rfl

theorem removed_settleAll (uncache : Bool) (db : Database) (nodes : List (Hash × Bytes))
    (w : Store.Writer) :
    (db.settleAll uncache nodes w).counters.removed = w.counters.removed := by
  rw [settleAll]
  generalize nodes.take w.settled = settled
  suffices hs : ∀ db' : Database,
      (settled.foldl (settle uncache) db').counters.removed = db'.counters.removed from hs _
  induction settled with
  | nil => exact fun _ => rfl
  | cons n settled ih =>
    intro db'
    rw [List.foldl_cons, ih, removed_settle]

/-- A commit that succeeds counts what has left memory, and one that fails counts nothing. -/
theorem removed_commit {report uncache : Bool} {result : Except Error Unit}
    (hc : db.commit arrangement root report uncache = (result, db')) :
    db'.counters.removed = db.counters.removed +
      if result.isOk then db.dirty.fewer db'.dirty else 0 := by
  have hpre := removed_writePreimages db arrangement
  rw [commit] at hc
  split at hc
  · next halt hr =>
    rw [hr] at hpre
    cases hc
    exact hpre
  · next w hr =>
    rw [hr] at hpre
    dsimp only at hc
    split at hc
    · next halt hflush =>
      have hw : halt.writer.counters.removed = db.counters.removed :=
        (removed_of_pour hflush).trans hpre
      cases hc
      exact (removed_settleAll uncache db _ halt.writer).trans hw
    · next w' hflush =>
      have hw : w'.counters.removed = db.counters.removed :=
        (removed_of_pour hflush).trans hpre
      cases hc
      rw [← hw, ← removed_settleAll uncache db (pending db.dirty arrangement root) w']
      exact Counters.removed_committed _ (db.dirty.fewer _)

theorem removed_collect (db : Database) (arrangement : Dirty.Arrangement) (count : Nat) :
    (db.collect arrangement count).2.counters.removed = db.counters.removed := by
  rw [collect]
  dsimp only
  split
  · next halt hflush => exact removed_of_pour hflush
  · next w hflush => exact removed_of_pour hflush

section Reading

theorem removed_read (d : Store.Disk) (key : Bytes) (c : Counters) :
    (d.read key c).2.removed = c.removed := by
  rw [Store.Disk.read, Store.Table.read]
  split
  · rfl
  · cases d.table[key]? <;> rfl

theorem removed_lookupClean (db : Database) (h : Hash) :
    (db.lookupClean h).2.counters.removed = db.counters.removed := by
  rw [lookupClean]
  split
  · rfl
  · dsimp only
    split <;> rfl

theorem removed_lookupDirty (db : Database) (h : Hash) :
    (db.lookupDirty h).2.counters.removed = db.counters.removed := by
  rw [lookupDirty]
  split <;> rfl

theorem removed_fillClean (db : Database) (h : Hash) (encoded : Bytes) :
    (db.fillClean h encoded).counters.removed = db.counters.removed := by
  rw [fillClean]
  split <;> rfl

theorem removed_lookupDisk (db : Database) (h : Hash) :
    (db.lookupDisk h).2.counters.removed = db.counters.removed := by
  have hr := removed_read db.disk (Store.nodeKey h) db.counters
  rw [lookupDisk]
  dsimp only
  split
  · exact hr
  · exact hr
  · split
    · exact hr
    · exact (removed_fillClean _ h _).trans hr

theorem removed_lookup (db : Database) (h : Hash) :
    (db.lookup h).2.counters.removed = db.counters.removed := by
  have hclean := removed_lookupClean db h
  rw [lookup]
  split
  · rfl
  split
  · next hc =>
    rw [hc] at hclean
    exact hclean
  · next db₁ hc =>
    rw [hc] at hclean
    have hdirty := removed_lookupDirty db₁ h
    split
    · next hd =>
      rw [hd] at hdirty
      exact hdirty.trans hclean
    · next db₂ hd =>
      rw [hd] at hdirty
      have hdisk := removed_lookupDisk db₂ h
      split <;> next hk =>
        rw [hk] at hdisk
        exact hdisk.trans (hdirty.trans hclean)

theorem removed_preimage (db : Database) (h : Hash) :
    (db.preimage h).2.counters.removed = db.counters.removed := by
  rw [preimage]
  split
  · rfl
  · split
    · rfl
    · exact removed_read db.disk (Store.preimageKey h) db.counters

end Reading

end Database

end TrieCache
