import TrieCache.Proofs.Database.Run

namespace TrieCache

open Store (Writer)
open Store.Writer (Alike)

/-- The same database without a clean cache, but for what has been counted and logged. -/
structure Database.Uncached (db bare : Database) : Prop where
  config : bare.config = { db.config with cleanCacheSize := 0 }
  dirty : bare.dirty = db.dirty
  cleans : bare.cleans = none
  disk : bare.disk = db.disk

section Reads

variable {db : Database} (hc : db.cleans = none)
include hc

theorem Database.cleans_lookupDisk (h : Hash) : (db.lookupDisk h).2.cleans = none := by
  rw [lookupDisk]
  dsimp only
  split
  · exact hc
  · exact hc
  · split
    · exact hc
    · rw [fillClean]
      dsimp only
      rw [hc]

theorem Database.cleans_lookup (h : Hash) : (db.lookup h).2.cleans = none := by
  have hclean : db.lookupClean h = (none, db) := by rw [lookupClean, hc]
  rw [lookup, hclean]
  split
  · exact hc
  · dsimp only
    have hdirty : (db.lookupDirty h).2.cleans = none := by
      rw [lookupDirty]
      split <;> exact hc
    split
    · next he =>
      rw [he] at hdirty
      exact hdirty
    · next he =>
      rw [he] at hdirty
      have hdisk := cleans_lookupDisk hdirty h
      split
      all_goals
        next he =>
        rw [he] at hdisk
        exact hdisk

theorem Database.cleans_preimage (h : Hash) : (db.preimage h).2.cleans = none := by
  rw [preimage]
  split
  · exact hc
  · split <;> exact hc

end Reads

namespace Database.Uncached

variable {db db' bare bare' : Database}

theorem exists_eq (hb : Uncached db bare) : ∃ counters log, bare =
    { db with
      config := { db.config with cleanCacheSize := 0 }, cleans := none, counters, log } := by
  obtain ⟨config, dirty, cleans, disk, counters, log⟩ := bare
  obtain ⟨rfl, rfl, rfl, rfl⟩ := hb
  exact ⟨counters, log, rfl⟩

theorem report (hb : Uncached db bare) (e e' : Event) : Uncached (db.report e) (bare.report e') :=
  ⟨hb.config, hb.dirty, hb.cleans, hb.disk⟩

theorem insertContent (hb : Uncached db bare) (h : Hash) (content : Dirty.Content) (size : Nat) :
    Uncached (db.insertContent h content size) (bare.insertContent h content size) := by
  obtain ⟨counters, log, rfl⟩ := hb.exists_eq
  rw [Database.insertContent, Database.insertContent]
  split
  · exact hb
  · exact ⟨rfl, rfl, rfl, rfl⟩

theorem reference (hb : Uncached db bare) (child parent : Hash) :
    Uncached (db.reference child parent) (bare.reference child parent) := by
  obtain ⟨counters, log, rfl⟩ := hb.exists_eq
  rw [Database.reference, Database.reference]
  split <;> exact ⟨rfl, rfl, rfl, rfl⟩

theorem stamp (hb : Uncached db bare) (arrangement : Dirty.Arrangement) (elapsed : Duration)
    (root : Hash) :
    Uncached (db.stamp arrangement elapsed root) (bare.stamp arrangement elapsed root) := by
  obtain ⟨counters, log, rfl⟩ := hb.exists_eq
  rw [Database.stamp, Database.stamp]
  dsimp only
  split <;> exact ⟨rfl, rfl, rfl, rfl⟩

theorem prunes {dropped dropped' : List Hash} (hb : Uncached db bare)
    (hp : Prunes db db' dropped) (hp' : Prunes bare bare' dropped')
    (hd : bare'.dirty = db'.dirty) : Uncached db' bare' where
  config := by rw [hp'.config, hb.config, hp.config]
  dirty := hd
  cleans := by rw [hp'.cleans, hb.cleans, Option.map_none]
  disk := by rw [hp'.disk, hb.disk, hp.disk]

theorem sweep (hb : Uncached db bare) (arrangement : Dirty.Arrangement) (clock : List Duration)
    (root : Hash) : Option.Rel (fun r r' => r.1 = r'.1 ∧ Uncached r.2 r'.2)
      (db.sweep arrangement clock root) (bare.sweep arrangement clock root) := by
  rw [Database.sweep, Database.sweep]
  split
  · exact .some ⟨rfl, hb.report _ _⟩
  · obtain ⟨counters, log, rfl⟩ := hb.exists_eq
    dsimp only [Config.allowance]
    generalize hr : db.dirty.sweep arrangement _ root = r
    cases r with
    | none => exact .none
    | some s =>
      have hp := progress_of_sweep hr
      exact .some ⟨rfl, hb.prunes (prunes_account hp) (prunes_account hp) rfl⟩

theorem dereference (hb : Uncached db bare) (arrangement : Dirty.Arrangement)
    (clock : List Duration) (root : Hash) : Option.Rel (fun r r' => Uncached r.2 r'.2)
      (db.dereference arrangement clock root) (bare.dereference arrangement clock root) := by
  rw [Database.dereference, Database.dereference]
  have hs := hb.sweep arrangement clock root
  generalize db.sweep arrangement clock root = r, bare.sweep arrangement clock root = r' at hs
  cases hs with
  | none => exact .none
  | some hs => exact .some hs.2

theorem dereferenceStored (hb : Uncached db bare) (arrangement : Dirty.Arrangement)
    (clock : List Duration) (root : Hash) : Option.Rel (fun r r' => Uncached r.2 r'.2)
      (db.dereferenceStored arrangement clock root)
      (bare.dereferenceStored arrangement clock root) := by
  rw [Database.dereferenceStored, Database.dereferenceStored]
  have hs := hb.sweep arrangement clock root
  generalize db.sweep arrangement clock root = r, bare.sweep arrangement clock root = r' at hs
  cases hs with
  | none => exact .none
  | @some p p' hs =>
    obtain ⟨result, db₁⟩ := p
    obtain ⟨result', bare₁⟩ := p'
    obtain ⟨he, hb₁⟩ := hs
    dsimp only at he hb₁
    subst he
    cases result with
    | error e => exact .some hb₁
    | ok dropped =>
      obtain ⟨counters, log, rfl⟩ := hb₁.exists_eq
      exact .some ⟨rfl, rfl, rfl, rfl⟩

theorem collect (hb : Uncached db bare) (arrangement : Dirty.Arrangement) (count : Nat) :
    Uncached (db.collect arrangement count).2 (bare.collect arrangement count).2 := by
  obtain ⟨counters, log, rfl⟩ := hb.exists_eq
  have hw := (Alike.pour (fun size => decide (Store.idealBatchSize < size))
    (db.collectOps arrangement count) (.start db.disk db.counters) counters).bind Alike.flush
  rw [Database.collect, Database.collect]
  refine Alike.fold (R := fun (r r' : Except Error Unit × Database) => Uncached r.2 r'.2) ?_ ?_ hw
  · exact fun w counters => ⟨rfl, rfl, rfl, rfl⟩
  · exact fun halt counters => ⟨rfl, rfl, rfl, rfl⟩

theorem alike_flushPreimages (d : Dirty) (arrangement : Dirty.Arrangement) (w : Writer)
    (counters : Counters) : Alike (flushPreimages d arrangement w)
      (flushPreimages d arrangement { w with counters }) := by
  rw [flushPreimages, flushPreimages]
  split
  · exact .ok w counters
  · exact (Alike.addAll _ w counters).bind (.flushIf _)

theorem capFailed (hb : Uncached db bare) (logged : Bool) (halt : Store.Halt)
    (counters : Counters) :
    Uncached (db.capFailed logged halt).2
      (bare.capFailed logged { halt with writer := { halt.writer with counters } }).2 := by
  rw [Database.capFailed, Database.capFailed]
  dsimp only
  split <;> exact ⟨hb.config, hb.dirty, hb.cleans, rfl⟩

theorem cap (hb : Uncached db bare) (arrangement : Dirty.Arrangement) (limit : Nat) :
    Uncached (db.cap arrangement limit).2 (bare.cap arrangement limit).2 := by
  obtain ⟨counters, log, rfl⟩ := hb.exists_eq
  have hpre : Alike
      (if db.preimagesDue then flushPreimages db.dirty arrangement (.start db.disk db.counters)
        else .ok (.start db.disk db.counters))
      (if db.preimagesDue then flushPreimages db.dirty arrangement (.start db.disk counters)
        else .ok (.start db.disk counters)) := by
    split
    · exact alike_flushPreimages db.dirty arrangement _ counters
    · exact .ok _ counters
  rw [Database.cap, Database.cap]
  refine Alike.fold (R := fun (r r' : Except Error Unit × Database) => Uncached r.2 r'.2) ?_ ?_ hpre
  · intro w counters'
    have hw := (Alike.pour (fun size => decide (Store.idealBatchSize ≤ size))
      ((db.leaving limit).map fun n => Store.putNode n.1 n.2.encoded) w counters').bind .flush
    refine Alike.fold (R := fun (r r' : Except Error Unit × Database) => Uncached r.2 r'.2) ?_ ?_ hw
    · exact fun w counters => ⟨rfl, rfl, rfl, rfl⟩
    · exact fun halt => hb.capFailed _ halt
  · exact fun halt => hb.capFailed _ halt

theorem writePreimages (hb : Uncached db bare) (arrangement : Dirty.Arrangement) :
    Alike (db.writePreimages arrangement) (bare.writePreimages arrangement) := by
  obtain ⟨counters, log, rfl⟩ := hb.exists_eq
  rw [writePreimages_eq, writePreimages_eq]
  dsimp only
  split
  · exact .ok _ counters
  · apply ((Alike.addAll _ _ counters).bind Alike.flush).bind
    exact fun w counters => .ok _ counters

theorem settle (hb : Uncached db bare) (uncache : Bool) (written : Hash × Bytes) :
    Uncached (db.settle uncache written) (bare.settle uncache written) := by
  obtain ⟨counters, log, rfl⟩ := hb.exists_eq
  rw [Database.settle, Database.settle]
  dsimp only
  split
  · exact hb
  · cases uncache with
    | true =>
      rw [if_pos rfl, if_pos rfl]
      dsimp only
      split <;> exact ⟨rfl, rfl, rfl, rfl⟩
    | false =>
      rw [if_neg Bool.false_ne_true, if_neg Bool.false_ne_true]
      dsimp only
      split <;> exact ⟨rfl, rfl, rfl, rfl⟩

theorem settleAll (hb : Uncached db bare) (uncache : Bool) (nodes : List (Hash × Bytes))
    (w : Writer) (counters : Counters) :
    Uncached (db.settleAll uncache nodes w)
      (bare.settleAll uncache nodes { w with counters }) := by
  rw [Database.settleAll, Database.settleAll]
  dsimp only
  have hb' : Uncached { db with disk := w.disk, counters := w.counters }
      { bare with disk := w.disk, counters } := ⟨hb.config, hb.dirty, hb.cleans, rfl⟩
  generalize nodes.take w.settled = written
  generalize { db with disk := w.disk, counters := w.counters } = db₁,
    { bare with disk := w.disk, counters } = bare₁ at hb' ⊢
  induction written generalizing db₁ bare₁ with
  | nil => exact hb'
  | cons n written ih => exact ih _ _ (hb'.settle uncache n)

theorem finish (hb : Uncached db bare) (root : Hash) (report : Bool) (before : Dirty) :
    Uncached (db.finish root report before) (bare.finish root report before) := by
  obtain ⟨counters, log, rfl⟩ := hb.exists_eq
  exact ⟨rfl, rfl, rfl, rfl⟩

theorem commit (hb : Uncached db bare) (order : Dirty.Arrangement) (root : Hash)
    (report uncache : Bool) :
    Uncached (db.commit order root report uncache).2 (bare.commit order root report uncache).2 := by
  rw [Database.commit, Database.commit, hb.dirty]
  refine Alike.fold (R := fun (r r' : Except Error Unit × Database) => Uncached r.2 r'.2) ?_ ?_
    (hb.writePreimages order)
  · intro w counters
    have hw := (Alike.pour (fun size => decide (Store.idealBatchSize ≤ size))
      ((pending db.dirty order root).map fun n => Store.putNode n.1 n.2) w counters).bind .flush
    refine Alike.fold (R := fun (r r' : Except Error Unit × Database) => Uncached r.2 r'.2) ?_ ?_ hw
    · intro w counters
      exact (hb.settleAll uncache _ w counters).finish root report db.dirty
    · intro halt counters
      exact (hb.settleAll uncache _ halt.writer counters).report _ _
  · intro halt counters
    exact ⟨hb.config, rfl, hb.cleans, rfl⟩

theorem reads (hb : Uncached db bare) (hr : Reads db db') (hr' : Reads bare bare')
    (hc : bare'.cleans = none) : Uncached db' bare' where
  config := by rw [hr'.config, hb.config, hr.config]
  dirty := by rw [hr'.dirty, hb.dirty, hr.dirty]
  cleans := hc
  disk := by rw [hr'.disk, hb.disk, hr.disk]

end Database.Uncached

variable {db db' bare : Database}

theorem uncached_exec (hb : db.Uncached bare) (c : Command) :
    Option.Rel Database.Uncached (c.exec db) (c.exec bare) := by
  cases c with
  | insert h size node => exact .some (hb.insertContent ..)
  | insertBlob h blob => exact .some (hb.insertContent ..)
  | insertNode node => exact .some (hb.insertContent ..)
  | insertPreimage h preimage =>
    exact .some ⟨hb.config, congrArg (Dirty.insertPreimage · h preimage) hb.dirty, hb.cleans,
      hb.disk⟩
  | reference child parent => exact .some (hb.reference child parent)
  | stamp root arrangement elapsed => exact .some (hb.stamp arrangement elapsed root)
  | nextVersion => exact .some ⟨hb.config, congrArg Dirty.nextVersion hb.dirty, hb.cleans, hb.disk⟩
  | dereference root arrangement clock =>
    rw [Command.exec, Command.exec]
    have hd := hb.dereference arrangement clock root
    generalize db.dereference arrangement clock root = r,
      bare.dereference arrangement clock root = r' at hd
    cases hd with
    | none => exact .none
    | some hd => exact .some hd
  | dereferenceStored root arrangement clock =>
    rw [Command.exec, Command.exec]
    have hd := hb.dereferenceStored arrangement clock root
    generalize db.dereferenceStored arrangement clock root = r,
      bare.dereferenceStored arrangement clock root = r' at hd
    cases hd with
    | none => exact .none
    | some hd => exact .some hd
  | collect count arrangement => exact .some (hb.collect arrangement count)
  | forgetUseless =>
    exact .some ⟨hb.config, congrArg (fun d : Dirty => { d with useless := [] }) hb.dirty,
      hb.cleans, hb.disk⟩
  | cap limit arrangement => exact .some (hb.cap arrangement limit)
  | commit root report uncache order => exact .some (hb.commit order root report uncache)
  | readNode h =>
    exact .some (hb.reads (.lookup db h) (.lookup bare h) (Database.cleans_lookup hb.cleans h))
  | readBlob h =>
    exact .some (hb.reads (.lookup db h) (.lookup bare h) (Database.cleans_lookup hb.cleans h))
  | readPreimage h =>
    exact .some (hb.reads (.preimage db h) (.preimage bare h)
      (Database.cleans_preimage hb.cleans h))
  | arm faults =>
    exact .some ⟨hb.config, hb.dirty, hb.cleans, congrArg (Store.Disk.arm · faults) hb.disk⟩

/-- Calls of two runs of the same commands. -/
def Call.Beside (call bare : Call) : Prop :=
  bare.command = call.command ∧ call.before.Uncached bare.before

/-- The same commands do the same to both, or come to no end on either. -/
theorem uncached_run (hb : db.Uncached bare) (cs : List Command) :
    Option.Rel (fun r r' => List.Forall₂ Call.Beside r.1 r'.1 ∧ r.2.Uncached r'.2) (db.run cs)
      (bare.run cs) := by
  induction cs generalizing db bare with
  | nil => exact .some ⟨.nil, hb⟩
  | cons c cs ih =>
    rw [Database.run, Database.run]
    have hexec := uncached_exec hb c
    generalize c.exec db = next, c.exec bare = next' at hexec
    cases hexec with
    | none => exact .none
    | @some db' bare' hb' =>
      have hrun := ih hb'
      dsimp only [Option.bind_eq_bind, Option.bind_some]
      generalize db'.run cs = r, bare'.run cs = r' at hrun
      cases hrun with
      | none => exact .none
      | some hr => exact .some ⟨.cons ⟨rfl, hb⟩ hr.1, hr.2⟩

end TrieCache
