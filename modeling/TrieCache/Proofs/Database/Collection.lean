import TrieCache.Proofs.Database.Coherence

namespace TrieCache

open Store (nodeKey)

def Database.stores (db : Database) (h : Hash) : Bool := db.disk.table.contains (nodeKey h)

/-- Whether collecting deletes what is on disk under a hash. -/
def Database.deletes (db : Database) (arrangement : Dirty.Arrangement) (count : Nat) (h : Hash) :
    Bool :=
  db.stores h && !(db.collect arrangement count).2.stores h

def Call.evicts (c : Call) (h : Hash) : Bool :=
  c.before.dirty.records.contains h &&
    (c.command.exec c.before).any fun db => !db.dirty.records.contains h

/-- Whether a call drops a node from memory and queues it, or deletes it from disk. -/
def Call.discards (c : Call) (h : Hash) : Bool :=
  match c.command with
  | .dereferenceStored .. => c.evicts h
  | .collect count arrangement => c.before.deletes arrangement count h
  | _ => false

/-- Whether a call drops a node from memory only. -/
def Call.sweeps (c : Call) (h : Hash) : Bool :=
  match c.command with
  | .dereference .. => c.evicts h
  | _ => false

variable {db db' start : Database} {c : Command} {calls : List Call} {order : List Hash} {h : Hash}
  {arrangement : Dirty.Arrangement} {count : Nat}

theorem Store.nodeKey_mem_map {hashes : List Hash} :
    nodeKey h ∈ hashes.map nodeKey ↔ h ∈ hashes :=
  List.mem_map_of_injective fun _ _ he => nodeKey_injective he

theorem mem_uncached {d : Dirty} {set : HashSet} {position : Nat} :
    h ∈ (arrangement.arrange (.useless position) set.toList).filter
        (fun h => !d.records.contains h) ↔ h ∈ set ∧ ¬d.records.contains h := by
  rw [List.mem_filter, (arrangement.perm _ _).mem_iff, Std.ExtTreeSet.mem_toList,
    Bool.not_eq_true', Bool.not_eq_true]

theorem mem_garbage_iff {d : Dirty} :
    h ∈ Database.garbage d arrangement count ↔
      (∃ set ∈ d.useless.take count, h ∈ set) ∧ ¬d.records.contains h := by
  rw [Database.garbage, List.mem_flatMap]
  constructor
  · rintro ⟨⟨set, position⟩, hset, hm⟩
    obtain ⟨hm, hc⟩ := mem_uncached.1 hm
    exact ⟨⟨set, List.fst_mem_of_mem_zipIdx hset, hm⟩, hc⟩
  · rintro ⟨⟨set, hset, hm⟩, hc⟩
    obtain ⟨position, hget⟩ := List.mem_iff_getElem?.1 hset
    exact ⟨(set, position), List.mem_zipIdx_iff_getElem?.2 hget, mem_uncached.2 ⟨hm, hc⟩⟩

theorem Database.take_setsCollected (db : Database) (count : Nat) :
    db.dirty.useless.take (db.setsCollected count) = db.dirty.useless.take count := by
  rw [setsCollected, Nat.min_comm, ← List.take_eq_take_min]

theorem stores_collect_iff (hok : (db.collect arrangement count).1 = .ok ()) :
    (db.collect arrangement count).2.stores h ↔ db.stores h ∧
      ¬((∃ set ∈ db.dirty.useless.take count, h ∈ set) ∧ ¬db.dirty.records.contains h) := by
  obtain ⟨_, ⟨_, _, he, _⟩ | ⟨_, hs, _⟩⟩ :=
    Database.collect_cases (Prod.mk.eta (p := db.collect arrangement count)).symm
  · rw [hok] at he
    cases he
  · have hdeletes : db.collectOps arrangement count =
        ((Database.garbage db.dirty arrangement (db.setsCollected count)).map nodeKey).map
          Store.Op.delete := List.map_map.symm
    rw [Database.stores, hs.table, hdeletes, Store.Table.contains_deletes, Store.nodeKey_mem_map,
      mem_garbage_iff, Database.take_setsCollected, Database.stores]

/-- Whether a node can still be found, in memory or on disk. -/
def Database.Kept (db : Database) (h : Hash) : Prop :=
  db.dirty.records.contains h ∨ db.stores h

namespace Database.Kept

theorem of_disk_eq (hk : db.Kept h)
    (hc : db.dirty.records.contains h → db'.dirty.records.contains h)
    (hd : db'.disk.table = db.disk.table) : db'.Kept h := by
  apply hk.imp hc
  intro hs
  rw [stores, hd]
  exact hs

theorem prunes {dropped : List Hash} (hk : db.Kept h) (hp : Prunes db db' dropped)
    (he : c.exec db = some db') (hd : (Call.mk db c).evicts h = false) : db'.Kept h := by
  apply hk.of_disk_eq ?_ (congrArg _ hp.disk)
  intro hc
  rw [Call.evicts, he, hc, Bool.true_and, Option.any_some, Bool.not_eq_false'] at hd
  exact hd

theorem flushes {ops : List Store.Op} (hk : db.Kept h) (hf : Flushes db db' ops) : db'.Kept h := by
  rcases hk with hk | hk
  · exact hf.kept hk
  · exact .inr ((hf.contains_iff h).2 (.inl hk))

end Database.Kept

/-- One call that does not drop a node keeps it in one of the two places. -/
theorem kept_exec (hw : db.dirty.WellFormed order) (hk : db.Kept h)
    (hd : (Call.mk db c).discards h = false) (hs : (Call.mk db c).sweeps h = false)
    (he : c.exec db = some db') : db'.Kept h := by
  cases c.effect he with
  | inserted _ =>
    apply hk.of_disk_eq ?_ (congrArg _ (db.disk_insertContent ..))
    intro hc
    rw [Database.dirty_insertContent, Dirty.contains_insert]
    exact .inr hc
  | @referenced child parent _ =>
    apply hk.of_disk_eq ?_ (congrArg _ (db.disk_reference ..))
    intro hc
    rw [Database.dirty_reference, (hw.reference child parent).contains_iff, ← hw.contains_iff]
    exact hc
  | @stamped root arrangement _ _ =>
    apply hk.of_disk_eq ?_ (congrArg _ (db.disk_stamp ..))
    intro hc
    rw [Database.dirty_stamp, (hw.stamp arrangement root).contains_iff, ← hw.contains_iff]
    exact hc
  | versioned _ => exact hk
  | pruned hc hp =>
    rcases hc with rfl | rfl
    · exact hk.prunes hp he hs
    · exact hk.prunes hp he hd
  | @collected count arrangement hc =>
    subst hc
    rcases hk with hk | hk
    · left
      rw [db.records_collect]
      exact hk
    · right
      change (db.stores h && !(db.collect arrangement count).2.stores h) = false at hd
      rw [hk, Bool.true_and, Bool.not_eq_false'] at hd
      exact hd
  | capped _ =>
    obtain ⟨_, hf⟩ := Database.flushes_of_cap hw rfl
    exact hk.flushes hf
  | committed _ =>
    obtain ⟨_, hf⟩ := Database.flushes_of_commit hw rfl
    exact hk.flushes hf
  | looked _ hr => exact hk.of_disk_eq (fun hc => hr.dirty ▸ hc) (congrArg _ hr.disk)
  | untouched _ hkeeps => exact hk.of_disk_eq (fun hc => hkeeps.records ▸ hc) hkeeps.table

theorem Run.kept {prior : List Call} {origin : Database} (hprior : Run origin prior start)
    (hw : origin.dirty.WellFormed []) (hrun : Run start calls db)
    (hd : ∀ call ∈ calls, call.discards h = false) (hs : ∀ call ∈ calls, call.sweeps h = false)
    (hk : start.Kept h) : db.Kept h := by
  induction hrun with
  | nil => exact hk
  | @snoc calls db _ c hrun he ih =>
    have hlast : Call.mk db c ∈ calls ++ [⟨db, c⟩] := List.mem_append_right _ List.mem_cons_self
    have hk' := ih (fun call hm => hd call (List.mem_append_left _ hm))
      fun call hm => hs call (List.mem_append_left _ hm)
    exact kept_exec ((hprior.trans hrun).wellFormed hw) hk' (hd _ hlast) (hs _ hlast) he

theorem contains_of_inserted (hw : db.dirty.WellFormed order)
    (hi : (Call.mk db c).inserted = some h) (he : c.exec db = some db') :
    db'.dirty.records.contains h := by
  rw [Call.inserted, Option.filter_eq_some_iff, Option.map_eq_some_iff] at hi
  obtain ⟨⟨⟨k, content, size⟩, hi, rfl⟩, _⟩ := hi
  have heffect := (c.effect he).dirty hw
  generalize db'.dirty = d' at heffect ⊢
  cases heffect with
  | inserted hc =>
    cases hi.symm.trans hc
    exact (Dirty.contains_insert _ _ _ _ _).2 (.inl rfl)
  | referenced hc =>
    rw [hc] at hi
    cases hi
  | stamped hc =>
    rw [hc] at hi
    cases hi
  | versioned hc =>
    rw [hc] at hi
    cases hi
  | trimmed hc _ => cases hi.symm.trans hc

/-- A node that was queued to be deleted has been inserted again in the course of a run, and in the
calls since then it has been neither queued again nor deleted. -/
inductive Resurrected (origin : Database) (h : Hash) (calls : List Call) (db : Database) : Prop
  | intro {prior : List Call} {start db₁ : Database} {c : Command} :
    Run origin prior start → (∃ set ∈ start.dirty.useless, h ∈ set) →
    (Call.mk start c).inserted = some h → c.exec start = some db₁ → Run db₁ calls db →
    (∀ call ∈ calls, call.discards h = false) → Resurrected origin h calls db

/-- Makes calls, inserts a node that they have queued, and makes calls that do not discard it. -/
def Database.resurrect (origin : Database) (h : Hash) (prior : List Command) (c : Command)
    (later : List Command) : Option (List Call × Database) := do
  let (_, start) ← origin.run prior
  let db₁ ← c.exec start
  let (calls, db) ← db₁.run later
  if start.dirty.useless.any (·.contains h) && (Call.mk start c).inserted = some h &&
    calls.all (!·.discards h) then some (calls, db) else none

theorem Resurrected.of_resurrect {origin : Database} {prior later : List Command}
    (hr : origin.resurrect h prior c later = some (calls, db)) :
    Resurrected origin h calls db := by
  rw [Database.resurrect, Option.bind_eq_bind, Option.bind_eq_some_iff] at hr
  obtain ⟨⟨calls₀, start⟩, hprior, hr⟩ := hr
  rw [Option.bind_eq_bind, Option.bind_eq_some_iff] at hr
  obtain ⟨db₁, he, hr⟩ := hr
  rw [Option.bind_eq_some_iff] at hr
  obtain ⟨⟨calls₂, db₂⟩, hlater, hr⟩ := hr
  dsimp only at hr
  split at hr
  · next hc =>
    cases hr
    rw [Bool.and_eq_true, Bool.and_eq_true, List.any_eq_true, List.all_eq_true,
      decide_eq_true_eq] at hc
    obtain ⟨⟨⟨set, hset, hm⟩, hi⟩, hd⟩ := hc
    apply Resurrected.intro (Run.of_run hprior) ⟨set, hset, hm⟩ hi he (Run.of_run hlater)
    intro call hcall
    exact Bool.not_eq_true' _ ▸ hd call hcall
  · cases hr

section Main

variable {disk : Store.Disk} {counters : Counters} {log : List Event} {files : Directory}
  {place : String → String} {config : Config}

/-- Collecting deletes a resurrected node just if it has left memory again and is still in one of
the sets that are collected. Only if it was dropped from memory in between it need not be on
disk. -/
theorem deletes_resurrected_iff
    (hr : Resurrected (.new disk counters log files place config) h calls db)
    (hok : (db.collect arrangement count).1 = .ok ()) :
    db.deletes arrangement count h ↔
      (∃ set ∈ db.dirty.useless.take count, h ∈ set) ∧ ¬db.dirty.records.contains h ∧
        ((∃ call ∈ calls, call.sweeps h) → db.stores h) := by
  obtain ⟨hprior, _, hi, he, hrun, hd⟩ := hr
  have hcached := contains_of_inserted (hprior.wellFormed Database.wellFormed_new) hi he
  have hkept : (∀ call ∈ calls, call.sweeps h = false) → db.Kept h := fun hs =>
    (hprior.snoc he).kept Database.wellFormed_new hrun hd hs (.inl hcached)
  have hcollect := stores_collect_iff (h := h) hok
  rw [Database.deletes, Bool.and_eq_true, Bool.not_eq_true', ← Bool.not_eq_true, hcollect]
  constructor
  · rintro ⟨hs, hn⟩
    by_contra hc
    exact hn ⟨hs, fun hq => hc ⟨hq.1, hq.2, fun _ => hs⟩⟩
  · rintro ⟨hq, hc, hswept⟩
    constructor
    · by_cases hs : ∃ call ∈ calls, call.sweeps h
      · exact hswept hs
      · have hs' : ∀ call ∈ calls, call.sweeps h = false := by
          intro call hm
          exact Bool.eq_false_iff.2 fun h => hs ⟨call, hm, h⟩
        exact (hkept hs').resolve_left hc
    · intro hs
      exact hs.2 ⟨hq, hc⟩

end Main

/-- A leaf is committed, dropped as stale and queued to be deleted. -/
def commitAndQueueLeaf : List Command :=
  [.insert (.fill 0x11) 5 leafNode, .commit (.fill 0x11) false false, .nextVersion,
    .dereferenceStored (.fill 0x11)]

theorem deletes_resurrected_after_commit :
    ∃ calls db, Resurrected (.new {} {} [] {} id {}) (.fill 0x11) calls db ∧
      (db.collect .ascending 1).1 = .ok () ∧
      (∃ set ∈ db.dirty.useless.take 1, Hash.fill 0x11 ∈ set) ∧
      ¬db.dirty.records.contains (.fill 0x11) ∧ db.deletes .ascending 1 (.fill 0x11) := by
  have hsome : ((Database.new {} {} [] {} id {}).resurrect (.fill 0x11) commitAndQueueLeaf
      (.insert (.fill 0x11) 5 leafNode) [.commit (.fill 0x11) false true]).any (fun r =>
        decide ((r.2.collect .ascending 1).1 = .ok ()) &&
          decide (∃ set ∈ r.2.dirty.useless.take 1, Hash.fill 0x11 ∈ set) &&
          !r.2.dirty.records.contains (.fill 0x11) && r.2.stores (.fill 0x11)) := by
    decide +kernel
  obtain ⟨⟨calls, db⟩, hr, hc⟩ := (Option.any_eq_true _ _).1 hsome
  rw [Bool.and_eq_true, Bool.and_eq_true, Bool.and_eq_true, decide_eq_true_eq, decide_eq_true_eq,
    Bool.not_eq_true'] at hc
  obtain ⟨⟨⟨hok, hq⟩, hn⟩, hstored⟩ := hc
  have hn' : ¬db.dirty.records.contains (.fill 0x11) := by
    rw [hn]
    exact Bool.false_ne_true
  have hres := Resurrected.of_resurrect hr
  exact ⟨calls, db, hres, hok, hq, hn',
    (deletes_resurrected_iff hres hok).2 ⟨hq, hn', fun _ => hstored⟩⟩

/-- A leaf that is inserted again and flushed to disk is lost there when its set is collected. -/
theorem collect_loses_resurrected_after_cap :
    ∃ calls db, Resurrected (.new {} {} [] {} id {}) (.fill 0x11) calls db ∧
      (db.collect .ascending 1).1 = .ok () ∧ db.deletes .ascending 1 (.fill 0x11) := by
  have hsome : ((Database.new {} {} [] {} id {}).resurrect (.fill 0x11) commitAndQueueLeaf
      (.insert (.fill 0x11) 5 leafNode) [.cap 0]).any (fun r =>
        decide ((r.2.collect .ascending 1).1 = .ok ()) &&
          r.2.deletes .ascending 1 (.fill 0x11)) := by decide +kernel
  obtain ⟨⟨calls, db⟩, hr, hc⟩ := (Option.any_eq_true _ _).1 hsome
  rw [Bool.and_eq_true, decide_eq_true_eq] at hc
  exact ⟨calls, db, .of_resurrect hr, hc.1, hc.2⟩

end TrieCache
