import TrieCache.Proofs.Database.Persistence

namespace TrieCache

open Store (Op nodeKey putNode)

/-- Whether a command drops nodes, from memory without writing them or from disk. -/
def Command.drops : Command → Bool
  | dereference .. | dereferenceStored .. | collect .. => true
  | _ => false

/-- A command that caches nothing under a hash and drops no nodes. -/
def Command.LeavesAlone (h : Hash) (c : Command) : Prop :=
  c.insertion.map Prod.fst ≠ some h ∧ c.drops = false

instance (h : Hash) (c : Command) : Decidable (c.LeavesAlone h) :=
  inferInstanceAs (Decidable (_ ∧ _))

/-- If a node is found at all it is found on disk. -/
def Database.OnlyOnDisk (db : Database) (h : Hash) : Prop :=
  db.clean? h = none ∧ db.dirty.records[h]? = none

instance (db : Database) (h : Hash) : Decidable (db.OnlyOnDisk h) :=
  inferInstanceAs (Decidable (_ ∧ _))

/-- A blob is cached or on disk, and nothing else is to be found under its hash. -/
structure Database.Holds (db : Database) (h : Hash) (blob : Bytes) : Prop where
  cached : ∀ r, db.dirty.records[h]? = some r → r.encoded = blob
  clean : ∀ v, db.clean? h = some v → v = blob
  stored : ∀ v, db.disk.table[nodeKey h]? = some v → v = blob
  kept : db.dirty.records.contains h ∨ db.disk.table.contains (nodeKey h)

variable {db db' start : Database} {c : Command} {calls : List Call} {order : List Hash}
  {h : Hash} {blob : Bytes}

namespace Database.Holds

theorem stay (hh : db.Holds h blob) (hform : db.dirty.SameForm db'.dirty h)
    (hkept : db.dirty.records.contains h → db'.dirty.records.contains h)
    (hdisk : db'.disk.table = db.disk.table)
    (hclean : ∀ v, db'.clean? h = some v →
      db.clean? h = some v ∨ db.disk.table[nodeKey h]? = some v) : db'.Holds h blob where
  cached r' hr' := by
    obtain ⟨r, hr, he⟩ := hform r' hr'
    exact he.trans (hh.cached r hr)
  clean v hv := (hclean v hv).elim (hh.clean v) (hh.stored v)
  stored v hv := hh.stored v (hdisk ▸ hv)
  kept := by
    rw [hdisk]
    exact hh.kept.imp_left hkept

theorem flushes {ops : List Op} (hh : db.Holds h blob) (hf : Flushes db db' ops) :
    db'.Holds h blob := by
  have hput : ∀ v, putNode h v ∈ ops → v = blob := by
    intro v ho
    obtain ⟨_, r, hr, rfl⟩ := (hf.owned _ ho).node
    exact hh.cached r hr
  constructor
  · intro r' hr'
    obtain ⟨r, hr, he⟩ := Dirty.SameForm.of_trims hf.trims h r' hr'
    exact he.trans (hh.cached r hr)
  · exact fun v hv => (hf.cleans h v hv).elim (hh.clean v) (hput v)
  · intro v hv
    rw [hf.stores.table] at hv
    exact (Store.Table.get_puts hf.puts hv).elim (hh.stored v) (hput v)
  · rcases hh.kept with hk | hk
    · exact hf.kept hk
    · exact .inr ((hf.contains_iff h).2 (.inl hk))

theorem blob_fst (hh : db.Holds h blob) (hz : h ≠ Hash.zero) (hr : db.disk.readsFail = false) :
    (db.blob h).1 =
      if blob = [] ∧ db.OnlyOnDisk h then .error (.notFound h) else .ok blob := by
  rw [Database.blob]
  dsimp only
  rw [lookup_fst db h hz hr]
  cases hclean : db.clean? h with
  | some v =>
    have hc : ¬(blob = [] ∧ db.OnlyOnDisk h) := by
      rintro ⟨-, hn, -⟩
      rw [hclean] at hn
      cases hn
    cases hh.clean v hclean
    rw [if_neg hc]
    rfl
  | none =>
    cases hdirty : db.dirty.records[h]? with
    | some r =>
      have hc : ¬(blob = [] ∧ db.OnlyOnDisk h) := by
        rintro ⟨-, -, hn⟩
        rw [hdirty] at hn
        cases hn
      rw [if_neg hc, ← hh.cached r hdirty]
      rfl
    | none =>
      have honly : db.OnlyOnDisk h := ⟨hclean, hdirty⟩
      have hcached := Bool.eq_false_iff.1 (Map.contains_eq_false_iff.2 hdirty)
      obtain ⟨v, hv⟩ := Map.contains_iff.1 (hh.kept.resolve_left hcached)
      cases hh.stored v hv
      rw [hv]
      cases blob with
      | nil =>
        rw [if_pos ⟨rfl, honly⟩]
        rfl
      | cons =>
        rw [if_neg fun hn => List.cons_ne_nil _ _ hn.1]
        rfl

end Database.Holds

/-- A call that leaves the hash alone leaves the blob there. -/
theorem holds_exec (hw : db.dirty.WellFormed order) (hh : db.Holds h blob)
    (ha : c.LeavesAlone h) (he : c.exec db = some db') : db'.Holds h blob := by
  obtain ⟨hinsertion, hdrops⟩ := ha
  cases c.effect he with
  | @inserted k content size hi =>
    have hk : k ≠ h := by
      rintro rfl
      rw [hi] at hinsertion
      exact hinsertion rfl
    apply hh.stay
    · rw [Database.dirty_insertContent]
      exact .of_core (by rw [Dirty.core_insert, if_neg fun hn => hk hn.2])
    · rw [Database.dirty_insertContent, Dirty.contains_insert]
      exact .inr
    · rw [Database.disk_insertContent]
    · rw [Database.clean?, Database.cleans_insertContent]
      exact fun v => .inl
  | @referenced child parent _ =>
    apply hh.stay
    · rw [Database.dirty_reference]
      exact .of_core (Dirty.core_reference ..)
    · rw [Database.dirty_reference, Dirty.contains_reference]
      exact id
    · rw [Database.disk_reference]
    · rw [Database.clean?, Database.cleans_reference]
      exact fun v => .inl
  | @stamped root _ _ _ =>
    apply hh.stay
    · rw [Database.dirty_stamp]
      exact .stamp db.dirty _ root h
    · rw [Database.dirty_stamp, (hw.stamp _ root).contains_iff, ← hw.contains_iff]
      exact id
    · rw [Database.disk_stamp]
    · rw [Database.clean?, Database.cleans_stamp]
      exact fun v => .inl
  | versioned _ => exact hh.stay (.of_core rfl) id rfl fun v => .inl
  | pruned hc _ => rcases hc with rfl | rfl <;> cases hdrops
  | collected hc =>
    subst hc
    cases hdrops
  | capped _ =>
    obtain ⟨_, hf⟩ := Database.flushes_of_cap hw rfl
    exact hh.flushes hf
  | committed _ =>
    obtain ⟨_, hf⟩ := Database.flushes_of_commit hw rfl
    exact hh.flushes hf
  | looked _ hr =>
    apply hh.stay
    · exact .of_core (by rw [hr.dirty])
    · rw [hr.dirty]
      exact id
    · rw [hr.disk]
    · exact hr.cleans h
  | untouched _ hkeeps =>
    apply hh.stay
    · exact .of_core (by rw [hkeeps.records])
    · rw [hkeeps.records]
      exact id
    · rw [hkeeps.table]
    · rw [Database.clean?, hkeeps.cleans]
      exact fun v => .inl

theorem Database.holds_insertBlob (hz : h ≠ Hash.zero) (hn : ¬db.Finds h) (blob : Bytes) :
    (db.insertBlob h blob).Holds h blob := by
  rw [Finds, and_iff_right hz, not_or, not_or, Option.not_isSome_iff_eq_none, Bool.not_eq_true,
    Bool.not_eq_true, Map.contains_eq_false_iff (m := db.disk.table)] at hn
  obtain ⟨hclean, hcached, hstored⟩ := hn
  rw [insertBlob]
  constructor
  · intro r hr
    have hcore := db.dirty.core_insert h (.raw blob) blob.length h
    rw [if_pos ⟨hcached, rfl⟩, ← dirty_insertContent, hr, Option.map_some,
      Option.some.injEq] at hcore
    have hcontent : r.content = .raw blob := congrArg Prod.fst hcore
    rw [Dirty.Record.encoded, hcontent]
  · intro v hv
    rw [clean?, cleans_insertContent, ← clean?, hclean] at hv
    cases hv
  · intro v hv
    rw [disk_insertContent, hstored] at hv
    cases hv
  · rw [dirty_insertContent, Dirty.contains_insert]
    exact .inl (.inl rfl)

theorem Run.holds {origin : Database} {prior : List Call} (hprior : Run origin prior start)
    (hw : origin.dirty.WellFormed []) (hrun : Run start calls db) (hh : start.Holds h blob)
    (ha : ∀ call ∈ calls, call.command.LeavesAlone h) : db.Holds h blob := by
  induction hrun with
  | nil => exact hh
  | snoc hrun he ih =>
    have hlast := ha _ (List.mem_append_right _ List.mem_cons_self)
    have hh' := ih fun call hm => ha call (List.mem_append_left _ hm)
    exact holds_exec ((hprior.trans hrun).wellFormed hw) hh' hlast he

section Main

variable {disk : Store.Disk} {counters : Counters} {log : List Event} {files : Directory}
  {place : String → String} {config : Config} {early late : List Call} {before : Database}

/-- A blob that is handed in under an unknown hash is still found after any calls that leave the
hash alone, however it has been flushed, unless it is empty and only on disk. -/
theorem blob_found_unless_empty
    (hrun : Run (.new disk counters log files place config)
      (early ++ ⟨before, .insertBlob h blob⟩ :: late) db)
    (hz : h ≠ Hash.zero) (hn : ¬before.Finds h)
    (ha : ∀ call ∈ late, call.command.LeavesAlone h) (hr : db.disk.readsFail = false) :
    (db.blob h).1 =
      if blob = [] ∧ db.OnlyOnDisk h then .error (.notFound h) else .ok blob := by
  obtain ⟨hearly, next, he, hlate⟩ := hrun.split
  cases he
  have hprior : Run (.new disk counters log files place config)
      (early ++ [⟨before, .insertBlob h blob⟩]) (before.insertBlob h blob) := .snoc hearly rfl
  have hh := hprior.holds Database.wellFormed_new hlate (Database.holds_insertBlob hz hn blob) ha
  exact hh.blob_fst hz hr

end Main

/-- A blob is flushed and read, so that it is clean, and more blobs come and are committed. -/
def flushThenReadAndCommit : List Command :=
  [.cap 0, .readBlob (.fill 1), .insertBlob (.fill 2) [], .cap 100,
    .insertBlob (.fill 3) [3], .commit (.fill 3) false true]

theorem blob_found_after_flush_and_commit :
    ∃ before late db,
      Run (.new {} {} [] {} id { cleanCacheSize := 4096 })
        ([] ++ ⟨before, .insertBlob (.fill 1) [1, 2]⟩ :: late) db ∧
      late.map Call.command = flushThenReadAndCommit ∧ db.dirty.records.contains (.fill 1) = false ∧
      (db.blob (.fill 1)).1 = .ok [1, 2] := by
  have hcheck : (((Database.new {} {} [] {} id { cleanCacheSize := 4096 }).insertBlob (.fill 1)
      [1, 2]).run flushThenReadAndCommit).any fun r =>
        !r.2.disk.readsFail && !r.2.dirty.records.contains (.fill 1) := by decide +kernel
  obtain ⟨⟨late, db⟩, hr, hcheck⟩ := (Option.any_eq_true _ _).1 hcheck
  rw [Bool.and_eq_true, Bool.not_eq_true', Bool.not_eq_true'] at hcheck
  have hrun : Run (.new {} {} [] {} id { cleanCacheSize := 4096 })
      ([] ++ ⟨_, .insertBlob (.fill 1) [1, 2]⟩ :: late) db := .cons rfl (.of_run hr)
  have ha : ∀ call ∈ late, call.command.LeavesAlone (.fill 1) := by
    intro call hm
    have hall : ∀ c ∈ flushThenReadAndCommit, c.LeavesAlone (.fill 1) := by decide
    apply hall
    rw [← Run.commands_of_run hr]
    exact List.mem_map_of_mem hm
  refine ⟨_, late, db, hrun, Run.commands_of_run hr, hcheck.2, ?_⟩
  rw [blob_found_unless_empty hrun (by decide) (by decide) ha hcheck.1]
  exact if_neg nofun

/-- An empty blob is found no more after it has been flushed. -/
theorem empty_blob_lost_after_cap :
    ¬(Database.new {} {} [] {} id {}).Finds (.fill 0x11) ∧
    (((Database.new {} {} [] {} id {}).insertBlob (.fill 0x11) []).cap .ascending 0).1 = .ok () ∧
    (((Database.new {} {} [] {} id {}).run [.insertBlob (.fill 0x11) [], .cap 0]).map
      fun r => (r.2.blob (.fill 0x11)).1) = some (.error (.notFound (.fill 0x11))) := by
  decide +kernel

end TrieCache
