import TrieCache.Proofs.Database.Coherence
import TrieCache.Proofs.Database.Committed

namespace TrieCache

open Dirty (Reaches)
open Store (nodeKey putNode)

/-- Whether a commit ends with a fresh node unwritten, which is then fresh no more. -/
def Call.passesOver (c : Call) (k : Hash) : Bool :=
  match c.command with
  | .commit root report uncache order =>
    (c.before.commit order root report uncache).1.isOk && c.before.dirty.fresh.contains k &&
      !(c.before.dirty.freshClosure order root).contains k
  | _ => false

/-- If a node is cached but not fresh it is on disk. -/
def Database.Saved (db : Database) (k : Hash) : Prop :=
  ∀ r, db.dirty.records[k]? = some r → k ∉ db.dirty.fresh →
    db.disk.table[nodeKey k]? = some r.encoded

variable {db db' start : Database} {c : Command} {calls : List Call} {order : List Hash} {k : Hash}
  {r : Dirty.Record} {arrangement : Dirty.Arrangement} {root : Hash} {report uncache : Bool}

def Dirty.SameForm (d d' : Dirty) (k : Hash) : Prop :=
  ∀ r', d'.records[k]? = some r' → ∃ r, d.records[k]? = some r ∧ r'.encoded = r.encoded

namespace Dirty.SameForm

variable {d d' : Dirty} {r' : Record}

theorem encoded_of_content (hc : r'.content = r.content) : r'.encoded = r.encoded := by
  rw [Record.encoded, Record.encoded, hc]

theorem of_trims (ht : d.Trims d') (k : Hash) : SameForm d d' k := by
  intro r' hr'
  obtain ⟨r, hr, hcore⟩ := ht.kept k r' hr'
  exact ⟨r, hr, encoded_of_content (congrArg Prod.fst hcore)⟩

theorem of_core (hc : d'.records[k]?.map Record.core = d.records[k]?.map Record.core) :
    SameForm d d' k := by
  intro r' hr'
  rw [hr', Option.map_some, eq_comm, Option.map_eq_some_iff] at hc
  obtain ⟨r, hr, hcore⟩ := hc
  exact ⟨r, hr, encoded_of_content (congrArg Prod.fst hcore).symm⟩

theorem stamp (d : Dirty) (arrangement : Arrangement) (root k : Hash) :
    SameForm d (d.stamp arrangement root) k := by
  intro r' hr'
  rw [get_stamp, Option.map_eq_some_iff] at hr'
  obtain ⟨r, hr, rfl⟩ := hr'
  refine ⟨r, hr, encoded_of_content ?_⟩
  split <;> rfl

end Dirty.SameForm

namespace Database

theorem Saved.step (hs : db.Saved k)
    (hform : db.dirty.SameForm db'.dirty k)
    (hfresh : db'.dirty.records.contains k → k ∈ db.dirty.fresh → k ∈ db'.dirty.fresh)
    (hdisk : ∀ r, db.dirty.records[k]? = some r → db.disk.table[nodeKey k]? = some r.encoded →
      db'.disk.table[nodeKey k]? = some r.encoded) : db'.Saved k := by
  intro r' hr' hf
  obtain ⟨r, hr, he⟩ := hform r' hr'
  rw [he]
  exact hdisk r hr (hs r hr fun hm => hf (hfresh (Map.contains_of_get hr') hm))

theorem Flushes.stored {ops : List Store.Op} (hf : Flushes db db' ops)
    (hr : db.dirty.records[k]? = some r) (hd : db.disk.table[nodeKey k]? = some r.encoded) :
    db'.disk.table[nodeKey k]? = some r.encoded := by
  have hput : ∀ v, putNode k v ∈ ops → v = r.encoded := by
    intro v ho
    obtain ⟨_, r', hr', he⟩ := (hf.owned _ ho).node
    rw [hr, Option.some.injEq] at hr'
    rw [he, hr']
  rw [hf.stores.table]
  by_cases ho : putNode k r.encoded ∈ ops
  · exact Store.Table.get_puts_of_mem hf.puts ho hput
  · rw [Store.Table.get_puts_of_not_mem hf.puts fun v hv => ho (hput v hv ▸ hv), hd]

/-- After a commit that succeeds a cached node is on disk just if the commit has reached it through
fresh nodes or it was there before. -/
theorem stored_after_commit_iff (hw : db.dirty.WellFormed order)
    (hc : db.commit arrangement root report uncache = (.ok (), db'))
    (hr : db.dirty.records[k]? = some r) :
    db'.disk.table[nodeKey k]? = some r.encoded ↔
      Reaches db.dirty.freshEdges root k ∨ db.disk.table[nodeKey k]? = some r.encoded := by
  obtain ⟨_, _, _, hcommits, _, ⟨_, he, _⟩ | ⟨_, rfl, _, _⟩⟩ := commits_of_commit hw hc
  · cases he
  by_cases hk : Reaches db.dirty.freshEdges root k
  · have hm : (k, r.encoded) ∈ pending db.dirty arrangement root :=
      Dirty.mem_pending_iff.2 ⟨hk, r, hr, rfl⟩
    simp only [hcommits.get_of_mem hm, hk, true_or]
  · have hn : ∀ v, (k, v) ∉ pending db.dirty arrangement root :=
      fun v hm => hk (Dirty.mem_pending_iff.1 hm).1
    rw [hcommits.get_of_not_mem hn, or_iff_right hk]

theorem reached_of_passesOver (hok : (db.commit arrangement root report uncache).1 = .ok ())
    (hp : (Call.mk db (.commit root report uncache arrangement)).passesOver k = false)
    (hf : k ∈ db.dirty.fresh) : Reaches db.dirty.freshEdges root k := by
  have hok' : (db.commit arrangement root report uncache).1.isOk := by rw [hok]; rfl
  have hpasses : ((db.commit arrangement root report uncache).1.isOk &&
      db.dirty.fresh.contains k &&
      !(db.dirty.freshClosure arrangement root).contains k) = false := hp
  rw [hok', Std.ExtTreeSet.contains_iff_mem.2 hf, Bool.and_self, Bool.true_and,
    Bool.not_eq_false', List.contains_iff_mem] at hpasses
  exact Dirty.mem_freshClosure.1 hpasses

theorem Saved.commit (hw : db.dirty.WellFormed order) (hs : db.Saved k)
    (hp : (Call.mk db (.commit root report uncache arrangement)).passesOver k = false) :
    (db.commit arrangement root report uncache).2.Saved k := by
  obtain ⟨_, hflush⟩ := flushes_of_commit hw
    (Prod.mk.eta (p := db.commit arrangement root report uncache)).symm
  obtain ⟨nodes, _, d, _, hleft, ⟨_, _, hd⟩ | ⟨hok, _⟩⟩ := commits_of_commit hw
    (Prod.mk.eta (p := db.commit arrangement root report uncache)).symm
  · apply hs.step (.of_trims hflush.trims k) ?_ fun r => hflush.stored
    intro hc hf
    rw [hd] at hc ⊢
    exact (hleft.fresh k).2 ⟨hf, ((hleft.contains_iff k).1 hc).1⟩
  · intro r' hr' _
    obtain ⟨r, hr, he⟩ := Dirty.SameForm.of_trims hflush.trims k r' hr'
    rw [he, stored_after_commit_iff hw (Prod.ext hok rfl) hr]
    by_cases hf : k ∈ db.dirty.fresh
    · exact .inl (reached_of_passesOver hok hp hf)
    · exact .inr (hs r hr hf)

end Database

/-- One call that deletes nothing keeps a node saved unless it passes over it. -/
theorem saved_exec (hw : db.dirty.WellFormed order) (hs : db.Saved k)
    (hkeep : ∀ count arrangement, c ≠ .collect count arrangement)
    (hp : (Call.mk db c).passesOver k = false) (he : c.exec db = some db') : db'.Saved k := by
  cases c.effect he with
  | @inserted h content size _ =>
    by_cases hnew : db.dirty.records.contains h = false ∧ h = k
    · intro r' _ hf
      rw [Database.dirty_insertContent, Dirty.mem_fresh_insert] at hf
      exact absurd (.inl hnew) hf
    · apply hs.step
      · rw [Database.dirty_insertContent]
        exact .of_core (by rw [Dirty.core_insert, if_neg hnew])
      · rw [Database.dirty_insertContent, Dirty.mem_fresh_insert]
        exact fun _ => .inr
      · rw [Database.disk_insertContent]
        exact fun _ _ => id
  | @referenced child parent _ =>
    apply hs.step
    · rw [Database.dirty_reference]
      exact .of_core (Dirty.core_reference ..)
    · rw [Database.dirty_reference, Dirty.fresh_reference]
      exact fun _ => id
    · rw [Database.disk_reference]
      exact fun _ _ => id
  | @stamped root _ =>
    apply hs.step
    · rw [Database.dirty_stamp]
      exact .stamp db.dirty _ root k
    · rw [Database.dirty_stamp, Dirty.fresh_stamp]
      exact fun _ => id
    · rw [Database.disk_stamp]
      exact fun _ _ => id
  | versioned _ => exact hs
  | pruned _ hpr =>
    apply hs.step (.of_trims hpr.trims k)
    · exact fun hc hf => (hpr.fresh k).2 ⟨hf, fun _ => hc⟩
    · rw [hpr.disk]
      exact fun _ _ => id
  | collected hc => exact absurd hc (hkeep _ _)
  | capped _ =>
    obtain ⟨_, hf⟩ := Database.flushes_of_cap hw rfl
    apply hs.step (.of_trims hf.trims k) ?_ fun r => hf.stored
    exact fun hc hm => (Database.fresh_of_cap hw rfl k).2 ⟨hm, fun _ => hc⟩
  | committed hc =>
    subst hc
    exact hs.commit hw hp
  | looked _ hr =>
    intro r hg hf
    rw [hr.disk]
    exact hs r (hr.dirty ▸ hg) (hr.dirty ▸ hf)
  | untouched _ hkeeps =>
    intro r hg hf
    rw [hkeeps.table]
    exact hs r (hkeeps.records ▸ hg) (hkeeps.fresh ▸ hf)

theorem Run.saved (hrun : Run start calls db) (hw : start.dirty.WellFormed [])
    (hs : start.Saved k)
    (hkeep : ∀ call ∈ calls, ∀ count arrangement, call.command ≠ .collect count arrangement)
    (hp : ∀ call ∈ calls, call.passesOver k = false) : db.Saved k := by
  induction hrun with
  | nil => exact hs
  | @snoc calls db _ c hrun he ih =>
    have hlast : Call.mk db c ∈ calls ++ [⟨db, c⟩] := List.mem_append_right _ List.mem_cons_self
    have hs' := ih (fun call hm => hkeep call (List.mem_append_left _ hm))
      fun call hm => hp call (List.mem_append_left _ hm)
    exact saved_exec (hrun.wellFormed hw) hs' (hkeep _ hlast) (hp _ hlast) he

section Main

variable {disk : Store.Disk} {counters : Counters} {log : List Event} {files : Directory}
  {place : String → String} {config : Config}

theorem Database.saved_new (hz : k ≠ Hash.zero) :
    (new disk counters log files place config).Saved k := by
  intro r hr
  rw [dirty_new, Dirty.new, Map.get_insert, if_neg (Ne.symm hz),
    Std.ExtTreeMap.getElem?_empty] at hr
  cases hr

/-- After a commit that succeeds a cached node is on disk just if the commit has reached it through
fresh nodes or it was there before. So, if nothing was ever deleted from disk, everything below the
root is there unless a commit, be it this one or one before, has passed over some of it. -/
theorem stored_after_successful_commit
    (hrun : Run (.new disk counters log files place config) calls db)
    (hc : db.commit arrangement root report uncache = (.ok (), db')) :
    (∀ k r, db.dirty.records[k]? = some r →
      (db'.disk.table[nodeKey k]? = some r.encoded ↔
        Reaches db.dirty.freshEdges root k ∨ db.disk.table[nodeKey k]? = some r.encoded)) ∧
    ((∀ call ∈ calls, ∀ count arrangement, call.command ≠ .collect count arrangement) →
      (∀ k, Reaches db.dirty.cachedChildren root k →
        ∀ call ∈ calls ++ [⟨db, .commit root report uncache arrangement⟩],
          call.passesOver k = false) →
      ∀ k r, Reaches db.dirty.cachedChildren root k → k ≠ Hash.zero →
        db.dirty.records[k]? = some r → db'.disk.table[nodeKey k]? = some r.encoded) := by
  have hw := hrun.wellFormed Database.wellFormed_new
  constructor
  · exact fun k r => Database.stored_after_commit_iff hw hc
  intro hkeep hpasses k r hk hz hr
  have hs : db.Saved k := hrun.saved Database.wellFormed_new (Database.saved_new hz) hkeep
    fun call hm => hpasses k hk call (List.mem_append_left _ hm)
  have hlast := hpasses k hk _ (List.mem_append_right _ (List.mem_singleton_self _))
  rw [Database.stored_after_commit_iff hw hc hr]
  by_cases hf : k ∈ db.dirty.fresh
  · exact .inl (Database.reached_of_passesOver (congrArg Prod.fst hc) hlast hf)
  · exact .inr (hs r hr hf)

end Main

/-- A blob that is committed, and then a node above it. -/
def commitBlobThenCacheParent : List Command :=
  [.insertBlob (.fill 1) [1], .commit (.fill 1) false false, .insertBlob (.fill 2) [2],
    .reference (.fill 1) (.fill 2)]

theorem stored_after_commit_of_extension :
    ∃ (calls : List Call) (db db' : Database) (r : Dirty.Record),
      Run (.new {} {} [] {} id {}) calls db ∧
      db.commit .ascending (.fill 2) false false = (.ok (), db') ∧
      Reaches db.dirty.cachedChildren (.fill 2) (.fill 1) ∧ Hash.fill 1 ∉ db.dirty.fresh ∧
      db.dirty.records[Hash.fill 1]? = some r ∧
      db'.disk.table[nodeKey (.fill 1)]? = some r.encoded := by
  have hrun : ((Database.new {} {} [] {} id {}).run commitBlobThenCacheParent).any fun s =>
      decide ((s.2.commit .ascending (.fill 2) false false).1 = .ok ()) &&
      decide (Hash.fill 1 ∈ s.2.dirty.closure .ascending (.fill 2)) &&
      decide (Hash.fill 1 ∉ s.2.dirty.fresh) &&
      (s.2.dirty.closure .ascending (.fill 2)).all fun k =>
        (s.1 ++ [Call.mk s.2 (.commit (.fill 2) false false)]).all fun call =>
          !call.passesOver k := by
    decide +kernel
  obtain ⟨⟨calls, db⟩, hr, hc⟩ := (Option.any_eq_true _ _).1 hrun
  simp only [Bool.and_eq_true, decide_eq_true_eq] at hc
  obtain ⟨⟨⟨hok, hbelow⟩, hold⟩, hnone⟩ := hc
  have hkeep : ∀ call ∈ calls, ∀ count arrangement, call.command ≠ .collect count arrangement := by
    intro call hm
    have hcommand : call.command ∈ commitBlobThenCacheParent := by
      rw [← Run.commands_of_run hr]
      exact List.mem_map_of_mem hm
    simp only [commitBlobThenCacheParent, List.mem_cons, List.not_mem_nil, or_false] at hcommand
    rcases hcommand with he | he | he | he <;> rw [he] <;> exact nofun
  have hpasses : ∀ k, Reaches db.dirty.cachedChildren (.fill 2) k →
      ∀ call ∈ calls ++ [⟨db, .commit (.fill 2) false false⟩],
        call.passesOver k = false := by
    intro k hk call hm
    have hall := List.all_eq_true.1 hnone k ((Dirty.mem_closure_iff _ _ _ _).2 hk)
    exact Bool.not_eq_true' _ ▸ List.all_eq_true.1 hall call hm
  have hk := (Dirty.mem_closure_iff _ _ _ _).1 hbelow
  obtain ⟨_, hg⟩ := Option.isSome_iff_exists.1 hk.isSome_right
  obtain ⟨r, hg, _⟩ := Option.map_eq_some_iff.1 hg
  obtain ⟨_, hstored⟩ := stored_after_successful_commit (Run.of_run hr) (Prod.ext hok rfl)
  exact ⟨calls, db, _, r, Run.of_run hr, Prod.ext hok rfl, hk, hold, hg,
    hstored hkeep hpasses _ r hk (by decide) hg⟩

/-- Two leaves, the first of which is committed. -/
def commitOneOfTwoLeaves : List Command :=
  [.insert (.fill 0x11) 5 leafNode, .insert (.fill 0x22) 5 (.leaf ⟨[1, 3, 16]⟩ [7]),
    .commit (.fill 0x11) false false]

/-- After the other leaf is committed as well it is still not on disk. -/
theorem commit_misses_node_passed_over :
    ∃ (calls : List Call) (db db' : Database),
      Run (.new {} {} [] {} id {}) calls db ∧ calls.map Call.command = commitOneOfTwoLeaves ∧
      db.commit .ascending (.fill 0x22) false false = (.ok (), db') ∧
      Reaches db.dirty.cachedChildren (.fill 0x22) (.fill 0x22) ∧
      db'.disk.table[nodeKey (.fill 0x22)]? = none := by
  have hrun : ((Database.new {} {} [] {} id {}).run commitOneOfTwoLeaves).any fun r =>
      decide ((r.2.commit .ascending (.fill 0x22) false false).1 = .ok ()) &&
      decide (Hash.fill 0x22 ∈ r.2.dirty.closure .ascending (.fill 0x22)) &&
      decide ((r.2.commit .ascending (.fill 0x22) false false).2.disk.table[
        nodeKey (.fill 0x22)]? = none) := by
    decide +kernel
  obtain ⟨⟨calls, db⟩, hr, hc⟩ := (Option.any_eq_true _ _).1 hrun
  simp only [Bool.and_eq_true, decide_eq_true_eq] at hc
  obtain ⟨⟨hok, hbelow⟩, hmissing⟩ := hc
  exact ⟨calls, db, _, Run.of_run hr, Run.commands_of_run hr, Prod.ext hok rfl,
    (Dirty.mem_closure_iff _ _ _ _).1 hbelow, hmissing⟩

end TrieCache
