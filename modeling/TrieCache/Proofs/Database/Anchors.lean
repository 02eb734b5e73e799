import TrieCache.Proofs.Database.Collection
import TrieCache.Proofs.Database.Departures

namespace TrieCache

open Dirty (Change Departs)

/-- Whether the meta-root has an edge to a hash that is not cached. -/
def Dirty.dangles (d : Dirty) (h : Hash) : Bool := d.roots.contains h && !d.records.contains h

namespace Call

/-- Whether a call takes a node out of memory and leaves the meta-root's edge to it: all calls do
that, except for commits and for those that drop what is stale below the node itself. -/
def orphans (c : Call) (h : Hash) : Bool :=
  c.before.dirty.roots.contains h && c.evicts h && !c.command.commits &&
    decide (c.command.swept ≠ some h)

/-- Whether a call takes away the meta-root's edge to a node that is not cached, or caches it
again. -/
def reclaims (c : Call) (h : Hash) : Bool := c.inserted = some h || c.command.swept = some h

end Call

variable {db db' start : Database} {c : Command} {calls : List Call} {order : List Hash} {h : Hash}

theorem Call.evicts_eq (he : c.exec db = some db') : (Call.mk db c).evicts h =
    (db.dirty.records.contains h && !db'.dirty.records.contains h) := by
  rw [evicts, he, Option.any_some]

theorem Call.cap_or_sweep_of_orphans (hw : db.dirty.WellFormed order)
    (ho : (Call.mk db c).orphans h) :
    (∃ limit order, c = .cap limit order) ∨ ∃ root, c.swept = some root ∧ root ≠ h := by
  simp only [orphans, evicts, Bool.and_eq_true, Bool.not_eq_true', decide_eq_true_eq] at ho
  obtain ⟨⟨⟨_, hcached, hgone⟩, hcommits⟩, hswept⟩ := ho
  obtain ⟨db', he, hgone⟩ := (Option.any_eq_true _ _).1 hgone
  have hkept : ¬db'.dirty.records.contains h := by
    rwa [Bool.not_eq_true', ← Bool.not_eq_true] at hgone
  cases c.effect he with
  | inserted _ =>
    rw [Database.dirty_insertContent, Dirty.contains_insert] at hkept
    exact absurd (.inr hcached) hkept
  | @referenced child parent _ =>
    rw [Database.dirty_reference, Dirty.contains_reference] at hkept
    exact absurd hcached hkept
  | @stamped root arrangement _ _ =>
    rw [Database.dirty_stamp, (hw.stamp arrangement root).contains_iff, ← hw.contains_iff] at hkept
    exact absurd hcached hkept
  | versioned _ => exact absurd hcached hkept
  | @pruned root _ _ _ _ hc _ =>
    have hroot : c.swept = some root := by rcases hc with rfl | rfl <;> rfl
    exact .inr ⟨root, hroot, fun hr => hswept (hr ▸ hroot)⟩
  | collected _ =>
    rw [db.records_collect] at hkept
    exact absurd hcached hkept
  | capped hc => exact .inl ⟨_, _, hc⟩
  | committed hc =>
    rw [hc] at hcommits
    cases hcommits
  | looked _ hr =>
    rw [hr.dirty] at hkept
    exact absurd hcached hkept
  | untouched _ hkeeps =>
    rw [hkeeps.records] at hkept
    exact absurd hcached hkept

/-- After a call an edge dangles if the call has orphaned it, or if it did before and has not been
reclaimed. -/
theorem dangles_exec (hw : db.dirty.WellFormed order) (he : c.exec db = some db') :
    db'.dirty.dangles h ↔
      (Call.mk db c).orphans h ∨ db.dirty.dangles h ∧ ¬(Call.mk db c).reclaims h := by
  have hevicts := Call.evicts_eq (h := h) he
  have hchange := c.change hw he
  rw [Dirty.dangles, Dirty.dangles, Call.orphans, Call.reclaims, hevicts]
  clear he hevicts
  generalize db'.dirty = d' at hchange ⊢
  cases hchange with
  | @inserted k content size hi =>
    have hc : (db.dirty.insert k content size).records.contains h =
        (decide (k = h) || db.dirty.records.contains h) := by
      rw [Bool.eq_iff_iff, Bool.or_eq_true, decide_eq_true_eq]
      exact Dirty.contains_insert ..
    obtain ⟨hswept, _⟩ := Command.swept_of_insertion hi
    rw [Dirty.roots_insert hw.rooted.contains, hc]
    cases hcached : db.dirty.records.contains h <;>
      simp [hcached, hswept, inserted_eq_some_iff hi]
  | @referenced child parent hc =>
    have hinserted : (Call.mk db c).inserted = none := inserted_of_no_insertion (hc ▸ rfl)
    subst hc
    rw [Dirty.contains_reference, hinserted]
    cases hcached : db.dirty.records.contains h with
    | true => simp
    | false =>
      -- Only a node that is cached can have become a child of the meta-root.
      have hroots : (db.dirty.reference child parent).roots.contains h =
          db.dirty.roots.contains h := by
        rw [Dirty.roots_reference hw.rooted.contains]
        split
        · next ht =>
          have hne : child ≠ h := by
            rintro rfl
            simp [Dirty.tracks, hcached] at ht
          rw [Bool.eq_iff_iff, Map.contains_insert, or_iff_right hne]
        · rfl
      simp [hroots, Command.swept]
  | departed hi hd =>
    have hroots : d'.roots.contains h =
        (!c.forgets db.dirty d' h && db.dirty.roots.contains h) := by
      rw [Std.ExtTreeMap.contains_eq_isSome_getElem?, hd.roots,
        Std.ExtTreeMap.contains_eq_isSome_getElem?]
      cases c.forgets db.dirty d' h <;> rfl
    have hinserted : (Call.mk db c).inserted = none := inserted_of_no_insertion hi
    rw [hroots, hinserted, Command.forgets]
    cases hcached : db.dirty.records.contains h with
    | false =>
      have hz : h ≠ Hash.zero := by
        rintro rfl
        exact absurd (hw.rooted.contains.symm.trans hcached) Bool.noConfusion
      have hcached' : d'.records.contains h = false := by
        apply Bool.eq_false_iff.2
        intro hk
        rw [hd.contains hz hk] at hcached
        cases hcached
      simp [hcached', and_comm]
    | true => cases d'.records.contains h <;> simp [and_comm, and_assoc, and_left_comm]

theorem exists_since_concat {α : Type} {P Q : α → Prop} (l : List α) (a : α) :
    (∃ early x late, l ++ [a] = early ++ x :: late ∧ P x ∧ ∀ y ∈ late, ¬Q y) ↔
      P a ∨ (∃ early x late, l = early ++ x :: late ∧ P x ∧ ∀ y ∈ late, ¬Q y) ∧ ¬Q a := by
  constructor
  · rintro ⟨early, x, late, he, hp, hq⟩
    rcases List.eq_nil_or_concat' late with rfl | ⟨late, b, rfl⟩
    · obtain ⟨_, hx⟩ := List.append_inj' he rfl
      cases hx
      exact .inl hp
    · rw [← List.cons_append, ← List.append_assoc] at he
      obtain ⟨hbut, hb⟩ := List.append_inj' he rfl
      cases hb
      have hlate : ∀ y ∈ late, ¬Q y := fun y hy => hq y (List.mem_append_left _ hy)
      have ha := hq a (List.mem_append_right _ List.mem_cons_self)
      exact .inr ⟨⟨early, x, late, hbut, hp, hlate⟩, ha⟩
  · rintro (hp | ⟨⟨early, x, late, rfl, hp, hq⟩, ha⟩)
    · exact ⟨l, a, [], rfl, hp, fun _ hy => absurd hy List.not_mem_nil⟩
    · refine ⟨early, x, late ++ [a], by simp, hp, ?_⟩
      intro y hy
      rcases List.mem_append.1 hy with hy | hy
      · exact hq y hy
      · rwa [List.mem_singleton.1 hy]

theorem Run.dangles_iff (hrun : Run start calls db) (hw : start.dirty.WellFormed [])
    (hd : start.dirty.dangles h = false) : db.dirty.dangles h ↔
      ∃ early call late, calls = early ++ call :: late ∧ call.orphans h ∧
        ∀ c ∈ late, ¬c.reclaims h := by
  induction hrun with
  | nil => simp [hd]
  | snoc hrun he ih =>
    rw [dangles_exec (hrun.wellFormed hw) he, ih, exists_since_concat]

theorem roots_zero_exec (hw : db.dirty.WellFormed order) (he : c.exec db = some db')
    (hz : db.dirty.roots[Hash.zero]? = none) : db'.dirty.roots[Hash.zero]? = none := by
  have hchange := c.change hw he
  generalize db'.dirty = d' at hchange ⊢
  cases hchange with
  | inserted hi => rwa [Dirty.roots_insert hw.rooted.contains]
  | @referenced child parent hc =>
    rw [Dirty.roots_reference hw.rooted.contains]
    split
    · next ht =>
      have hne : child ≠ Hash.zero := by
        rintro rfl
        simp [Dirty.tracks, Hash.isZero] at ht
      rwa [Map.get_insert, if_neg hne]
    · exact hz
  | departed hi hd =>
    rw [hd.roots, hz, ite_self]

theorem Run.roots_zero (hrun : Run start calls db) (hw : start.dirty.WellFormed [])
    (hz : start.dirty.roots[Hash.zero]? = none) : db.dirty.roots[Hash.zero]? = none := by
  induction hrun with
  | nil => exact hz
  | snoc hrun he ih => exact roots_zero_exec (hrun.wellFormed hw) he ih

theorem Dirty.size_le_liveNodes {d : Dirty} (hz : d.records.contains Hash.zero) {m : HashMap Nat}
    (hm : ∀ k, m.contains k → k ∈ d.hashes) : m.size ≤ d.liveNodes := by
  have hle : m.keys.length ≤ d.nodes.keys.length := by
    apply (List.subperm_of_subset Std.ExtTreeMap.nodup_keys _).length_le
    intro k hk
    rw [Std.ExtTreeMap.mem_keys, ← Std.ExtTreeMap.contains_iff_mem] at hk ⊢
    exact mem_hashes.1 (hm k hk)
  rw [Std.ExtTreeMap.length_keys, Std.ExtTreeMap.length_keys] at hle
  rw [liveNodes, size_records hz]
  exact hle

section Main

variable {disk : Store.Disk} {counters : Counters} {log : List Event} {files : Directory}
  {place : String → String} {config : Config}

/-- In every run the meta-root has an edge to a hash that is not cached just if a call has orphaned
it, and no later call has reclaimed it; only making room and dropping what is stale below another
node can do that. As long as it has not been done all edges lead to cached nodes, and there are no
more of them than nodes. -/
theorem anchors_dangle_iff
    (hrun : Run (.new disk counters log files place config) calls db) :
    (∀ h, db.dirty.dangles h ↔ ∃ early call late, calls = early ++ call :: late ∧
      call.orphans h ∧ ∀ c ∈ late, ¬c.reclaims h) ∧
    (∀ call ∈ calls, ∀ h, call.orphans h → (∃ limit order, call.command = .cap limit order) ∨
      ∃ root, call.command.swept = some root ∧ root ≠ h) ∧
    ((∀ call ∈ calls, ∀ h, ¬call.orphans h) →
      (∀ h, db.dirty.roots.contains h → h ∈ db.dirty.hashes) ∧
        db.dirty.roots.size ≤ db.dirty.liveNodes) := by
  have hw := hrun.wellFormed Database.wellFormed_new
  have hnew : (Database.new disk counters log files place config).dirty.roots = ∅ := by
    rw [Database.dirty_new]
    rfl
  have hdangles : ∀ h, db.dirty.dangles h ↔ ∃ early call late, calls = early ++ call :: late ∧
      call.orphans h ∧ ∀ c ∈ late, ¬c.reclaims h := by
    intro h
    apply hrun.dangles_iff Database.wellFormed_new
    rw [Dirty.dangles, hnew, Std.ExtTreeMap.contains_empty, Bool.false_and]
  have hzero := hrun.roots_zero Database.wellFormed_new (by
    rw [hnew, Std.ExtTreeMap.getElem?_empty])
  refine ⟨hdangles, ?_, ?_⟩
  · intro call hm h ho
    obtain ⟨_, hprior, _⟩ := hrun.prior hm
    exact Call.cap_or_sweep_of_orphans (hprior.wellFormed Database.wellFormed_new) ho
  intro hnone
  have hcached : ∀ h, db.dirty.roots.contains h → h ∈ db.dirty.hashes := by
    intro h hr
    have hz : Hash.zero ≠ h := by
      rintro rfl
      rw [Map.contains_eq_false_iff.2 hzero] at hr
      cases hr
    by_contra hn
    rw [Dirty.mem_hashes, Dirty.nodes, Map.contains_erase, and_iff_right hz] at hn
    have hd : db.dirty.dangles h := by simp [Dirty.dangles, hr, hn]
    obtain ⟨early, call, late, rfl, ho, _⟩ := (hdangles h).1 hd
    exact hnone call (List.mem_append_right _ List.mem_cons_self) h ho
  exact ⟨hcached, Dirty.size_le_liveNodes hw.rooted.contains hcached⟩

end Main

/-- Three roots, of which one is committed and one dropped as stale. -/
def commitRootAndSweepRoot : List Command :=
  [.insertBlob (.fill 1) [1], .insertBlob (.fill 2) [2], .insertBlob (.fill 3) [3],
    .reference (.fill 1) .zero, .reference (.fill 2) .zero, .reference (.fill 3) .zero,
    .commit (.fill 1) false true, .nextVersion, .dereference (.fill 2)]

theorem anchors_lead_to_nodes_after_commit_and_sweep :
    ∃ calls db, Run (.new {} {} [] {} id {}) calls db ∧ db.dirty.roots.toList = [(.fill 3, 1)] ∧
      (∀ h, db.dirty.roots.contains h → h ∈ db.dirty.hashes) ∧
      db.dirty.roots.size ≤ db.dirty.liveNodes := by
  have hcheck : ((Database.new {} {} [] {} id {}).run commitRootAndSweepRoot).any (fun r =>
      decide (∀ call ∈ r.1, ∀ h ∈ call.before.dirty.roots.keys, ¬call.orphans h) &&
        decide (r.2.dirty.roots.toList = [(.fill 3, 1)])) := by
    decide +kernel
  obtain ⟨⟨calls, db⟩, hr, hcheck⟩ := (Option.any_eq_true _ _).1 hcheck
  rw [Bool.and_eq_true, decide_eq_true_eq, decide_eq_true_eq] at hcheck
  have hnone : ∀ call ∈ calls, ∀ h, ¬call.orphans h := by
    intro call hm h ho
    have hroots : h ∈ call.before.dirty.roots.keys := by
      simp only [Call.orphans, Bool.and_eq_true] at ho
      exact Std.ExtTreeMap.mem_keys.2 (Std.ExtTreeMap.contains_iff_mem.1 ho.1.1.1)
    exact hcheck.1 call hm h hroots ho
  obtain ⟨_, _, hcached⟩ := anchors_dangle_iff (Run.of_run hr)
  exact ⟨calls, db, Run.of_run hr, hcheck.2, hcached hnone⟩

/-- A root that is flushed to make room leaves an edge of the meta-root behind. -/
theorem anchor_dangles_after_cap :
    ∃ calls db, Run (.new {} {} [] {} id {}) calls db ∧
      calls.map Call.command =
        [.insertBlob (.fill 0x11) [1], .reference (.fill 0x11) .zero, .cap 0] ∧
      db.dirty.roots.contains (.fill 0x11) ∧ db.dirty.hashes = [] ∧
      ¬db.dirty.roots.size ≤ db.dirty.liveNodes := by
  have hcheck : ((Database.new {} {} [] {} id {}).run
      [.insertBlob (.fill 0x11) [1], .reference (.fill 0x11) .zero, .cap 0]).any (fun r =>
        r.2.dirty.roots.contains (.fill 0x11) && decide (r.2.dirty.hashes = []) &&
          decide (¬r.2.dirty.roots.size ≤ r.2.dirty.liveNodes)) := by
    decide +kernel
  obtain ⟨⟨calls, db⟩, hr, hcheck⟩ := (Option.any_eq_true _ _).1 hcheck
  simp only [Bool.and_eq_true, decide_eq_true_eq] at hcheck
  exact ⟨calls, db, Run.of_run hr, Run.commands_of_run hr, hcheck.1.1, hcheck.1.2, hcheck.2⟩

end TrieCache
