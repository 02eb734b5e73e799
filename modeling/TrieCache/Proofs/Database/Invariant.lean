import Mathlib.Data.List.Dedup
import TrieCache.Proofs.Database.Run

namespace TrieCache

section Dedup

variable {α : Type} [DecidableEq α]

theorem dedup_concat (l : List α) (a : α) :
    (l ++ [a]).dedup = l.dedup.filter (· ≠ a) ++ [a] := by
  induction l with
  | nil => rfl
  | cons b l ih =>
    by_cases hb : b ∈ l
    · rw [List.cons_append, List.dedup_cons_of_mem (List.mem_append_left _ hb), ih,
        List.dedup_cons_of_mem hb]
    · rw [List.dedup_cons_of_notMem hb, List.filter_cons, List.cons_append]
      by_cases he : b = a
      · subst b
        rw [List.dedup_cons_of_mem (List.mem_append_right _ (List.mem_singleton_self a)), ih,
          if_neg (by simp)]
      · have hm : b ∉ l ++ [a] := by
          rw [List.mem_append, List.mem_singleton, not_or]
          exact ⟨hb, he⟩
        rw [List.dedup_cons_of_notMem hm, ih, if_pos (decide_eq_true he), List.cons_append]

end Dedup

namespace Dirty

/-- The cached nodes in the order of the calls that have cached them. -/
def insertionOrder (d : Dirty) (calls : List Call) : List Hash :=
  (calls.filterMap Call.inserted).dedup.filter d.records.contains

variable {d d' : Dirty} {calls : List Call} {call : Call} {h : Hash}

theorem insertionOrder_of_not_inserted (hc : call.inserted = none)
    (hd : ∀ k, d'.records.contains k → d.records.contains k) :
    d'.insertionOrder (calls ++ [call]) =
      (d.insertionOrder calls).filter d'.records.contains := by
  have hnil : [call].filterMap Call.inserted = [] := by simp [hc]
  rw [insertionOrder, insertionOrder, List.filterMap_append, hnil, List.append_nil,
    List.filter_filter, filter_contains_of_imp hd]

theorem insertionOrder_of_inserted (hc : call.inserted = some h)
    (hd : ∀ k, d'.records.contains k ↔ h = k ∨ d.records.contains k)
    (hh : ¬d.records.contains h) :
    d'.insertionOrder (calls ++ [call]) = d.insertionOrder calls ++ [h] := by
  have hone : [call].filterMap Call.inserted = [h] := by simp [hc]
  have hnew : [h].filter d'.records.contains = [h] :=
    List.filter_eq_self.2 fun k hk => (hd k).2 (.inl (List.mem_singleton.1 hk).symm)
  rw [insertionOrder, insertionOrder, List.filterMap_append, hone, dedup_concat,
    List.filter_append, hnew, List.filter_filter]
  congr 1
  apply List.filter_congr
  intro k _
  rw [Bool.eq_iff_iff, Bool.and_eq_true, hd, decide_eq_true_eq]
  constructor
  · rintro ⟨he | hk, hne⟩
    · exact absurd he.symm hne
    · exact hk
  · intro hk
    exact ⟨.inr hk, fun he => hh (he ▸ hk)⟩

end Dirty

variable {start db db' : Database} {c : Command} {calls : List Call} {order : List Hash}

theorem inserted_of_contains {h : Hash} {content : Dirty.Content} {size : Nat}
    (hc : c.insertion = some (h, content, size)) (hh : db.dirty.records.contains h) :
    (Call.mk db c).inserted = none := by
  rw [Call.inserted, hc, Option.map_some, Option.filter_some_neg (by simp [hh])]

theorem inserted_of_not_contains {h : Hash} {content : Dirty.Content} {size : Nat}
    (hc : c.insertion = some (h, content, size)) (hh : ¬db.dirty.records.contains h) :
    (Call.mk db c).inserted = some h := by
  rw [Call.inserted, hc, Option.map_some, Option.filter_some_pos (by simp [hh])]

theorem inserted_of_no_insertion (hc : c.insertion = none) : (Call.mk db c).inserted = none := by
  rw [Call.inserted, hc]
  rfl

theorem inserted_eq_some_iff {h k : Hash} {content : Dirty.Content} {size : Nat}
    (hi : c.insertion = some (k, content, size)) :
    (Call.mk db c).inserted = some h ↔ k = h ∧ db.dirty.records.contains h = false := by
  rw [Call.inserted, hi, Option.map_some, Option.filter_eq_some_iff, Option.some.injEq,
    Bool.not_eq_true']

/-- One call keeps the list in order. -/
theorem wellFormed_exec (hw : db.dirty.WellFormed (db.dirty.insertionOrder calls))
    (he : c.exec db = some db') :
    db'.dirty.WellFormed (db'.dirty.insertionOrder (calls ++ [⟨db, c⟩])) := by
  have heffect := (c.effect he).dirty hw
  have hkeep : ∀ {d' : Dirty}, (Call.mk db c).inserted = none →
      d'.WellFormed (db.dirty.insertionOrder calls) →
      d'.WellFormed (d'.insertionOrder (calls ++ [⟨db, c⟩])) := by
    intro d' hc hw'
    rw [Dirty.insertionOrder_of_not_inserted hc fun k hk => (hw.contains_iff k).2
      ((hw'.contains_iff k).1 hk), List.filter_eq_self.2 hw'.listed.cached]
    exact hw'
  generalize db'.dirty = d' at heffect ⊢
  cases heffect with
  | @inserted h content size hc =>
    have hw' := hw.insert h content size
    have hd := Dirty.contains_insert db.dirty h content size
    by_cases hh : db.dirty.records.contains h
    · rw [if_pos hh] at hw'
      exact hkeep (inserted_of_contains hc hh) hw'
    · rw [if_neg hh] at hw'
      rw [Dirty.insertionOrder_of_inserted (inserted_of_not_contains hc hh) hd hh]
      exact hw'
  | referenced hc => exact hkeep (inserted_of_no_insertion (hc ▸ rfl)) (hw.reference _ _)
  | stamped hc => exact hkeep (inserted_of_no_insertion (hc ▸ rfl)) (hw.stamp _ _)
  | versioned hc => exact hkeep (inserted_of_no_insertion (hc ▸ rfl)) hw.nextVersion
  | trimmed hc ht =>
    rw [Dirty.insertionOrder_of_not_inserted (inserted_of_no_insertion hc) fun k => ht.contains]
    exact hw.trims ht

/-- One call keeps the counters, unless they outgrow a word. -/
theorem accounted_exec (hw : db.dirty.WellFormed order) (ha : db.dirty.Accounted)
    (he : c.exec db = some db') (hb : db'.dirty.bytes ≤ wordMax) : db'.dirty.Accounted := by
  have heffect := (c.effect he).dirty hw
  generalize db'.dirty = d' at heffect hb ⊢
  cases heffect with
  | inserted _ => exact ha.insert hw.rooted.contains hb
  | referenced _ => exact ha.reference hw.rooted hb
  | stamped _ => exact ha.stamp _ _
  | versioned _ => exact .of_measures (d := db.dirty) (fun _ => rfl) ha rfl rfl
  | trimmed _ ht => exact ht.accounted ha

theorem Run.wellFormed (hrun : Run start calls db) (hw : start.dirty.WellFormed []) :
    db.dirty.WellFormed (db.dirty.insertionOrder calls) := by
  induction hrun with
  | nil => exact hw
  | snoc _ he ih => exact wellFormed_exec ih he

theorem Run.accounted (hrun : Run start calls db) (hw : start.dirty.WellFormed [])
    (ha : start.dirty.Accounted) (hcalls : ∀ call ∈ calls, call.before.dirty.bytes ≤ wordMax)
    (hb : db.dirty.bytes ≤ wordMax) : db.dirty.Accounted := by
  induction hrun with
  | nil => exact ha
  | snoc hrun he ih =>
    have hlast := hcalls _ (List.mem_append_right _ (List.mem_singleton_self _))
    have ha' := ih (fun call hm => hcalls call (List.mem_append_left _ hm)) hlast
    exact accounted_exec (hrun.wellFormed hw) ha' he hb

section Main

variable {disk : Store.Disk} {counters : Counters} {log : List Event} {files : Directory}
  {place : String → String} {config : Config}

theorem Database.dirty_new :
    (new disk counters log files place config).dirty = .new config.preimages := by
  rw [new]
  split
  · rfl
  · split <;> rfl

theorem Database.wellFormed_new :
    (new disk counters log files place config).dirty.WellFormed [] := by
  rw [dirty_new]
  exact .new config.preimages

theorem Database.accounted_new :
    (new disk counters log files place config).dirty.Accounted := by
  rw [dirty_new]
  exact .new config.preimages

/-- Along every run, whatever writes fail, the flush list leads in both directions through the
cached nodes in the order in which they were last inserted, the counters are the sums of what the
nodes and their edges cost, and fresh nodes are cached. -/
theorem flush_list_and_counters_of_run
    (hrun : Run (.new disk counters log files place config) calls db)
    (hcalls : ∀ call ∈ calls, call.before.dirty.bytes ≤ wordMax)
    (hb : db.dirty.bytes ≤ wordMax) :
    (db.dirty.insertionOrder calls).Nodup ∧
    (∀ h, h ∈ db.dirty.insertionOrder calls ↔ h ≠ Hash.zero ∧ db.dirty.records.contains h) ∧
    (∀ limit, db.dirty.flush.forward db.dirty.records limit =
      (db.dirty.insertionOrder calls).take limit) ∧
    (∀ limit, db.dirty.flush.backward db.dirty.records limit =
      (db.dirty.insertionOrder calls).reverse.take limit) ∧
    db.dirty.dirtiesSize = Map.total db.dirty.nodes Dirty.Record.trueSize ∧
    db.dirty.childrenSize = Map.total db.dirty.nodes Dirty.Record.edgeBytes +
      Dirty.edgeCost * db.dirty.roots.size ∧
    db.dirty.memorySize = Map.total db.dirty.nodes Dirty.Record.bytes ∧
    ∀ h ∈ db.dirty.fresh, h ≠ Hash.zero ∧ db.dirty.records.contains h := by
  have hw := hrun.wellFormed Database.wellFormed_new
  have ha := hrun.accounted Database.wellFormed_new Database.accounted_new hcalls hb
  refine ⟨hw.listed.nodup, hw.mem_order, hw.listed.forward, hw.listed.backward, ha.dirties_eq hb,
    ha.children_eq hb, ha.memorySize_eq hb hw.rooted.contains, ?_⟩
  intro h hf
  exact (hw.mem_order h).1 (hw.fresh h hf)

end Main

/-- Two nodes are cached, committed in spite of a failure, dropped as stale and cached again the
other way round. -/
def sweepAndCacheAgain : List Command :=
  [.insertBlob (.fill 1) [1, 2, 3], .insertBlob (.fill 2) [4], .reference (.fill 1) (.fill 2),
    .arm { writesLeft := some 0 }, .cap 0, .arm {}, .commit (.fill 2) false false,
    .nextVersion, .dereference (.fill 2), .insertBlob (.fill 2) [5], .insertBlob (.fill 1) [6]]

theorem flush_list_of_reinsertion :
    ∃ calls db, Run (.new {} {} [] {} id {}) calls db ∧
      (∀ call ∈ calls, call.before.dirty.bytes ≤ wordMax) ∧ db.dirty.bytes ≤ wordMax ∧
      (∀ limit, db.dirty.flush.forward db.dirty.records limit =
        [Hash.fill 2, Hash.fill 1].take limit) ∧
      db.dirty.memorySize = Map.total db.dirty.nodes Dirty.Record.bytes := by
  have hsome : ((Database.new {} {} [] {} id {}).run sweepAndCacheAgain).isSome := by decide +kernel
  obtain ⟨⟨calls, db⟩, hr⟩ := Option.isSome_iff_exists.1 hsome
  have hrun := Run.of_run hr
  have horder : ((Database.new {} {} [] {} id {}).run sweepAndCacheAgain).map
      (fun r => r.2.dirty.insertionOrder r.1) = some [.fill 2, .fill 1] := by decide +kernel
  have hfits : ((Database.new {} {} [] {} id {}).run sweepAndCacheAgain).map (fun r =>
      decide (∀ call ∈ r.1, call.before.dirty.bytes ≤ wordMax) &&
        decide (r.2.dirty.bytes ≤ wordMax)) = some true := by decide +kernel
  rw [hr, Option.map_some, Option.some.injEq] at horder hfits
  rw [Bool.and_eq_true, decide_eq_true_eq, decide_eq_true_eq] at hfits
  obtain ⟨_, _, hforward, _, _, _, hmemory, _⟩ :=
    flush_list_and_counters_of_run hrun hfits.1 hfits.2
  rw [horder] at hforward
  exact ⟨calls, db, hrun, hfits.1, hfits.2, hforward, hmemory⟩

end TrieCache
