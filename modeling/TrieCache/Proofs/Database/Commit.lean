import TrieCache.Database.Commit
import TrieCache.Proofs.Database.Flush
import TrieCache.Proofs.Dirty.Walk

namespace TrieCache.Database

open Store (Op)
open Store.Writer (Outcome Wrote)

variable {db db' db'' : Database} {w : Store.Writer} {nodes : List (Hash × Bytes)}
  {order : List Hash} {arrangement : Dirty.Arrangement} {root k : Hash}

/-- Written nodes have moved to the clean cache, and some of them have left memory. -/
structure Settles (nodes : List (Hash × Bytes)) (db db' : Database) : Prop where
  shrinks : db.dirty.Shrinks db'.dirty
  gone : ∀ k, db.dirty.records.contains k → db'.dirty.records.contains k = false →
    k ∈ nodes.map Prod.fst
  cleans : ∀ k v, db'.clean? k = some v → db.clean? k = some v ∨ (k, v) ∈ nodes
  disk : db'.disk = db.disk
  config : db'.config = db.config

namespace Settles

theorem refl (db : Database) : Settles [] db db where
  shrinks := .refl _
  gone _ hk hk' := absurd (hk.symm.trans hk') nofun
  cleans _ _ hk := .inl hk
  disk := rfl
  config := rfl

theorem append {nodes' : List (Hash × Bytes)} (h₁ : Settles nodes db db')
    (h₂ : Settles nodes' db' db'') : Settles (nodes ++ nodes') db db'' where
  shrinks := h₁.shrinks.trans h₂.shrinks
  gone k hk hk'' := by
    rw [List.map_append, List.mem_append]
    cases hk' : db'.dirty.records.contains k with
    | true => exact .inr (h₂.gone k hk' hk'')
    | false => exact .inl (h₁.gone k hk hk')
  cleans k v hk := by
    rw [List.mem_append]
    rcases h₂.cleans k v hk with hk | hk
    · rcases h₁.cleans k v hk with hk | hk
      · exact .inl hk
      · exact .inr (.inl hk)
    · exact .inr (.inr hk)
  disk := h₂.disk.trans h₁.disk
  config := h₂.config.trans h₁.config

theorem uncache (db : Database) {written : Hash × Bytes} (hz : written.1 ≠ Hash.zero) :
    Settles [written] db { db with dirty := db.dirty.uncache written.1 } where
  shrinks := .uncache _ hz
  gone k hk hk' := by
    rcases Dirty.contains_uncache_eq_false.1 hk' with rfl | hk'
    · exact List.mem_singleton_self _
    · exact absurd (hk.symm.trans hk') nofun
  cleans _ _ hk := .inl hk
  disk := rfl
  config := rfl

theorem setClean {cleans : Clean.Cache} {counters : Counters} (hc : db.cleans = some cleans)
    (written : Hash × Bytes) :
    Settles [written] db
      { db with cleans := some (cleans.set written.1 written.2), counters } where
  shrinks := .refl _
  gone _ hk hk' := absurd (hk.symm.trans hk') nofun
  cleans k v hk := by
    rcases Clean.Cache.find?_set hk with ⟨rfl, rfl⟩ | hk
    · exact .inr (List.mem_singleton_self _)
    · rw [clean?, hc]
      exact .inl hk
  disk := rfl
  config := rfl

theorem mono {nodes' : List (Hash × Bytes)} (h : Settles nodes db db')
    (hn : ∀ n ∈ nodes, n ∈ nodes') : Settles nodes' db db' where
  shrinks := h.shrinks
  gone k hk hk' := by
    obtain ⟨n, hm, he⟩ := List.mem_map.1 (h.gone k hk hk')
    exact List.mem_map.2 ⟨n, hn n hm, he⟩
  cleans k v hk := (h.cleans k v hk).imp_right (hn _)
  disk := h.disk
  config := h.config

theorem settle (uncache : Bool) (db : Database) {written : Hash × Bytes}
    (hz : written.1 ≠ Hash.zero) : Settles [written] db (db.settle uncache written) := by
  have h₁ : Settles [written] db
      (if uncache then { db with dirty := db.dirty.uncache written.1 } else db) := by
    split
    · exact .uncache db hz
    · exact (refl db).mono nofun
  rw [Database.settle]
  split
  · exact (refl db).mono nofun
  · dsimp only
    split
    · exact h₁
    · next cleans hc => exact (h₁.append (setClean hc written)).mono (by simp)

theorem settles_foldl (uncache : Bool) (db : Database) (hz : ∀ n ∈ nodes, n.1 ≠ Hash.zero) :
    Settles nodes db (nodes.foldl (Database.settle uncache) db) := by
  induction nodes generalizing db with
  | nil => exact refl db
  | cons n nodes ih =>
    have h₁ := settle uncache db (hz n List.mem_cons_self)
    exact h₁.append (ih _ fun m hm => hz m (List.mem_cons_of_mem n hm))

end Settles

theorem dirty_settle_false (db : Database) (written : Hash × Bytes) :
    (db.settle false written).dirty = db.dirty := by
  rw [settle, Bool.false_and, if_neg Bool.false_ne_true]
  dsimp only
  rw [if_neg Bool.false_ne_true]
  split <;> rfl

theorem dirty_settleAll_false (db : Database) (nodes : List (Hash × Bytes)) (w : Store.Writer) :
    (db.settleAll false nodes w).dirty = db.dirty := by
  rw [settleAll]
  generalize nodes.take w.settled = written
  suffices hs : ∀ db' : Database, (written.foldl (settle false) db').dirty = db'.dirty from hs _
  induction written with
  | nil => exact fun _ => rfl
  | cons n written ih =>
    intro db'
    rw [List.foldl_cons, ih, dirty_settle_false]

theorem settles_settleAll (uncache : Bool) (db : Database) (w : Store.Writer)
    (hz : ∀ n ∈ nodes, n.1 ≠ Hash.zero) :
    Settles (nodes.take w.settled) { db with disk := w.disk, counters := w.counters }
      (db.settleAll uncache nodes w) :=
  .settles_foldl uncache _ fun n hn => hz n (List.mem_of_mem_take hn)

theorem get_of_mem_pending {d : Dirty} {n : Hash × Bytes} (hn : n ∈ pending d arrangement root) :
    n.1 ∈ d.fresh ∧ ∃ r, d.records[n.1]? = some r ∧ n.2 = r.encoded := by
  obtain ⟨h, hh, hg⟩ := List.mem_filterMap.1 hn
  obtain ⟨r, hr, rfl⟩ := Option.map_eq_some_iff.1 hg
  exact ⟨Dirty.fresh_of_mem_freshClosure hh, r, hr, rfl⟩

def nodePuts (nodes : List (Hash × Bytes)) : List Op :=
  nodes.map fun n => Store.putNode n.1 n.2

theorem writePreimages_eq (db : Database) (arrangement : Dirty.Arrangement) :
    db.writePreimages arrangement =
    match db.dirty.preimages with
    | none => .ok (.start db.disk db.counters)
    | some _ =>
      (Store.Writer.addAll (preimagePuts db.dirty arrangement) (.start db.disk db.counters) >>=
        Store.Writer.flush) >>= fun w => .ok (.start w.disk w.counters) := by
  rw [writePreimages]
  cases db.dirty.preimages with
  | none => rfl
  | some preimages => exact (bind_assoc _ _ _).symm

theorem writePreimages_error {halt : Store.Halt}
    (hr : db.writePreimages arrangement = .error halt) :
    ∃ done refused, done ++ refused <+: preimagePuts db.dirty arrangement ∧
      Wrote done refused (.start db.disk db.counters) halt.writer := by
  rw [writePreimages_eq] at hr
  split at hr
  · cases hr
  · cases hf : Store.Writer.addAll (preimagePuts db.dirty arrangement)
        (.start db.disk db.counters) >>= Store.Writer.flush with
    | error halt' =>
      rw [hf] at hr
      cases hr
      exact Store.Writer.wrote_of_error (Outcome.addAll _ _) hf
    | ok w =>
      rw [hf] at hr
      cases hr

theorem writePreimages_ok (hr : db.writePreimages arrangement = .ok w) :
    ∃ disk counters, w = .start disk counters ∧
      Stores db { db with disk } (preimagePuts db.dirty arrangement) ∧
      db.disk.Logs disk (preimagePuts db.dirty arrangement) [] := by
  rw [writePreimages_eq] at hr
  split at hr
  · next hp =>
    cases hr
    rw [preimagePuts, Dirty.preimageList, hp]
    exact ⟨db.disk, db.counters, rfl, ⟨rfl, rfl⟩, .refl db.disk⟩
  · cases hf : Store.Writer.addAll (preimagePuts db.dirty arrangement)
        (.start db.disk db.counters) >>= Store.Writer.flush with
    | error halt =>
      rw [hf] at hr
      cases hr
    | ok w' =>
      rw [hf] at hr
      cases hr
      obtain ⟨hw, _⟩ := Store.Writer.wrote_of_ok (Outcome.addAll _ _) hf
      exact ⟨w'.disk, w'.counters, rfl, .of_wrote hw rfl, hw.logs⟩

def settledNodes (db : Database) (arrangement : Dirty.Arrangement) (root : Hash)
    (w : Store.Writer) : List (Hash × Bytes) :=
  (pending db.dirty arrangement root).take w.settled

/-- What a commit has written once it writes nodes: all preimages, and the first of its nodes. What
it was refused comes next. -/
structure WritesNodes (db : Database) (arrangement : Dirty.Arrangement) (root : Hash)
    (w : Store.Writer) : Prop where
  stores : Stores db { db with disk := w.disk }
    (preimagePuts db.dirty arrangement ++ nodePuts (db.settledNodes arrangement root w))
  logs : ∃ refused,
    db.disk.Logs w.disk
      (preimagePuts db.dirty arrangement ++ nodePuts (db.settledNodes arrangement root w))
      refused ∧
    nodePuts (db.settledNodes arrangement root w) ++ refused <+:
      nodePuts (pending db.dirty arrangement root)

/-- A commit settles the nodes that are written by its end; if it succeeds these are all nodes, and
none is fresh any more. -/
theorem commit_cases {report uncache : Bool} {result : Except Error Unit}
    (hc : db.commit arrangement root report uncache = (result, db')) :
    (∃ done refused, done ++ refused <+: preimagePuts db.dirty arrangement ∧ Stores db db' done ∧
      db.disk.Logs db'.disk done refused ∧ db'.dirty = db.dirty ∧
      db'.cleans = db.cleans ∧ db'.config = db.config ∧ ∃ e, result = .error e) ∨
    ∃ w : Store.Writer, db.WritesNodes arrangement root w ∧
      ((∃ e, result = .error e ∧
        db' = (db.settleAll uncache (pending db.dirty arrangement root) w).report
          (.commitFailed root e)) ∨
      result = .ok () ∧ settledNodes db arrangement root w = pending db.dirty arrangement root ∧
        db' = (db.settleAll uncache (pending db.dirty arrangement root) w).finish
          root report db.dirty) := by
  rw [commit] at hc
  split at hc
  · next halt hr =>
    cases hc
    obtain ⟨done, refused, hdone, hw⟩ := writePreimages_error hr
    exact .inl ⟨done, refused, hdone, .of_wrote hw rfl, hw.logs, rfl, rfl, rfl, _, rfl⟩
  · next w₀ hr =>
    obtain ⟨disk, counters, rfl, hpre, hlogs⟩ := writePreimages_ok hr
    right
    have hwrites : ∀ {done refused : List Op} {w : Store.Writer},
        Wrote done refused (.start disk counters) w →
        done ++ refused <+: [] ++ nodePuts (pending db.dirty arrangement root) →
        db.WritesNodes arrangement root w := by
      intro done refused w hw hp
      have hlen : w.settled = done.length := hw.settled.trans (Nat.zero_add _)
      have hdone : done = nodePuts (db.settledNodes arrangement root w) := by
        rw [settledNodes, hlen, nodePuts, List.map_take]
        exact List.prefix_iff_eq_take.1 ((List.prefix_append _ _).trans hp)
      subst hdone
      exact ⟨hpre.append hw, refused, hlogs.append hw.logs, hp⟩
    dsimp only at hc
    split at hc
    · next halt hflush =>
      cases hc
      obtain ⟨done, refused, hp, hw⟩ := Store.Writer.wrote_of_error (Outcome.pour _ _ _) hflush
      exact ⟨halt.writer, hwrites hw hp, .inl ⟨_, rfl, rfl⟩⟩
    · next w hflush =>
      cases hc
      obtain ⟨hw, _⟩ := Store.Writer.wrote_of_ok (Outcome.pour _ _ _) hflush
      have hall : db.settledNodes arrangement root w = pending db.dirty arrangement root := by
        have hlen : w.settled = (pending db.dirty arrangement root).length := by
          rw [hw.settled]
          simp [Store.Writer.start, Store.Batch.empty]
        rw [settledNodes, hlen, List.take_length]
      have hp : [] ++ nodePuts (pending db.dirty arrangement root) ++ [] <+:
          [] ++ nodePuts (pending db.dirty arrangement root) :=
        (List.append_nil _).symm ▸ List.prefix_refl _
      exact ⟨w, hwrites hw hp, .inr ⟨rfl, hall, rfl⟩⟩

theorem trims_finish (db : Database) (root : Hash) (report : Bool) (before : Dirty) :
    db.dirty.Trims (db.finish root report before).dirty := by
  have hfresh : db.dirty.clearPreimages.Trims (db.finish root report before).dirty := by
    apply Dirty.Trims.of_eq
    case hfresh =>
      intro k hk
      exact absurd hk Std.ExtTreeSet.not_mem_empty
    all_goals rfl
  exact (trims_clearPreimages db.dirty).trans hfresh

section Flushes

theorem owned_of_nodePuts {d : Dirty} {op : Op} (ho : op ∈ nodePuts nodes)
    (hn : ∀ n ∈ nodes, n.1 ≠ Hash.zero ∧ ∃ r, d.records[n.1]? = some r ∧ n.2 = r.encoded) :
    Owned d op := by
  obtain ⟨n, hm, rfl⟩ := List.mem_map.1 ho
  obtain ⟨hz, r, hr, he⟩ := hn n hm
  exact .inr ⟨n.1, r, hz, hr, by rw [he]⟩

theorem Flushes.of_settles {disk : Store.Disk} {counters : Counters} {db₁ : Database}
    (hs : Settles nodes { db with disk, counters } db₁)
    (hstores : Stores db { db with disk } (preimagePuts db.dirty arrangement ++ nodePuts nodes))
    (hn : ∀ n ∈ nodes, n.1 ≠ Hash.zero ∧ ∃ r, db.dirty.records[n.1]? = some r ∧ n.2 = r.encoded)
    (ht : db₁.dirty.Trims db'.dirty) (hrecords : db'.dirty.records = db₁.dirty.records)
    (huseless : db'.dirty.useless = db₁.dirty.useless) (hcleans : db'.cleans = db₁.cleans)
    (hdisk : db'.disk = db₁.disk) (hconfig : db'.config = db₁.config) :
    Flushes db db' (preimagePuts db.dirty arrangement ++ nodePuts nodes) where
  trims := (Dirty.Trims.of_shrinks hs.shrinks).trans ht
  useless := huseless.trans hs.shrinks.useless
  stores := by
    have hd : db'.disk = disk := hdisk.trans hs.disk
    exact ⟨hd ▸ hstores.table, hd ▸ hstores.readsFail⟩
  owned op ho := by
    rcases List.mem_append.1 ho with ho | ho
    · exact owned_of_preimagePuts ho db.dirty
    · exact owned_of_nodePuts ho hn
  written k r hr hk := by
    rw [hrecords] at hk
    obtain ⟨n, hm, rfl⟩ := List.mem_map.1 (hs.gone k (Map.contains_of_get hr) hk)
    obtain ⟨_, r', hr', he⟩ := hn n hm
    rw [hr, Option.some.injEq] at hr'
    subst hr'
    rw [← he]
    exact List.mem_append_right _ (List.mem_map_of_mem (f := fun n => Store.putNode n.1 n.2) hm)
  cleans k v hk := by
    rw [clean?, hcleans] at hk
    apply (hs.cleans k v hk).imp_right
    intro hm
    apply List.mem_append_right
    exact List.mem_map_of_mem (f := fun n => Store.putNode n.1 n.2) hm
  config := hconfig.trans hs.config

/-- Whether or not a commit succeeds, a node that leaves memory is written. -/
theorem flushes_of_commit {report uncache : Bool} {result : Except Error Unit}
    (hw : db.dirty.WellFormed order)
    (hc : db.commit arrangement root report uncache = (result, db')) :
    ∃ ops, Flushes db db' ops := by
  have hn : ∀ n ∈ pending db.dirty arrangement root,
      n.1 ≠ Hash.zero ∧ ∃ r, db.dirty.records[n.1]? = some r ∧ n.2 = r.encoded := by
    intro n hm
    obtain ⟨hf, hr⟩ := get_of_mem_pending hm
    exact ⟨((hw.mem_order n.1).1 (hw.fresh n.1 hf)).1, hr⟩
  rcases commit_cases hc with ⟨done, refused, hdone, hs, _, hd, hcleans, hconfig, _⟩ |
    ⟨w, hwrites, hfinal⟩
  · have hdone' : done <+: preimagePuts db.dirty arrangement := (List.prefix_append _ _).trans hdone
    exact ⟨done, .of_dirty_eq hd hcleans hconfig hs fun op ho =>
      owned_of_preimagePuts (hdone'.subset ho) db.dirty⟩
  · have hs := settles_settleAll uncache db w fun n hm => (hn n hm).1
    have hn' := fun n hm => hn n (List.mem_of_mem_take (i := w.settled) hm)
    refine ⟨_, .of_settles hs hwrites.stores hn' ?_ ?_ ?_ ?_ ?_ ?_⟩
    all_goals rcases hfinal with ⟨e, _, rfl⟩ | ⟨_, _, rfl⟩
    · exact .refl _
    · exact trims_finish _ root report db.dirty
    · rfl
    · exact records_clearPreimages _
    · rfl
    · exact useless_clearPreimages _
    all_goals rfl

theorem version_clearPreimages (d : Dirty) : d.clearPreimages.version = d.version :=
  (trims_clearPreimages d).version

theorem commit_false {report : Bool} {result : Except Error Unit}
    (hc : db.commit arrangement root report false = (result, db')) :
    db'.dirty.records = db.dirty.records ∧ db'.dirty.version = db.dirty.version := by
  rcases commit_cases hc with ⟨_, _, _, _, _, hd, _⟩ | ⟨w, _, hfinal⟩
  · exact ⟨by rw [hd], by rw [hd]⟩
  · have hd : (db.settleAll false (pending db.dirty arrangement root) w).dirty = db.dirty :=
      dirty_settleAll_false ..
    rcases hfinal with ⟨e, _, rfl⟩ | ⟨_, _, rfl⟩
    · exact ⟨congrArg Dirty.records hd, congrArg Dirty.version hd⟩
    · exact ⟨(records_clearPreimages _).trans (congrArg Dirty.records hd),
        (version_clearPreimages _).trans (congrArg Dirty.version hd)⟩

end Flushes

end TrieCache.Database
