import TrieCache.Proofs.Database.Failure

namespace TrieCache

open Dirty (Reaches)
open Store (Op putNode)

/-- The database on a disk that fails in another way from now on. -/
def Database.armed (db : Database) (f : Faults) : Database := { db with disk := db.disk.arm f }

namespace Dirty

variable {d d' : Dirty} {gone order : List Hash} {o₁ o₂ o₃ : Arrangement} {root k : Hash}
  {n : Hash × Bytes}

theorem WellFormed.fresh_ne_zero (hw : d.WellFormed order) (hk : k ∈ d.fresh) : k ≠ Hash.zero :=
  ((hw.mem_order k).1 (hw.fresh k hk)).1

theorem freshEdges_without (hw : d.WellFormed order) (hleft : Without gone d d') :
    d'.freshEdges = restrict (· ∉ gone) d.freshEdges := by
  funext h
  rw [freshEdges, freshEdges, restrict, restrict, restrict]
  by_cases hgone : h ∈ gone
  · rw [if_neg fun hf => ((hleft.fresh h).1 hf).2 hgone, if_neg (not_not.2 hgone)]
  rw [if_pos hgone]
  by_cases hf : h ∈ d.fresh
  · rw [if_pos ((hleft.fresh h).2 ⟨hf, hgone⟩), if_pos hf]
    exact hleft.map_eq (hw.fresh_ne_zero hf) hgone Record.children
  · rw [if_neg fun hf' => hf ((hleft.fresh h).1 hf').1, if_neg hf]

/-- After some nodes have been written and uncached the others are still reached, whatever cycles
there are. -/
theorem mem_freshClosure_without (hw : d.WellFormed order) (hleft : Without gone d d')
    (hfirst : gone <+: d.freshClosure o₁ root) :
    k ∈ d'.freshClosure o₂ root ↔ k ∈ d.freshClosure o₃ root ∧ k ∉ gone := by
  obtain ⟨late, hlate⟩ := hfirst
  have hn := nodup_freshClosure d o₁ root
  rw [← hlate] at hn
  have hsame : k ∈ d.freshClosure o₃ root ↔ k ∈ gone ++ late := by
    rw [hlate, mem_freshClosure, mem_freshClosure]
  rw [mem_freshClosure, freshEdges_without hw hleft, ← mem_late_freshClosure hlate.symm, hsame,
    List.mem_append]
  constructor
  · intro hm
    exact ⟨.inr hm, fun hg => List.disjoint_of_nodup_append hn hg hm⟩
  · rintro ⟨hm, hg⟩
    exact hm.resolve_left hg

theorem freshClosure_perm (hw : d.WellFormed order) (hleft : Without gone d d')
    (hfirst : gone <+: d.freshClosure o₁ root) :
    (gone ++ d'.freshClosure o₂ root).Perm (d.freshClosure o₃ root) := by
  have hmem : ∀ k, k ∈ d'.freshClosure o₂ root ↔ k ∈ d.freshClosure o₃ root ∧ k ∉ gone :=
    fun k => mem_freshClosure_without hw hleft hfirst
  have hgone : ∀ k ∈ gone, k ∈ d.freshClosure o₃ root := by
    intro k hk
    exact mem_freshClosure.2 (mem_freshClosure.1 (hfirst.subset hk))
  have hnodup : (gone ++ d'.freshClosure o₂ root).Nodup := by
    apply (hfirst.sublist.nodup (nodup_freshClosure ..)).append (nodup_freshClosure ..)
    exact fun k hk hk' => ((hmem k).1 hk').2 hk
  rw [List.perm_ext_iff_of_nodup hnodup (nodup_freshClosure ..)]
  intro k
  rw [List.mem_append, hmem]
  constructor
  · exact fun hk => hk.elim (hgone k) And.left
  · exact fun hk => (em (k ∈ gone)).imp_right fun hg => ⟨hk, hg⟩

theorem mem_pending_without (hw : d.WellFormed order) (hleft : Without gone d d')
    (hfirst : gone <+: d.freshClosure o₁ root) :
    n ∈ Database.pending d' o₂ root ↔ n ∈ Database.pending d o₃ root ∧ n.1 ∉ gone := by
  have hreach : Reaches d'.freshEdges root n.1 ↔ Reaches d.freshEdges root n.1 ∧ n.1 ∉ gone := by
    have hmem : n.1 ∈ d'.freshClosure o₂ root ↔ n.1 ∈ d.freshClosure o₃ root ∧ n.1 ∉ gone :=
      mem_freshClosure_without hw hleft hfirst
    rwa [mem_freshClosure, mem_freshClosure] at hmem
  rw [mem_pending_iff, mem_pending_iff, hreach, and_right_comm]
  refine and_congr_left fun hg => and_congr_right fun hr => ?_
  have hf := ((isSome_freshEdges d n.1).1 hr.isSome_right).1
  have hencoded := hleft.map_eq (hw.fresh_ne_zero hf) hg Record.encoded
  have hget : ∀ d : Dirty, (∃ r, d.records[n.1]? = some r ∧ n.2 = r.encoded) ↔
      d.records[n.1]?.map (Record.encoded ∘ Record.body) = some n.2 := by
    intro d
    rw [Option.map_eq_some_iff]
    exact exists_congr fun r => and_congr_right fun _ => eq_comm
  rw [hget, hget, hencoded]

end Dirty

namespace Database

variable {db : Database} {d d₁ d₂ d₃ : Dirty} {arrangement o₁ o₂ o₃ : Dirty.Arrangement}
  {root : Hash} {report uncache : Bool} {order : List Hash} {nodes : List (Hash × Bytes)}

theorem commit_ok_of_healthy (hd : db.disk.Healthy) :
    (db.commit arrangement root report uncache).1 = .ok () := by
  have hpre : Store.Writer.GoesOn (db.writePreimages arrangement) := by
    rw [writePreimages_eq]
    split
    · exact ⟨_, rfl, hd⟩
    · apply Store.Writer.GoesOn.bind
      · exact (Store.Writer.GoesOn.addAll _ hd).bind fun _ => Store.Writer.GoesOn.flush
      · exact fun w hw => ⟨_, rfl, hw⟩
  obtain ⟨w, hw, hhealthy⟩ := hpre
  obtain ⟨w', hw', _⟩ : Store.Writer.GoesOn
      (Store.Writer.pour (fun size => decide (Store.idealBatchSize ≤ size))
        (nodePuts (pending db.dirty arrangement root)) w >>= Store.Writer.flush) :=
    (Store.Writer.GoesOn.pour _ _ hhealthy).bind fun _ => Store.Writer.GoesOn.flush
  rw [nodePuts] at hw'
  rw [commit, hw]
  dsimp only
  rw [hw']

theorem initial_leavers (hfirst : nodes <+: pending d o₁ root) :
    leavers uncache nodes <+: d.freshClosure o₁ root := by
  cases uncache with
  | false => exact List.nil_prefix
  | true => exact initial_keys hfirst

theorem mem_keys_of_leavers {k : Hash} (hk : k ∈ leavers uncache nodes) :
    k ∈ nodes.map Prod.fst := by
  cases uncache with
  | false => cases hk
  | true => exact hk

section Retry

variable (hw : d.WellFormed order) (hfirst : nodes <+: pending d o₁ root)
  (hleft : d.Without (leavers uncache nodes) d₁)
include hw hfirst hleft

theorem leavers_perm :
    (leavers uncache nodes ++ leavers uncache (pending d₁ o₂ root)).Perm
      (leavers uncache (pending d o₃ root)) := by
  cases uncache with
  | false => exact .refl []
  | true =>
    change (nodes.map Prod.fst ++ (pending d₁ o₂ root).map Prod.fst).Perm
      ((pending d o₃ root).map Prod.fst)
    rw [Dirty.pending_keys, Dirty.pending_keys]
    exact Dirty.freshClosure_perm hw hleft (initial_keys hfirst)

/-- The two commits leave the same nodes in memory as one commit. -/
theorem dirty_retried (hleft₂ : d₁.Without (leavers uncache (pending d₁ o₂ root)) d₂)
    (hleft₃ : d.Without (leavers uncache (pending d o₃ root)) d₃) : d₂ = d₃ := by
  have hperm : (leavers uncache nodes ++ leavers uncache (pending d₁ o₂ root)).Perm
      (leavers uncache (pending d o₃ root)) := leavers_perm hw hfirst hleft
  have hnodup : (leavers uncache nodes ++ leavers uncache (pending d₁ o₂ root)).Nodup :=
    hperm.nodup_iff.2 ((initial_leavers (List.prefix_refl _)).sublist.nodup
      (Dirty.nodup_freshClosure d o₃ root))
  have hboth := hleft.append hleft₂
    fun k hk₂ hk₁ => List.disjoint_of_nodup_append hnodup hk₁ hk₂
  exact hleft₃.unique hboth hperm

theorem mem_ops_iff {ops : List Op} (hops : ops <+: commitOps d o₁ root)
    (hputs : ∀ h v, putNode h v ∈ ops ↔ (h, v) ∈ nodes) (op : Op) :
    op ∈ ops ++ commitOps d₁ o₂ root ↔ op ∈ commitOps d o₃ root := by
  have hpre : ∀ o o', op ∈ preimagePuts d₁ o ↔ op ∈ preimagePuts d o' := by
    intro o o'
    rw [mem_preimagePuts_iff, mem_preimagePuts_iff]
    simp only [Dirty.remembered, hleft.preimages]
  have hrest : ∀ n, n ∈ pending d₁ o₂ root ↔
      n ∈ pending d o₃ root ∧ n.1 ∉ leavers uncache nodes :=
    fun n => Dirty.mem_pending_without hw hleft (initial_leavers hfirst)
  rw [List.mem_append, mem_commitOps_iff, mem_commitOps_iff]
  constructor
  · rintro (ho | ho | ⟨n, hn, rfl⟩)
    · rcases mem_commitOps_iff.1 (hops.subset ho) with ho | ⟨n, hn, rfl⟩
      · exact .inl ((hpre o₁ o₃).1 ((hpre o₁ o₁).2 ho))
      · exact .inr ⟨n, Dirty.mem_pending_iff.2 (Dirty.mem_pending_iff.1 hn), rfl⟩
    · exact .inl ((hpre o₂ o₃).1 ho)
    · exact .inr ⟨n, ((hrest n).1 hn).1, rfl⟩
  · rintro (ho | ⟨n, hn, rfl⟩)
    · exact .inr (.inl ((hpre o₂ o₃).2 ho))
    · by_cases hk : n.1 ∈ leavers uncache nodes
      · obtain ⟨m, hm, he⟩ := List.mem_map.1 (mem_keys_of_leavers hk)
        have hmn : m = n := pending_unique hn (hfirst.subset hm) he
        exact .inl ((hputs n.1 n.2).2 (hmn ▸ hm))
      · exact .inr (.inr ⟨n, (hrest n).2 ⟨hn, hk⟩, rfl⟩)

end Retry

end Database

section Main

variable {disk : Store.Disk} {counters : Counters} {log : List Event} {files : Directory}
  {place : String → String} {config : Config} {calls : List Call} {db db₁ : Database}
  {o₁ : Dirty.Arrangement} {root : Hash} {report uncache : Bool} {e : Error}

/-- After a commit that has failed, wherever that was, the same commit succeeds once the disk does
not fail. Then memory and disk are as after a single commit that succeeds at once. -/
theorem retried_commit_ends_as_one
    (hrun : Run (.new disk counters log files place config) calls db)
    (hfail : db.commit o₁ root report uncache = (.error e, db₁)) :
    (∀ order report, ((db₁.armed {}).commit order root report uncache).1 = .ok ()) ∧
    ∀ f g o₂ o₃ report₂ report₃ db₂ db₃,
      (db₁.armed f).commit o₂ root report₂ uncache = (.ok (), db₂) →
      (db.armed g).commit o₃ root report₃ uncache = (.ok (), db₃) →
      db₂.dirty = db₃.dirty ∧ db₂.dirty.fresh = ∅ ∧ db₂.disk.table = db₃.disk.table := by
  constructor
  · intro order report
    exact Database.commit_ok_of_healthy ⟨rfl, rfl⟩
  intro f g o₂ o₃ report₂ report₃ db₂ db₃ hretry hsingle
  have hw := hrun.wellFormed Database.wellFormed_new
  have hw₁ := (hrun.snoc (c := .commit root report uncache o₁) rfl).wellFormed
    Database.wellFormed_new
  rw [hfail] at hw₁
  have hw₂ : (db₁.armed f).dirty.WellFormed _ := hw₁
  have hw₃ : (db.armed g).dirty.WellFormed _ := hw
  obtain ⟨nodes, ops, d₁, hcommits, hleft, ⟨_, _, hd₁⟩ | ⟨hok, _⟩⟩ :=
    Database.commits_of_commit hw hfail
  · obtain ⟨_, _, d₂, hcommits₂, hleft₂, ⟨_, he, _⟩ | ⟨_, rfl, rfl, hd₂⟩⟩ :=
      Database.commits_of_commit hw₂ hretry
    · cases he
    obtain ⟨_, _, d₃, hcommits₃, hleft₃, ⟨_, he, _⟩ | ⟨_, rfl, rfl, hd₃⟩⟩ :=
      Database.commits_of_commit hw₃ hsingle
    · cases he
    subst hd₁
    refine ⟨?_, ?_, ?_⟩
    · rw [hd₂, hd₃, Database.dirty_retried hw hcommits.first hleft hleft₂ hleft₃]
    · rw [hd₂]
      rfl
    · have htable : (db₁.armed f).disk.table = ops.foldl Store.Table.apply db.disk.table :=
        hcommits.stores.table
      rw [hcommits₂.stores.table, htable, ← List.foldl_append, hcommits₃.stores.table]
      apply Store.Table.puts_congr hcommits₃.isPut
      · exact Database.mem_ops_iff hw hcommits.first hleft hcommits.initial_ops hcommits.puts
      · intro key v v' ho ho'
        exact Database.commitOps_agree ho ho'
  · cases hok

end Main

/-- Of two nodes that refer to each other one is written before the failure and one by the retry. -/
theorem retried_commit_ends_as_one_on_cycle :
    ∃ (calls : List Call) (db db₁ db₂ db₃ : Database) (e : Error),
      Run (.new {} {} [] {} id { preimages := false }) calls db ∧
      db.commit .ascending (.fill 2) false true = (.error e, db₁) ∧
      db₁.dirty.records.contains (.fill 1) = false ∧ db₁.dirty.records.contains (.fill 2) ∧
      (db₁.armed {}).commit .ascending (.fill 2) false true = (.ok (), db₂) ∧
      (db.armed {}).commit .ascending (.fill 2) false true = (.ok (), db₃) ∧
      db₂.dirty = db₃.dirty ∧ db₂.disk.table = db₃.disk.table := by
  obtain ⟨calls, db, _, db₁, _, e, hrun, _, hfail, _, hgone, hkept⟩ := cap_and_commit_fail_midway
  obtain ⟨hretry, hsame⟩ := retried_commit_ends_as_one hrun hfail
  have hretry : (db₁.armed {}).commit .ascending (.fill 2) false true =
      (.ok (), ((db₁.armed {}).commit .ascending (.fill 2) false true).2) :=
    Prod.ext (hretry .ascending false) rfl
  have hsingle : (db.armed {}).commit .ascending (.fill 2) false true =
      (.ok (), ((db.armed {}).commit .ascending (.fill 2) false true).2) :=
    Prod.ext (Database.commit_ok_of_healthy ⟨rfl, rfl⟩) rfl
  obtain ⟨hdirty, _, htable⟩ := hsame {} {} _ _ _ _ _ _ hretry hsingle
  exact ⟨calls, db, db₁, _, _, e, hrun, hfail, hgone, hkept, hretry, hsingle, hdirty, htable⟩

end TrieCache
