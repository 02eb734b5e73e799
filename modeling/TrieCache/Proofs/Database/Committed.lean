import TrieCache.Proofs.Database.Invariant
import TrieCache.Proofs.Dirty.Postorder
import TrieCache.Proofs.Dirty.Without

namespace TrieCache

open Store (Op nodeKey putNode)

namespace Dirty

/-- The cached nodes once everything that was asked for is written. -/
def finished (d : Dirty) : Dirty := { d.clearPreimages with fresh := ∅, stats := {} }

variable {d : Dirty} {order : Arrangement} {root : Hash} {n : Hash × Bytes}

theorem pending_keys (d : Dirty) (order : Arrangement) (root : Hash) :
    (Database.pending d order root).map Prod.fst = d.freshClosure order root := by
  apply Map.map_fst_lookups
  intro h hh
  exact ((isSome_freshEdges d h).1 (mem_freshClosure.1 hh).isSome_right).2

theorem mem_pending_iff : n ∈ Database.pending d order root ↔
    Reaches d.freshEdges root n.1 ∧ ∃ r, d.records[n.1]? = some r ∧ n.2 = r.encoded := by
  constructor
  · intro hn
    have hk : n.1 ∈ d.freshClosure order root := by
      rw [← pending_keys]
      exact List.mem_map_of_mem hn
    exact ⟨mem_freshClosure.1 hk, (Database.get_of_mem_pending hn).2⟩
  · rintro ⟨hr, r, hg, he⟩
    have hn : (d.records[n.1]?.map fun r => (n.1, r.encoded)) = some n := by
      rw [hg, Option.map_some, ← he]
    exact List.mem_filterMap.2 ⟨n.1, mem_freshClosure.2 hr, hn⟩

end Dirty

namespace Database

variable {db db' : Database} {arrangement : Dirty.Arrangement} {root : Hash} {report uncache : Bool}
  {nodes : List (Hash × Bytes)} {ops : List Op} {order : List Hash} {result : Except Error Unit}

theorem dirty_settle_true {n : Hash × Bytes} (hc : db.dirty.records.contains n.1) :
    (db.settle true n).dirty = db.dirty.uncache n.1 := by
  rw [settle, hc, if_neg (by simp)]
  dsimp only
  rw [if_pos rfl]
  split <;> rfl

theorem without_settles (db : Database) (hr : db.dirty.flush.Represents db.dirty.records order)
    (hn : (nodes.map Prod.fst).Nodup)
    (hc : ∀ n ∈ nodes, n.1 ≠ Hash.zero ∧ db.dirty.records.contains n.1) :
    Dirty.Without (nodes.map Prod.fst) db.dirty (nodes.foldl (settle true) db).dirty := by
  induction nodes generalizing db order with
  | nil => exact .refl hr
  | cons n nodes ih =>
    rw [List.map_cons, List.nodup_cons] at hn
    obtain ⟨hz₁, hcached⟩ := hc n List.mem_cons_self
    have hfirst : Dirty.Without [n.1] db.dirty (db.settle true n).dirty := by
      obtain ⟨r, hg⟩ := Map.contains_iff.1 hcached
      rw [dirty_settle_true hcached]
      exact Dirty.without_uncache hr hz₁ hg
    have hne : ∀ k ∈ nodes.map Prod.fst, k ∉ [n.1] := by
      intro k hk hm
      exact hn.1 (List.mem_singleton.1 hm ▸ hk)
    have hrest : ∀ m ∈ nodes, m.1 ≠ Hash.zero ∧ (db.settle true n).dirty.records.contains m.1 := by
      intro m hm
      obtain ⟨hz, hcached⟩ := hc m (List.mem_cons_of_mem n hm)
      exact ⟨hz, (hfirst.contains_iff m.1).2 ⟨hne m.1 (List.mem_map_of_mem hm), hcached⟩⟩
    exact hfirst.append (ih (db.settle true n) hfirst.listed hn.2 hrest) hne

/-- The nodes that leave memory when `nodes` are written. -/
def leavers (uncache : Bool) (nodes : List (Hash × Bytes)) : List Hash :=
  if uncache then nodes.map Prod.fst else []

theorem cached_of_mem_pending (hw : db.dirty.WellFormed order) :
    ∀ n ∈ pending db.dirty arrangement root, n.1 ≠ Hash.zero ∧ db.dirty.records.contains n.1 := by
  intro n hm
  exact (hw.mem_order n.1).1 (hw.fresh n.1 (get_of_mem_pending hm).1)

theorem initial_keys {d : Dirty} (hp : nodes <+: pending d arrangement root) :
    nodes.map Prod.fst <+: d.freshClosure arrangement root := by
  rw [← Dirty.pending_keys]
  exact hp.map Prod.fst

theorem nodup_keys {d : Dirty} (hp : nodes <+: pending d arrangement root) :
    (nodes.map Prod.fst).Nodup :=
  (initial_keys hp).sublist.nodup (Dirty.nodup_freshClosure d arrangement root)

theorem without_settleAll (hw : db.dirty.WellFormed order) (w : Store.Writer) :
    db.dirty.Without (leavers uncache (db.settledNodes arrangement root w))
      (db.settleAll uncache (pending db.dirty arrangement root) w).dirty := by
  cases uncache with
  | false =>
    rw [dirty_settleAll_false]
    exact .refl hw.listed
  | true =>
    have hnodup : ((db.settledNodes arrangement root w).map Prod.fst).Nodup :=
      nodup_keys (List.take_prefix _ _)
    exact without_settles { db with disk := w.disk, counters := w.counters } hw.listed hnodup
      fun n hm => cached_of_mem_pending hw n (List.mem_of_mem_take hm)

theorem mem_nodePuts {h : Hash} {v : Bytes} : putNode h v ∈ nodePuts nodes ↔ (h, v) ∈ nodes := by
  constructor
  · intro hm
    obtain ⟨n, hn, he⟩ := List.mem_map.1 hm
    obtain ⟨rfl, rfl⟩ := Store.putNode_inj he
    exact hn
  · exact fun hm => List.mem_map_of_mem (f := fun n => putNode n.1 n.2) hm

theorem not_mem_preimagePuts {d : Dirty} {h : Hash} {v : Bytes} :
    putNode h v ∉ preimagePuts d arrangement := by
  intro hm
  obtain ⟨p, _, he⟩ := List.mem_map.1 hm
  exact Store.putNode_ne_putPreimage he.symm

/-- All that a commit has to write, in order. -/
def commitOps (d : Dirty) (arrangement : Dirty.Arrangement) (root : Hash) : List Op :=
  preimagePuts d arrangement ++ nodePuts (pending d arrangement root)

section CommitOps

variable {d : Dirty} {arrangement' : Dirty.Arrangement} {op : Op} {key v v' : Bytes}

theorem put_of_mem_commitOps (ho : op ∈ commitOps d arrangement root) :
    ∃ k v, op = .put k v := by
  rcases List.mem_append.1 ho with ho | ho <;> obtain ⟨p, _, rfl⟩ := List.mem_map.1 ho
  · exact ⟨_, _, rfl⟩
  · exact ⟨_, _, rfl⟩

theorem mem_commitOps {h : Hash} :
    putNode h v ∈ commitOps d arrangement root ↔ (h, v) ∈ pending d arrangement root := by
  rw [commitOps, List.mem_append, mem_nodePuts, or_iff_right not_mem_preimagePuts]

theorem mem_commitOps_iff : op ∈ commitOps d arrangement root ↔
    op ∈ preimagePuts d arrangement ∨ ∃ n ∈ pending d arrangement root, putNode n.1 n.2 = op := by
  rw [commitOps, nodePuts, List.mem_append, List.mem_map]

theorem pending_unique {n n' : Hash × Bytes}
    (hn : n ∈ pending d arrangement root) (hn' : n' ∈ pending d arrangement' root)
    (he : n'.1 = n.1) : n' = n := by
  obtain ⟨_, r, hr, hv⟩ := get_of_mem_pending hn
  obtain ⟨_, r', hr', hv'⟩ := get_of_mem_pending hn'
  rw [he, hr, Option.some.injEq] at hr'
  exact Prod.ext he (by rw [hv', ← hr', hv])

theorem commitOps_agree (ho : .put key v ∈ commitOps d arrangement root)
    (ho' : .put key v' ∈ commitOps d arrangement' root) : v' = v := by
  rcases List.mem_append.1 ho with ho | ho <;> rcases List.mem_append.1 ho' with ho' | ho' <;>
    obtain ⟨p, hp, he⟩ := List.mem_map.1 ho <;> obtain ⟨p', hp', he'⟩ := List.mem_map.1 ho' <;>
    obtain ⟨hkey, rfl⟩ := Op.put.inj he <;> obtain ⟨hkey', rfl⟩ := Op.put.inj he'
  · have hk := Store.preimageKey_injective (hkey'.trans hkey.symm)
    have hg := Dirty.mem_preimageList.1 hp
    have hg' := Dirty.mem_preimageList.1 hp'
    rw [hk, hg, Option.some.injEq] at hg'
    exact hg'.symm
  · exact absurd (hkey'.trans hkey.symm) Store.nodeKey_ne_preimageKey
  · exact absurd (hkey.trans hkey'.symm) Store.nodeKey_ne_preimageKey
  · have hk := Store.nodeKey_injective (hkey'.trans hkey.symm)
    exact congrArg Prod.snd (pending_unique hp hp' hk)

end CommitOps

/-- A commit has written `ops`, the nodes among which are `nodes`: these are the first of the nodes
it has to write, and what it has handed to the disk is the first part of all that it has to. -/
structure Commits (db : Database) (arrangement : Dirty.Arrangement) (root : Hash)
    (nodes : List (Hash × Bytes)) (ops : List Op) (db' : Database) : Prop where
  first : nodes <+: pending db.dirty arrangement root
  puts : ∀ h v, putNode h v ∈ ops ↔ (h, v) ∈ nodes
  stores : Stores db db' ops
  logs : ∃ refused, db.disk.Logs db'.disk ops refused ∧
    ops ++ refused <+: commitOps db.dirty arrangement root

namespace Commits

theorem initial_ops (hc : Commits db arrangement root nodes ops db') :
    ops <+: commitOps db.dirty arrangement root := by
  obtain ⟨refused, _, hp⟩ := hc.logs
  exact (List.prefix_append _ _).trans hp

theorem isPut (hc : Commits db arrangement root nodes ops db') : ∀ op ∈ ops, ∃ k v, op = .put k v :=
  fun _ ho => put_of_mem_commitOps (hc.initial_ops.subset ho)

theorem get_of_mem (hc : Commits db arrangement root nodes ops db') {h : Hash} {v : Bytes}
    (hm : (h, v) ∈ nodes) : db'.disk.table[nodeKey h]? = some v := by
  have ho := (hc.puts h v).2 hm
  rw [hc.stores.table]
  apply Store.Table.get_puts_of_mem hc.isPut ho
  intro v' ho'
  exact commitOps_agree (hc.initial_ops.subset ho) (hc.initial_ops.subset ho')

theorem get_of_not_mem (hc : Commits db arrangement root nodes ops db') {h : Hash}
    (hn : ∀ v, (h, v) ∉ nodes) : db'.disk.table[nodeKey h]? = db.disk.table[nodeKey h]? := by
  rw [hc.stores.table]
  exact Store.Table.get_puts_of_not_mem hc.isPut fun v ho => hn v ((hc.puts h v).1 ho)

end Commits

/-- Only the nodes that a commit has written leave memory, whether or not it succeeds. One that
succeeds has written everything. -/
theorem commits_of_commit (hw : db.dirty.WellFormed order)
    (hc : db.commit arrangement root report uncache = (result, db')) :
    ∃ nodes ops d, Commits db arrangement root nodes ops db' ∧
      db.dirty.Without (leavers uncache nodes) d ∧
      ((∃ e, result = .error e ∧ db'.dirty = d) ∨
        result = .ok () ∧ nodes = pending db.dirty arrangement root ∧
          ops = commitOps db.dirty arrangement root ∧ db'.dirty = d.finished) := by
  have hputs : ∀ nodes h v,
      putNode h v ∈ preimagePuts db.dirty arrangement ++ nodePuts nodes ↔ (h, v) ∈ nodes := by
    intro nodes h v
    rw [List.mem_append, mem_nodePuts, or_iff_right not_mem_preimagePuts]
  rcases commit_cases hc with ⟨done, refused, hdone, hs, hlogs, hd, _, _, e, hr⟩ |
    ⟨w, hwrites, hfinal⟩
  · have hdone' : done <+: preimagePuts db.dirty arrangement := (List.prefix_append _ _).trans hdone
    have hnone : ∀ h v, putNode h v ∈ done ↔ (h, v) ∈ [] := by
      intro h v
      exact ⟨fun hm => absurd (hdone'.subset hm) not_mem_preimagePuts, nofun⟩
    refine ⟨[], done, db.dirty, ⟨List.nil_prefix, hnone, hs, refused, hlogs, ?_⟩, ?_, ?_⟩
    · exact hdone.trans (List.prefix_append _ _)
    · rw [leavers, List.map_nil, ite_self]
      exact .refl hw.listed
    · exact .inl ⟨e, hr, hd⟩
  · obtain ⟨refused, hlogs, hrefused⟩ := hwrites.logs
    have hcommits : ∀ {db'' : Database}, db''.disk = w.disk → Commits db arrangement root
        (db.settledNodes arrangement root w)
        (preimagePuts db.dirty arrangement ++ nodePuts (db.settledNodes arrangement root w))
        db'' := by
      intro db'' hd
      refine ⟨List.take_prefix _ _, hputs _, ?_, refused, ?_, ?_⟩
      · exact ⟨hd ▸ hwrites.stores.table, hd ▸ hwrites.stores.readsFail⟩
      · exact hd ▸ hlogs
      · rw [List.append_assoc]
        exact (List.prefix_append_right_inj _).2 hrefused
    have hdisk : (db.settleAll uncache (pending db.dirty arrangement root) w).disk = w.disk :=
      (settles_settleAll uncache db w fun n hm => (cached_of_mem_pending hw n hm).1).disk
    refine ⟨_, _, _, hcommits ?_, without_settleAll hw w, ?_⟩
    · rcases hfinal with ⟨e, _, rfl⟩ | ⟨_, _, rfl⟩
      · exact hdisk
      · exact hdisk
    · rcases hfinal with ⟨e, hr, rfl⟩ | ⟨hr, hall, rfl⟩
      · exact .inl ⟨e, hr, rfl⟩
      · exact .inr ⟨hr, hall, by rw [commitOps, hall], rfl⟩

end Database

end TrieCache
