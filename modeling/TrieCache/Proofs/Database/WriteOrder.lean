import TrieCache.Proofs.Database.Committed

namespace TrieCache

open Dirty (Reaches)
open Store (nodeKey putNode handed written)

namespace Database

variable {d : Dirty} {arrangement : Dirty.Arrangement} {root h c : Hash} {v : Bytes}
  {r rc : Dirty.Record}

theorem pending_of_commitOps {before later : List Store.Op}
    (he : commitOps d arrangement root = before ++ putNode h v :: later) :
    ∃ p q, pending d arrangement root = p ++ (h, v) :: q ∧ nodePuts p ⊆ before := by
  have hnodes : ∀ ops : List Store.Op,
      nodePuts (pending d arrangement root) = ops ++ putNode h v :: later →
      ∃ p q, pending d arrangement root = p ++ (h, v) :: q ∧ nodePuts p = ops := by
    intro ops hops
    obtain ⟨p, rest, hp, rfl, hrest⟩ := List.map_eq_append_iff.1 hops
    obtain ⟨n, q, rfl, hn, _⟩ := List.map_eq_cons_iff.1 hrest
    obtain ⟨rfl, rfl⟩ := Store.putNode_inj hn
    exact ⟨p, q, hp, rfl⟩
  rcases List.append_eq_append_iff.1 he with ⟨ops, rfl, hops⟩ | ⟨rest, hpre, hops⟩
  · obtain ⟨p, q, hp, rfl⟩ := hnodes ops hops
    exact ⟨p, q, hp, List.subset_append_right _ _⟩
  · cases rest with
    | nil =>
      obtain ⟨p, q, hp, hnil⟩ := hnodes [] hops.symm
      exact ⟨p, q, hp, hnil ▸ List.nil_subset _⟩
    | cons op rest =>
      obtain ⟨rfl, _⟩ := List.cons.inj hops
      have hm : putNode h v ∈ preimagePuts d arrangement :=
        hpre ▸ List.mem_append_right _ List.mem_cons_self
      exact absurd hm not_mem_preimagePuts

theorem child_pending_before {p q : List (Hash × Bytes)} (ha : Dirty.Acyclic d.freshEdges root)
    (hp : pending d arrangement root = p ++ (h, v) :: q) (hr : d.records[h]? = some r)
    (hc : c ∈ r.children) (hf : c ∈ d.fresh) (hrc : d.records[c]? = some rc) :
    (c, rc.encoded) ∈ p := by
  have hm : (h, v) ∈ pending d arrangement root := hp ▸ List.mem_append_right _ List.mem_cons_self
  have hkeys : d.freshClosure arrangement root = p.map Prod.fst ++ h :: q.map Prod.fst := by
    rw [← Dirty.pending_keys, hp, List.map_append, List.map_cons]
  have hedges : d.freshEdges h = some r.children :=
    Dirty.freshEdges_eq_some.2 ⟨(get_of_mem_pending hm).1, r, hr, rfl⟩
  have hsome := (Dirty.isSome_freshEdges d c).2 ⟨hf, Map.contains_of_get hrc⟩
  have hearly := Dirty.child_mem_early_freshClosure ha hkeys hedges hc hsome
  obtain ⟨n, hn, rfl⟩ := List.mem_map.1 hearly
  obtain ⟨_, r', hr', he⟩ :=
    get_of_mem_pending (hp.symm ▸ List.mem_append_left _ hn : n ∈ pending d arrangement root)
  rw [hrc, Option.some.injEq] at hr'
  rw [hr', ← he]
  exact hn

/-- A first part of what has to be written has all fresh nodes below its own nodes. -/
theorem put_of_reaches {k : Hash} {ops : List Store.Op} (ha : Dirty.Acyclic d.freshEdges root)
    (hp : ops <+: commitOps d arrangement root) (hm : putNode h v ∈ ops)
    (hk : Reaches d.freshEdges h k) : ∃ r, d.records[k]? = some r ∧ putNode k r.encoded ∈ ops := by
  induction hk generalizing v with
  | refl _ =>
    obtain ⟨_, r, hr, rfl⟩ := get_of_mem_pending (mem_commitOps.1 (hp.subset hm))
    exact ⟨r, hr, hm⟩
  | head hn hc hk ih =>
    obtain ⟨hf, hcached⟩ := (Dirty.isSome_freshEdges d _).1 hk.isSome_left
    obtain ⟨rc, hrc⟩ := Map.contains_iff.1 hcached
    obtain ⟨before, later, rfl⟩ := List.append_of_mem hm
    obtain ⟨rest, hrest⟩ := hp
    rw [List.append_assoc, List.cons_append] at hrest
    obtain ⟨p, q, hp, hbefore⟩ := pending_of_commitOps hrest.symm
    obtain ⟨_, r, hr, rfl⟩ := Dirty.freshEdges_eq_some.1 hn
    have hput := hbefore (mem_nodePuts.2 (child_pending_before ha hp hr hc hf hrc))
    exact ih (List.mem_append_left _ hput)

end Database

theorem Store.initial_written {made made' : List Attempt} (hp : made' <+: made) :
    written made' <+: written made := by
  obtain ⟨rest, rfl⟩ := hp
  rw [written_append]
  exact List.prefix_append _ _

section Main

variable {disk : Store.Disk} {counters : Counters} {log : List Event} {files : Directory}
  {place : String → String} {config : Config} {calls : List Call} {db db' : Database}
  {arrangement : Dirty.Arrangement} {root : Hash} {report uncache : Bool}
  {result : Except Error Unit}

/-- In the batches that a commit hands to the disk every fresh child is put before its parent. After
any number of batches, and so wherever the disk fails, all fresh nodes below a node that is written
are written as well. -/
theorem children_written_before_parents
    (hrun : Run (.new disk counters log files place config) calls db)
    (ha : Dirty.Acyclic db.dirty.freshEdges root)
    (hc : db.commit arrangement root report uncache = (result, db')) :
    ∃ made, db'.disk.attempts = db.disk.attempts ++ made ∧
      (∀ before h encoded later, handed made = before ++ putNode h encoded :: later →
        ∃ r, db.dirty.records[h]? = some r ∧ encoded = r.encoded ∧
          ∀ c ∈ r.children, c ∈ db.dirty.fresh → ∀ rc, db.dirty.records[c]? = some rc →
            putNode c rc.encoded ∈ before) ∧
      (∀ made', made' <+: made → ∀ h encoded, putNode h encoded ∈ written made' →
        ∀ k, Reaches db.dirty.freshEdges h k →
          ∃ r, db.dirty.records[k]? = some r ∧ putNode k r.encoded ∈ written made') ∧
      ∀ h encoded, putNode h encoded ∈ written made →
        db'.disk.table[nodeKey h]? = some encoded := by
  have hw := hrun.wellFormed Database.wellFormed_new
  obtain ⟨nodes, ops, _, hcommits, _⟩ := Database.commits_of_commit hw hc
  obtain ⟨refused, ⟨made, hmade, hwritten, hhanded⟩, hinitial⟩ := hcommits.logs
  refine ⟨made, hmade, ?_, ?_, ?_⟩
  · intro before h encoded later he
    obtain ⟨rest, hrest⟩ := hinitial
    rw [← hhanded, he, List.append_assoc, List.cons_append] at hrest
    obtain ⟨p, q, hp, hbefore⟩ := Database.pending_of_commitOps hrest.symm
    have hm : (h, encoded) ∈ Database.pending db.dirty arrangement root :=
      hp ▸ List.mem_append_right _ List.mem_cons_self
    obtain ⟨_, r, hr, rfl⟩ := Database.get_of_mem_pending hm
    refine ⟨r, hr, rfl, ?_⟩
    intro c hcr hf rc hrc
    exact hbefore (Database.mem_nodePuts.2 (Database.child_pending_before ha hp hr hcr hf hrc))
  · intro made' hmade' h encoded hm k hk
    have hfirst := (hwritten ▸ Store.initial_written hmade').trans hcommits.initial_ops
    exact Database.put_of_reaches ha hfirst hm hk
  · intro h encoded hm
    rw [hwritten, hcommits.puts] at hm
    exact hcommits.get_of_mem hm

end Main

/-- A node with two children, one of which is also the child of the other. -/
def cacheSharedChild : List Command :=
  [.insertBlob (.fill 3) [3], .insertBlob (.fill 1) [1], .insertBlob (.fill 2) [2],
    .reference (.fill 1) (.fill 3), .reference (.fill 2) (.fill 3), .reference (.fill 1) (.fill 2)]

theorem children_written_before_parents_when_shared :
    ∃ (calls : List Call) (db db' : Database) (made : List Store.Attempt),
      Run (.new {} {} [] {} id {}) calls db ∧ Dirty.Acyclic db.dirty.freshEdges (.fill 3) ∧
      db.commit .ascending (.fill 3) false true = (.ok (), db') ∧ db'.disk.attempts = made ∧
      putNode (.fill 3) [3] ∈ written made ∧
      ∀ made', made' <+: made → putNode (.fill 3) [3] ∈ written made' →
        ∃ r, db.dirty.records[Hash.fill 1]? = some r ∧
          putNode (.fill 1) r.encoded ∈ written made' := by
  have hrun : ((Database.new {} {} [] {} id {}).run cacheSharedChild).any fun r =>
      decide (r.2.disk.attempts = []) &&
      decide ((r.2.commit .ascending (.fill 3) false true).1 = .ok ()) &&
      decide (Hash.fill 1 ∈ r.2.dirty.freshClosure .ascending (.fill 3)) &&
      decide (putNode (.fill 3) [3] ∈
        written (r.2.commit .ascending (.fill 3) false true).2.disk.attempts) &&
      r.2.dirty.fresh.toList.all fun h => (r.2.dirty.freshEdges h).all fun children =>
        children.all fun c => decide (c.firstByte.toNat < h.firstByte.toNat) := by
    decide +kernel
  obtain ⟨⟨calls, db⟩, hr, hc⟩ := (Option.any_eq_true _ _).1 hrun
  simp only [Bool.and_eq_true, decide_eq_true_eq] at hc
  obtain ⟨⟨⟨⟨hnone, hok⟩, hbelow⟩, hput⟩, hranked⟩ := hc
  have ha : Dirty.Acyclic db.dirty.freshEdges (.fill 3) := by
    apply Dirty.acyclic_of_rank fun h => h.firstByte.toNat
    intro h children he c hc
    have hf := Std.ExtTreeSet.mem_toList.2 (Dirty.freshEdges_eq_some.1 he).1
    have hall := List.all_eq_true.1 hranked h hf
    rw [he, Option.all_some] at hall
    exact of_decide_eq_true (List.all_eq_true.1 hall c hc)
  have hcommit : db.commit .ascending (.fill 3) false true =
      (.ok (), (db.commit .ascending (.fill 3) false true).2) := Prod.ext hok rfl
  obtain ⟨made, hmade, _, hinitial, _⟩ :=
    children_written_before_parents (Run.of_run hr) ha hcommit
  rw [hnone, List.nil_append] at hmade
  refine ⟨calls, db, _, made, Run.of_run hr, ha, hcommit, hmade, hmade ▸ hput, ?_⟩
  intro made' hmade' hm
  exact hinitial made' hmade' _ _ hm _ (Dirty.mem_freshClosure.1 hbelow)

end TrieCache
