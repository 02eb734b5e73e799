import TrieCache.Proofs.Database.Collection
import TrieCache.Proofs.Database.Departures

namespace TrieCache

open Dirty (Change Departs Record maxEdgeCount maxParents)

namespace Dirty

def Record.count (r : Record) (h : Hash) : Nat := (r.edges.getD ∅).getD h 0

/-- How many edges to `h` all records count, that of the meta-root among them. -/
def named (d : Dirty) (h : Hash) : Nat := Map.total d.records (·.count h)

/-- Whether a record has `n` parents to its own count, which has an end. -/
def Record.claims (r : Record) (n : Nat) : Prop := r.parents = min n maxParents

end Dirty

/-- How many edges to `h` were counted by the nodes that leave memory with a call. -/
def Call.goneEdges (c : Call) (h : Hash) : Nat :=
  (c.command.exec c.before).elim 0 fun db =>
    ((c.before.dirty.gone db.dirty).map fun k =>
      (c.before.dirty.nodes[k]?.map (·.count h)).getD 0).sum

variable {db db' start : Database} {c : Command} {calls : List Call} {order : List Hash}
  {h k child parent : Hash} {r r' : Record}

namespace Dirty

variable {d d' : Dirty} {content : Content} {size : Nat}

theorem gone_eq_nil (hk : ∀ k, d.records.contains k → d'.records.contains k) : d.gone d' = [] := by
  rw [gone, List.filter_eq_nil_iff]
  intro k hm
  have hc := (Map.contains_erase _ _ _).1 (mem_hashes.1 hm)
  simp [hk k hc.2]

theorem named_eq (d : Dirty) (h : Hash) :
    d.named h = d.roots.getD h 0 + Map.total d.nodes (·.count h) := by
  rw [named, roots, nodes]
  cases hz : d.records[Hash.zero]? with
  | none =>
    rw [Map.erase_of_not_contains hz, Std.ExtTreeMap.getD_empty, Nat.zero_add]
  | some r => exact Map.total_eq_add_of_get _ hz

theorem named_insert (d : Dirty) (k : Hash) (content : Content) (size : Nat) (h : Hash) :
    (d.insert k content size).named h = d.named h := by
  rw [insert]
  split
  · rfl
  · next hk =>
    let record : Record := { content, size, version := d.version }
    have hnew : d.records[k]? = none := Map.contains_eq_false_iff.1 (Bool.eq_false_iff.2 hk)
    have hlinks : Map.total (d.flush.pushBack (d.records.insert k record) k).2 (·.count h) =
        Map.total (d.records.insert k record) (·.count h) := by
      apply Map.total_congr
      intro a
      have hbody : (d.flush.pushBack (d.records.insert k record) k).2[a]?.map Record.body =
          (d.records.insert k record)[a]?.map Record.body := FlushList.body_pushBack a
      have ha := congrArg (Option.map (Record.count · h)) hbody
      rwa [Option.map_map, Option.map_map] at ha
    calc
      Map.total (d.flush.pushBack (d.records.insert k record) k).2 (·.count h)
      _ = record.count h + Map.total d.records (·.count h) :=
        hlinks.trans (Map.total_insert _ _ hnew)
      _ = Map.total d.records (·.count h) := by
        have hnone : record.count h = 0 := Std.ExtTreeMap.getD_empty
        rw [hnone, Nat.zero_add]

theorem Departs.named_eq (hd : Departs c d d') (hk : d'.records.contains h) :
    d.named h = ((d.gone d').map fun k => (d.nodes[k]?.map (·.count h)).getD 0).sum +
      d'.named h := by
  have hgone : ∀ k ∈ d.gone d', d.nodes.contains k := fun k hk => (mem_gone.1 hk).1
  have hnodes : Map.total d.nodes (·.count h) =
      ((d.gone d').map fun k => (d.nodes[k]?.map (·.count h)).getD 0).sum +
        Map.total d'.nodes (·.count h) :=
    Map.total_of_gone (nodup_gone d d') hgone (get_nodes_of_kept hd.kept) fun t =>
      (t.2.getD ∅).getD h 0
  have hroots : d'.roots.getD h 0 = d.roots.getD h 0 := by
    rw [Std.ExtTreeMap.getD_eq_getD_getElem?, hd.roots_of_contains hk,
      Std.ExtTreeMap.getD_eq_getD_getElem?]
  rw [Dirty.named_eq, Dirty.named_eq d', hnodes, hroots]
  omega

section Reference

theorem Record.count_addEdge (p : Record) (child h : Hash) : (p.addEdge child).count h =
    if child = h then min (p.count h + 1) maxEdgeCount else p.count h := by
  have hget : (p.addEdge child).count h = ((p.edges.getD ∅).insert child
      (min ((p.edges.getD ∅).getD child 0 + 1) maxEdgeCount)).getD h 0 := rfl
  rw [hget, Std.ExtTreeMap.getD_eq_getD_getElem?, Map.get_insert]
  split
  · next hk =>
    rw [Option.getD_some, hk]
    rfl
  · exact Std.ExtTreeMap.getD_eq_getD_getElem?.symm

theorem named_reference {p : Record} (hp : d.records[parent]? = some p) :
    Map.total ((d.records.modify parent (·.addEdge child)).modify child Record.addParent)
        (·.count h) + p.count h = d.named h + (p.addEdge child).count h := by
  have hsame : Map.total ((d.records.modify parent (·.addEdge child)).modify child Record.addParent)
      (·.count h) = Map.total (d.records.modify parent (·.addEdge child)) (·.count h) := by
    apply Map.total_congr
    intro k
    exact Map.map_modify _ child k fun _ => rfl
  rw [hsame]
  exact Map.total_modify _ _ hp

theorem parents_reference (hr : d.records[h]? = some r)
    (hr' : ((d.records.modify parent (·.addEdge child)).modify child Record.addParent)[h]? =
      some r') : r'.parents = if child = h then min (r.parents + 1) maxParents else r.parents := by
  have hedge : (d.records.modify parent (·.addEdge child))[h]?.map Record.parents =
      some r.parents := by
    have hsame : (d.records.modify parent (·.addEdge child))[h]?.map Record.parents =
        d.records[h]?.map Record.parents :=
      Map.map_modify _ parent h fun _ => rfl
    rw [hsame, hr, Option.map_some]
  obtain ⟨r₁, hr₁, hp⟩ := Option.map_eq_some_iff.1 hedge
  rw [Map.get_modify, hr₁] at hr'
  split
  · next hk =>
    rw [if_pos hk] at hr'
    cases hr'
    rw [← hp]
    rfl
  · next hk =>
    rw [if_neg hk] at hr'
    cases hr'
    exact hp

theorem getD_roots_reference (hz : d.records.contains Hash.zero) (ht : d.tracks child) :
    (d.reference child parent).roots.getD h 0 =
      if child = h ∧ parent = Hash.zero then min (d.roots.getD h 0 + 1) maxEdgeCount
      else d.roots.getD h 0 := by
  rw [roots_reference hz, ht, Bool.true_and]
  by_cases hp : parent = Hash.zero
  · have hzero : parent.isZero = true := decide_eq_true hp
    rw [if_pos hzero, Std.ExtTreeMap.getD_eq_getD_getElem?, Map.get_insert]
    by_cases hk : child = h
    · rw [if_pos hk, if_pos ⟨hk, hp⟩, Option.getD_some, hk]
    · rw [if_neg hk, if_neg fun hn => hk hn.1, ← Std.ExtTreeMap.getD_eq_getD_getElem?]
  · have hzero : parent.isZero = false := decide_eq_false hp
    rw [hzero, if_neg Bool.false_ne_true, if_neg fun hn => hp hn.2]

theorem Record.claims.succ {n : Nat} (hn : r.claims n)
    (hp : r'.parents = min (r.parents + 1) maxParents) : r'.claims (n + 1) := by
  rw [claims] at hn ⊢
  rw [hp, hn]
  generalize maxParents = limit
  omega

theorem reference_counts (hz : d.records.contains Hash.zero) (hr : d.records[h]? = some r)
    (hr' : (d.reference child parent).records[h]? = some r')
    (hedges : (d.reference child parent).roots.getD h 0 < maxEdgeCount) :
    d.roots.getD h 0 < maxEdgeCount ∧ ∀ n, r.claims n → ∃ n', r'.claims n' ∧
      n' + d.named h = n + (d.reference child parent).named h := by
  rcases reference_cases d child parent with he | ⟨p, ht, hp, hknown, he⟩
  · rw [he] at hr' hedges ⊢
    cases hr.symm.trans hr'
    exact ⟨hedges, fun n hn => ⟨n, hn, rfl⟩⟩
  have hcount := p.count_addEdge child h
  have hnamed : (d.reference child parent).named h + p.count h =
      d.named h + (p.addEdge child).count h := by
    rw [he]
    exact named_reference hp
  rw [he] at hr'
  have hcounted := parents_reference hr hr'
  rw [getD_roots_reference hz ht] at hedges
  by_cases hk : child = h
  · subst hk
    rw [if_pos rfl] at hcount hcounted
    -- Only the meta-root can have had an edge to the child before.
    have hroom : d.roots.getD child 0 < maxEdgeCount ∧ p.count child < maxEdgeCount := by
      by_cases hroot : parent = Hash.zero
      · subst hroot
        have hmeta : p.count child = d.roots.getD child 0 := by
          rw [Record.count, roots, hp]
        rw [if_pos ⟨rfl, rfl⟩] at hedges
        omega
      · have hnew : p.count child = 0 := by
          have hnone := Map.contains_eq_false_iff.1 (Bool.eq_false_iff.2 (mt hknown hroot))
          rw [Record.count, Std.ExtTreeMap.getD_eq_getD_getElem?, hnone, Option.getD_none]
        have hmax : 0 < maxEdgeCount := by decide
        rw [if_neg fun hn => hroot hn.2] at hedges
        exact ⟨hedges, hnew ▸ hmax⟩
    exact ⟨hroom.1, fun n hn => ⟨n + 1, hn.succ hcounted, by omega⟩⟩
  · rw [if_neg hk] at hcount hcounted
    rw [if_neg fun hn => hk hn.1] at hedges
    refine ⟨hedges, fun n hn => ⟨n, ?_, by omega⟩⟩
    rwa [Record.claims, hcounted]

end Reference

end Dirty

/-- As long as a node stays it counts an edge more than before for each that is there more than
before, and for each that has been lost. -/
theorem parents_exec (hw : db.dirty.WellFormed order) (he : c.exec db = some db')
    (hi : (Call.mk db c).inserted ≠ some h) (hz : h ≠ Hash.zero)
    (hr' : db'.dirty.records[h]? = some r') (hedges : db'.dirty.roots.getD h 0 < maxEdgeCount) :
    ∃ r, db.dirty.records[h]? = some r ∧ db.dirty.roots.getD h 0 < maxEdgeCount ∧
      ∀ n, r.claims n → ∃ n', r'.claims n' ∧
        n' + db.dirty.named h = n + db'.dirty.named h + (Call.mk db c).goneEdges h := by
  have hlost : (Call.mk db c).goneEdges h = ((db.dirty.gone db'.dirty).map fun k =>
      (db.dirty.nodes[k]?.map (·.count h)).getD 0).sum := by
    rw [Call.goneEdges, he, Option.elim_some]
  have hchange := c.change hw he
  rw [hlost]
  clear he hlost
  generalize db'.dirty = d' at hchange hr' hedges ⊢
  cases hchange with
  | @inserted k content size hc =>
    have hnew : ¬(db.dirty.records.contains k = false ∧ k = h) := by
      rintro ⟨hk, rfl⟩
      exact hi ((inserted_eq_some_iff hc).2 ⟨rfl, hk⟩)
    have ht := db.dirty.ties_insert k content size h
    rw [if_neg hnew, hr', Option.map_some, eq_comm, Option.map_eq_some_iff] at ht
    obtain ⟨r, hr, ht⟩ := ht
    have hp : r.parents = r'.parents := congrArg Prod.fst ht
    rw [Dirty.roots_insert hw.rooted.contains] at hedges
    have hgone : db.dirty.gone (db.dirty.insert k content size) = [] :=
      Dirty.gone_eq_nil fun a ha => (Dirty.contains_insert ..).2 (.inr ha)
    refine ⟨r, hr, hedges, fun n hn => ⟨n, hp.symm.trans hn, ?_⟩⟩
    rw [Dirty.named_insert, hgone, List.map_nil, List.sum_nil, Nat.add_zero]
  | @referenced child parent hc =>
    have hk := Map.contains_of_get hr'
    rw [Dirty.contains_reference] at hk
    obtain ⟨r, hr⟩ := Map.contains_iff.1 hk
    have hgone : db.dirty.gone (db.dirty.reference child parent) = [] :=
      Dirty.gone_eq_nil fun a ha => (Dirty.contains_reference ..).trans ha
    obtain ⟨hedges, hcounts⟩ := Dirty.reference_counts hw.rooted.contains hr hr' hedges
    rw [hgone, List.map_nil, List.sum_nil]
    exact ⟨r, hr, hedges, hcounts⟩
  | departed hc hd =>
    obtain ⟨r, hr, ht⟩ := hd.kept h r' hz hr'
    have hp : r'.parents = r.parents := congrArg Prod.fst ht
    have hk := Map.contains_of_get hr'
    have hnamed := hd.named_eq hk
    rw [Std.ExtTreeMap.getD_eq_getD_getElem?, hd.roots_of_contains hk,
      ← Std.ExtTreeMap.getD_eq_getD_getElem?] at hedges
    refine ⟨r, hr, hedges, fun n hn => ⟨n, ?_, by omega⟩⟩
    rwa [Record.claims, hp]

theorem parents_of_inserted (hw : db.dirty.WellFormed order) (he : c.exec db = some db')
    (hi : (Call.mk db c).inserted = some h) (hr' : db'.dirty.records[h]? = some r') :
    r'.parents = 0 ∧ db'.dirty.named h = db.dirty.named h := by
  have hchange := c.change hw he
  generalize db'.dirty = d' at hchange hr' ⊢
  cases hchange with
  | @inserted k content size hc =>
    obtain ⟨rfl, hk⟩ := (inserted_eq_some_iff hc).1 hi
    have ht := db.dirty.ties_insert k content size k
    rw [if_pos ⟨hk, rfl⟩, hr', Option.map_some, Option.some.injEq] at ht
    exact ⟨congrArg Prod.fst ht, Dirty.named_insert ..⟩
  | referenced hc => exact absurd hi (by rw [inserted_of_no_insertion (hc ▸ rfl)]; exact nofun)
  | departed hc _ => exact absurd hi (by rw [inserted_of_no_insertion hc]; exact nofun)

section Main

variable {disk : Store.Disk} {counters : Counters} {log : List Event} {files : Directory}
  {place : String → String} {config : Config}

/-- Since it was cached last a node has counted an edge for each that is there now or has been lost
since, but for those that were there before. -/
theorem Run.parents_eq (hrun : Run start calls db) (hw : start.dirty.WellFormed [])
    (hz : h ≠ Hash.zero) (hnone : start.dirty.records[h]? = none)
    (hr : db.dirty.records[h]? = some r) (hedges : db.dirty.roots.getD h 0 < maxEdgeCount) :
    ∃ early call late, calls = early ++ call :: late ∧ call.inserted = some h ∧
      (∀ c ∈ late, c.inserted ≠ some h) ∧ ∃ n, r.claims n ∧
        n + call.before.dirty.named h = db.dirty.named h + (late.map (·.goneEdges h)).sum := by
  induction hrun generalizing r with
  | nil =>
    rw [hnone] at hr
    cases hr
  | @snoc calls db db' c hrun he ih =>
    have hw' := hrun.wellFormed hw
    by_cases hi : (Call.mk db c).inserted = some h
    · obtain ⟨hp, hnamed⟩ := parents_of_inserted hw' he hi hr
      have hclaims : r.claims 0 := by rw [Record.claims, hp, Nat.zero_min]
      refine ⟨calls, ⟨db, c⟩, [], rfl, hi, fun _ hm => absurd hm List.not_mem_nil, 0, hclaims, ?_⟩
      rw [hnamed, List.map_nil, List.sum_nil, Nat.zero_add, Nat.add_zero]
    · obtain ⟨r₀, hr₀, hedges₀, hstep⟩ := parents_exec hw' he hi hz hr hedges
      obtain ⟨early, call, late, rfl, hcall, hlate, n₀, hclaims₀, hsum⟩ := ih hr₀ hedges₀
      obtain ⟨n, hclaims, hn⟩ := hstep n₀ hclaims₀
      refine ⟨early, call, late ++ [⟨db, c⟩], by simp, hcall, ?_, n, hclaims, ?_⟩
      · intro c' hm
        rcases List.mem_append.1 hm with hm | hm
        · exact hlate c' hm
        · rwa [List.mem_singleton.1 hm]
      · rw [List.map_append, List.sum_append, List.map_singleton, List.sum_singleton]
        omega

/-- As long as the meta-root's count of edges to it is not at its end, what a cached node counts as
its parents is less than the edges to it by those that were there already when it was cached, and
more by those that have been lost with their nodes since. -/
theorem parents_count_edges_iff
    (hrun : Run (.new disk counters log files place config) calls db) (hz : h ≠ Hash.zero)
    (hr : db.dirty.records[h]? = some r) (hedges : db.dirty.roots.getD h 0 < maxEdgeCount) :
    ∃ early call late, calls = early ++ call :: late ∧ call.inserted = some h ∧
      (∀ c ∈ late, c.inserted ≠ some h) ∧
      (∃ n, r.claims n ∧
        n + call.before.dirty.named h = db.dirty.named h + (late.map (·.goneEdges h)).sum) ∧
      (r.parents < maxParents → (r.parents = db.dirty.named h ↔
        call.before.dirty.named h = (late.map (·.goneEdges h)).sum)) := by
  have hnone : (Database.new disk counters log files place config).dirty.records[h]? = none := by
    rw [Database.dirty_new, Dirty.new, Map.get_insert, if_neg (Ne.symm hz),
      Std.ExtTreeMap.getElem?_empty]
  obtain ⟨early, call, late, hcalls, hcall, hlate, n, hclaims, hsum⟩ :=
    hrun.parents_eq Database.wellFormed_new hz hnone hr hedges
  refine ⟨early, call, late, hcalls, hcall, hlate, ⟨n, hclaims, hsum⟩, ?_⟩
  intro hroom
  rw [Record.claims] at hclaims
  omega

end Main

/-- A child that is flushed and cached again, and then loses its parent. -/
def flushAndRecacheChild : List Command :=
  [.insertBlob (.fill 2) [2], .insertBlob (.fill 1) [1], .reference (.fill 2) (.fill 1), .cap 499,
    .insertBlob (.fill 2) [2], .cap 499]

theorem parents_counted_after_child_recached :
    ∃ calls db r, Run (.new {} {} [] {} id {}) calls db ∧
      calls.map Call.command = flushAndRecacheChild ∧ db.dirty.records[Hash.fill 2]? = some r ∧
      r.parents = db.dirty.named (.fill 2) ∧
      ∃ early call late, calls = early ++ call :: late ∧ call.inserted = some (.fill 2) ∧
        (∀ c ∈ late, c.inserted ≠ some (.fill 2)) ∧
        call.before.dirty.named (.fill 2) = (late.map (·.goneEdges (.fill 2))).sum := by
  have hcheck : ((Database.new {} {} [] {} id {}).run flushAndRecacheChild).any (fun r =>
      r.2.dirty.records[Hash.fill 2]?.any (fun record =>
        decide (r.2.dirty.roots.getD (.fill 2) 0 < maxEdgeCount) &&
          decide (record.parents < maxParents) &&
          decide (record.parents = r.2.dirty.named (.fill 2)))) := by
    decide +kernel
  obtain ⟨⟨calls, db⟩, hrun, hcheck⟩ := (Option.any_eq_true _ _).1 hcheck
  obtain ⟨r, hr, hcheck⟩ := (Option.any_eq_true _ _).1 hcheck
  simp only [Bool.and_eq_true, decide_eq_true_eq] at hcheck
  obtain ⟨⟨hedges, hparents⟩, hcount⟩ := hcheck
  obtain ⟨early, call, late, hcalls, hcall, hlate, _, hiff⟩ :=
    parents_count_edges_iff (Run.of_run hrun) (by decide) hr hedges
  exact ⟨calls, db, r, Run.of_run hrun, Run.commands_of_run hrun, hr, hcount, early, call, late,
    hcalls, hcall, hlate, (hiff hparents).1 hcount⟩

/-- A child that stays when its parent is flushed to make room still counts it. -/
theorem parent_counted_after_cap :
    ∃ calls db r, Run (.new {} {} [] {} id {}) calls db ∧
      calls.map Call.command =
        [.insertBlob (.fill 0x11) [1], .insertBlob (.fill 0x22) [2],
          .reference (.fill 0x22) (.fill 0x11), .cap 499] ∧
      (∀ p ∈ db.dirty.records.values, ∀ n ∈ (p.edges.getD ∅).values, n < maxEdgeCount) ∧
      db.dirty.records[Hash.fill 0x22]? = some r ∧ r.parents = 1 ∧
      db.dirty.named (.fill 0x22) = 0 := by
  have hcheck : ((Database.new {} {} [] {} id {}).run
      [.insertBlob (.fill 0x11) [1], .insertBlob (.fill 0x22) [2],
        .reference (.fill 0x22) (.fill 0x11), .cap 499]).any (fun r =>
      decide (∀ p ∈ r.2.dirty.records.values, ∀ n ∈ (p.edges.getD ∅).values, n < maxEdgeCount) &&
        r.2.dirty.records[Hash.fill 0x22]?.any (fun record => decide (record.parents = 1)) &&
        decide (r.2.dirty.named (.fill 0x22) = 0)) := by
    decide +kernel
  obtain ⟨⟨calls, db⟩, hrun, hcheck⟩ := (Option.any_eq_true _ _).1 hcheck
  simp only [Bool.and_eq_true, decide_eq_true_eq] at hcheck
  obtain ⟨⟨hedges, hfound⟩, hnamed⟩ := hcheck
  obtain ⟨r, hr, hparents⟩ := (Option.any_eq_true _ _).1 hfound
  exact ⟨calls, db, r, Run.of_run hrun, Run.commands_of_run hrun, hedges, hr,
    of_decide_eq_true hparents, hnamed⟩

end TrieCache
