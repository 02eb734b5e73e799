import TrieCache.Proofs.Database.Coherence
import TrieCache.Proofs.Dirty.StaleClosure

namespace TrieCache

variable {db db' : Database} {s : Dirty.Sweep} {gone order : List Hash} {root h k : Hash}
  {arrangement : Dirty.Arrangement} {clock : List Duration} {calls : List Call}

namespace Dirty.Sweep.Drops

variable {s s' : Dirty.Sweep}

theorem zero_notMem (hd : Drops gone s s') : Hash.zero ∉ gone := fun hz =>
  (isSome_staleEdges_iff.1 (hd.stale _ hz)).1 rfl

theorem contains (hd : Drops gone s s') : ∀ k ∈ gone, s.dirty.records.contains k := by
  intro k hk
  obtain ⟨_, _, r, hr, _⟩ := isSome_staleEdges_iff.1 (hd.stale k hk)
  exact Map.contains_of_get hr

theorem nodes (hd : Drops gone s s') (k : Hash) : s'.dirty.nodes[k]?.map Record.body =
    if k ∈ gone then none else s.dirty.nodes[k]?.map Record.body := by
  rw [get_nodes, get_nodes]
  by_cases hz : Hash.zero = k
  · rw [if_pos hz, if_pos hz, Option.map_none, ite_self]
  · rw [if_neg hz, if_neg hz, hd.bodies]

theorem roots (hd : Drops gone s s') : s'.dirty.roots = s.dirty.roots := by
  have he := congrArg (Option.map Record.edges) (hd.bodies_eq hd.zero_notMem)
  rw [Option.map_map, Option.map_map] at he
  exact roots_of_edges he

theorem rest_forgetRoot (hd : Drops gone s s') (root : Hash) :
    s'.dirty.forgetRoot root = { s.dirty with
      records := (s'.dirty.forgetRoot root).records
      flush := s'.dirty.flush
      dirtiesSize := s'.dirty.dirtiesSize
      childrenSize := (s'.dirty.forgetRoot root).childrenSize } := by
  have hrest : s'.dirty.forgetRoot root = { s'.dirty with
      records := (s'.dirty.forgetRoot root).records
      childrenSize := (s'.dirty.forgetRoot root).childrenSize } := by
    rw [forgetRoot]
    split
    · rfl
    · split <;> rfl
  have hd' := hd.rest
  generalize s'.dirty.forgetRoot root = d' at hrest ⊢
  rw [hrest, hd']

theorem size (hd : Drops gone s s') :
    s.dirty.records.size - s'.dirty.records.size = gone.length := by
  rw [Map.size_of_gone hd.nodup hd.contains hd.bodies, Nat.add_sub_cancel]

theorem filter_contains (hd : Drops gone s s') (hr : ∀ k ∈ order, s.dirty.records.contains k) :
    order.filter s'.dirty.records.contains = order.filter (· ∉ gone) := by
  apply List.filter_congr
  intro k hk
  by_cases hg : k ∈ gone
  · have hb := hd.bodies k
    rw [if_pos hg, Option.map_eq_none_iff] at hb
    rw [Map.contains_eq_false_iff.2 hb, decide_eq_false (not_not_intro hg)]
  · rw [Map.contains_eq_of_map (hd.bodies_eq hg), hr k hk, decide_eq_true hg]

end Dirty.Sweep.Drops

namespace Database

/-- What is left when the nodes `gone` below `root` have been dropped as stale. Everything else is
as it was, the order of the flush list included, but for what has been counted. -/
structure Dereferenced (db db' : Database) (root : Hash) (gone : List Hash) : Prop where
  nodes : ∀ k : Hash, db'.dirty.nodes[k]?.map Dirty.Record.body =
    if k ∈ gone then none else db.dirty.nodes[k]?.map Dirty.Record.body
  roots : db'.dirty.roots =
    if db'.dirty.records.contains root then db.dirty.roots else db.dirty.roots.erase root
  forward : ∀ limit, db'.dirty.flush.forward db'.dirty.records limit =
    ((db.dirty.flush.forward db.dirty.records db.dirty.records.size).filter (· ∉ gone)).take limit
  backward : ∀ limit, db'.dirty.flush.backward db'.dirty.records limit =
    ((db.dirty.flush.backward db.dirty.records db.dirty.records.size).filter (· ∉ gone)).take limit
  fresh : db'.dirty.fresh = db.dirty.fresh
  version : db'.dirty.version = db.dirty.version
  useless : db'.dirty.useless = db.dirty.useless
  preimages : db'.dirty.preimages = db.dirty.preimages
  preimagesSize : db'.dirty.preimagesSize = db.dirty.preimagesSize
  clean : ∀ k, db'.clean? k = if k ∈ gone ∧ db.dirty.isCollapsed k then none else db.clean? k
  stats : db'.dirty.stats = { db.dirty.stats with
    swept := db.dirty.stats.swept.add
      ⟨gone.length, db.dirty.dirtiesSize - db'.dirty.dirtiesSize⟩ }
  counters : db'.counters = { db.counters with
    sweptNodes := db.counters.sweptNodes + gone.length
    sweptSize := db.counters.sweptSize + (db.dirty.dirtiesSize - db'.dirty.dirtiesSize)
    sweeps := db.counters.sweeps + 1 }
  disk : db'.disk = db.disk
  config : db'.config = db.config

theorem dereferenced_account (hr : db.dirty.flush.Represents db.dirty.records order)
    (hp : Dirty.Sweep.Progress { dirty := db.dirty } s)
    (hd : Dirty.Sweep.Drops gone { dirty := db.dirty } s) :
    Dereferenced db (db.account root s) root gone := by
  have hrest := hd.rest_forgetRoot root
  have hstats : (s.dirty.forgetRoot root).stats = db.dirty.stats := by rw [hrest]
  have hsize : db.dirty.records.size - (s.dirty.forgetRoot root).records.size = gone.length := by
    rw [Dirty.size_forgetRoot]
    exact hd.size
  have hlisted := (hp.toShrinks.trans (.forgetRoot s.dirty root)).listed order hr
  have hcontains : (s.dirty.forgetRoot root).records.contains = s.dirty.records.contains :=
    funext (Dirty.contains_forgetRoot s.dirty root)
  rw [hcontains, hd.filter_contains hr.cached] at hlisted
  refine ⟨?_, ?_, ?_, ?_, ?_, ?_, useless_account hp, ?_, ?_, ?_, ?_, ?_, ?_, ?_⟩
  · intro k
    change (s.dirty.forgetRoot root).nodes[k]?.map _ = _
    rw [Dirty.nodes_forgetRoot]
    exact hd.nodes k
  · change (s.dirty.forgetRoot root).roots =
      if (s.dirty.forgetRoot root).records.contains root then _ else _
    rw [Dirty.roots_forgetRoot, Dirty.contains_forgetRoot, hd.roots]
  · rw [Dirty.forward_all hr]
    exact hlisted.forward
  · rw [Dirty.backward_all hr, List.filter_reverse]
    exact hlisted.backward
  · change (s.dirty.forgetRoot root).fresh = _
    rw [hrest]
  · change (s.dirty.forgetRoot root).version = _
    rw [hrest]
  · change (s.dirty.forgetRoot root).preimages = _
    rw [hrest]
  · change (s.dirty.forgetRoot root).preimagesSize = _
    rw [hrest]
  · intro k
    have hdropped : s.dropped = gone.filter db.dirty.isCollapsed := by
      rw [hd.dropped, List.append_nil]
    have hcleans : (db.account root s).cleans = db.cleans.map (·.removeAll s.dropped) :=
      (prunes_account hp).cleans
    rw [clean?, hcleans, hdropped, clean?]
    cases db.cleans with
    | none => exact (ite_self _).symm
    | some c =>
      change (c.removeAll _).find? k = _
      rw [Clean.Cache.find?_removeAll_eq]
      exact if_congr List.mem_filter rfl rfl
  · have hswept : (db.account root s).dirty.stats = { (s.dirty.forgetRoot root).stats with
        swept := (s.dirty.forgetRoot root).stats.swept.add
          ⟨db.dirty.records.size - (s.dirty.forgetRoot root).records.size,
            db.dirty.dirtiesSize - (s.dirty.forgetRoot root).dirtiesSize⟩ } := rfl
    rw [hswept, hstats, hsize]
    rfl
  · have hcounters : (db.account root s).counters = { db.counters with
        sweptNodes := db.counters.sweptNodes +
          (db.dirty.records.size - (s.dirty.forgetRoot root).records.size)
        sweptSize := db.counters.sweptSize +
          (db.dirty.dirtiesSize - (s.dirty.forgetRoot root).dirtiesSize)
        sweeps := db.counters.sweeps + 1 } := by
      rw [account]
      split <;> rfl
    rw [hcounters, hsize]
    rfl
  · exact (prunes_account hp).disk
  · exact (prunes_account hp).config

/-- Without a cycle a sweep ends, and drops what is reached from its root through stale nodes. -/
theorem sweep_eq_account (hl : db.config.allowance clock = none) (hz : root ≠ Hash.zero)
    (ha : Dirty.Acyclic db.dirty.staleEdges root) :
    ∃ gone s, (∀ k, k ∈ gone ↔ Dirty.Reaches db.dirty.staleEdges root k) ∧
      Dirty.Sweep.Progress { dirty := db.dirty } s ∧ db.dirty.Debits s.dirty ∧
      Dirty.Sweep.Drops gone { dirty := db.dirty } s ∧
      db.sweep arrangement clock root =
        some (.ok (gone.filter db.dirty.isCollapsed), db.account root s) := by
  obtain ⟨s, hs⟩ := Option.isSome_iff_exists.1
    ((db.dirty.sweep_ends_iff arrangement none root).2 (.inr ha))
  obtain ⟨_, gone, hd, hc⟩ := Dirty.Sweep.sweeps_run ⟨rfl, rfl⟩ hs
  have hmem : ∀ k, k ∈ gone ↔ Dirty.Reaches db.dirty.staleEdges root k := by
    intro k
    rw [hc]
    simp only [List.mem_singleton, exists_eq_left]
  have hsweep : db.sweep arrangement clock root = some (.ok s.dropped, db.account root s) := by
    have hzero : root.isZero = false := decide_eq_false hz
    rw [sweep, hzero, if_neg Bool.false_ne_true, hl, hs]
    rfl
  have hdropped : s.dropped = gone.filter db.dirty.isCollapsed := by
    rw [hd.dropped, List.append_nil]
  rw [hdropped] at hsweep
  exact ⟨gone, s, hmem, progress_of_sweep hs, Dirty.Sweep.debits_run hs, hd, hsweep⟩

theorem sweep_of_acyclic (hr : db.dirty.flush.Represents db.dirty.records order)
    (hl : db.config.allowance clock = none) (hz : root ≠ Hash.zero)
    (ha : Dirty.Acyclic db.dirty.staleEdges root) :
    ∃ gone db', gone.Nodup ∧ (∀ k, k ∈ gone ↔ Dirty.Reaches db.dirty.staleEdges root k) ∧
      db.sweep arrangement clock root = some (.ok (gone.filter db.dirty.isCollapsed), db') ∧
      Dereferenced db db' root gone := by
  obtain ⟨gone, s, hmem, hp, _, hd, hsweep⟩ := sweep_eq_account hl hz ha
  exact ⟨gone, _, hd.nodup, hmem, hsweep, dereferenced_account hr hp hd⟩

theorem isSome_sweep_iff : (db.sweep arrangement clock root).isSome ↔
    (db.config.allowance clock).isSome ∨ Dirty.Acyclic db.dirty.staleEdges root := by
  rw [← db.dirty.sweep_ends_iff arrangement, sweep]
  by_cases hz : root.isZero
  · have hnone : db.dirty.staleEdges root = none := by
      rw [Dirty.staleEdges, Dirty.Sweep.stale?, Dirty.Sweep.met?, hz, Bool.true_or, if_pos rfl]
      rfl
    rw [if_pos hz]
    exact iff_of_true rfl ((db.dirty.sweep_ends_iff ..).2 (.inr (.of_none hnone)))
  · rw [if_neg hz]
    cases db.dirty.sweep arrangement (db.config.allowance clock) root <;> rfl

theorem Dereferenced.dirtiesSize_eq (hd : Dereferenced db db' root gone) (hn : gone.Nodup)
    (hg : ∀ k ∈ gone, db.dirty.nodes.contains k) (ha : db.dirty.Accounted)
    (ha' : db'.dirty.Accounted) (hb : db.dirty.bytes ≤ wordMax) :
    db.dirty.dirtiesSize - db'.dirty.dirtiesSize = (gone.map db.dirty.trueSizeOf).sum := by
  have hcount : ∀ r : Dirty.Record, r.body.payload = r.payload := fun _ => rfl
  rw [ha.dirties_of_gone ha' hb hn hg hd.nodes hcount, Nat.add_sub_cancel]

end Database

section Main

variable {disk : Store.Disk} {counters : Counters} {log : List Event} {files : Directory}
  {place : String → String} {config : Config}

/-- If the stale nodes that are reached from a root through stale nodes form no cycle, just these
are dropped, and of the clean cache those that are not raw blobs. With its nodes to be deleted from
disk a sweep does the same, and queues what the clean cache has lost. The bytes counted as swept
are those by which the sum of all sizes falls, which are the bytes of the nodes with their hashes
while no sum outgrows a word. -/
theorem dereference_drops_stale_closure
    (hrun : Run (.new disk counters log files place config) calls db)
    (hl : db.config.allowance clock = none) (hz : root ≠ Hash.zero)
    (ha : Dirty.Acyclic db.dirty.staleEdges root) :
    ∃ gone db' queued, gone.Nodup ∧
      (∀ k, k ∈ gone ↔ Dirty.Reaches db.dirty.staleEdges root k) ∧
      db.dereference arrangement clock root = some (.ok (), db') ∧
      db.Dereferenced db' root gone ∧
      db.dereferenceStored arrangement clock root = some (.ok (),
        { db' with dirty := { db'.dirty with useless := db.dirty.useless ++ [queued] } }) ∧
      (∀ k, k ∈ queued ↔ k ∈ gone ∧ db.dirty.isCollapsed k) ∧
      ((∀ call ∈ calls, call.before.dirty.bytes ≤ wordMax) → db.dirty.bytes ≤ wordMax →
        db.dirty.dirtiesSize - db'.dirty.dirtiesSize = (gone.map db.dirty.trueSizeOf).sum) := by
  have hw := hrun.wellFormed Database.wellFormed_new
  obtain ⟨gone, db', hn, hmem, hs, hd⟩ := Database.sweep_of_acyclic hw.listed hl hz ha
  have hdereference : db.dereference arrangement clock root = some (.ok (), db') := by
    rw [Database.dereference, hs]
    rfl
  have hstored : db.dereferenceStored arrangement clock root =
      some (.ok (), { db' with dirty.useless :=
        db.dirty.useless ++ [HashSet.ofList (gone.filter db.dirty.isCollapsed)] }) := by
    rw [Database.dereferenceStored, hs, ← hd.useless]
    rfl
  refine ⟨gone, db', _, hn, hmem, hdereference, hd, hstored, fun k => ?_, fun hcalls hb => ?_⟩
  · rw [HashSet.ofList, Std.ExtTreeSet.mem_ofList, List.contains_iff_mem]
    exact List.mem_filter
  · have haccounted := hrun.accounted Database.wellFormed_new Database.accounted_new hcalls hb
    obtain ⟨_, hp, _⟩ := Database.prunes_of_dereference hdereference
    refine hd.dirtiesSize_eq hn (fun k hk => ?_) haccounted (hp.trims.accounted haccounted) hb
    obtain ⟨hzero, _, r, hr, _⟩ := Dirty.isSome_staleEdges_iff.1 ((hmem k).1 hk).isSome_right
    refine Map.contains_of_get (v := r) ?_
    rw [Dirty.get_nodes_of_ne hzero, hr]

end Main

/-- A leaf and a blob it depends on are committed and become stale. -/
def commitLeafOverBlob : List Command :=
  [.insert (.fill 0x11) 5 leafNode, .insertBlob (.fill 0x22) [1, 2, 3],
    .reference (.fill 0x22) (.fill 0x11), .commit (.fill 0x11) false false, .nextVersion]

theorem dereference_drops_stale_leaf :
    ∃ calls db gone db', Run (.new {} {} [] {} id {}) calls db ∧
      (∀ k, k ∈ gone ↔ Dirty.Reaches db.dirty.staleEdges (.fill 0x11) k) ∧
      db.dereference .ascending [] (.fill 0x11) = some (.ok (), db') ∧
      db.Dereferenced db' (.fill 0x11) gone ∧
      db.dirty.dirtiesSize - db'.dirty.dirtiesSize = (gone.map db.dirty.trueSizeOf).sum ∧
      db'.dirty.stats.swept = ⟨2, 72⟩ := by
  have hcheck : ((Database.new {} {} [] {} id {}).run commitLeafOverBlob).any (fun r =>
      decide (r.2.config.allowance [] = none) &&
        (r.2.dirty.sweep .ascending none (.fill 0x11)).isSome &&
        decide (∀ call ∈ r.1, call.before.dirty.bytes ≤ wordMax) &&
        decide (r.2.dirty.bytes ≤ wordMax) &&
        (r.2.dereference .ascending [] (.fill 0x11)).all fun s =>
          decide (s.2.dirty.stats.swept = ⟨2, 72⟩)) := by
    decide +kernel
  obtain ⟨⟨calls, db⟩, hr, hcheck⟩ := (Option.any_eq_true _ _).1 hcheck
  simp only [Bool.and_eq_true, decide_eq_true_eq] at hcheck
  obtain ⟨⟨⟨⟨hl, hends⟩, hcalls⟩, hb⟩, hswept⟩ := hcheck
  obtain ⟨gone, db', queued, _, hmem, hd, hdropped, _, _, hsize⟩ :=
    dereference_drops_stale_closure (Run.of_run hr) hl (by decide)
      (((db.dirty.sweep_ends_iff ..).1 hends).resolve_left nofun)
  rw [hd, Option.all_some, decide_eq_true_eq] at hswept
  exact ⟨calls, db, gone, db', Run.of_run hr, hmem, hd, hdropped, hsize hcalls hb, hswept⟩

/-- A leaf is committed and becomes stale whose size is said to be the largest there is. -/
def commitLeafOfLargestSize : List Command :=
  [.insert (.fill 0x11) wordMax leafNode, .commit (.fill 0x11) false false,
    .nextVersion]

/-- What is counted as swept is not the bytes of the leaf with its hash, as that is no count. -/
theorem swept_short_of_largest :
    ∃ calls db db',
      (Database.new {} {} [] {} id {}).run commitLeafOfLargestSize = some (calls, db) ∧
      db.config.allowance [] = none ∧
      Dirty.Acyclic db.dirty.staleEdges (.fill 0x11) ∧
      (∀ k, Dirty.Reaches db.dirty.staleEdges (.fill 0x11) k ↔ k = .fill 0x11) ∧
      db.dereference .ascending [] (.fill 0x11) = some (.ok (), db') ∧
      db'.dirty.stats.swept.size ≠
        db.dirty.stats.swept.size + db.dirty.trueSizeOf (.fill 0x11) := by
  have hcheck : ((Database.new {} {} [] {} id {}).run commitLeafOfLargestSize).any (fun r =>
      decide (r.2.config.allowance [] = none) &&
        decide (r.2.dirty.staleEdges (.fill 0x11) = some []) &&
        (r.2.dereference .ascending [] (.fill 0x11)).any fun s => decide (s.1.isOk = true ∧
          s.2.dirty.stats.swept.size ≠
            r.2.dirty.stats.swept.size + r.2.dirty.trueSizeOf (.fill 0x11))) := by
    decide +kernel
  obtain ⟨⟨calls, db⟩, hr, hcheck⟩ := (Option.any_eq_true _ _).1 hcheck
  rw [Bool.and_eq_true, Bool.and_eq_true, decide_eq_true_eq, decide_eq_true_eq] at hcheck
  obtain ⟨⟨hl, hn⟩, hd⟩ := hcheck
  obtain ⟨⟨result, db'⟩, hd, hswept⟩ := (Option.any_eq_true _ _).1 hd
  obtain ⟨hok, hswept⟩ := of_decide_eq_true hswept
  have hreaches : ∀ k, Dirty.Reaches db.dirty.staleEdges (.fill 0x11) k ↔ k = .fill 0x11 := by
    intro k
    constructor
    · intro hr
      cases hr with
      | refl _ => rfl
      | head hn' hm _ =>
        rw [hn, Option.some.injEq] at hn'
        subst hn'
        cases hm
    · rintro rfl
      exact .refl (by rw [hn, Option.isSome_some])
  have hacyclic : Dirty.Acyclic db.dirty.staleEdges (.fill 0x11) := by
    intro a children c hr hn' hm _
    rw [(hreaches a).1 hr, hn, Option.some.injEq] at hn'
    subst hn'
    cases hm
  cases result with
  | error e => cases hok
  | ok => exact ⟨calls, db, db', hr, hl, hacyclic, hreaches, hd, hswept⟩

/-- However deep a sweep may go, it ends just if its time is ever up or the stale nodes that are
reached from its root through stale nodes form no cycle. -/
theorem dereference_ends_iff (db : Database) (order : Dirty.Arrangement) (clock : List Duration)
    (root : Hash) :
    ((db.dereference order clock root).isSome ↔
      (db.config.allowance clock).isSome ∨ Dirty.Acyclic db.dirty.staleEdges root) ∧
    ((db.dereferenceStored order clock root).isSome ↔
      (db.config.allowance clock).isSome ∨ Dirty.Acyclic db.dirty.staleEdges root) ∧
    ((∃ depth, (Dirty.Sweep.run order depth { dirty := db.dirty } root).isSome) ↔
      Dirty.Acyclic db.dirty.staleEdges root) := by
  have hsweep : (db.sweep order clock root).isSome ↔ _ := Database.isSome_sweep_iff
  refine ⟨?_, ?_, ?_⟩
  · rw [Database.dereference, ← hsweep]
    cases db.sweep order clock root <;> rfl
  · rw [Database.dereferenceStored, ← hsweep]
    cases db.sweep order clock root with
    | none => rfl
    | some r => obtain ⟨_ | _, _⟩ := r <;> rfl
  · constructor
    · rintro ⟨depth, hs⟩
      obtain ⟨s, hs⟩ := Option.isSome_iff_exists.1 hs
      exact (Dirty.Sweep.sweeps_run ⟨rfl, rfl⟩ hs).acyclic root (List.mem_singleton_self root)
    · exact fun ha => ⟨_, (db.dirty.sweep_ends_iff order none root).2 (.inr ha)⟩

theorem dereference_ends_on_stale_leaf :
    ∃ calls db, (Database.new {} {} [] {} id {}).run commitLeafOverBlob = some (calls, db) ∧
      db.config.allowance [] = none ∧ Dirty.Acyclic db.dirty.staleEdges (.fill 0x11) ∧
      (db.dereference .ascending [] (.fill 0x11)).isSome := by
  have hcheck : ((Database.new {} {} [] {} id {}).run commitLeafOverBlob).any (fun r =>
      decide (r.2.config.allowance [] = none) &&
        (r.2.dirty.sweep .ascending none (.fill 0x11)).isSome) := by
    decide +kernel
  obtain ⟨⟨calls, db⟩, hr, hcheck⟩ := (Option.any_eq_true _ _).1 hcheck
  rw [Bool.and_eq_true, decide_eq_true_eq] at hcheck
  obtain ⟨hl, hs⟩ := hcheck
  have ha := ((db.dirty.sweep_ends_iff ..).1 hs).resolve_left nofun
  exact ⟨calls, db, hr, hl, ha, (dereference_ends_iff ..).1.2 (.inr ha)⟩

/-- A leaf that is said to depend on itself is committed and becomes stale. -/
def commitLeafUnderItself : List Command :=
  [.insert (.fill 0x11) 5 leafNode, .reference (.fill 0x11) (.fill 0x11),
    .commit (.fill 0x11) false false, .nextVersion]

/-- The stale leaf is swept for ever. -/
theorem dereference_never_ends_on_loop :
    ∃ calls db, (Database.new {} {} [] {} id {}).run commitLeafUnderItself = some (calls, db) ∧
      db.config.allowance [] = none ∧
      (∀ depth, Dirty.Sweep.run .ascending depth { dirty := db.dirty } (.fill 0x11) = none) ∧
      db.dereference .ascending [] (.fill 0x11) = none := by
  have hcheck : ((Database.new {} {} [] {} id {}).run commitLeafUnderItself).any (fun r =>
      decide (r.2.config.allowance [] = none) &&
        decide (r.2.dirty.staleEdges (.fill 0x11) = some [.fill 0x11])) := by decide +kernel
  obtain ⟨⟨calls, db⟩, hr, hcheck⟩ := (Option.any_eq_true _ _).1 hcheck
  rw [Bool.and_eq_true, decide_eq_true_eq, decide_eq_true_eq] at hcheck
  obtain ⟨hl, hn⟩ := hcheck
  have hself : Dirty.Reaches db.dirty.staleEdges (.fill 0x11) (.fill 0x11) :=
    .refl (by rw [hn, Option.isSome_some])
  have hcycle : ¬Dirty.Acyclic db.dirty.staleEdges (.fill 0x11) := fun ha =>
    ha _ _ _ hself hn (List.mem_singleton_self _) hself
  have hnone : ∀ depth,
      Dirty.Sweep.run .ascending depth { dirty := db.dirty } (.fill 0x11) = none := by
    intro depth
    rw [← Option.not_isSome_iff_eq_none]
    intro hs
    obtain ⟨s, hs⟩ := Option.isSome_iff_exists.1 hs
    exact hcycle ((Dirty.Sweep.sweeps_run ⟨rfl, rfl⟩ hs).acyclic _ (List.mem_singleton_self _))
  have hsweep : db.sweep .ascending [] (.fill 0x11) = none := by
    rw [← Option.not_isSome_iff_eq_none, Database.isSome_sweep_iff, hl]
    exact fun h => h.elim nofun hcycle
  refine ⟨calls, db, hr, hl, hnone, ?_⟩
  rw [Database.dereference, hsweep]
  rfl

end TrieCache
