import Mathlib.Algebra.Order.BigOperators.Group.List
import Mathlib.Tactic.Abel
import TrieCache.Proofs.Database.Committed
import TrieCache.Proofs.Database.Counting

namespace TrieCache

open Store (putNode written)

namespace Dirty

/-- How many nodes are cached, and what is counted of their bytes. -/
def held (d : Dirty) : Nat × Nat := (d.nodes.size, d.dirtiesSize)

/-- How many some cached nodes are, and their bytes with their hashes. -/
def costOf (d : Dirty) (hs : List Hash) : Nat × Nat := (hs.length, (hs.map d.trueSizeOf).sum)

theorem costOf_nil (d : Dirty) : d.costOf [] = 0 := rfl

def gone (d d' : Dirty) : List Hash := d.hashes.filter fun h => !d'.records.contains h

variable {d d' : Dirty} {h k : Hash}

theorem mem_hashes : k ∈ d.hashes ↔ d.nodes.contains k := by
  have hz : (!k.isZero) = true ↔ Hash.zero ≠ k := by
    rw [Bool.not_eq_true', Hash.isZero, decide_eq_false_iff_not, ne_comm]
  rw [hashes, List.mem_filter, Std.ExtTreeMap.mem_keys, nodes, Map.contains_erase, hz, and_comm]
  exact Iff.rfl

theorem nodup_gone (d d' : Dirty) : (d.gone d').Nodup :=
  (Std.ExtTreeMap.nodup_keys.filter _).filter _

theorem mem_gone : k ∈ d.gone d' ↔ d.nodes.contains k ∧ d'.records.contains k = false := by
  rw [gone, List.mem_filter, mem_hashes, Bool.not_eq_true']

theorem size_records (hz : d.records.contains Hash.zero) :
    d.records.size = d.nodes.size + 1 := by
  have hpos : d.records.size ≠ 0 := by
    rw [ne_eq, ← Std.ExtTreeMap.eq_empty_iff_size_eq_zero]
    exact Std.ExtTreeMap.ne_empty_of_mem hz
  rw [nodes, Std.ExtTreeMap.size_erase, if_pos hz]
  omega

/-- The nodes of `d'` are nodes of `d`, with the sizes they have there. -/
def Within (d' d : Dirty) : Prop :=
  ∀ (k : Hash) (r' : Record), d'.records[k]? = some r' →
    ∃ r, d.records[k]? = some r ∧ r'.size = r.size

theorem Within.of_core (hc : ∀ (k : Hash) (r' : Record), d'.records[k]? = some r' →
    ∃ r : Record, d.records[k]? = some r ∧ r'.core = r.core) : Within d' d := by
  intro k r' hr'
  obtain ⟨r, hr, hc⟩ := hc k r' hr'
  exact ⟨r, hr, congrArg (fun c => c.2.1) hc⟩

theorem get_nodes_of_kept {γ : Type} {f : Record → γ}
    (hkept : ∀ (k : Hash) (r' : Record), k ≠ Hash.zero → d'.records[k]? = some r' →
      ∃ r, d.records[k]? = some r ∧ f r' = f r) (k : Hash) :
    d'.nodes[k]?.map f = if k ∈ d.gone d' then none else d.nodes[k]?.map f := by
  by_cases hz : Hash.zero = k
  · rw [Dirty.get_nodes, Dirty.get_nodes, if_pos hz, if_pos hz, Option.map_none, ite_self]
  have hz' : k ≠ Hash.zero := Ne.symm hz
  rw [get_nodes_of_ne hz', get_nodes_of_ne hz']
  cases hr' : d'.records[k]? with
  | none =>
    cases hr : d.records[k]? with
    | none => exact (ite_self _).symm
    | some r =>
      have hc : d.nodes.contains k := Map.contains_of_get ((get_nodes_of_ne hz').trans hr)
      rw [if_pos (mem_gone.2 ⟨hc, Map.contains_eq_false_iff.2 hr'⟩)]
      rfl
  | some r' =>
    obtain ⟨r, hr, hf⟩ := hkept k r' hz' hr'
    have hg : k ∉ d.gone d' := by
      intro hg
      have hc := (mem_gone.1 hg).2
      rw [Map.contains_of_get hr'] at hc
      cases hc
    rw [if_neg hg, hr, Option.map_some, Option.map_some, hf]

theorem Within.get_nodes (hi : Within d' d) (k : Hash) : d'.nodes[k]?.map Record.size =
    if k ∈ d.gone d' then none else d.nodes[k]?.map Record.size :=
  get_nodes_of_kept (fun k r' _ => hi k r') k

theorem Within.held (hi : Within d' d) (hz : d.records.contains Hash.zero)
    (hz' : d'.records.contains Hash.zero) (ha : d.Accounted) (ha' : d'.Accounted)
    (hb : d.bytes ≤ wordMax) :
    d.held = d.costOf (d.gone d') + d'.held ∧ d.fewer d' = d.costOf (d.gone d') := by
  have hg : ∀ k ∈ d.gone d', d.nodes.contains k := fun k hk => (mem_gone.1 hk).1
  have hsize := Map.size_of_gone (nodup_gone d d') hg hi.get_nodes
  have hbytes := ha.dirties_of_gone (w := satAdd 32) ha' hb (nodup_gone d d') hg hi.get_nodes
    fun _ => rfl
  constructor
  · rw [Dirty.held, hsize, hbytes]
    rfl
  · rw [fewer, size_records hz, size_records hz', Nat.add_sub_add_right, hsize, hbytes,
      Nat.add_sub_cancel, Nat.add_sub_cancel]
    rfl

theorem within_insert (d : Dirty) (h : Hash) (content : Content) (size : Nat) :
    Within d (d.insert h content size) := by
  intro k r hr
  have hc := core_insert d h content size k
  have hnew : ¬(d.records.contains h = false ∧ h = k) := by
    rintro ⟨hh, rfl⟩
    rw [Map.contains_of_get hr] at hh
    cases hh
  rw [if_neg hnew, hr, Option.map_some, Option.map_eq_some_iff] at hc
  obtain ⟨r', hr', hc⟩ := hc
  exact ⟨r', hr', congrArg (fun c => c.2.1) hc.symm⟩

theorem held_insert {content : Content} {size : Nat} (hz : d.records.contains Hash.zero)
    (ha : d.Accounted) (ha' : (d.insert h content size).Accounted)
    (hb : (d.insert h content size).bytes ≤ wordMax) : (d.insert h content size).held =
      d.held + if d.records.contains h then 0 else (1, 32 + size) := by
  by_cases hh : d.records.contains h
  · rw [insert, if_pos hh, if_pos hh, add_zero]
  have hh' := Bool.eq_false_iff.2 hh
  have hz' := (contains_insert d h content size Hash.zero).2 (.inr hz)
  have hne : h ≠ Hash.zero := fun he => hh (he ▸ hz)
  have hcore := core_insert d h content size h
  rw [if_pos ⟨hh', rfl⟩, Option.map_eq_some_iff] at hcore
  obtain ⟨r, hr, hcore⟩ := hcore
  rw [← get_nodes_of_ne hne] at hr
  have hgone : (d.insert h content size).gone d = [h] := by
    apply List.Perm.eq_singleton
    rw [List.perm_ext_iff_of_nodup (nodup_gone _ d) (List.nodup_singleton h)]
    intro k
    rw [mem_gone, List.mem_singleton, nodes, Map.contains_erase, contains_insert]
    constructor
    · rintro ⟨⟨_, rfl | hk⟩, hk'⟩
      · rfl
      · rw [hk] at hk'
        cases hk'
    · rintro rfl
      exact ⟨⟨Ne.symm hne, .inl rfl⟩, hh'⟩
  have hsize : r.size = size := congrArg (fun c => c.2.1) hcore
  rw [((within_insert d h content size).held hz' hz ha' ha hb).1, hgone, if_neg hh, costOf,
    List.map_singleton, List.sum_singleton, trueSizeOf, hr, Option.map_some, Option.getD_some,
    Record.trueSize, hsize, add_comm]
  rfl

end Dirty

namespace Call

/-- The node that a call adds to those cached, and its bytes with its hash. -/
def added (c : Call) : Nat × Nat :=
  match c.command.insertion with
  | none => 0
  | some (h, _, size) => if c.before.dirty.records.contains h then 0 else (1, 32 + size)

/-- The nodes that a call has taken out of memory by the time it fails. -/
def lost (c : Call) : List Hash :=
  match c.command with
  | .commit root report uncache order =>
    match c.before.commit order root report uncache with
    | (.ok (), _) => []
    | (.error _, db) => c.before.dirty.gone db.dirty
  | _ => []

def lostCost (c : Call) : Nat × Nat := c.before.dirty.costOf c.lost

/-- The call is a commit that uncaches, has written the node under `h` and has failed after that. -/
def FailsAfter (c : Call) (h : Hash) : Prop :=
  ∃ order root report e db made encoded, c.command = .commit root report true order ∧
    c.before.commit order root report true = (.error e, db) ∧
    db.disk.attempts = c.before.disk.attempts ++ made ∧ putNode h encoded ∈ written made

theorem added_of_no_insertion {c : Call} (hi : c.command.insertion = none) : c.added = 0 := by
  rw [added, hi]

end Call

variable {db db' : Database} {c : Command} {root : Hash} {order : List Hash}

namespace Database

/-- How a call counts the nodes that leave memory: those that a commit loses as it fails are not
counted. -/
inductive Counts (db : Database) (c : Command) (db' : Database) : Prop
  | inserted {h : Hash} {content : Dirty.Content} {size : Nat} :
    c.insertion = some (h, content, size) → (Call.mk db c).lost = [] →
    db'.counters.removed = db.counters.removed → Counts db c db'
  | removed : c.insertion = none → (Call.mk db c).lost = [] →
    db'.counters.removed = db.counters.removed + db.dirty.fewer db'.dirty → Counts db c db'
  | stopped : c.insertion = none → (Call.mk db c).lost = db.dirty.gone db'.dirty →
    db'.counters.removed = db.counters.removed → Counts db c db'

theorem Counts.kept (hi : c.insertion = none) (hl : (Call.mk db c).lost = [])
    (hc : db'.counters.removed = db.counters.removed) (hd : db.dirty.fewer db'.dirty = 0) :
    Counts db c db' :=
  .removed hi hl (by rw [hc, hd, add_zero])

theorem Counts.same (hi : c.insertion = none) (hl : (Call.mk db c).lost = [])
    (hc : db'.counters.removed = db.counters.removed) (hd : db'.dirty = db.dirty) :
    Counts db c db' :=
  .kept hi hl hc (hd ▸ Dirty.fewer_of_eq rfl rfl)

theorem Counts.commit {arrangement : Dirty.Arrangement} {report uncache : Bool} :
    Counts db (.commit root report uncache arrangement)
      (db.commit arrangement root report uncache).2 := by
  cases hc : db.commit arrangement root report uncache with
  | mk result db' =>
    have hr := removed_commit hc
    cases result with
    | ok u =>
      refine .removed rfl ?_ hr
      simp only [Call.lost, hc]
    | error e =>
      refine .stopped rfl ?_ hr
      simp only [Call.lost, hc]

end Database

theorem Command.counts (he : c.exec db = some db') : db.Counts c db' := by
  cases c with
  | insert h size node =>
    cases he
    exact .inserted rfl rfl (Database.removed_insertContent ..)
  | insertBlob h blob =>
    cases he
    exact .inserted rfl rfl (Database.removed_insertContent ..)
  | insertNode node =>
    cases he
    exact .inserted rfl rfl (Database.removed_insertContent ..)
  | insertPreimage h preimage =>
    cases he
    exact .kept rfl rfl rfl (Dirty.fewer_insertPreimage ..)
  | reference child parent =>
    cases he
    have hd := Dirty.fewer_reference db.dirty child parent
    rw [← Database.dirty_reference] at hd
    exact .kept rfl rfl (Database.removed_reference ..) hd
  | stamp root arrangement elapsed =>
    cases he
    have hd := Dirty.fewer_stamp db.dirty arrangement root
    rw [← Database.dirty_stamp db arrangement elapsed] at hd
    exact .kept rfl rfl (Database.removed_stamp ..) hd
  | nextVersion =>
    cases he
    exact .kept rfl rfl rfl (Dirty.fewer_of_eq rfl rfl)
  | dereference root arrangement clock =>
    obtain ⟨⟨result, db₁⟩, hd, rfl⟩ := Option.map_eq_some_iff.1 he
    exact .removed rfl rfl (Database.removed_dereference hd)
  | dereferenceStored root arrangement clock =>
    obtain ⟨⟨result, db₁⟩, hd, rfl⟩ := Option.map_eq_some_iff.1 he
    exact .removed rfl rfl (Database.removed_dereferenceStored hd)
  | collect count arrangement =>
    cases he
    have hc := Database.removed_collect db arrangement count
    obtain ⟨_, ⟨_, _, _, hd, _⟩ | ⟨_, _, hd⟩⟩ :=
      Database.collect_cases (Prod.mk.eta (p := db.collect arrangement count)).symm
    · exact .same rfl rfl hc hd
    · exact .kept rfl rfl hc (hd ▸ Dirty.fewer_of_eq rfl rfl)
  | forgetUseless =>
    cases he
    exact .kept rfl rfl rfl (Dirty.fewer_of_eq rfl rfl)
  | cap limit arrangement =>
    cases he
    exact .removed rfl rfl (Database.removed_cap rfl)
  | commit root report uncache arrangement =>
    cases he
    exact .commit
  | readNode h =>
    cases he
    exact .same rfl rfl (Database.removed_lookup db h) (Database.Reads.lookup db h).dirty
  | readBlob h =>
    cases he
    exact .same rfl rfl (Database.removed_lookup db h) (Database.Reads.lookup db h).dirty
  | readPreimage h =>
    cases he
    exact .same rfl rfl (Database.removed_preimage db h) (Database.Reads.preimage db h).dirty
  | arm faults =>
    cases he
    exact .same rfl rfl rfl rfl

namespace Dirty.Effect

variable {d d' : Dirty} {h : Hash} {content : Dirty.Content} {size : Nat}

theorem eq_insert (he : d.Effect c d') (hi : c.insertion = some (h, content, size)) :
    d' = d.insert h content size := by
  cases he with
  | inserted hc =>
    rw [hi] at hc
    cases hc
    rfl
  | referenced hc =>
    rw [hc] at hi
    cases hi
  | stamped hc =>
    rw [hc] at hi
    cases hi
  | versioned hc =>
    rw [hc] at hi
    cases hi
  | trimmed hc => exact absurd (hi.symm.trans hc) nofun

theorem within (he : d.Effect c d') (hi : c.insertion = none) : d'.Within d := by
  cases he with
  | inserted hc => exact absurd (hi.symm.trans hc) nofun
  | @referenced child parent _ =>
    apply Within.of_core
    intro k r' hr'
    have hk := core_reference d child parent k
    rw [hr', Option.map_some, eq_comm, Option.map_eq_some_iff] at hk
    obtain ⟨r, hr, hc⟩ := hk
    exact ⟨r, hr, hc.symm⟩
  | @stamped root _ =>
    intro k r' hr'
    rw [get_stamp, Option.map_eq_some_iff] at hr'
    obtain ⟨r, hr, rfl⟩ := hr'
    refine ⟨r, hr, ?_⟩
    split <;> rfl
  | versioned _ => exact fun k r hr => ⟨r, hr, rfl⟩
  | trimmed _ ht => exact .of_core ht.kept

end Dirty.Effect

theorem Database.mem_gone_of_commit {arrangement : Dirty.Arrangement} {report uncache : Bool}
    {e : Error} {h : Hash} (hw : db.dirty.WellFormed order)
    (hc : db.commit arrangement root report uncache = (.error e, db')) :
    h ∈ db.dirty.gone db'.dirty ↔ uncache ∧ ∃ made encoded,
      db'.disk.attempts = db.disk.attempts ++ made ∧ putNode h encoded ∈ written made := by
  obtain ⟨nodes, ops, d, hcommits, hleft, ⟨_, _, rfl⟩ | ⟨hr, _⟩⟩ := commits_of_commit hw hc
  · obtain ⟨_, ⟨made, hmade, hwritten, _⟩, _⟩ := hcommits.logs
    have hleavers : h ∈ leavers uncache nodes ↔ uncache ∧ h ∈ nodes.map Prod.fst := by
      cases uncache <;> simp [leavers]
    have hgone : h ∈ db.dirty.gone db'.dirty ↔ h ∈ leavers uncache nodes := by
      rw [Dirty.mem_gone, ← Bool.not_eq_true, hleft.contains_iff, Dirty.nodes, Map.contains_erase]
      constructor
      · rintro ⟨⟨_, hk⟩, hn⟩
        exact not_not.1 fun hm => hn ⟨hm, hk⟩
      · intro hm
        obtain ⟨n, hn, he⟩ := List.mem_map.1 (hleavers.1 hm).2
        obtain ⟨hz, hk⟩ := cached_of_mem_pending hw n (hcommits.first.subset hn)
        rw [he] at hz hk
        exact ⟨⟨Ne.symm hz, hk⟩, fun hn' => hn'.1 hm⟩
    rw [hgone, hleavers]
    apply and_congr_right
    intro _
    constructor
    · intro hm
      obtain ⟨n, hn, rfl⟩ := List.mem_map.1 hm
      exact ⟨made, n.2, hmade, hwritten ▸ (hcommits.puts n.1 n.2).2 hn⟩
    · rintro ⟨made', encoded, hmade', hm⟩
      rw [← List.append_cancel_left (hmade.symm.trans hmade'), hwritten, hcommits.puts] at hm
      exact List.mem_map_of_mem (f := Prod.fst) hm
  · cases hr

theorem Call.mem_lost_iff {call : Call} {h : Hash} (hw : call.before.dirty.WellFormed order) :
    h ∈ call.lost ↔ call.FailsAfter h := by
  obtain ⟨db, c⟩ := call
  constructor
  · intro hm
    cases c with
    | commit root report uncache arrangement =>
      cases hc : db.commit arrangement root report uncache with
      | mk result db' =>
        cases result with
        | ok u =>
          simp only [lost, hc] at hm
          cases hm
        | error e =>
          simp only [lost, hc] at hm
          obtain ⟨rfl, made, encoded, hmade, hwritten⟩ := (Database.mem_gone_of_commit hw hc).1 hm
          exact ⟨arrangement, root, report, e, db', made, encoded, rfl, hc, hmade, hwritten⟩
    | _ => cases hm
  · rintro ⟨arrangement, root, report, e, db', made, encoded, rfl, hc, hmade, hwritten⟩
    have hm := (Database.mem_gone_of_commit hw hc).2 ⟨rfl, made, encoded, hmade, hwritten⟩
    simp only [lost]
    rw [hc]
    exact hm

/-- What is held and what has been counted as removed change together by what a call adds and what
it loses. -/
theorem balance_exec {order' : List Hash} (hw : db.dirty.WellFormed order)
    (hw' : db'.dirty.WellFormed order') (ha : db.dirty.Accounted) (he : c.exec db = some db')
    (hb : db.dirty.bytes ≤ wordMax) (hb' : db'.dirty.bytes ≤ wordMax) :
    db'.dirty.held + db'.counters.removed + (Call.mk db c).lostCost =
      db.dirty.held + db.counters.removed + (Call.mk db c).added := by
  have ha' := accounted_exec hw ha he hb'
  have heffect := (c.effect he).dirty hw
  have hz := hw.rooted.contains
  have hz' := hw'.rooted.contains
  cases c.counts he with
  | @inserted h content size hi hl hc =>
    have hd := heffect.eq_insert hi
    have hheld := Dirty.held_insert hz ha (hd ▸ ha') (hd ▸ hb')
    rw [Call.lostCost, hl, Dirty.costOf_nil, Call.added, hi, hc, hd, hheld, add_zero,
      add_right_comm]
  | removed hi hl hc =>
    obtain ⟨hheld, hfewer⟩ := (heffect.within hi).held hz hz' ha ha' hb
    rw [Call.lostCost, hl, Dirty.costOf_nil, Call.added_of_no_insertion hi, hc, hfewer, hheld]
    abel
  | stopped hi hl hc =>
    obtain ⟨hheld, _⟩ := (heffect.within hi).held hz hz' ha ha' hb
    rw [Call.lostCost, hl, Call.added_of_no_insertion hi, hc, hheld]
    abel

/-- Along a run everything that was added is held, counted as removed or lost. -/
theorem Run.balance {start : Database} {calls : List Call} (hrun : Run start calls db)
    (hw : start.dirty.WellFormed []) (ha : start.dirty.Accounted)
    (hcalls : ∀ call ∈ calls, call.before.dirty.bytes ≤ wordMax) (hb : db.dirty.bytes ≤ wordMax) :
    db.dirty.held + db.counters.removed + (calls.map Call.lostCost).sum =
      start.dirty.held + start.counters.removed + (calls.map Call.added).sum := by
  induction hrun with
  | nil => rfl
  | @snoc calls db db' c hrun he ih =>
    have hlast := hcalls _ (List.mem_append_right _ (List.mem_singleton_self _))
    have hprior : ∀ call ∈ calls, call.before.dirty.bytes ≤ wordMax := fun call hm =>
      hcalls call (List.mem_append_left _ hm)
    have hstep := balance_exec (hrun.wellFormed hw) ((Run.snoc hrun he).wellFormed hw)
      (hrun.accounted hw ha hprior hlast) he hlast hb
    simp only [List.map_append, List.map_singleton, List.sum_append, List.sum_singleton]
    calc db'.dirty.held + db'.counters.removed +
          ((calls.map Call.lostCost).sum + (Call.mk db c).lostCost)
      _ = db'.dirty.held + db'.counters.removed + (Call.mk db c).lostCost +
          (calls.map Call.lostCost).sum := by abel
      _ = db.dirty.held + db.counters.removed + (calls.map Call.lostCost).sum +
          (Call.mk db c).added := by
        rw [hstep]
        abel
      _ = _ := by
        rw [ih hprior hlast]
        abel

section Main

variable {disk : Store.Disk} {counters : Counters} {log : List Event} {files : Directory}
  {place : String → String} {config : Config} {calls : List Call}

theorem Database.counters_new :
    (new disk counters log files place config).counters = counters := by
  rw [new]
  split
  · rfl
  · split <;> rfl

theorem Call.lostCost_eq_zero_iff {call : Call} : call.lostCost = 0 ↔ call.lost = [] := by
  constructor
  · intro hz
    exact List.length_eq_zero_iff.1 (congrArg Prod.fst hz)
  · intro hl
    rw [lostCost, hl, Dirty.costOf_nil]

/-- Along every run, whatever writes fail, the nodes that were inserted are those that are cached,
those that have been counted as swept, flushed or committed, and those that were lost; and so are
their bytes with their hashes. Lost are the nodes that a commit that uncaches has written before it
fails. Nothing else is missing from the counters. -/
theorem insertions_are_cached_or_counted
    (hrun : Run (.new disk counters log files place config) calls db)
    (hcalls : ∀ call ∈ calls, call.before.dirty.bytes ≤ wordMax)
    (hb : db.dirty.bytes ≤ wordMax) :
    (calls.map Call.added).sum + counters.removed =
      db.dirty.held + db.counters.removed + (calls.map Call.lostCost).sum ∧
    (∀ call ∈ calls, ∀ h, h ∈ call.lost ↔ call.FailsAfter h) ∧
    ((calls.map Call.added).sum + counters.removed = db.dirty.held + db.counters.removed ↔
      ∀ call ∈ calls, ∀ h, ¬call.FailsAfter h) := by
  have hbalance := hrun.balance Database.wellFormed_new Database.accounted_new hcalls hb
  have hstart : (Database.new disk counters log files place config).dirty.held = 0 := by
    rw [Database.dirty_new]
    rfl
  rw [hstart, Database.counters_new, zero_add, add_comm counters.removed] at hbalance
  have hlost : ∀ call ∈ calls, ∀ h, h ∈ call.lost ↔ call.FailsAfter h := by
    intro call hm h
    obtain ⟨_, hprior, _⟩ := hrun.prior hm
    exact Call.mem_lost_iff (hprior.wellFormed Database.wellFormed_new)
  refine ⟨hbalance.symm, hlost, ?_⟩
  rw [← hbalance, add_eq_left, List.sum_eq_zero_iff, List.forall_mem_map]
  apply forall₂_congr
  intro call hm
  rw [Call.lostCost_eq_zero_iff, List.eq_nil_iff_forall_not_mem]
  exact forall_congr' fun h => not_congr (hlost call hm h)

end Main

/-- Nodes are committed, dropped as stale and flushed, after making room has failed once. -/
def commitSweepAndFlush : List Command :=
  [.insertBlob (.fill 1) [1, 2, 3], .insertBlob (.fill 2) [4],
    .commit (.fill 1) false true, .nextVersion, .dereference (.fill 2),
    .insertBlob (.fill 3) [5, 6], .arm { writesLeft := some 0 }, .cap 0, .arm {}, .cap 0,
    .insertBlob (.fill 4) [7]]

theorem insertions_counted_after_sweep_and_flush :
    ∃ calls db, Run (.new {} {} [] {} id {}) calls db ∧
      (calls.map Call.added).sum = (4, 135) ∧ db.dirty.held = (1, 33) ∧
      db.counters.removed = (3, 102) ∧
      (calls.map Call.added).sum + Counters.removed {} = db.dirty.held + db.counters.removed := by
  have hcheck : ((Database.new {} {} [] {} id {}).run commitSweepAndFlush).any (fun r =>
      decide (∀ call ∈ r.1, call.before.dirty.bytes ≤ wordMax) &&
        decide (r.2.dirty.bytes ≤ wordMax) && decide (∀ call ∈ r.1, call.lost = []) &&
        decide ((r.1.map Call.added).sum = (4, 135)) && decide (r.2.dirty.held = (1, 33)) &&
        decide (r.2.counters.removed = (3, 102))) := by
    decide +kernel
  obtain ⟨⟨calls, db⟩, hr, hcheck⟩ := (Option.any_eq_true _ _).1 hcheck
  simp only [Bool.and_eq_true, decide_eq_true_eq] at hcheck
  obtain ⟨⟨⟨⟨⟨hcalls, hb⟩, hnone⟩, hadded⟩, hheld⟩, hremoved⟩ := hcheck
  obtain ⟨_, hlost, hiff⟩ := insertions_are_cached_or_counted (Run.of_run hr) hcalls hb
  refine ⟨calls, db, Run.of_run hr, hadded, hheld, hremoved, hiff.2 fun call hm h hs => ?_⟩
  have hmem := (hlost call hm h).2 hs
  rw [hnone call hm] at hmem
  cases hmem

/-- Of two nodes the first fills a batch, after which nothing more can be written. -/
def failAfterFirstBatch : List Command :=
  [.insertBlob (.fill 1) (List.replicate Store.idealBatchSize 0), .insertBlob (.fill 2) [7],
    .reference (.fill 1) (.fill 2), .arm { writesLeft := some 1 },
    .commit (.fill 2) false true]

/-- Neither is the first node cached, nor has it been counted. -/
theorem insertions_not_counted_after_failed_commit :
    ∃ calls db, (Database.new {} {} [] {} id { preimages := false }).run failAfterFirstBatch =
        some (calls, db) ∧
      (∀ call ∈ calls, call.before.dirty.bytes ≤ wordMax) ∧ db.dirty.bytes ≤ wordMax ∧
      (calls.map Call.added).sum = (2, 102465) ∧
      db.dirty.held + db.counters.removed = (1, 33) ∧
      (calls.map Call.added).sum + Counters.removed {} ≠ db.dirty.held + db.counters.removed := by
  have hcheck : ((Database.new {} {} [] {} id { preimages := false }).run
      failAfterFirstBatch).any (fun r =>
      decide (∀ call ∈ r.1, call.before.dirty.bytes ≤ wordMax) &&
        decide (r.2.dirty.bytes ≤ wordMax) &&
        decide ((r.1.map Call.added).sum = (2, 102465)) &&
        decide (r.2.dirty.held + r.2.counters.removed = (1, 33))) := by
    decide +kernel
  obtain ⟨⟨calls, db⟩, hr, hcheck⟩ := (Option.any_eq_true _ _).1 hcheck
  simp only [Bool.and_eq_true, decide_eq_true_eq] at hcheck
  obtain ⟨⟨⟨hcalls, hb⟩, hadded⟩, hleft⟩ := hcheck
  refine ⟨calls, db, hr, hcalls, hb, hadded, hleft, ?_⟩
  rw [hadded, hleft]
  decide

end TrieCache
