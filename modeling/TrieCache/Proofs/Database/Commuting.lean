import TrieCache.Proofs.Clean.Recency
import TrieCache.Proofs.Database.Dereference
import TrieCache.Proofs.Dirty.Without

namespace TrieCache

theorem satAdd_satAdd (a b c : Nat) : satAdd (satAdd a b) c = satAdd a (b + c) := by
  simp only [satAdd]
  omega

def Amount.plus (a b : Amount) : Amount := ⟨a.nodes + b.nodes, a.size + b.size⟩

theorem Amount.add_add (a b c : Amount) : (a.add b).add c = a.add (b.plus c) :=
  congrArg₂ Amount.mk (satAdd_satAdd ..) (satAdd_satAdd ..)

namespace Dirty

/-- The root itself, if it is not cached once what is stale below it has been dropped. -/
def abandoned (d : Dirty) (root : Hash) : List Hash :=
  if d.records.contains root && (d.staleEdges root).isNone then [] else [root]

def decrease (d d' : Dirty) : Amount :=
  ⟨d.records.size - d'.records.size, d.dirtiesSize - d'.dirtiesSize⟩

theorem staleEdges_zero (d : Dirty) : d.staleEdges Hash.zero = none := by
  rw [← Option.not_isSome_iff_eq_none, isSome_staleEdges_iff]
  exact fun hs => hs.1 rfl

end Dirty

theorem Dirty.Sweep.Drops.abandoned_eq {s s' : Dirty.Sweep} {gone : List Hash} {root : Hash}
    (hd : Drops gone s s') (hroot : (s.dirty.staleEdges root).isSome → root ∈ gone) :
    s.dirty.abandoned root = if s'.dirty.records.contains root then [] else [root] := by
  have hcontains : (s.dirty.records.contains root && (s.dirty.staleEdges root).isNone) =
      s'.dirty.records.contains root := by
    by_cases hg : root ∈ gone
    · have hb := hd.bodies root
      rw [if_pos hg, Option.map_eq_none_iff] at hb
      rw [Map.contains_eq_false_iff.2 hb, Option.isNone_eq_false_iff.2 (hd.stale root hg),
        Bool.and_false]
    · have hnone : (s.dirty.staleEdges root).isNone := by
        rw [Option.isNone_iff_eq_none, ← Option.not_isSome_iff_eq_none]
        exact fun hs => hg (hroot hs)
      rw [hnone, Bool.and_true, Map.contains_eq_of_map (hd.bodies_eq hg)]
  rw [abandoned, hcontains]

namespace Database

/-- The nodes `gone` have been dropped as stale, and the meta-root has lost its edges to
`forgotten`. What is queued and logged and the number of sweeps are left out. -/
structure Clears (gone forgotten : List Hash) (db db' : Database) : Prop where
  records : ∀ k : Hash, db'.dirty.records[k]?.map Dirty.Record.body =
    if k ∈ gone then none
    else (db.dirty.records[k]?.map Dirty.Record.body).map (·.forget forgotten k)
  stale : ∀ k ∈ gone, (db.dirty.staleEdges k).isSome
  nodup : gone.Nodup
  listed : ∀ order, db.dirty.flush.Represents db.dirty.records order →
    db'.dirty.flush.Represents db'.dirty.records (order.filter (· ∉ gone))
  debits : db.dirty.Debits db'.dirty
  fresh : db'.dirty.fresh = db.dirty.fresh
  version : db'.dirty.version = db.dirty.version
  preimages : db'.dirty.preimages = db.dirty.preimages
  preimagesSize : db'.dirty.preimagesSize = db.dirty.preimagesSize
  stats : db'.dirty.stats = { db.dirty.stats with
    swept := db.dirty.stats.swept.add (db.dirty.decrease db'.dirty) }
  counters : db'.counters = { db.counters with
    sweptNodes := db.counters.sweptNodes + (db.dirty.decrease db'.dirty).nodes
    sweptSize := db.counters.sweptSize + (db.dirty.decrease db'.dirty).size
    sweeps := db'.counters.sweeps }
  cleans : db'.cleans = db.cleans.map (·.removeAll (gone.filter db.dirty.isCollapsed))
  disk : db'.disk = db.disk
  config : db'.config = db.config

variable {db db' db'' : Database} {gone gone' forgotten forgotten' order : List Hash}
  {arrangement : Dirty.Arrangement} {clock : List Duration} {root root' k : Hash}
  {s : Dirty.Sweep}

theorem clears_account (hp : Dirty.Sweep.Progress { dirty := db.dirty } s)
    (hdebits : db.dirty.Debits s.dirty) (hd : Dirty.Sweep.Drops gone { dirty := db.dirty } s)
    (hroot : (db.dirty.staleEdges root).isSome → root ∈ gone) :
    Clears gone (db.dirty.abandoned root) db (db.account root s) := by
  have hrest := hd.rest_forgetRoot root
  have hcontains : (s.dirty.forgetRoot root).records.contains = s.dirty.records.contains :=
    funext (Dirty.contains_forgetRoot s.dirty root)
  have hpruned : Prunes db (db.account root s) s.dropped := prunes_account hp
  refine ⟨?_, hd.stale, hd.nodup, ?_, ?_, ?_, ?_, ?_, ?_, ?_, ?_, ?_, ?_, ?_⟩
  · intro k
    change (s.dirty.forgetRoot root).records[k]?.map _ = _
    rw [hd.abandoned_eq hroot]
    by_cases hc : s.dirty.records.contains root
    · have hforget : (fun r : Dirty.Record => r.forget [] k) = id :=
        funext (Dirty.Record.forget_nil k)
      rw [if_pos hc, Dirty.forgetRoot, if_pos hc, hd.bodies, hforget, Option.map_id_fun, id]
    · rw [if_neg hc, Dirty.body_forgetRoot (Bool.eq_false_iff.2 hc), hd.bodies]
      split <;> rfl
  · intro order hr
    have hlisted := (hp.toShrinks.trans (.forgetRoot s.dirty root)).listed order hr
    rw [hcontains, hd.filter_contains hr.cached] at hlisted
    exact hlisted
  · have hall := hdebits.trans (.forgetRoot s.dirty root)
    exact ⟨hall.payloads_le, hall.edgeSizes_le, hall.dirtiesSize, hall.childrenSize⟩
  · change (s.dirty.forgetRoot root).fresh = _
    rw [hrest]
  · change (s.dirty.forgetRoot root).version = _
    rw [hrest]
  · exact hpruned.preimages
  · exact hpruned.preimagesSize
  · have hstats : (s.dirty.forgetRoot root).stats = db.dirty.stats := by rw [hrest]
    have hswept : (db.account root s).dirty.stats = { (s.dirty.forgetRoot root).stats with
        swept := (s.dirty.forgetRoot root).stats.swept.add
          (db.dirty.decrease (db.account root s).dirty) } := rfl
    rw [hswept, hstats]
  · rw [account]
    split <;> rfl
  · have hdropped : s.dropped = gone.filter db.dirty.isCollapsed := by
      rw [hd.dropped, List.append_nil]
    rw [← hdropped]
    exact hpruned.cleans
  · exact hpruned.disk
  · exact hpruned.config

namespace Clears

theorem queued (hc : Clears gone forgotten db db') (useless : List HashSet) :
    Clears gone forgotten db { db' with dirty := { db'.dirty with useless } } where
  records := hc.records
  stale := hc.stale
  nodup := hc.nodup
  listed := hc.listed
  debits := ⟨hc.debits.payloads_le, hc.debits.edgeSizes_le, hc.debits.dirtiesSize,
    hc.debits.childrenSize⟩
  fresh := hc.fresh
  version := hc.version
  preimages := hc.preimages
  preimagesSize := hc.preimagesSize
  stats := hc.stats
  counters := hc.counters
  cleans := hc.cleans
  disk := hc.disk
  config := hc.config

theorem body_eq (hc : Clears gone forgotten db db') (hz : k ≠ Hash.zero) (hk : k ∉ gone) :
    db'.dirty.records[k]?.map Dirty.Record.body = db.dirty.records[k]?.map Dirty.Record.body := by
  have hforget : (fun r : Dirty.Record => r.forget forgotten k) = id := by
    funext r
    rw [Dirty.Record.forget, if_neg hz, id]
  rw [hc.records, if_neg hk, hforget, Option.map_id_fun, id]

theorem get_of_mem (hc : Clears gone forgotten db db') (hk : k ∈ gone) :
    db'.dirty.records[k]? = none := by
  have hr := hc.records k
  rwa [if_pos hk, Option.map_eq_none_iff] at hr

theorem ne_zero (hc : Clears gone forgotten db db') (hk : k ∈ gone) : k ≠ Hash.zero :=
  (Dirty.isSome_staleEdges_iff.1 (hc.stale k hk)).1

theorem staleEdges_eq (hc : Clears gone forgotten db db') :
    db'.dirty.staleEdges = Dirty.restrict (· ∉ gone) db.dirty.staleEdges := by
  funext k
  rw [Dirty.restrict]
  split
  · next hk =>
    by_cases hz : k = Hash.zero
    · rw [hz, Dirty.staleEdges_zero, Dirty.staleEdges_zero]
    · exact Dirty.staleEdges_congr hc.fresh hc.version (hc.body_eq hz hk)
  · next hk => exact Dirty.staleEdges_of_none (hc.get_of_mem (not_not.1 hk))

theorem content_eq (hc : Clears gone forgotten db db') (k : Hash) :
    db'.dirty.records[k]?.map Dirty.Record.content =
      if k ∈ gone then none else db.dirty.records[k]?.map Dirty.Record.content := by
  have hforget : ∀ r : Dirty.Record, (r.forget forgotten k).content = r.content := by
    intro r
    rw [Dirty.Record.forget]
    split <;> rfl
  have hr := congrArg (Option.map Dirty.Record.content) (hc.records k)
  rw [Option.map_map] at hr
  refine hr.trans ?_
  split
  · rfl
  · rw [Option.map_map, Option.map_map]
    exact congrArg (Option.map · _) (funext fun r => hforget r.body)

theorem contains_eq (hc : Clears gone forgotten db db') (hk : k ∉ gone) :
    db'.dirty.records.contains k = db.dirty.records.contains k :=
  Map.contains_eq_of_map ((hc.content_eq k).trans (if_neg hk))

theorem abandoned_eq (hc : Clears gone forgotten db db') (root : Hash) :
    db'.dirty.abandoned root = db.dirty.abandoned root := by
  rw [Dirty.abandoned, Dirty.abandoned, hc.staleEdges_eq, Dirty.restrict]
  by_cases hk : root ∈ gone
  · rw [if_neg (not_not_intro hk), Map.contains_eq_false_iff.2 (hc.get_of_mem hk),
      Option.isNone_eq_false_iff.2 (hc.stale root hk), Bool.false_and, Bool.and_false]
  · rw [if_pos hk, hc.contains_eq hk]

theorem isCollapsed_eq (hc : Clears gone forgotten db db') (hz : k ≠ Hash.zero) (hk : k ∉ gone) :
    db'.dirty.isCollapsed k = db.dirty.isCollapsed k :=
  Dirty.Sweep.isCollapsed_congr (hc.body_eq hz hk)

theorem size_le (hc : Clears gone forgotten db db') :
    db'.dirty.records.size ≤ db.dirty.records.size := by
  have hcontains : ∀ k ∈ gone, db.dirty.records.contains k := by
    intro k hk
    obtain ⟨_, _, r, hr, _⟩ := Dirty.isSome_staleEdges_iff.1 (hc.stale k hk)
    exact Map.contains_of_get hr
  have hsize := Map.size_of_gone hc.nodup hcontains hc.content_eq
  omega

theorem dirtiesSize_le (hc : Clears gone forgotten db db') :
    db'.dirty.dirtiesSize ≤ db.dirty.dirtiesSize := by
  rw [hc.debits.dirtiesSize]
  exact Nat.sub_le _ _

theorem decrease_trans (h₁ : Clears gone forgotten db db') (h₂ : Clears gone' forgotten' db' db'') :
    db.dirty.decrease db''.dirty =
      (db.dirty.decrease db'.dirty).plus (db'.dirty.decrease db''.dirty) := by
  have hsize := h₁.size_le
  have hsize' := h₂.size_le
  have hdirties := h₁.dirtiesSize_le
  have hdirties' := h₂.dirtiesSize_le
  simp only [Dirty.decrease, Amount.plus, Amount.mk.injEq]
  omega

theorem append (h₁ : Clears gone forgotten db db') (h₂ : Clears gone' forgotten' db' db'') :
    Clears (gone' ++ gone) (forgotten ++ forgotten') db db'' := by
  have hnew : ∀ k ∈ gone', k ∉ gone ∧ (db.dirty.staleEdges k).isSome := by
    intro k hk
    have hs := h₂.stale k hk
    rw [h₁.staleEdges_eq, Dirty.restrict] at hs
    split at hs
    · next hg => exact ⟨hg, hs⟩
    · cases hs
  have hdecrease := h₁.decrease_trans h₂
  refine ⟨fun k => ?_, fun k hk => ?_, ?_, fun order hr => ?_, h₁.debits.trans h₂.debits,
    h₂.fresh.trans h₁.fresh, h₂.version.trans h₁.version, h₂.preimages.trans h₁.preimages,
    h₂.preimagesSize.trans h₁.preimagesSize, ?_, ?_, ?_, h₂.disk.trans h₁.disk,
    h₂.config.trans h₁.config⟩
  · have hforget : (fun r : Dirty.Record => r.forget (forgotten ++ forgotten') k) =
        (fun r : Dirty.Record => r.forget forgotten' k) ∘ fun r => r.forget forgotten k :=
      funext fun r => (Dirty.Record.forget_append forgotten forgotten' k r).symm
    rw [h₂.records, h₁.records, hforget, ← Option.map_map]
    by_cases hk : k ∈ gone' <;> by_cases hk' : k ∈ gone <;> simp [hk, hk']
  · rcases List.mem_append.1 hk with hk | hk
    · exact (hnew k hk).2
    · exact h₁.stale k hk
  · exact h₂.nodup.append h₁.nodup fun k hk hk' => (hnew k hk).1 hk'
  · have hr' := h₂.listed _ (h₁.listed order hr)
    rw [List.filter_filter] at hr'
    have he : order.filter (fun k => decide (k ∉ gone') && decide (k ∉ gone)) =
        order.filter (· ∉ gone' ++ gone) :=
      List.filter_congr fun k _ => by simp
    exact he ▸ hr'
  · rw [h₂.stats, h₁.stats, hdecrease, ← Amount.add_add]
  · rw [h₂.counters, h₁.counters, hdecrease, Amount.plus]
    simp only [Nat.add_assoc]
  · have hcollapsed : gone'.filter db'.dirty.isCollapsed = gone'.filter db.dirty.isCollapsed :=
      List.filter_congr fun k hk => h₁.isCollapsed_eq (h₂.ne_zero hk) (hnew k hk).1
    have hremove : ∀ c : Clean.Cache,
        (c.removeAll (gone.filter db.dirty.isCollapsed)).removeAll
            (gone'.filter db.dirty.isCollapsed) =
          c.removeAll ((gone' ++ gone).filter db.dirty.isCollapsed) := by
      intro c
      rw [Clean.Cache.removeAll_append, List.filter_append]
      exact c.removeAll_perm List.perm_append_comm
    rw [h₂.cleans, h₁.cleans, hcollapsed, Option.map_map]
    exact congrArg (Option.map · _) (funext hremove)

/-- Which nodes have been dropped and which roots forgotten determines what is left. -/
theorem unique (hr : db.dirty.flush.Represents db.dirty.records order)
    (h₁ : Clears gone forgotten db db') (h₂ : Clears gone' forgotten' db db'')
    (hg : ∀ k, k ∈ gone' ↔ k ∈ gone) (hf : ∀ k, k ∈ forgotten' ↔ k ∈ forgotten) :
    db'' = { db' with
      dirty := { db'.dirty with useless := db''.dirty.useless }
      counters := { db'.counters with sweeps := db''.counters.sweeps }
      log := db''.log } := by
  have hbodies : ∀ k : Hash, db''.dirty.records[k]?.map Dirty.Record.body =
      db'.dirty.records[k]?.map Dirty.Record.body := by
    intro k
    have hforget : (fun r : Dirty.Record => r.forget forgotten' k) =
        fun r => r.forget forgotten k := funext fun r => Dirty.Record.forget_congr hf k r
    rw [h₁.records, h₂.records, hforget]
    exact if_congr (hg k) rfl rfl
  have hfilter : order.filter (· ∉ gone') = order.filter (· ∉ gone) :=
    List.filter_congr fun k _ => by rw [decide_eq_decide, hg]
  obtain ⟨hflush, hrecords⟩ :=
    (h₁.listed order hr).unique (hfilter ▸ h₂.listed order hr) hbodies
  have hpayloads : db''.dirty.payloads = db'.dirty.payloads := by
    rw [Dirty.payloads, Dirty.payloads, Dirty.nodes, Dirty.nodes, hrecords]
  have hedges : db''.dirty.edgeSizes = db'.dirty.edgeSizes := by
    rw [Dirty.edgeSizes, Dirty.edgeSizes, Dirty.nodes, Dirty.nodes, Dirty.roots, Dirty.roots,
      hrecords]
  have hdirties : db''.dirty.dirtiesSize = db'.dirty.dirtiesSize := by
    rw [h₁.debits.dirtiesSize, h₂.debits.dirtiesSize, hpayloads]
  have hdecrease : db.dirty.decrease db''.dirty = db.dirty.decrease db'.dirty := by
    rw [Dirty.decrease, Dirty.decrease, hrecords, hdirties]
  have hdirty : db''.dirty = { db'.dirty with useless := db''.dirty.useless } := by
    apply Dirty.ext
    case records => exact hrecords
    case flush => exact hflush
    case fresh => exact h₂.fresh.trans h₁.fresh.symm
    case version => exact h₂.version.trans h₁.version.symm
    case useless => rfl
    case preimages => exact h₂.preimages.trans h₁.preimages.symm
    case dirtiesSize => exact hdirties
    case childrenSize =>
      change db''.dirty.childrenSize = db'.dirty.childrenSize
      rw [h₁.debits.childrenSize, h₂.debits.childrenSize, hedges]
    case preimagesSize => exact h₂.preimagesSize.trans h₁.preimagesSize.symm
    case stats =>
      change db''.dirty.stats = db'.dirty.stats
      rw [h₁.stats, h₂.stats, hdecrease]
  have hcounters : db''.counters = { db'.counters with sweeps := db''.counters.sweeps } := by
    have hcounted := h₂.counters
    rw [hdecrease] at hcounted
    generalize db''.counters.sweeps = n at hcounted ⊢
    rw [hcounted, h₁.counters]
  have hcleans : db''.cleans = db'.cleans := by
    have hp : gone'.Perm gone := (List.perm_ext_iff_of_nodup h₂.nodup h₁.nodup).2 hg
    have hremove : ∀ c : Clean.Cache, c.removeAll (gone'.filter db.dirty.isCollapsed) =
        c.removeAll (gone.filter db.dirty.isCollapsed) :=
      fun c => c.removeAll_perm (hp.filter _)
    rw [h₁.cleans, h₂.cleans]
    exact congrArg (Option.map · _) (funext hremove)
  calc db'' = ⟨db''.config, db''.dirty, db''.cleans, db''.disk, db''.counters, db''.log⟩ := rfl
    _ = _ := by
      rw [hdirty, hcounters, hcleans, h₂.config, h₂.disk, ← h₁.config, ← h₁.disk]

theorem acyclic (hc : Clears gone forgotten db db')
    (ha : Dirty.Acyclic db.dirty.staleEdges root) : Dirty.Acyclic db'.dirty.staleEdges root := by
  rw [hc.staleEdges_eq]
  exact ha.to_restrict

end Clears

/-- What is stale below a root has been swept. -/
structure Cleared (root : Hash) (gone : List Hash) (db db' : Database) : Prop
    extends Clears gone (db.dirty.abandoned root) db db' where
  reached : ∀ k, k ∈ gone ↔ Dirty.Reaches db.dirty.staleEdges root k
  sweeps : db'.counters.sweeps = db.counters.sweeps + 1

theorem cleared_of_sweep (hl : db.config.allowance clock = none) (hz : root ≠ Hash.zero)
    (ha : Dirty.Acyclic db.dirty.staleEdges root) :
    ∃ gone db', Cleared root gone db db' ∧ db'.dirty.useless = db.dirty.useless ∧
      db.sweep arrangement clock root = some (.ok (gone.filter db.dirty.isCollapsed), db') := by
  obtain ⟨gone, s, hreached, hp, hdebits, hd, hsweep⟩ := sweep_eq_account hl hz ha
  have hroot : (db.dirty.staleEdges root).isSome → root ∈ gone :=
    fun hs => (hreached root).2 (.refl hs)
  refine ⟨gone, _, ⟨clears_account hp hdebits hd hroot, hreached, ?_⟩, useless_account hp, hsweep⟩
  rw [account]
  split <;> rfl

theorem cleared_of_dereference (hl : db.config.allowance clock = none) (hz : root ≠ Hash.zero)
    (ha : Dirty.Acyclic db.dirty.staleEdges root) :
    ∃ gone db', Cleared root gone db db' ∧ db'.dirty.useless = db.dirty.useless ∧
      db.dereference arrangement clock root = some (.ok (), db') := by
  obtain ⟨gone, db', hc, hu, hs⟩ := cleared_of_sweep hl hz ha
  refine ⟨gone, db', hc, hu, ?_⟩
  rw [dereference, hs]
  rfl

theorem cleared_of_dereferenceStored (hl : db.config.allowance clock = none)
    (hz : root ≠ Hash.zero) (ha : Dirty.Acyclic db.dirty.staleEdges root) :
    ∃ gone db' queued, Cleared root gone db db' ∧
      db'.dirty.useless = db.dirty.useless ++ [queued] ∧
      (∀ k, k ∈ queued ↔ k ∈ gone ∧ db.dirty.isCollapsed k) ∧
      db.dereferenceStored arrangement clock root = some (.ok (), db') := by
  obtain ⟨gone, db', hc, hu, hs⟩ := cleared_of_sweep hl hz ha
  refine ⟨gone, { db' with dirty := { db'.dirty with
      useless := db.dirty.useless ++ [HashSet.ofList (gone.filter db.dirty.isCollapsed)] } }, _,
    ⟨hc.queued _, hc.reached, hc.sweeps⟩, rfl, fun k => ?_, ?_⟩
  · rw [HashSet.ofList, Std.ExtTreeSet.mem_ofList, List.contains_iff_mem]
    exact List.mem_filter
  · rw [dereferenceStored, hs, ← hu]
    rfl

namespace Cleared

theorem mem_append_iff (h₁ : Cleared root gone db db') (h₂ : Cleared root' gone' db' db'')
    (k : Hash) : k ∈ gone' ++ gone ↔
      Dirty.Reaches db.dirty.staleEdges root k ∨ Dirty.Reaches db.dirty.staleEdges root' k := by
  have hclosed : Dirty.Closed db.dirty.staleEdges gone :=
    fun h hh k hr => (h₁.reached k).2 (((h₁.reached h).1 hh).trans hr)
  rw [List.mem_append, h₂.reached, h₁.staleEdges_eq]
  constructor
  · rintro (hr | hk)
    · exact .inr hr.of_restrict
    · exact .inl ((h₁.reached k).1 hk)
  · intro hr
    by_cases hk : k ∈ gone
    · exact .inr hk
    rcases hr with hr | hr
    · exact absurd ((h₁.reached k).2 hr) hk
    · exact .inl (hr.avoid hclosed hk)

theorem mem_queued_iff {queued queued' : HashSet} (h₁ : Cleared root gone db db')
    (h₂ : Cleared root' gone' db' db'')
    (hq : ∀ k, k ∈ queued ↔ k ∈ gone ∧ db.dirty.isCollapsed k)
    (hq' : ∀ k, k ∈ queued' ↔ k ∈ gone' ∧ db'.dirty.isCollapsed k) (k : Hash) :
    (k ∈ queued ∨ k ∈ queued') ↔
      (Dirty.Reaches db.dirty.staleEdges root k ∨ Dirty.Reaches db.dirty.staleEdges root' k) ∧
        db.dirty.isCollapsed k := by
  have hsame : k ∈ gone' → db'.dirty.isCollapsed k = db.dirty.isCollapsed k := by
    intro hk
    refine h₁.isCollapsed_eq (h₂.ne_zero hk) fun hk' => ?_
    have hs := h₂.stale k hk
    rw [Dirty.staleEdges_of_none (h₁.get_of_mem hk')] at hs
    cases hs
  rw [← h₁.mem_append_iff h₂, hq, hq', List.mem_append]
  constructor
  · rintro (⟨hk, hc⟩ | ⟨hk, hc⟩)
    · exact ⟨.inr hk, hc⟩
    · exact ⟨.inl hk, hsame hk ▸ hc⟩
  · rintro ⟨hk | hk, hc⟩
    · exact .inr ⟨hk, (hsame hk).symm ▸ hc⟩
    · exact .inl ⟨hk, hc⟩

theorem commute {a b ab ba : Database} {gone₁ gone₂ gone₁' gone₂' : List Hash}
    (hr : db.dirty.flush.Represents db.dirty.records order)
    (ha : Cleared root gone₁ db a) (hab : Cleared root' gone₂ a ab)
    (hb : Cleared root' gone₂' db b) (hba : Cleared root gone₁' b ba) :
    ba = { ab with
      dirty := { ab.dirty with useless := ba.dirty.useless }
      log := ba.log } := by
  have hab' := ha.toClears.append hab.toClears
  have hba' := hb.toClears.append hba.toClears
  have hu := hab'.unique hr hba'
    (fun k => by rw [hb.mem_append_iff hba, ha.mem_append_iff hab, or_comm])
    (fun k => by
      rw [ha.abandoned_eq, hb.abandoned_eq, List.mem_append, List.mem_append, or_comm])
  have hsweeps : ba.counters.sweeps = ab.counters.sweeps := by
    rw [hba.sweeps, hb.sweeps, hab.sweeps, ha.sweeps]
  rw [hsweeps] at hu
  exact hu

theorem again {a b : Database} (hr : db.dirty.flush.Represents db.dirty.records order)
    (ha : Cleared root gone db a) (hb : Cleared root gone' a b) :
    b = { a with
      dirty := { a.dirty with useless := b.dirty.useless }
      counters := { a.counters with sweeps := a.counters.sweeps + 1 }
      log := b.log } := by
  have hu := ha.toClears.unique hr (ha.toClears.append hb.toClears)
    (fun k => by rw [ha.mem_append_iff hb, ha.reached, or_self])
    (fun k => by rw [ha.abandoned_eq, List.mem_append, or_self])
  rw [hb.sweeps] at hu
  exact hu

end Cleared

end Database

section Main

variable {disk : Store.Disk} {counters : Counters} {log : List Event} {files : Directory}
  {place : String → String} {config : Config} {calls : List Call} {db : Database}
  {root root' : Hash}

/-- In whatever order two roots are dereferenced, the same is left but for the log, and once a root
has been dereferenced to do so again changes nothing but the log and the number of sweeps. If the
dropped nodes are queued, the queued sets are the same together. -/
theorem dereferences_commute
    (hrun : Run (.new disk counters log files place config) calls db)
    (order : Fin 5 → Dirty.Arrangement) (clock : Fin 5 → List Duration)
    (hl : ∀ i, db.config.allowance (clock i) = none) (hz : root ≠ Hash.zero)
    (hz' : root' ≠ Hash.zero) (hacyclic : Dirty.Acyclic db.dirty.staleEdges root)
    (hacyclic' : Dirty.Acyclic db.dirty.staleEdges root') :
    (∃ a ab b ba again,
      db.dereference (order 0) (clock 0) root = some (.ok (), a) ∧
      a.dereference (order 1) (clock 1) root' = some (.ok (), ab) ∧
      db.dereference (order 2) (clock 2) root' = some (.ok (), b) ∧
      b.dereference (order 3) (clock 3) root = some (.ok (), ba) ∧
      ba = { ab with log := ba.log } ∧
      a.dereference (order 4) (clock 4) root = some (.ok (), again) ∧
      again = { a with
        counters := { a.counters with sweeps := a.counters.sweeps + 1 }
        log := again.log }) ∧
    ∃ a ab b ba first second first' second',
      db.dereferenceStored (order 0) (clock 0) root = some (.ok (), a) ∧
      a.dereferenceStored (order 1) (clock 1) root' = some (.ok (), ab) ∧
      db.dereferenceStored (order 2) (clock 2) root' = some (.ok (), b) ∧
      b.dereferenceStored (order 3) (clock 3) root = some (.ok (), ba) ∧
      ba = { ab with
        dirty := { ab.dirty with useless := ba.dirty.useless }
        log := ba.log } ∧
      ab.dirty.useless = db.dirty.useless ++ [first, second] ∧
      ba.dirty.useless = db.dirty.useless ++ [second', first'] ∧
      ∀ k, (k ∈ first ∨ k ∈ second) ↔ (k ∈ second' ∨ k ∈ first') := by
  have hr := (hrun.wellFormed Database.wellFormed_new).listed
  constructor
  · obtain ⟨_, a, ha, hua, hda⟩ := Database.cleared_of_dereference (hl 0) hz hacyclic
    obtain ⟨_, b, hb, hub, hdb⟩ := Database.cleared_of_dereference (hl 2) hz' hacyclic'
    obtain ⟨_, ab, hab, huab, hdab⟩ :=
      Database.cleared_of_dereference (ha.config ▸ hl 1) hz' (ha.acyclic hacyclic')
    obtain ⟨_, ba, hba, huba, hdba⟩ :=
      Database.cleared_of_dereference (hb.config ▸ hl 3) hz (hb.acyclic hacyclic)
    obtain ⟨_, again, hagain, huagain, hdagain⟩ :=
      Database.cleared_of_dereference (ha.config ▸ hl 4) hz (ha.acyclic hacyclic)
    have hcommute := ha.commute hr hab hb hba
    have hsame := ha.again hr hagain
    have huseless : ba.dirty.useless = ab.dirty.useless := by rw [huba, hub, huab, hua]
    rw [huseless] at hcommute
    rw [huagain] at hsame
    exact ⟨a, ab, b, ba, again, hda, hdab, hdb, hdba, hcommute, hdagain, hsame⟩
  · obtain ⟨_, a, first, ha, hua, hfirst, hda⟩ :=
      Database.cleared_of_dereferenceStored (hl 0) hz hacyclic
    obtain ⟨_, b, second', hb, hub, hsecond', hdb⟩ :=
      Database.cleared_of_dereferenceStored (hl 2) hz' hacyclic'
    obtain ⟨_, ab, second, hab, huab, hsecond, hdab⟩ :=
      Database.cleared_of_dereferenceStored (ha.config ▸ hl 1) hz' (ha.acyclic hacyclic')
    obtain ⟨_, ba, first', hba, huba, hfirst', hdba⟩ :=
      Database.cleared_of_dereferenceStored (hb.config ▸ hl 3) hz (hb.acyclic hacyclic)
    rw [hua, List.append_assoc] at huab
    rw [hub, List.append_assoc] at huba
    refine ⟨a, ab, b, ba, first, second, first', second', hda, hdab, hdb, hdba,
      ha.commute hr hab hb hba, huab, huba, fun k => ?_⟩
    have hqueued := ha.mem_queued_iff hab hfirst hsecond k
    have hqueued' := hb.mem_queued_iff hba hsecond' hfirst' k
    rw [hqueued, hqueued', or_comm (a := Dirty.Reaches _ root k)]

end Main

/-- Two leaves that depend on the same blob are anchored and committed, and become stale. -/
def commitTwoLeavesOverBlob : List Command :=
  [.insertBlob (.fill 0x22) [1, 2, 3], .insert (.fill 0x11) 5 leafNode,
    .insert (.fill 0x33) 5 leafNode, .reference (.fill 0x22) (.fill 0x11),
    .reference (.fill 0x22) (.fill 0x33), .reference (.fill 0x11) .zero,
    .reference (.fill 0x33) .zero, .commit (.fill 0x11) false false,
    .commit (.fill 0x33) false false, .nextVersion]

theorem dereferences_commute_over_shared_blob :
    ∃ calls db a ab b ba, Run (.new {} {} [] {} id {}) calls db ∧
      db.dirty.roots.keys = [.fill 0x11, .fill 0x33] ∧
      db.dereference .ascending [] (.fill 0x11) = some (.ok (), a) ∧
      a.dereference .ascending [] (.fill 0x33) = some (.ok (), ab) ∧
      db.dereference .ascending [] (.fill 0x33) = some (.ok (), b) ∧
      b.dereference .ascending [] (.fill 0x11) = some (.ok (), ba) ∧
      ba = { ab with log := ba.log } ∧ ab.dirty.roots.keys = [] := by
  have hcheck : ((Database.new {} {} [] {} id {}).run commitTwoLeavesOverBlob).any (fun r =>
      decide (r.2.config.allowance [] = none) &&
        (r.2.dirty.sweep .ascending none (.fill 0x11)).isSome &&
        (r.2.dirty.sweep .ascending none (.fill 0x33)).isSome &&
        decide (r.2.dirty.roots.keys = [.fill 0x11, .fill 0x33]) &&
        (r.2.dereference .ascending [] (.fill 0x11)).all fun s =>
          (s.2.dereference .ascending [] (.fill 0x33)).all fun s =>
            decide (s.2.dirty.roots.keys = [])) := by
    decide +kernel
  obtain ⟨⟨calls, db⟩, hr, hcheck⟩ := (Option.any_eq_true _ _).1 hcheck
  simp only [Bool.and_eq_true, decide_eq_true_eq] at hcheck
  obtain ⟨⟨⟨⟨hl, hends⟩, hends'⟩, hroots⟩, hleft⟩ := hcheck
  obtain ⟨⟨a, ab, b, ba, _, hda, hdab, hdb, hdba, hsame, _⟩, _⟩ :=
    dereferences_commute (Run.of_run hr) (fun _ => .ascending) (fun _ => []) (fun _ => hl)
      (by decide) (by decide) (((db.dirty.sweep_ends_iff ..).1 hends).resolve_left nofun)
      (((db.dirty.sweep_ends_iff ..).1 hends').resolve_left nofun)
  rw [hda, Option.all_some, hdab, Option.all_some, decide_eq_true_eq] at hleft
  exact ⟨calls, db, a, ab, b, ba, Run.of_run hr, hroots, hda, hdab, hdb, hdba, hsame, hleft⟩

end TrieCache
