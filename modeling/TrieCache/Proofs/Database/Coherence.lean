import TrieCache.Proofs.Database.Invariant

namespace TrieCache

open Store (Op nodeKey putNode)

/-- What is cached under a hash has a fixed stored form, which is read back as the same node. -/
def Dirty.Content.Encodes : Dirty.Content → Bytes → Prop
  | .raw blob, encoded => blob = encoded ∧ encoded ≠ []
  | .collapsed node, encoded =>
    node.encode = encoded ∧ Node.decode encoded = .ok node ∧ encoded ≠ []

/-- The three places have only the stored forms given by `E`, and a clean node is on disk. -/
structure Coherent (E : Hash → Bytes) (db : Database) : Prop where
  cached : ∀ h r, h ≠ Hash.zero → db.dirty.records[h]? = some r → r.content.Encodes (E h)
  stored : ∀ h v, db.disk.table[nodeKey h]? = some v → v = E h ∧ v ≠ []
  clean : ∀ h v, db.clean? h = some v → db.disk.table[nodeKey h]? = some v

/-- The three places have only the stored forms given by `E`. -/
structure Faithful (E : Hash → Bytes) (db : Database) : Prop where
  cached : ∀ h r, h ≠ Hash.zero → db.dirty.records[h]? = some r → r.content.Encodes (E h)
  stored : ∀ h v, db.disk.table[nodeKey h]? = some v → v = E h ∧ v ≠ []
  clean : ∀ h v, db.clean? h = some v → v = E h ∧ v ≠ []

/-- If a node is clean it is on disk. -/
def Database.Backed (db : Database) (h : Hash) : Prop :=
  ∀ v, db.clean? h = some v → db.disk.table.contains (nodeKey h)

def Database.Known (db : Database) (h : Hash) : Prop :=
  h ≠ Hash.zero ∧ (db.dirty.records.contains h ∨ db.disk.table.contains (nodeKey h))

/-- Whether a node can be found at all. -/
def Database.Finds (db : Database) (h : Hash) : Prop :=
  h ≠ Hash.zero ∧ ((db.clean? h).isSome ∨ db.dirty.records.contains h ∨
    db.disk.table.contains (nodeKey h))

instance (db : Database) (h : Hash) : Decidable (db.Known h) :=
  inferInstanceAs (Decidable (h ≠ Hash.zero ∧ (db.dirty.records.contains h ∨
    db.disk.table.contains (nodeKey h))))

instance (db : Database) (h : Hash) : Decidable (db.Finds h) :=
  inferInstanceAs (Decidable (h ≠ Hash.zero ∧ ((db.clean? h).isSome ∨
    db.dirty.records.contains h ∨ db.disk.table.contains (nodeKey h))))

namespace Dirty.Content.Encodes

variable {r : Record} {encoded : Bytes}

theorem ne_nil {content : Content} (he : content.Encodes encoded) : encoded ≠ [] := by
  cases content with
  | raw blob => exact he.2
  | collapsed node => exact he.2.2

theorem encoded_eq (he : r.content.Encodes encoded) : r.encoded = encoded := by
  rw [Record.encoded]
  cases hc : r.content with
  | raw blob =>
    rw [hc] at he
    exact he.1
  | collapsed node =>
    rw [hc] at he
    exact he.1

theorem node_eq (he : r.content.Encodes encoded) : r.node = Node.decode encoded := by
  rw [Record.node]
  cases hc : r.content with
  | raw blob =>
    rw [hc] at he
    exact congrArg Node.decode he.1
  | collapsed node =>
    rw [hc] at he
    exact he.2.1.symm

end Dirty.Content.Encodes

variable {E : Hash → Bytes} {db db' start : Database} {c : Command} {calls : List Call}
  {ops : List Op} {h : Hash} {order : List Hash}

theorem coherent_iff : Coherent E db ↔ Faithful E db ∧ ∀ h, db.Backed h := by
  constructor
  · intro hc
    refine ⟨⟨hc.cached, hc.stored, ?_⟩, ?_⟩
    · exact fun h v hv => hc.stored h v (hc.clean h v hv)
    · exact fun h v hv => Map.contains_of_get (hc.clean h v hv)
  · rintro ⟨hf, hb⟩
    refine ⟨hf.cached, hf.stored, ?_⟩
    intro h v hv
    -- On disk there is something under `h`, and it can only be what `E` gives.
    obtain ⟨v', hv'⟩ := Map.contains_iff.1 (hb h v hv)
    rw [hv', (hf.stored h v' hv').1, (hf.clean h v hv).1]

section Flushing

theorem Database.Flushes.puts (hf : Flushes db db' ops) : ∀ op ∈ ops, ∃ k v, op = .put k v := by
  intro op ho
  rcases hf.owned op ho with ⟨h, preimage, rfl⟩ | ⟨h, r, _, _, rfl⟩
  · exact ⟨_, _, rfl⟩
  · exact ⟨_, _, rfl⟩

theorem Database.Flushes.contains_iff (hf : Flushes db db' ops) (h : Hash) :
    db'.disk.table.contains (nodeKey h) ↔
      db.disk.table.contains (nodeKey h) ∨ ∃ v, putNode h v ∈ ops := by
  rw [hf.stores.table, Store.Table.contains_puts hf.puts]
  rfl

theorem Database.Flushes.kept (hf : Flushes db db' ops) (hk : db.dirty.records.contains h) :
    db'.dirty.records.contains h ∨ db'.disk.table.contains (nodeKey h) := by
  cases hk' : db'.dirty.records.contains h with
  | true => exact .inl rfl
  | false =>
    obtain ⟨r, hr⟩ := Map.contains_iff.1 hk
    exact .inr ((hf.contains_iff h).2 (.inr ⟨_, hf.written h r hr hk'⟩))

theorem Database.Flushes.known_iff (hf : Flushes db db' ops) (h : Hash) :
    db'.Known h ↔ db.Known h := by
  apply and_congr_right
  intro hz
  constructor
  · rintro (hk | hk)
    · exact .inl (hf.trims.contains hk)
    · rcases (hf.contains_iff h).1 hk with hk | ⟨v, ho⟩
      · exact .inr hk
      · obtain ⟨_, r, hr, _⟩ := (hf.owned _ ho).node
        exact .inl (Map.contains_of_get hr)
  · rintro (hk | hk)
    · exact hf.kept hk
    · exact .inr ((hf.contains_iff h).2 (.inl hk))

theorem Faithful.flushes (hf : Faithful E db) (hflush : Database.Flushes db db' ops) :
    Faithful E db' := by
  have hput : ∀ h v, putNode h v ∈ ops → v = E h ∧ v ≠ [] := by
    intro h v ho
    obtain ⟨hz, r, hr, rfl⟩ := (hflush.owned _ ho).node
    have he := hf.cached h r hz hr
    exact ⟨he.encoded_eq, he.encoded_eq ▸ he.ne_nil⟩
  refine ⟨?_, ?_, ?_⟩
  · intro h r' hz hr'
    obtain ⟨r, hr, hcore⟩ := hflush.trims.kept h r' hr'
    have hcontent : r'.content = r.content := congrArg Prod.fst hcore
    rw [hcontent]
    exact hf.cached h r hz hr
  · intro h v hv
    rw [hflush.stores.table] at hv
    rcases Store.Table.get_puts hflush.puts hv with hv | ho
    · exact hf.stored h v hv
    · exact hput h v ho
  · intro h v hv
    exact (hflush.cleans h v hv).elim (hf.clean h v) (hput h v)

theorem Database.Backed.flushes (hb : db.Backed h) (hf : Flushes db db' ops) : db'.Backed h := by
  intro v hv
  rw [hf.contains_iff]
  exact (hf.cleans h v hv).imp (hb v) fun ho => ⟨v, ho⟩

theorem Coherent.flushes (hc : Coherent E db) (hf : Database.Flushes db db' ops) :
    Coherent E db' := by
  obtain ⟨hfaithful, hb⟩ := coherent_iff.1 hc
  exact coherent_iff.2 ⟨hfaithful.flushes hf, fun h => (hb h).flushes hf⟩

end Flushing

section Reading

theorem Faithful.lookup_of_found (hf : Faithful E db) (hr : db.disk.readsFail = false)
    (hh : db.Finds h) :
    ∃ found, (db.lookup h).1 = .ok found ∧ found.blob = E h ∧ found.node = Node.decode (E h) := by
  obtain ⟨hz, hh⟩ := hh
  rw [Database.lookup_fst db h hz hr]
  cases hclean : db.clean? h with
  | some encoded =>
    obtain ⟨rfl, _⟩ := hf.clean h encoded hclean
    exact ⟨_, rfl, rfl, rfl⟩
  | none =>
    cases hdirty : db.dirty.records[h]? with
    | some r =>
      have he := hf.cached h r hz hdirty
      exact ⟨_, rfl, he.encoded_eq, he.node_eq⟩
    | none =>
      have hdisk : db.disk.table.contains (nodeKey h) := by
        rw [hclean, Map.contains_iff, hdirty] at hh
        rcases hh with hh | ⟨_, hh⟩ | hh
        · cases hh
        · cases hh
        · exact hh
      obtain ⟨encoded, hg⟩ := Map.contains_iff.1 hdisk
      obtain ⟨rfl, hne⟩ := hf.stored h encoded hg
      rw [hg, Option.filter_some_pos (by simpa using hne)]
      exact ⟨_, rfl, rfl, rfl⟩

theorem Database.lookup_of_not_found (hr : db.disk.readsFail = false) (hh : ¬db.Finds h) :
    (db.lookup h).1 = .error (.notFound h) := by
  by_cases hz : h = Hash.zero
  · have hz' : h.isZero := decide_eq_true hz
    rw [Database.lookup, if_pos hz']
  · rw [Database.Finds, and_iff_right hz, not_or, not_or, Option.not_isSome_iff_eq_none,
      Bool.not_eq_true, Bool.not_eq_true, Map.contains_eq_false_iff,
      Map.contains_eq_false_iff] at hh
    rw [Database.lookup_fst db h hz hr, hh.1, hh.2.1, hh.2.2]
    rfl

/-- What is read depends only on whether the node is found. -/
theorem Faithful.reads_eq (hf : Faithful E db) (hf' : Faithful E db')
    (hr : db.disk.readsFail = false) (hr' : db'.disk.readsFail = false)
    (hh : db'.Finds h ↔ db.Finds h) :
    (db'.blob h).1 = (db.blob h).1 ∧ (db'.node h).1 = (db.node h).1 := by
  rw [Database.blob, Database.blob, Database.node, Database.node]
  dsimp only
  by_cases hfound : db.Finds h
  · obtain ⟨found, hl, hb, hn⟩ := hf.lookup_of_found hr hfound
    obtain ⟨found', hl', hb', hn'⟩ := hf'.lookup_of_found hr' (hh.2 hfound)
    rw [hl, hl']
    constructor
    · exact congrArg Except.ok (hb'.trans hb.symm)
    · exact congrArg (Except.mapError (Error.decode h)) (hn'.trans hn.symm)
  · rw [Database.lookup_of_not_found hr hfound, Database.lookup_of_not_found hr' (mt hh.1 hfound)]
    exact ⟨rfl, rfl⟩

theorem Coherent.found_iff (hc : Coherent E db) : db.Finds h ↔ db.Known h := by
  apply and_congr_right
  intro _
  rw [or_iff_right_iff_imp, Option.isSome_iff_exists]
  rintro ⟨v, hv⟩
  exact .inr (Map.contains_of_get (hc.clean h v hv))

theorem Coherent.reads_eq (hc : Coherent E db) (hc' : Coherent E db')
    (hr : db.disk.readsFail = false) (hr' : db'.disk.readsFail = false)
    (hk : db'.Known h ↔ db.Known h) :
    (db'.blob h).1 = (db.blob h).1 ∧ (db'.node h).1 = (db.node h).1 := by
  apply (coherent_iff.1 hc).1.reads_eq (coherent_iff.1 hc').1 hr hr'
  rw [hc.found_iff, hc'.found_iff, hk]

end Reading

section Steps

/-- A command that caches only what `E` gives. -/
def Command.Caches (E : Hash → Bytes) (c : Command) : Prop :=
  ∀ h content size, c.insertion = some (h, content, size) → content.Encodes (E h)

/-- A command that deletes nothing from disk, and caches only what `E` gives. -/
def Command.Respects (E : Hash → Bytes) (c : Command) : Prop :=
  (∀ count arrangement, c ≠ .collect count arrangement) ∧
    ∀ h content size, c.insertion = some (h, content, size) → content.Encodes (E h)

theorem Faithful.congr (hf : Faithful E db)
    (hrecords : ∀ (h : Hash) r', db'.dirty.records[h]? = some r' →
      ∃ r, db.dirty.records[h]? = some r ∧ r'.content = r.content)
    (hclean : ∀ h v, db'.clean? h = some v → db.clean? h = some v)
    (hdisk : ∀ h v, db'.disk.table[nodeKey h]? = some v → db.disk.table[nodeKey h]? = some v) :
    Faithful E db' where
  cached h r' hz hr' := by
    obtain ⟨r, hr, hcontent⟩ := hrecords h r' hr'
    rw [hcontent]
    exact hf.cached h r hz hr
  stored h v hv := hf.stored h v (hdisk h v hv)
  clean h v hv := hf.clean h v (hclean h v hv)

theorem Faithful.of_contents (hf : Faithful E db)
    (hcontents : ∀ h : Hash, db'.dirty.records[h]?.map (·.content) =
      db.dirty.records[h]?.map (·.content))
    (hcleans : db'.cleans = db.cleans)
    (hdisk : ∀ h v, db'.disk.table[nodeKey h]? = some v → db.disk.table[nodeKey h]? = some v) :
    Faithful E db' := by
  apply hf.congr ?_ ?_ hdisk
  · intro h r' hr'
    have he := hcontents h
    rw [hr', Option.map_some, eq_comm, Option.map_eq_some_iff] at he
    obtain ⟨r, hr, he⟩ := he
    exact ⟨r, hr, he.symm⟩
  · intro h v hv
    rw [Database.clean?, hcleans] at hv
    exact hv

theorem Faithful.reads (hf : Faithful E db) (hr : Database.Reads db db') : Faithful E db' where
  cached h r hz hg := hf.cached h r hz (hr.dirty ▸ hg)
  stored h v hv := hf.stored h v (hr.disk ▸ hv)
  clean h v hv := (hr.cleans h v hv).elim (hf.clean h v) (hf.stored h v)

theorem Database.Prunes.clean {dropped : List Hash} (hp : Prunes db db' dropped) {v : Bytes}
    (hv : db'.clean? h = some v) : db.clean? h = some v := by
  rw [clean?, hp.cleans] at hv
  rw [clean?]
  cases hcleans : db.cleans with
  | none =>
    rw [hcleans] at hv
    cases hv
  | some cleans =>
    rw [hcleans] at hv
    exact Clean.Cache.find?_removeAll hv

theorem Faithful.prunes {dropped : List Hash} (hf : Faithful E db)
    (hp : Database.Prunes db db' dropped) : Faithful E db' := by
  apply hf.congr ?_ (fun _ _ => hp.clean) fun _ _ hv => hp.disk ▸ hv
  intro h r' hr'
  obtain ⟨r, hr, hcore⟩ := hp.trims.kept h r' hr'
  exact ⟨r, hr, congrArg Prod.fst hcore⟩

theorem Faithful.insertContent {content : Dirty.Content} (hf : Faithful E db)
    (he : content.Encodes (E h)) (size : Nat) : Faithful E (db.insertContent h content size) := by
  have hdisk := db.disk_insertContent h content size
  have hcleans := db.cleans_insertContent h content size
  refine ⟨?_, ?_, ?_⟩
  · intro k r hz hr
    have hcore := Dirty.core_insert db.dirty h content size k
    rw [← Database.dirty_insertContent, hr, Option.map_some] at hcore
    split at hcore
    · next hk =>
      have hcontent : r.content = content := congrArg Prod.fst (Option.some.inj hcore)
      rw [hcontent, ← hk.2]
      exact he
    · rw [eq_comm, Option.map_eq_some_iff] at hcore
      obtain ⟨r₀, hr₀, hcore⟩ := hcore
      have hcontent : r₀.content = r.content := congrArg Prod.fst hcore
      rw [← hcontent]
      exact hf.cached k r₀ hz hr₀
  · rw [hdisk]
    exact hf.stored
  · intro k v hv
    rw [Database.clean?, hcleans] at hv
    exact hf.clean k v hv

theorem Database.get_of_collect {arrangement : Dirty.Arrangement} {count : Nat} {key v : Bytes}
    (hv : (db.collect arrangement count).2.disk.table[key]? = some v) :
    db.disk.table[key]? = some v := by
  have hdeletes : ∀ op ∈ db.collectOps arrangement count, ∃ k, op = .delete k := by
    intro op ho
    obtain ⟨k, _, rfl⟩ := List.mem_map.1 ho
    exact ⟨_, rfl⟩
  obtain ⟨_, ⟨_, done, _, _, hdone, hs⟩ | ⟨_, hs, _⟩⟩ :=
    collect_cases (Prod.mk.eta (p := db.collect arrangement count)).symm
  · rw [hs.table] at hv
    exact Store.Table.get_deletes (fun op ho => hdeletes op (hdone.subset ho)) hv
  · rw [hs.table] at hv
    exact Store.Table.get_deletes hdeletes hv

theorem Faithful.collect (hf : Faithful E db) (arrangement : Dirty.Arrangement) (count : Nat) :
    Faithful E (db.collect arrangement count).2 := by
  obtain ⟨hcleans, _⟩ :=
    Database.collect_cases (Prod.mk.eta (p := db.collect arrangement count)).symm
  apply hf.of_contents ?_ hcleans fun _ _ => Database.get_of_collect
  intro h
  rw [db.records_collect]

/-- One call leaves only stored forms given by `E`, even if it fails. -/
theorem faithful_exec (hw : db.dirty.WellFormed order) (hf : Faithful E db) (hs : c.Caches E)
    (he : c.exec db = some db') : Faithful E db' := by
  cases c.effect he with
  | inserted hi => exact hf.insertContent (hs _ _ _ hi) _
  | @referenced child parent _ =>
    apply hf.of_contents
    · intro k
      rw [Database.dirty_reference]
      have hcore := congrArg (Option.map Prod.fst) (Dirty.core_reference db.dirty child parent k)
      rwa [Option.map_map, Option.map_map] at hcore
    · rw [Database.cleans_reference]
    · rw [Database.disk_reference]
      exact fun _ _ => id
  | stamped _ =>
    apply hf.of_contents
    · intro k
      rw [Database.dirty_stamp, Dirty.get_stamp, Option.map_map]
      congr 1
      funext r
      rw [Function.comp_apply]
      split <;> rfl
    · rw [Database.cleans_stamp]
    · rw [Database.disk_stamp]
      exact fun _ _ => id
  | versioned _ => exact hf.of_contents (fun _ => rfl) rfl fun _ _ => id
  | pruned _ hp => exact hf.prunes hp
  | collected _ => exact hf.collect _ _
  | capped _ =>
    obtain ⟨_, hflush⟩ := Database.flushes_of_cap hw rfl
    exact hf.flushes hflush
  | committed _ =>
    obtain ⟨_, hflush⟩ := Database.flushes_of_commit hw rfl
    exact hf.flushes hflush
  | looked _ hr => exact hf.reads hr
  | untouched _ hkeeps =>
    exact hf.of_contents (fun h => by rw [hkeeps.records]) hkeeps.cleans
      fun _ _ hv => hkeeps.table ▸ hv

theorem Database.Backed.of_eq (hb : db.Backed h) (hcleans : db'.cleans = db.cleans)
    (hdisk : db'.disk.table = db.disk.table) : db'.Backed h := by
  rw [Backed, clean?, hcleans, hdisk]
  exact hb

/-- One call leaves a clean node on disk, unless it collects. -/
theorem backed_exec (hw : db.dirty.WellFormed order) (hb : db.Backed h)
    (hs : ∀ count arrangement, c = .collect count arrangement →
      (db.collect arrangement count).2.Backed h)
    (he : c.exec db = some db') : db'.Backed h := by
  cases c.effect he with
  | inserted _ => exact hb.of_eq (db.cleans_insertContent ..) (by rw [db.disk_insertContent])
  | referenced _ => exact hb.of_eq (db.cleans_reference ..) (by rw [db.disk_reference])
  | stamped _ => exact hb.of_eq (db.cleans_stamp ..) (by rw [db.disk_stamp])
  | versioned _ => exact hb
  | pruned _ hp => exact fun v hv => hp.disk ▸ hb v (hp.clean hv)
  | collected hc => exact hs _ _ hc
  | capped _ =>
    obtain ⟨_, hf⟩ := Database.flushes_of_cap hw rfl
    exact hb.flushes hf
  | committed _ =>
    obtain ⟨_, hf⟩ := Database.flushes_of_commit hw rfl
    exact hb.flushes hf
  | looked _ hr =>
    intro v hv
    rw [hr.disk]
    exact (hr.cleans h v hv).elim (hb v) Map.contains_of_get
  | untouched _ hkeeps => exact hb.of_eq hkeeps.cleans hkeeps.table

theorem Run.faithful (hrun : Run start calls db) (hw : start.dirty.WellFormed [])
    (hf : Faithful E start) (hs : ∀ call ∈ calls, call.command.Caches E) : Faithful E db := by
  induction hrun with
  | nil => exact hf
  | snoc hrun he ih =>
    have hlast := hs _ (List.mem_append_right _ (List.mem_singleton_self _))
    exact faithful_exec (hrun.wellFormed hw) (ih fun call hm => hs call (List.mem_append_left _ hm))
      hlast he

theorem Run.backed (hrun : Run start calls db) (hw : start.dirty.WellFormed [])
    (hb : start.Backed h)
    (hs : ∀ call ∈ calls, ∀ count arrangement, call.command = .collect count arrangement →
      call.before.Backed h → (call.before.collect arrangement count).2.Backed h) : db.Backed h := by
  induction hrun with
  | nil => exact hb
  | snoc hrun he ih =>
    have hb' := ih fun call hm => hs call (List.mem_append_left _ hm)
    have hlast := hs _ (List.mem_append_right _ (List.mem_singleton_self _))
    exact backed_exec (hrun.wellFormed hw) hb'
      (fun count arrangement hc => hlast count arrangement hc hb') he

theorem Run.coherent (hrun : Run start calls db) (hw : start.dirty.WellFormed [])
    (hc : Coherent E start) (hs : ∀ call ∈ calls, call.command.Respects E) : Coherent E db := by
  obtain ⟨hf, hb⟩ := coherent_iff.1 hc
  refine coherent_iff.2 ⟨hrun.faithful hw hf fun call hm => (hs call hm).2, ?_⟩
  intro h
  exact hrun.backed hw (hb h) fun call hm count arrangement hcollect =>
    absurd hcollect ((hs call hm).1 count arrangement)

end Steps

section Main

variable {disk : Store.Disk} {counters : Counters} {log : List Event} {files : Directory}
  {place : String → String} {config : Config}

theorem Database.disk_new : (new disk counters log files place config).disk = disk := by
  rw [new]
  split
  · rfl
  · split <;> rfl

theorem Database.clean?_new (hj : config.journal = none) (h : Hash) :
    (new disk counters log files place config).clean? h = none := by
  rw [new]
  split
  · rfl
  · rw [hj]
    exact Clean.Cache.find?_new _ h

theorem coherent_new (hj : config.journal = none) (hd : disk.table = ∅) :
    Coherent E (.new disk counters log files place config) where
  cached h r hz hr := by
    rw [Database.dirty_new, Dirty.new, Map.get_insert, if_neg (Ne.symm hz)] at hr
    rw [Std.ExtTreeMap.getElem?_empty] at hr
    cases hr
  stored h v hv := by
    rw [Database.disk_new, hd, Std.ExtTreeMap.getElem?_empty] at hv
    cases hv
  clean h v hv := by
    rw [Database.clean?_new hj] at hv
    cases hv

/-- Flushing is invisible to readers, whatever writes fail in the meantime, and what leaves memory
is on disk. -/
theorem reads_unchanged_by_flushing (hj : config.journal = none) (hd : disk.table = ∅)
    (hrun : Run (.new disk counters log files place config) calls db)
    (hs : ∀ call ∈ calls, call.command.Respects E) (hr : db.disk.readsFail = false)
    (hf : (∃ order limit, db' = (db.cap order limit).2) ∨
      ∃ order root report uncache, db' = (db.commit order root report uncache).2) :
    (∀ h, (db'.blob h).1 = (db.blob h).1 ∧ (db'.node h).1 = (db.node h).1) ∧
    ∀ h, db.dirty.records.contains h → db'.dirty.records.contains h = false →
      db'.disk.table[nodeKey h]? = some (E h) := by
  have hw := hrun.wellFormed Database.wellFormed_new
  have hc := hrun.coherent Database.wellFormed_new (coherent_new hj hd) hs
  have hflush : ∃ ops, Database.Flushes db db' ops := by
    rcases hf with ⟨order, limit, rfl⟩ | ⟨order, root, report, uncache, rfl⟩
    · exact Database.flushes_of_cap hw rfl
    · exact Database.flushes_of_commit hw rfl
  obtain ⟨ops, hflush⟩ := hflush
  have hc' := hc.flushes hflush
  constructor
  · intro h
    exact hc.reads_eq hc' hr (hflush.stores.readsFail.trans hr) (hflush.known_iff h)
  · intro h hk hk'
    have hdisk := (hflush.kept hk).resolve_left (by rw [hk']; exact Bool.false_ne_true)
    obtain ⟨v, hv⟩ := Map.contains_iff.1 hdisk
    rw [hv, (hc'.stored h v hv).1]

end Main

def leafNode : Node := .leaf ⟨[1, 2, 16]⟩ [9]

/-- A leaf and a blob that are cached while the second batch from now on fails. -/
def cacheLeafAndBlob : List Command :=
  [.insert (.fill 1) 5 leafNode, .insertBlob (.fill 2) [7], .reference (.fill 1) (.fill 2),
    .arm { writesLeft := some 1 }]

/-- The leaf is read from memory before it is flushed, and from disk afterwards. -/
theorem reads_unchanged_by_flushing_leaf :
    ∃ (E : Hash → Bytes) (calls : List Call) (db db' : Database),
      Run (.new {} {} [] {} id {}) calls db ∧ (∀ call ∈ calls, call.command.Respects E) ∧
      db.disk.readsFail = false ∧ db' = (db.cap .ascending 0).2 ∧
      (db'.node (.fill 1)).1 = (db.node (.fill 1)).1 ∧
      db.dirty.records.contains (.fill 1) ∧ db'.dirty.records.contains (.fill 1) = false ∧
      db'.disk.table[nodeKey (.fill 1)]? = some leafNode.encode := by
  have hsome : ((Database.new {} {} [] {} id {}).run cacheLeafAndBlob).isSome := by decide +kernel
  obtain ⟨⟨calls, db⟩, hr⟩ := Option.isSome_iff_exists.1 hsome
  have hcheck : ((Database.new {} {} [] {} id {}).run cacheLeafAndBlob).map (fun r =>
      (r.2.disk.readsFail, r.2.dirty.records.contains (.fill 1),
        (r.2.cap .ascending 0).2.dirty.records.contains (.fill 1))) =
          some (false, true, false) := by
    decide +kernel
  rw [hr, Option.map_some, Option.some.injEq, Prod.mk.injEq, Prod.mk.injEq] at hcheck
  let E : Hash → Bytes := fun h => if h = .fill 1 then leafNode.encode else [7]
  have hs : ∀ call ∈ calls, call.command.Respects E := by
    intro call hm
    have hcommand : call.command ∈ cacheLeafAndBlob := by
      rw [← Run.commands_of_run hr]
      exact List.mem_map_of_mem hm
    simp only [cacheLeafAndBlob, List.mem_cons, List.not_mem_nil, or_false] at hcommand
    rcases hcommand with he | he | he | he <;> rw [he]
    · constructor
      · exact nofun
      intro _ _ _ hi
      cases hi
      have hdecode : Node.decode leafNode.encode = .ok leafNode := by decide
      exact ⟨rfl, hdecode, List.cons_ne_nil _ _⟩
    · constructor
      · exact nofun
      intro _ _ _ hi
      cases hi
      exact ⟨rfl, by decide⟩
    · exact ⟨nofun, nofun⟩
    · exact ⟨nofun, nofun⟩
  obtain ⟨hreads, hdisk⟩ := reads_unchanged_by_flushing (E := E) rfl rfl (Run.of_run hr) hs
    hcheck.1 (.inl ⟨.ascending, 0, rfl⟩)
  exact ⟨E, calls, db, _, Run.of_run hr, hs, hcheck.1, rfl, (hreads _).2, hcheck.2.1, hcheck.2.2,
    hdisk _ hcheck.2.1 hcheck.2.2⟩

end TrieCache
