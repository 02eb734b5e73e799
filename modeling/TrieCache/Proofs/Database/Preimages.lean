import TrieCache.Proofs.Database.Committed

namespace TrieCache

open Store (Op preimageKey putPreimage)

/-- The preimage of `h` that is in memory, or else on disk. -/
def Database.preimage? (db : Database) (h : Hash) : Option Bytes :=
  (db.dirty.remembered h).or db.disk.table[preimageKey h]?

namespace Call

/-- The preimage of `h` that a call hands in. -/
def offered (c : Call) (h : Hash) : Option Bytes :=
  match c.command with
  | .insertPreimage k preimage => if k = h then some preimage else none
  | _ => none

/-- The preimage of `h` that a call records: only memory is looked at for an earlier one. -/
def taken (c : Call) (h : Hash) : Option Bytes :=
  if (c.before.dirty.remembered h).isSome then none else c.offered h

/-- The last preimage of `h` that calls record, after `p` has been recorded. -/
def lastTaken (p : Bytes) (calls : List Call) (h : Hash) : Bytes :=
  (calls.filterMap (·.taken h)).getLast?.getD p

/-- Whether a call writes all preimages and clears them from memory. -/
def flushesPreimages (c : Call) : Bool :=
  match c.command with
  | .cap limit order => c.before.preimagesDue && (c.before.cap order limit).1.isOk
  | .commit root report uncache order => (c.before.commit order root report uncache).1.isOk
  | _ => false

end Call

variable {db db' start origin : Database} {c : Command} {calls prior : List Call}
  {order : List Hash} {arrangement : Dirty.Arrangement} {h : Hash} {p q : Bytes}

namespace Dirty

variable {d : Dirty}

theorem preimages_clearPreimages (d : Dirty) :
    d.clearPreimages.preimages = d.preimages.map fun _ => ∅ := by
  rw [clearPreimages]
  split
  · next hp => rw [hp, Option.map_none]
  · next hp => rw [hp, Option.map_some]

theorem preimages_insert (d : Dirty) (h : Hash) (content : Content) (size : Nat) :
    (d.insert h content size).preimages = d.preimages := by
  rw [insert]
  split <;> rfl

theorem preimages_reference (d : Dirty) (child parent : Hash) :
    (d.reference child parent).preimages = d.preimages := by
  rcases reference_cases d child parent with he | ⟨_, _, _, _, he⟩ <;> rw [he]

theorem preimages_stamp (d : Dirty) (arrangement : Arrangement) (root : Hash) :
    (d.stamp arrangement root).preimages = d.preimages := by
  rw [stamp, claims_eq]

theorem remembered_insertPreimage (d : Dirty) (h k : Hash) (p : Bytes) :
    (d.insertPreimage h p).remembered k =
      if h = k then (d.remembered k).or (d.preimages.map fun _ => p) else d.remembered k := by
  cases hp : d.preimages with
  | none =>
    rw [insertPreimage, hp, Option.map_none, Option.or_none, ite_self]
  | some preimages =>
    have hm : ∀ k, d.remembered k = preimages[k]? := fun k => by
      rw [remembered, hp, Option.bind_some]
    rw [insertPreimage, hp]
    dsimp only
    split
    · next hc =>
      obtain ⟨v, hv⟩ := Map.contains_iff.1 hc
      split
      · next hk => rw [hm, ← hk, hv, Option.some_or]
      · rfl
    · next hc =>
      have hnone := Map.contains_eq_false_iff.1 (Bool.eq_false_iff.2 hc)
      rw [remembered, Option.bind_some, Map.get_insert]
      split
      · next hk => rw [hm, ← hk, hnone, Option.none_or, Option.map_some]
      · exact (hm k).symm

theorem isSome_insertPreimage (d : Dirty) (h : Hash) (p : Bytes) :
    (d.insertPreimage h p).preimages.isSome = d.preimages.isSome := by
  rw [insertPreimage]
  split
  · rfl
  · next hp =>
    split
    · rfl
    · rw [hp]
      rfl

end Dirty

theorem Call.flushesPreimages_cap (limit : Nat) (arrangement : Dirty.Arrangement) :
    (Call.mk db (.cap limit arrangement)).flushesPreimages =
      (db.preimagesDue && (db.cap arrangement limit).1.isOk) := rfl

theorem Call.flushesPreimages_commit (arrangement : Dirty.Arrangement) (root : Hash)
    (report uncache : Bool) :
    (Call.mk db (.commit root report uncache arrangement)).flushesPreimages =
      (db.commit arrangement root report uncache).1.isOk := rfl

namespace Database

/-- What is found for `h` is what was found before; it is in memory still unless that has been
cleared. -/
structure Carries (flushed : Bool) (h : Hash) (db db' : Database) : Prop where
  recorded : db'.dirty.preimages.isSome = db.dirty.preimages.isSome
  memory : db'.dirty.remembered h = if flushed then none else db.dirty.remembered h
  found : db'.preimage? h = db.preimage? h

namespace Carries

theorem of_eq (hp : db'.dirty.preimages = db.dirty.preimages)
    (hd : db.dirty.remembered h = none →
      db'.disk.table[preimageKey h]? = db.disk.table[preimageKey h]?) :
    Carries false h db db' := by
  have hm : db'.dirty.remembered h = db.dirty.remembered h := by
    rw [Dirty.remembered, hp, Dirty.remembered]
  refine ⟨congrArg _ hp, hm, ?_⟩
  rw [preimage?, preimage?, hm]
  cases hr : db.dirty.remembered h with
  | none => rw [hd hr]
  | some v => rfl

theorem of_disk_eq (hp : db'.dirty.preimages = db.dirty.preimages)
    (hd : db'.disk.table = db.disk.table) : Carries false h db db' :=
  .of_eq hp fun _ => by rw [hd]

section Stores

variable {ops : List Op} (hs : Stores db db' ops)
  (ho : ∀ op ∈ ops, op ∈ preimagePuts db.dirty arrangement ∨ ∃ k v, op = Store.putNode k v)
include hs ho

theorem get_of_stores (hm : db.dirty.remembered h = none) :
    db'.disk.table[preimageKey h]? = db.disk.table[preimageKey h]? := by
  rw [hs.table]
  apply Store.Table.get_of_keys_ne
  intro op hop hkey
  rcases ho op hop with hop | ⟨k, v, rfl⟩
  · obtain ⟨⟨k, v⟩, hkv, rfl⟩ := List.mem_map.1 hop
    obtain rfl : k = h := Store.preimageKey_injective hkey
    rw [Dirty.mem_preimageList, hm] at hkv
    cases hkv
  · exact Store.nodeKey_ne_preimageKey hkey

theorem of_stores (hp : db'.dirty.preimages = db.dirty.preimages) : Carries false h db db' :=
  .of_eq hp (get_of_stores hs ho)

theorem of_flush (hall : ∀ op ∈ preimagePuts db.dirty arrangement, op ∈ ops)
    (hp : db'.dirty.preimages = db.dirty.preimages.map fun _ => ∅) : Carries true h db db' := by
  have hm : db'.dirty.remembered h = none := by
    rw [Dirty.remembered, hp]
    cases db.dirty.preimages with
    | none => rfl
    | some preimages => exact Std.ExtTreeMap.getElem?_empty
  refine ⟨by rw [hp, Option.isSome_map], hm, ?_⟩
  rw [preimage?, preimage?, hm, Option.none_or]
  cases hr : db.dirty.remembered h with
  | none => rw [get_of_stores hs ho hr, Option.none_or]
  | some v =>
    have hput : ∀ op ∈ ops, ∃ k v, op = .put k v := by
      intro op hop
      rcases ho op hop with hop | ⟨k, v, rfl⟩
      · obtain ⟨p, _, rfl⟩ := List.mem_map.1 hop
        exact ⟨_, _, rfl⟩
      · exact ⟨_, _, rfl⟩
    have hmem : putPreimage h v ∈ preimagePuts db.dirty arrangement :=
      List.mem_map.2 ⟨(h, v), Dirty.mem_preimageList.2 hr, rfl⟩
    rw [hs.table, Store.Table.get_puts_of_mem hput (hall _ hmem), Option.some_or]
    intro v' hop
    rcases ho _ hop with hop | ⟨k, v, he⟩
    · obtain ⟨⟨k, u⟩, hku, he⟩ := List.mem_map.1 hop
      obtain ⟨hkey, rfl⟩ := Op.put.inj he
      obtain rfl : k = h := Store.preimageKey_injective hkey
      exact Option.some.inj ((Dirty.mem_preimageList.1 hku).symm.trans hr)
    · exact absurd (Op.put.inj he).1.symm Store.nodeKey_ne_preimageKey

end Stores

theorem collect (db : Database) (arrangement : Dirty.Arrangement) (count : Nat) :
    Carries false h db (db.collect arrangement count).2 := by
  have hkeys : ∀ op ∈ db.collectOps arrangement count, op.key ≠ preimageKey h := by
    intro op hop
    obtain ⟨k, _, rfl⟩ := List.mem_map.1 hop
    exact Store.nodeKey_ne_preimageKey
  obtain ⟨_, ⟨_, done, _, hd, hdone, hs⟩ | ⟨_, hs, hd⟩⟩ :=
    collect_cases (Prod.mk.eta (p := db.collect arrangement count)).symm
  · refine .of_eq (by rw [hd]) fun _ => ?_
    rw [hs.table]
    exact Store.Table.get_of_keys_ne fun op hop => hkeys op (hdone.subset hop)
  · refine .of_eq (by rw [hd]) fun _ => ?_
    rw [hs.table]
    exact Store.Table.get_of_keys_ne hkeys

theorem cap (hw : db.dirty.WellFormed order) (arrangement : Dirty.Arrangement) (limit : Nat) :
    Carries (Call.mk db (.cap limit arrangement)).flushesPreimages h db
      (db.cap arrangement limit).2 := by
  have hops : ∀ op ∈ db.capOps arrangement limit,
      op ∈ preimagePuts db.dirty arrangement ∨ ∃ k v, op = Store.putNode k v := by
    intro op hop
    rcases List.mem_append.1 hop with hop | hop
    · split at hop
      · exact .inl hop
      · cases hop
    · obtain ⟨n, _, rfl⟩ := List.mem_map.1 hop
      exact .inr ⟨_, _, rfl⟩
  cases hc : db.cap arrangement limit with
  | mk result db' =>
    cases result with
    | error e =>
      obtain ⟨done, hdone, hs, hd, _⟩ := cap_error hc
      have hflush : (Call.mk db (.cap limit arrangement)).flushesPreimages = false := by
        rw [Call.flushesPreimages_cap, hc]
        exact Bool.and_false _
      rw [hflush]
      exact .of_stores hs (fun op hop => hops op (hdone.subset hop)) (by rw [hd])
    | ok u =>
      obtain ⟨hs, _, _, stats, hd⟩ := cap_ok hc
      have hevict : db'.dirty.preimages = db.cleared.preimages := by
        rw [hd]
        exact (shrinks_evict_leaving hw limit).preimages
      have hflush : (Call.mk db (.cap limit arrangement)).flushesPreimages = db.preimagesDue := by
        rw [Call.flushesPreimages_cap, hc]
        exact Bool.and_true _
      rw [hflush]
      rw [cleared] at hevict
      cases hdue : db.preimagesDue with
      | false => exact .of_stores hs hops (by rw [hevict, hdue, if_neg Bool.false_ne_true])
      | true =>
        apply Carries.of_flush hs hops
        · intro op hop
          rw [capOps, hdue, if_pos rfl]
          exact List.mem_append_left _ hop
        · rw [hevict, hdue, if_pos rfl, Dirty.preimages_clearPreimages]

theorem commit (hw : db.dirty.WellFormed order) (arrangement : Dirty.Arrangement) (root : Hash)
    (report uncache : Bool) :
    Carries (Call.mk db (.commit root report uncache arrangement)).flushesPreimages h db
      (db.commit arrangement root report uncache).2 := by
  have hops : ∀ op ∈ commitOps db.dirty arrangement root,
      op ∈ preimagePuts db.dirty arrangement ∨ ∃ k v, op = Store.putNode k v := by
    intro op hop
    apply (mem_commitOps_iff.1 hop).imp_right
    rintro ⟨n, _, rfl⟩
    exact ⟨_, _, rfl⟩
  cases hc : db.commit arrangement root report uncache with
  | mk result db' =>
    obtain ⟨nodes, ops, d, hcommits, hleft, ⟨e, rfl, hd⟩ | ⟨rfl, _, hall, hd⟩⟩ :=
      commits_of_commit hw hc
    · have hflush : (Call.mk db (.commit root report uncache arrangement)).flushesPreimages =
          false := by
        rw [Call.flushesPreimages_commit, hc]
        rfl
      rw [hflush]
      have hp : db'.dirty.preimages = db.dirty.preimages := by
        rw [hd, hleft.preimages]
      exact .of_stores hcommits.stores (fun op hop => hops op (hcommits.initial_ops.subset hop)) hp
    · have hflush : (Call.mk db (.commit root report uncache arrangement)).flushesPreimages =
          true := by
        rw [Call.flushesPreimages_commit, hc]
        rfl
      rw [hflush]
      apply Carries.of_flush (hall ▸ hcommits.stores) hops
      · exact fun op hop => List.mem_append_left _ hop
      · rw [hd, ← hleft.preimages]
        exact Dirty.preimages_clearPreimages d

end Carries

end Database

open Database (Carries)

theorem carries_exec (hw : db.dirty.WellFormed order) (ho : (Call.mk db c).offered h = none)
    (he : c.exec db = some db') : Carries (Call.mk db c).flushesPreimages h db db' := by
  cases c with
  | insert k size node =>
    cases he
    apply Carries.of_disk_eq
    · exact (congrArg _ (db.dirty_insertContent ..)).trans (Dirty.preimages_insert ..)
    · exact congrArg _ (db.disk_insertContent ..)
  | insertBlob k blob =>
    cases he
    apply Carries.of_disk_eq
    · exact (congrArg _ (db.dirty_insertContent ..)).trans (Dirty.preimages_insert ..)
    · exact congrArg _ (db.disk_insertContent ..)
  | insertNode node =>
    cases he
    apply Carries.of_disk_eq
    · exact (congrArg _ (db.dirty_insertContent ..)).trans (Dirty.preimages_insert ..)
    · exact congrArg _ (db.disk_insertContent ..)
  | insertPreimage k preimage =>
    cases he
    have hne : k ≠ h := by
      intro hk
      have hsome : (if k = h then some preimage else none) = none := ho
      rw [if_pos hk] at hsome
      cases hsome
    have hm : (db.dirty.insertPreimage k preimage).remembered h = db.dirty.remembered h :=
      (Dirty.remembered_insertPreimage ..).trans (if_neg hne)
    have hfound : (db.insertPreimage k preimage).preimage? h = db.preimage? h :=
      congrArg (fun m => m.or db.disk.table[preimageKey h]?) hm
    exact ⟨Dirty.isSome_insertPreimage .., hm, hfound⟩
  | reference child parent =>
    cases he
    apply Carries.of_disk_eq
    · exact (congrArg _ (db.dirty_reference ..)).trans (Dirty.preimages_reference ..)
    · exact congrArg _ (db.disk_reference ..)
  | stamp root arrangement elapsed =>
    cases he
    apply Carries.of_disk_eq
    · exact (congrArg _ (db.dirty_stamp ..)).trans (Dirty.preimages_stamp ..)
    · exact congrArg _ (db.disk_stamp ..)
  | nextVersion =>
    cases he
    exact .of_disk_eq rfl rfl
  | dereference root arrangement clock =>
    obtain ⟨⟨result, db₁⟩, hd, rfl⟩ := Option.map_eq_some_iff.1 he
    obtain ⟨_, hp, _⟩ := Database.prunes_of_dereference hd
    exact .of_disk_eq hp.preimages (congrArg _ hp.disk)
  | dereferenceStored root arrangement clock =>
    obtain ⟨⟨result, db₁⟩, hd, rfl⟩ := Option.map_eq_some_iff.1 he
    obtain ⟨_, hp, _⟩ := Database.prunes_of_dereferenceStored hd
    exact .of_disk_eq hp.preimages (congrArg _ hp.disk)
  | collect count arrangement =>
    cases he
    exact .collect db arrangement count
  | forgetUseless =>
    cases he
    exact .of_disk_eq rfl rfl
  | cap limit arrangement =>
    cases he
    exact .cap hw arrangement limit
  | commit root report uncache arrangement =>
    cases he
    exact .commit hw arrangement root report uncache
  | readNode k =>
    cases he
    exact .of_disk_eq (congrArg _ (Database.Reads.lookup db k).dirty)
      (congrArg _ (Database.Reads.lookup db k).disk)
  | readBlob k =>
    cases he
    exact .of_disk_eq (congrArg _ (Database.Reads.lookup db k).dirty)
      (congrArg _ (Database.Reads.lookup db k).disk)
  | readPreimage k =>
    cases he
    exact .of_disk_eq (congrArg _ (Database.Reads.preimage db k).dirty)
      (congrArg _ (Database.Reads.preimage db k).disk)
  | arm faults =>
    cases he
    exact .of_disk_eq rfl rfl

theorem exec_of_offered (ho : (Call.mk db c).offered h = some p) (he : c.exec db = some db') :
    db' = db.insertPreimage h p := by
  cases c with
  | insertPreimage k preimage =>
    have hsome : (if k = h then some preimage else none) = some p := ho
    split at hsome
    · next hk =>
      cases hsome
      cases he
      rw [hk]
    · cases hsome
  | _ => cases ho

theorem Call.flushesPreimages_of_offered {call : Call} (ho : call.offered h = some p) :
    call.flushesPreimages = false := by
  obtain ⟨db, c⟩ := call
  cases c with
  | insertPreimage => rfl
  | _ => cases ho

theorem Call.taken_eq_some {call : Call} :
    call.taken h = some p ↔ call.before.dirty.remembered h = none ∧ call.offered h = some p := by
  rw [taken]
  cases call.before.dirty.remembered h <;> simp

/-- What is found after a call: the preimage that it takes, or what was found before. -/
theorem preimage_exec (hw : db.dirty.WellFormed order) (hr : db.dirty.preimages.isSome)
    (he : c.exec db = some db') : db'.dirty.preimages.isSome ∧
      db'.preimage? h = ((Call.mk db c).taken h).or (db.preimage? h) ∧
      db'.dirty.remembered h =
        if (Call.mk db c).flushesPreimages then none
        else (db.dirty.remembered h).or ((Call.mk db c).offered h) := by
  cases ho : (Call.mk db c).offered h with
  | none =>
    have hc := carries_exec hw ho he
    have ht : (Call.mk db c).taken h = none := by
      rw [Call.taken, ho, ite_self]
    rw [hc.recorded, hc.found, hc.memory, ht, Option.none_or, Option.or_none]
    exact ⟨hr, rfl, rfl⟩
  | some p =>
    have hflush := Call.flushesPreimages_of_offered ho
    cases exec_of_offered ho he
    obtain ⟨preimages, hp⟩ := Option.isSome_iff_exists.1 hr
    have hm : (db.insertPreimage h p).dirty.remembered h = (db.dirty.remembered h).or (some p) := by
      rw [Database.insertPreimage, Dirty.remembered_insertPreimage, if_pos rfl, hp, Option.map_some]
    refine ⟨(Dirty.isSome_insertPreimage ..).trans hr, ?_, ?_⟩
    · rw [Database.preimage?, Database.preimage?, hm, Call.taken, ho]
      cases db.dirty.remembered h <;> rfl
    · rw [hm, hflush, if_neg Bool.false_ne_true]

theorem remembered_of_taken (hw : db.dirty.WellFormed order) (hr : db.dirty.preimages.isSome)
    (ht : (Call.mk db c).taken h = some p) (he : c.exec db = some db') :
    db'.dirty.remembered h = some p := by
  obtain ⟨hm, ho⟩ := Call.taken_eq_some.1 ht
  obtain ⟨_, _, hm'⟩ := preimage_exec (h := h) hw hr he
  rw [hm', Call.flushesPreimages_of_offered ho, if_neg Bool.false_ne_true, hm, ho, Option.none_or]

theorem Database.preimage_of_reads (hr : db.dirty.preimages.isSome)
    (hreads : db.disk.readsFail = false ∨ (db.dirty.remembered h).isSome) :
    (db.preimage h).1 = .ok (db.preimage? h) := by
  obtain ⟨preimages, hp⟩ := Option.isSome_iff_exists.1 hr
  rw [Dirty.remembered, hp, Option.bind_some] at hreads
  rw [preimage, preimage?, Dirty.remembered, hp, Option.bind_some]
  dsimp only
  cases hg : preimages[h]? with
  | some v => rfl
  | none =>
    have hok := hreads.resolve_right (by rw [hg]; exact Bool.false_ne_true)
    dsimp only
    rw [read_eq db.disk _ db.counters hok]
    rfl

theorem Database.eq_of_preimage {found : Option Bytes} (hr : db.dirty.preimages.isSome)
    (hf : (db.preimage h).1 = .ok found) : found = db.preimage? h := by
  obtain ⟨preimages, hp⟩ := Option.isSome_iff_exists.1 hr
  rw [preimage, hp] at hf
  rw [preimage?, Dirty.remembered, hp, Option.bind_some]
  dsimp only at hf
  cases hg : preimages[h]? with
  | some v =>
    rw [hg] at hf
    exact (Except.ok.inj hf).symm
  | none =>
    rw [hg] at hf
    dsimp only at hf
    cases hread : (db.disk.read (preimageKey h) db.counters).1 with
    | error e =>
      rw [hread] at hf
      cases hf
    | ok value =>
      rw [hread] at hf
      rw [← Except.ok.inj hf, Option.none_or, get_of_read hread]

theorem Run.start_mem (hrun : Run start calls db) : start ∈ calls.map Call.before ++ [db] := by
  induction hrun with
  | nil => exact List.mem_singleton_self _
  | snoc _ _ ih =>
    rw [List.map_append]
    exact List.mem_append_left _ ih

theorem Call.lastTaken_eq (hcalls : ∀ call ∈ calls, ∀ q, call.taken h = some q → q = p) :
    lastTaken p calls h = p := by
  rw [lastTaken]
  cases hl : (calls.filterMap (·.taken h)).getLast? with
  | none => rfl
  | some q =>
    obtain ⟨call, hm, hq⟩ := List.mem_filterMap.1 (List.mem_of_getLast? hl)
    exact hcalls call hm q hq

theorem Run.forgotten (hrun : Run start calls db) (hw : start.dirty.WellFormed [])
    (hr : start.dirty.preimages.isSome) (hm : start.dirty.remembered h = none)
    (hcalls : ∀ call ∈ calls, call.offered h = none) :
    db.dirty.preimages.isSome ∧ db.dirty.remembered h = none := by
  induction hrun with
  | nil => exact ⟨hr, hm⟩
  | snoc hrun he ih =>
    obtain ⟨hr', hm'⟩ := ih fun call hc => hcalls call (List.mem_append_left _ hc)
    have ho := hcalls _ (List.mem_append_right _ List.mem_cons_self)
    have hc := carries_exec (hrun.wellFormed hw) ho he
    rw [hc.recorded, hc.memory, hm', ite_self]
    exact ⟨hr', rfl⟩

section Later

variable (hprior : Run origin prior start) (hw : origin.dirty.WellFormed [])
  (hr : start.dirty.preimages.isSome) (hm : start.dirty.remembered h = some p)
  (hrun : Run start calls db)
include hprior hw hr hm hrun

/-- Once a preimage is in memory it is the last one recorded that is found, and unless there has
been a flush it is in memory. -/
theorem Run.preimage : db.dirty.preimages.isSome ∧
    db.preimage? h = some (Call.lastTaken p calls h) ∧
    ((db.dirty.remembered h).isSome ∨ ∃ flush ∈ calls, flush.flushesPreimages) := by
  induction hrun with
  | nil => exact ⟨hr, by rw [Database.preimage?, hm]; rfl, .inl (by rw [hm]; rfl)⟩
  | @snoc calls db db' c hrun he ih =>
    obtain ⟨hr', hf, hmem⟩ := ih
    obtain ⟨hr'', hf', hm'⟩ := preimage_exec (h := h) ((hprior.trans hrun).wellFormed hw) hr' he
    refine ⟨hr'', ?_, ?_⟩
    · rw [hf', hf, Call.lastTaken, Call.lastTaken, List.filterMap_append, List.getLast?_append]
      cases ht : (Call.mk db c).taken h <;> simp [ht]
    · cases hflush : (Call.mk db c).flushesPreimages with
      | true => exact .inr ⟨_, List.mem_append_right _ List.mem_cons_self, hflush⟩
      | false =>
        rw [hm', hflush, if_neg Bool.false_ne_true, Option.isSome_or]
        rcases hmem with hmem | ⟨flush, hin, hf⟩
        · exact .inl (by rw [hmem]; rfl)
        · exact .inr ⟨flush, List.mem_append_left _ hin, hf⟩

/-- The preimage that is in memory at first is found in all states just if no other one has been
recorded: that one would be found right then. -/
theorem Run.first_found_iff :
    (∀ point ∈ calls.map Call.before ++ [db], ∀ found, (point.preimage h).1 = .ok found →
      found = some p) ↔ ∀ call ∈ calls, ∀ q, call.taken h = some q → q = p := by
  constructor
  · intro hall call hcall q hq
    obtain ⟨before, after, rfl⟩ := List.append_of_mem hcall
    obtain ⟨hbefore, next, he, hrest⟩ := hrun.split
    have hw' := (hprior.trans hbefore).wellFormed hw
    have hr' := (Run.preimage hprior hw hr hm hbefore).1
    have hm' := remembered_of_taken hw' hr' hq he
    have hnow : (next.preimage h).1 = .ok (some q) := by
      have hrecorded := (preimage_exec (h := h) hw' hr' he).1
      rw [Database.preimage_of_reads hrecorded (.inr (by rw [hm']; rfl)), Database.preimage?, hm',
        Option.some_or]
    have hpoint : next ∈ (before ++ call :: after).map Call.before ++ [db] := by
      rw [List.map_append, List.append_assoc]
      exact List.mem_append_right _ (List.mem_cons_of_mem _ hrest.start_mem)
    exact Option.some.inj (hall next hpoint (some q) hnow)
  · intro hcalls point hpoint found hf
    obtain ⟨calls', hrun', hsubset⟩ : ∃ calls', Run start calls' point ∧ calls' ⊆ calls := by
      rcases List.mem_append.1 hpoint with hpoint | hpoint
      · obtain ⟨call, hcall, rfl⟩ := List.mem_map.1 hpoint
        exact hrun.prior hcall
      · exact ⟨calls, List.mem_singleton.1 hpoint ▸ hrun, List.Subset.refl _⟩
    obtain ⟨hr', hfound, _⟩ := Run.preimage hprior hw hr hm hrun'
    rw [Database.eq_of_preimage hr' hf, hfound,
      Call.lastTaken_eq fun call hcall => hcalls call (hsubset hcall)]

theorem Run.flush_before_taken {before after : List Call} {call : Call}
    (hcalls : calls = before ++ call :: after) (ht : (call.taken h).isSome) :
    ∃ flush ∈ before, flush.flushesPreimages := by
  subst hcalls
  obtain ⟨hbefore, _⟩ := hrun.split
  obtain ⟨q, hq⟩ := Option.isSome_iff_exists.1 ht
  obtain ⟨_, _, hmem | hflush⟩ := Run.preimage hprior hw hr hm hbefore
  · rw [(Call.taken_eq_some.1 hq).1] at hmem
    cases hmem
  · exact hflush

end Later

section Main

variable {early late : List Call} {first : Call} {disk : Store.Disk} {counters : Counters}
  {log : List Event} {files : Directory} {place : String → String} {config : Config}

/-- As long as reads work, what is found for `h` after a first preimage `p` is the last one that was
recorded. It is `p` in every later state just if no other preimage has been recorded, and one can
only be recorded after a flush. -/
theorem preimage_found_is_last_taken (hrecords : config.preimages = true)
    (hrun : Run (.new disk counters log files place config) (early ++ first :: late) db)
    (hearly : ∀ call ∈ early, call.offered h = none) (hfirst : first.offered h = some p) :
    (∀ found, (db.preimage h).1 = .ok found → found = some (Call.lastTaken p late h)) ∧
    (db.disk.readsFail = false → (db.preimage h).1 = .ok (some (Call.lastTaken p late h))) ∧
    ((∀ point ∈ late.map Call.before ++ [db], ∀ found, (point.preimage h).1 = .ok found →
      found = some p) ↔ ∀ call ∈ late, ∀ q, call.taken h = some q → q = p) ∧
    ∀ before call after, late = before ++ call :: after → (call.taken h).isSome →
      ∃ flush ∈ before, flush.flushesPreimages := by
  obtain ⟨hprior, start, he, hlate⟩ := hrun.split
  have hnew : (Database.new disk counters log files place config).dirty.preimages.isSome ∧
      (Database.new disk counters log files place config).dirty.remembered h = none := by
    rw [Database.dirty_new, Dirty.remembered, Dirty.new, hrecords, if_pos rfl]
    exact ⟨rfl, Std.ExtTreeMap.getElem?_empty⟩
  have hw := hprior.wellFormed Database.wellFormed_new
  obtain ⟨hr, hm⟩ := hprior.forgotten Database.wellFormed_new hnew.1 hnew.2 hearly
  have hr' := (preimage_exec (h := h) hw hr he).1
  have hm' := remembered_of_taken hw hr (Call.taken_eq_some.2 ⟨hm, hfirst⟩) he
  have hstart := hprior.snoc he
  obtain ⟨hrecorded, hfound, _⟩ := Run.preimage hstart Database.wellFormed_new hr' hm' hlate
  refine ⟨?_, ?_, Run.first_found_iff hstart Database.wellFormed_new hr' hm' hlate, ?_⟩
  · intro found hf
    rw [← hfound]
    exact Database.eq_of_preimage hrecorded hf
  · intro hreads
    rw [← hfound]
    exact Database.preimage_of_reads hrecorded (.inl hreads)
  · intro before call after
    exact Run.flush_before_taken hstart Database.wellFormed_new hr' hm' hlate

end Main

/-- Preimages of the same hash while the first one is in memory, and after it has been written to
disk. -/
def insertPreimagesAroundCommits : List Command :=
  [.insertPreimage (.fill 0x11) [2], .arm { writesLeft := some 0 },
    .commit (.fill 0x22) false false, .insertPreimage (.fill 0x11) [3], .arm {},
    .commit (.fill 0x22) false false, .insertPreimage (.fill 0x11) [1]]

theorem first_preimage_found_after_commits :
    ∃ first late db, Run (.new {} {} [] {} id {}) ([] ++ first :: late) db ∧
      first.offered (.fill 0x11) = some [1] ∧
      late.filterMap (·.offered (.fill 0x11)) = [[2], [3], [1]] ∧
      (db.preimage (.fill 0x11)).1 = .ok (some [1]) := by
  let first : Call := ⟨.new {} {} [] {} id {}, .insertPreimage (.fill 0x11) [1]⟩
  have hcheck : ((first.before.insertPreimage (.fill 0x11) [1]).run
      insertPreimagesAroundCommits).any (fun r =>
      decide (r.1.filterMap (·.offered (.fill 0x11)) = [[2], [3], [1]]) &&
        decide (Call.lastTaken [1] r.1 (.fill 0x11) = [1]) &&
        decide (r.2.disk.readsFail = false)) := by
    decide +kernel
  obtain ⟨⟨late, db⟩, hr, hcheck⟩ := (Option.any_eq_true _ _).1 hcheck
  simp only [Bool.and_eq_true, decide_eq_true_eq] at hcheck
  obtain ⟨⟨hoffered, hlast⟩, hreads⟩ := hcheck
  have hrun : Run (.new {} {} [] {} id {}) ([] ++ first :: late) db := .cons rfl (Run.of_run hr)
  have hfirst : first.offered (.fill 0x11) = some [1] := by decide +kernel
  have hnone : ∀ call ∈ [], Call.offered call (.fill 0x11) = none := fun _ hm =>
    absurd hm List.not_mem_nil
  obtain ⟨_, hfound, _⟩ := preimage_found_is_last_taken rfl hrun hnone hfirst
  exact ⟨first, late, db, hrun, hfirst, hoffered, hlast ▸ hfound hreads⟩

/-- A preimage that is handed in after the first one has been committed takes its place. -/
theorem second_preimage_found_after_commit :
    ∃ late db, Run (.new {} {} [] {} id {})
        (⟨.new {} {} [] {} id {}, .insertPreimage (.fill 0x11) [1]⟩ :: late) db ∧
      late.map Call.command = [.commit (.fill 0x22) false false,
        .insertPreimage (.fill 0x11) [2]] ∧
      (db.preimage (.fill 0x11)).1 = .ok (some [2]) := by
  have hcheck : (((Database.new {} {} [] {} id {}).insertPreimage (.fill 0x11) [1]).run
      [.commit (.fill 0x22) false false, .insertPreimage (.fill 0x11) [2]]).any (fun r =>
        decide ((r.2.preimage (.fill 0x11)).1 = .ok (some [2]))) := by
    decide +kernel
  obtain ⟨⟨late, db⟩, hr, hcheck⟩ := (Option.any_eq_true _ _).1 hcheck
  exact ⟨late, db, .cons rfl (Run.of_run hr), Run.commands_of_run hr, of_decide_eq_true hcheck⟩

end TrieCache
