import TrieCache.Proofs.Database.Run

namespace TrieCache

def Dirty.Claimed (d : Dirty) (k : Hash) (content : Dirty.Content) (size : Nat) : Prop :=
  d.records[k]?.map Record.core = some (content, size, d.version)

/-- A call that starts no version and flushes no nodes: no cap that succeeds and no commit that
drops what it has written. -/
def Call.spares (c : Call) : Bool :=
  match c.command with
  | .nextVersion => false
  | .cap limit order => !(c.before.cap order limit).1.isOk
  | .commit _ _ uncache _ => !uncache
  | _ => true

namespace Dirty.Claimed

variable {d d' : Dirty} {k : Hash} {content : Content} {size : Nat}

theorem congr (hc : d.Claimed k content size) (hr : d'.records = d.records)
    (hv : d'.version = d.version) : d'.Claimed k content size := by
  rw [Claimed, hr, hv]
  exact hc

theorem insert (hc : d.Claimed k content size) (h : Hash) (content' : Content) (size' : Nat) :
    (d.insert h content' size').Claimed k content size := by
  have hk : ¬(d.records.contains h = false ∧ h = k) := by
    rintro ⟨hh, rfl⟩
    rw [Map.contains_eq_false_iff] at hh
    rw [Claimed, hh] at hc
    cases hc
  rw [Claimed, core_insert, if_neg hk, version_insert]
  exact hc

theorem reference (hc : d.Claimed k content size) (child parent : Hash) :
    (d.reference child parent).Claimed k content size := by
  rw [Claimed, core_reference, version_reference]
  exact hc

theorem stamp (hc : d.Claimed k content size) (order : Arrangement) (root : Hash) :
    (d.stamp order root).Claimed k content size := by
  obtain ⟨r, hr, hcore⟩ := Option.map_eq_some_iff.1 hc
  rw [Claimed, get_stamp, version_stamp, hr, Option.map_some, Option.map_some, ← hcore]
  split
  · have hv : r.version = d.version := congrArg (·.2.2) hcore
    rw [← hv]
  · rfl

end Dirty.Claimed

variable {db db' start : Database} {c : Command} {calls : List Call} {k : Hash}
  {content : Dirty.Content} {size : Nat} {dropped : List Hash}

theorem Database.Prunes.claimed (hp : Prunes db db' dropped)
    (hc : db.dirty.Claimed k content size) : db'.dirty.Claimed k content size := by
  obtain ⟨r, hr, hcore⟩ := Option.map_eq_some_iff.1 hc
  have hv : r.version = db.dirty.version := congrArg (·.2.2) hcore
  cases hk : db'.dirty.records.contains k with
  | true =>
    obtain ⟨r', hr'⟩ := Map.contains_iff.1 hk
    obtain ⟨r₀, hr₀, hcore'⟩ := hp.trims.kept k r' hr'
    rw [hr, Option.some.injEq] at hr₀
    subst hr₀
    rw [Dirty.Claimed, hr', Option.map_some, hcore', hcore, hp.trims.version]
  | false =>
    obtain ⟨_, _, r₀, hr₀, hlt⟩ := hp.stale k (Map.contains_of_get hr) hk
    rw [hr, Option.some.injEq] at hr₀
    subst hr₀
    exact absurd hv (Nat.ne_of_lt hlt)

/-- One call that spares claimed nodes keeps each of them. -/
theorem claimed_exec (hs : (Call.mk db c).spares) (hc : db.dirty.Claimed k content size)
    (he : c.exec db = some db') : db'.dirty.Claimed k content size := by
  cases c.effect he with
  | inserted _ =>
    rw [Database.dirty_insertContent]
    exact hc.insert ..
  | referenced _ =>
    rw [Database.dirty_reference]
    exact hc.reference ..
  | stamped _ =>
    rw [Database.dirty_stamp]
    exact hc.stamp ..
  | versioned hv =>
    subst hv
    cases hs
  | pruned _ hp => exact hp.claimed hc
  | collected _ => exact hc.congr (db.records_collect ..) (db.trims_collect ..).version
  | @capped limit order hcap =>
    subst hcap
    cases hr : (db.cap order limit).1 with
    | error e =>
      obtain ⟨_, _, _, hd, _⟩ := Database.cap_error (Prod.ext hr rfl)
      rw [hd]
      exact hc
    | ok u =>
      change (!(db.cap order limit).1.isOk) = true at hs
      rw [hr] at hs
      cases hs
  | @committed _ _ uncache _ hcommit =>
    subst hcommit
    cases uncache with
    | true => cases hs
    | false =>
      obtain ⟨hr, hv⟩ := Database.commit_false rfl
      exact hc.congr hr hv
  | looked _ hr => exact hr.dirty ▸ hc
  | untouched _ hkeeps => exact hc.congr hkeeps.records hkeeps.trims.version

theorem Run.claimed (hrun : Run start calls db) (hs : ∀ call ∈ calls, call.spares)
    (hc : start.dirty.Claimed k content size) : db.dirty.Claimed k content size := by
  induction hrun with
  | nil => exact hc
  | snoc _ he ih =>
    have hlast := hs _ (List.mem_append_right _ (List.mem_singleton_self _))
    exact claimed_exec hlast (ih fun call hm => hs call (List.mem_append_left _ hm)) he

theorem Dirty.claimed_stamp {d : Dirty} {root : Hash} {r : Dirty.Record}
    (order : Dirty.Arrangement) (hk : Dirty.Reaches d.cachedChildren root k)
    (hr : d.records[k]? = some r) : (d.stamp order root).Claimed k r.content r.size := by
  rw [Claimed, get_stamp, version_stamp, hr, Option.map_some, Option.map_some,
    if_pos ((mem_closure_iff d order root k).2 hk)]
  rfl

/-- What a stamp has reached through cached nodes stays as it was, claimed for the current version,
whatever else is dropped below any root. -/
theorem stamped_nodes_stay {order : Dirty.Arrangement} {elapsed : Duration} {root : Hash}
    (hrun : Run (start.stamp order elapsed root) calls db) (hs : ∀ call ∈ calls, call.spares)
    {r : Dirty.Record}
    (hk : Dirty.Reaches start.dirty.cachedChildren root k)
    (hr : start.dirty.records[k]? = some r) :
    ∃ r', db.dirty.records[k]? = some r' ∧ r'.content = r.content ∧ r'.size = r.size ∧
      r'.version = db.dirty.version := by
  have hc : (start.stamp order elapsed root).dirty.Claimed k r.content r.size := by
    rw [Database.dirty_stamp]
    exact Dirty.claimed_stamp order hk hr
  obtain ⟨r', hr', hcore⟩ := Option.map_eq_some_iff.1 (hrun.claimed hs hc)
  exact ⟨r', hr', congrArg Prod.fst hcore, congrArg (·.2.1) hcore, congrArg (·.2.2) hcore⟩

/-- Two nodes that are on disk, one below the other. -/
def commitTwoBlobs : List Command :=
  [.insertBlob (.fill 1) [1], .insertBlob (.fill 2) [2], .reference (.fill 1) (.fill 2),
    .commit (.fill 2) false false, .nextVersion]

/-- Calls that drop what is stale and fail to flush the rest. -/
def sweepCommitAndFailToCap : List Command :=
  [.insertBlob (.fill 3) [3], .reference (.fill 3) (.fill 1), .dereference (.fill 2),
    .dereferenceStored (.fill 1), .collect 1, .commit (.fill 3) false false,
    .arm { writesLeft := some 0 }, .cap 0]

theorem stamped_nodes_stay_under_sweeps :
    ∃ (start : Database) (calls : List Call) (db : Database) (r r' : Dirty.Record),
      Run (start.stamp .ascending 0 (.fill 2)) calls db ∧ (∀ call ∈ calls, call.spares = true) ∧
      Dirty.Reaches start.dirty.cachedChildren (.fill 2) (.fill 1) ∧
      start.dirty.records[Hash.fill 1]? = some r ∧ db.dirty.records[Hash.fill 1]? = some r' ∧
      r'.content = r.content ∧ r'.size = r.size ∧ r'.version = db.dirty.version := by
  have hsome : ((Database.new {} {} [] {} id {}).run commitTwoBlobs).isSome := by decide +kernel
  obtain ⟨⟨before, start⟩, hstart⟩ := Option.isSome_iff_exists.1 hsome
  have hcached : ((Database.new {} {} [] {} id {}).run commitTwoBlobs).all (fun s =>
      decide (Hash.fill 1 ∈ s.2.dirty.closure .ascending (.fill 2))) := by decide +kernel
  have hpruned : ((Database.new {} {} [] {} id {}).run commitTwoBlobs).all (fun s =>
      ((s.2.stamp .ascending 0 (.fill 2)).run sweepCommitAndFailToCap).any fun p =>
        p.1.all Call.spares) := by decide +kernel
  rw [hstart, Option.all_some] at hcached hpruned
  obtain ⟨⟨calls, db⟩, hr, hs⟩ := (Option.any_eq_true _ _).1 hpruned
  have hk := (Dirty.mem_closure_iff _ _ _ _).1 (of_decide_eq_true hcached)
  have hg := hk.isSome_right
  rw [Dirty.cachedChildren, Option.isSome_map, Option.isSome_iff_exists] at hg
  obtain ⟨r, hg⟩ := hg
  have hspares := List.all_eq_true.1 hs
  obtain ⟨r', hr', hcontent⟩ := stamped_nodes_stay (Run.of_run hr) hspares hk hg
  exact ⟨start, calls, db, r, r', Run.of_run hr, hspares, hk, hg, hr', hcontent⟩

end TrieCache
