import TrieCache.Database.Sweep
import TrieCache.Proofs.Database.Flush

namespace TrieCache.Database

/-- Only stale nodes have left memory, and of the clean cache only `dropped` is gone. -/
structure Prunes (db db' : Database) (dropped : List Hash) : Prop where
  trims : db.dirty.Trims db'.dirty
  fresh : ∀ k, k ∈ db'.dirty.fresh ↔
    k ∈ db.dirty.fresh ∧ (db.dirty.records.contains k → db'.dirty.records.contains k)
  stale : ∀ k, db.dirty.records.contains k → db'.dirty.records.contains k = false → db.dirty.Stale k
  gone : ∀ k ∈ dropped, db.dirty.records.contains k ∧ db'.dirty.records.contains k = false
  preimages : db'.dirty.preimages = db.dirty.preimages
  preimagesSize : db'.dirty.preimagesSize = db.dirty.preimagesSize
  cleans : db'.cleans = db.cleans.map (·.removeAll dropped)
  disk : db'.disk = db.disk
  config : db'.config = db.config

variable {db db' : Database} {arrangement : Dirty.Arrangement} {clock : List Duration}
  {root : Hash} {s : Dirty.Sweep} {dropped : List Hash}

theorem progress_of_sweep {d : Dirty} {left : Option Nat}
    (hs : d.sweep arrangement left root = some s) : Dirty.Sweep.Progress { dirty := d } s := by
  have hp := Dirty.Sweep.Progress.run hs
  exact ⟨hp.toShrinks, hp.stale, hp.dropped⟩

theorem prunes_account (hp : Dirty.Sweep.Progress { dirty := db.dirty } s) :
    Prunes db (db.account root s) s.dropped := by
  have hs := hp.toShrinks.trans (.forgetRoot s.dirty root)
  have ht : (s.dirty.forgetRoot root).Trims (db.account root s).dirty :=
    .of_eq rfl rfl rfl rfl rfl fun _ hk => hk
  refine ⟨(Dirty.Trims.of_shrinks hs).trans ht, hs.fresh, ?_, ?_, hs.preimages, hs.preimagesSize,
    ?_, ?_, ?_⟩
  · intro k hk hk'
    exact hp.stale k hk ((Dirty.contains_forgetRoot s.dirty root k).symm.trans hk')
  · intro k hk
    rcases hp.dropped k hk with hk | ⟨hk, hk'⟩
    · cases hk
    · exact ⟨hk, (Dirty.contains_forgetRoot s.dirty root k).trans hk'⟩
  · rw [account]
    split <;> rfl
  · rw [account]
    split <;> rfl
  · rw [account]
    split <;> rfl

theorem useless_account (hp : Dirty.Sweep.Progress { dirty := db.dirty } s) :
    (db.account root s).dirty.useless = db.dirty.useless :=
  (hp.toShrinks.trans (.forgetRoot s.dirty root)).useless

theorem Prunes.report (db : Database) (e : Event) : Prunes db (db.report e) [] where
  trims := .refl _
  fresh _ := (and_iff_left id).symm
  stale k hk hk' := absurd (hk.symm.trans hk') nofun
  gone := nofun
  preimages := rfl
  preimagesSize := rfl
  cleans := by cases h : db.cleans <;> simp [Database.report, h, Clean.Cache.removeAll]
  disk := rfl
  config := rfl

theorem prunes_of_sweep {result : Except Error (List Hash)}
    (hs : db.sweep arrangement clock root = some (result, db')) :
    ∃ dropped, Prunes db db' dropped ∧ db'.dirty.useless = db.dirty.useless ∧
      result = if root.isZero then .error .metaRoot else .ok dropped := by
  rw [sweep] at hs
  split at hs
  · next hz =>
    cases hs
    exact ⟨[], .report db _, rfl, (if_pos hz).symm⟩
  · next hz =>
    rw [Option.bind_eq_bind, Option.bind_eq_some_iff] at hs
    obtain ⟨s, hw, hs⟩ := hs
    cases hs
    have hp := progress_of_sweep hw
    exact ⟨s.dropped, prunes_account hp, useless_account hp, (if_neg hz).symm⟩

theorem prunes_of_dereference {result : Except Error Unit}
    (hs : db.dereference arrangement clock root = some (result, db')) :
    ∃ dropped, Prunes db db' dropped ∧ db'.dirty.useless = db.dirty.useless := by
  rw [dereference, Option.bind_eq_bind, Option.bind_eq_some_iff] at hs
  obtain ⟨⟨r, db₁⟩, hs, he⟩ := hs
  cases he
  obtain ⟨dropped, hp, hu, _⟩ := prunes_of_sweep hs
  exact ⟨dropped, hp, hu⟩

theorem prunes_of_dereferenceStored {result : Except Error Unit}
    (hs : db.dereferenceStored arrangement clock root = some (result, db')) :
    ∃ dropped, Prunes db db' dropped ∧ db'.dirty.useless =
      if root.isZero then db.dirty.useless else db.dirty.useless ++ [HashSet.ofList dropped] := by
  rw [dereferenceStored, Option.bind_eq_bind, Option.bind_eq_some_iff] at hs
  obtain ⟨⟨r, db₁⟩, hs, he⟩ := hs
  obtain ⟨dropped, hp, hu, hr⟩ := prunes_of_sweep hs
  use dropped
  cases hz : root.isZero with
  | true =>
    rw [hz] at hr
    cases hr
    cases he
    exact ⟨hp, hu⟩
  | false =>
    rw [hz] at hr
    cases hr
    cases he
    refine ⟨⟨hp.trims.trans ?_, hp.fresh, hp.stale, hp.gone, hp.preimages, hp.preimagesSize,
      hp.cleans, hp.disk, hp.config⟩, ?_⟩
    · exact .of_eq rfl rfl rfl rfl rfl fun _ hk => hk
    · rw [hu]
      rfl

def setsCollected (db : Database) (count : Nat) : Nat := min db.dirty.useless.length count

/-- All that collecting has to delete, in order. -/
def collectOps (db : Database) (arrangement : Dirty.Arrangement) (count : Nat) : List Store.Op :=
  (garbage db.dirty arrangement (db.setsCollected count)).map Store.deleteNode

theorem collect_cases {result : Except Error Unit} {count : Nat}
    (hc : db.collect arrangement count = (result, db')) :
    db'.cleans = db.cleans ∧
      ((∃ e done, result = .error e ∧ db'.dirty = db.dirty ∧
        done <+: db.collectOps arrangement count ∧ Stores db db' done) ∨
      result = .ok () ∧ Stores db db' (db.collectOps arrangement count) ∧ db'.dirty =
        { db.dirty with useless := db.dirty.useless.drop (db.setsCollected count) }) := by
  rw [collect] at hc
  dsimp only at hc
  split at hc
  · next halt hf =>
    cases hc
    obtain ⟨done, refused, hdone, hw⟩ :=
      Store.Writer.wrote_of_error (Store.Writer.Outcome.pour _ _ _) hf
    have hdone' : done <+: db.collectOps arrangement count := (List.prefix_append _ _).trans hdone
    exact ⟨rfl, .inl ⟨_, done, rfl, rfl, hdone', .of_wrote hw rfl⟩⟩
  · next w hf =>
    cases hc
    obtain ⟨hw, _⟩ := Store.Writer.wrote_of_ok (Store.Writer.Outcome.pour _ _ _) hf
    exact ⟨rfl, .inr ⟨rfl, .of_wrote hw rfl, rfl⟩⟩

theorem records_collect (db : Database) (arrangement : Dirty.Arrangement) (count : Nat) :
    (db.collect arrangement count).2.dirty.records = db.dirty.records := by
  obtain ⟨_, ⟨_, _, _, hd, _⟩ | ⟨_, _, hd⟩⟩ :=
    collect_cases (Prod.mk.eta (p := db.collect arrangement count)).symm <;> rw [hd]

theorem trims_collect (db : Database) (arrangement : Dirty.Arrangement) (count : Nat) :
    db.dirty.Trims (db.collect arrangement count).2.dirty := by
  obtain ⟨_, ⟨_, _, _, hd, _⟩ | ⟨_, _, hd⟩⟩ :=
    collect_cases (Prod.mk.eta (p := db.collect arrangement count)).symm
  · rw [hd]
    exact .refl db.dirty
  · rw [hd]
    exact .of_eq rfl rfl rfl rfl rfl fun _ hk => hk

end TrieCache.Database
