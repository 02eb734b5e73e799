import TrieCache.Proofs.Database.Committed

namespace TrieCache

open Store (putNode written)

section Main

variable {disk : Store.Disk} {counters : Counters} {log : List Event} {files : Directory}
  {place : String → String} {config : Config} {calls : List Call} {db : Database}

/-- A call that fails because of the disk leaves all that is known about the cached nodes as it was,
but for a commit that uncaches: just the nodes in the batches that it has written are gone. -/
theorem dirty_state_after_failure
    (hrun : Run (.new disk counters log files place config) calls db) :
    (∀ order limit e db', db.cap order limit = (.error e, db') →
      db'.dirty = db.dirty ∧ db'.cleans = db.cleans) ∧
    (∀ order count e db', db.collect order count = (.error e, db') →
      db'.dirty = db.dirty ∧ db'.cleans = db.cleans) ∧
    (∀ order root report e db', db.commit order root report false = (.error e, db') →
      db'.dirty = db.dirty) ∧
    ∀ order root report e db', db.commit order root report true = (.error e, db') →
      ∃ made gone, db'.disk.attempts = db.disk.attempts ++ made ∧ gone.Nodup ∧
        (∀ h, h ∈ gone ↔ ∃ encoded, putNode h encoded ∈ written made) ∧
        db.dirty.Without gone db'.dirty := by
  have hw := hrun.wellFormed Database.wellFormed_new
  refine ⟨?_, ?_, ?_, ?_⟩
  · intro order limit e db' hc
    obtain ⟨_, _, _, hd, hcleans, _⟩ := Database.cap_error hc
    exact ⟨hd, hcleans⟩
  · intro order count e db' hc
    obtain ⟨hcleans, ⟨_, _, _, hd, _⟩ | ⟨hr, _⟩⟩ := Database.collect_cases hc
    · exact ⟨hd, hcleans⟩
    · cases hr
  · intro order root report e db' hc
    obtain ⟨nodes, ops, d, _, hleft, ⟨_, _, hd⟩ | ⟨hr, _⟩⟩ := Database.commits_of_commit hw hc
    · exact hd.trans ((Dirty.Without.refl hw.listed).unique hleft (.refl []))
    · cases hr
  · intro order root report e db' hc
    obtain ⟨nodes, ops, d, hcommits, hleft, ⟨_, _, hd⟩ | ⟨hr, _⟩⟩ :=
      Database.commits_of_commit hw hc
    · obtain ⟨refused, ⟨made, hmade, hwritten, _⟩, _⟩ := hcommits.logs
      refine ⟨made, nodes.map Prod.fst, hmade, Database.nodup_keys hcommits.first, ?_, hd ▸ hleft⟩
      intro h
      rw [hwritten]
      constructor
      · intro hm
        obtain ⟨n, hn, rfl⟩ := List.mem_map.1 hm
        exact ⟨n.2, (hcommits.puts n.1 n.2).2 hn⟩
      · rintro ⟨encoded, hm⟩
        exact List.mem_map_of_mem (f := Prod.fst) ((hcommits.puts h encoded).1 hm)
    · cases hr

end Main

/-- A blob that fills a batch and a node that refers to it and back, when only one more batch can be
written. -/
def cacheCycleForTwoBatches : List Command :=
  [.insertBlob (.fill 1) (List.replicate Store.idealBatchSize 7), .insertBlob (.fill 2) [2],
    .reference (.fill 1) (.fill 2), .reference (.fill 2) (.fill 1), .reference (.fill 2) .zero,
    .arm { writesLeft := some 1 }]

/-- Both ways of writing the two nodes fail between them. -/
theorem cap_and_commit_fail_midway :
    ∃ (calls : List Call) (db db₁ db₂ : Database) (e₁ e₂ : Error),
      Run (.new {} {} [] {} id { preimages := false }) calls db ∧
      db.cap .ascending 0 = (.error e₁, db₁) ∧
      db.commit .ascending (.fill 2) false true = (.error e₂, db₂) ∧
      db.dirty.records.contains (.fill 1) ∧ db₂.dirty.records.contains (.fill 1) = false ∧
      db₂.dirty.records.contains (.fill 2) := by
  have hrun : ((Database.new {} {} [] {} id { preimages := false }).run
      cacheCycleForTwoBatches).any fun r =>
      !(r.2.cap .ascending 0).1.isOk && !(r.2.commit .ascending (.fill 2) false true).1.isOk &&
        r.2.dirty.records.contains (.fill 1) &&
        ((r.2.commit .ascending (.fill 2) false true).2.dirty.records.contains (.fill 1) = false) &&
        (r.2.commit .ascending (.fill 2) false true).2.dirty.records.contains (.fill 2) := by
    decide +kernel
  obtain ⟨⟨calls, db⟩, hr, hc⟩ := (Option.any_eq_true _ _).1 hrun
  simp only [Bool.and_eq_true, Bool.not_eq_true', decide_eq_true_eq] at hc
  obtain ⟨⟨⟨⟨hcap, hcommit⟩, hbefore⟩, hgone⟩, hkept⟩ := hc
  generalize hdb₁ : db.cap .ascending 0 = capped at hcap
  generalize hdb₂ : db.commit .ascending (.fill 2) false true = committed at hcommit hgone hkept
  obtain ⟨_ | ⟨⟩, db₁⟩ := capped
  · obtain ⟨_ | ⟨⟩, db₂⟩ := committed
    · exact ⟨calls, db, db₁, db₂, _, _, Run.of_run hr, hdb₁, hdb₂, hbefore, hgone, hkept⟩
    · cases hcommit
  · cases hcap

theorem dirty_state_after_failure_midway :
    ∃ (calls : List Call) (db db₁ db₂ : Database) (e₁ e₂ : Error) (made : List Store.Attempt)
      (gone : List Hash),
      Run (.new {} {} [] {} id { preimages := false }) calls db ∧
      db.cap .ascending 0 = (.error e₁, db₁) ∧ db₁.dirty = db.dirty ∧
      db.commit .ascending (.fill 2) false true = (.error e₂, db₂) ∧
      db₂.disk.attempts = db.disk.attempts ++ made ∧
      (∀ h, h ∈ gone ↔ ∃ encoded, putNode h encoded ∈ written made) ∧
      Hash.fill 1 ∈ gone ∧ Hash.fill 2 ∉ gone ∧ db.dirty.Without gone db₂.dirty := by
  obtain ⟨calls, db, db₁, db₂, e₁, e₂, hrun, hcap, hcommit, hbefore, hgone, hkept⟩ :=
    cap_and_commit_fail_midway
  obtain ⟨hcaps, _, _, hcommits⟩ := dirty_state_after_failure hrun
  obtain ⟨made, gone, hmade, _, hwritten, hleft⟩ := hcommits _ _ _ _ _ hcommit
  have h₁ : Hash.fill 1 ∈ gone := by
    by_contra hm
    have hk := (hleft.contains_iff (.fill 1)).2 ⟨hm, hbefore⟩
    exact absurd (hk.symm.trans hgone) nofun
  have h₂ : Hash.fill 2 ∉ gone := ((hleft.contains_iff (.fill 2)).1 hkept).1
  exact ⟨calls, db, db₁, db₂, e₁, e₂, made, gone, hrun, hcap, (hcaps _ _ _ _ hcap).1, hcommit,
    hmade, hwritten, h₁, h₂, hleft⟩

end TrieCache
