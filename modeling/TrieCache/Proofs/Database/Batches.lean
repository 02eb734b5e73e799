import TrieCache.Proofs.Database.Operations
import TrieCache.Proofs.Store.Cutting

namespace TrieCache.Database

open Store (Op Writer idealBatchSize nodeKey preimageKey putNode deleteNode)
open Store.Writer (Cuts GoesOn)

/-- Unless the disk has refused something, which one without faults does not do, all of `ops` have
been written, each in just one batch and in this order. -/
structure Batched (ops : List Op) (disk : Store.Disk) (r : Except Error Unit × Database) :
    Prop where
  written : r.1 = .ok () → ∃ batches, disk.Takes batches r.2.disk ∧
    batches.flatMap (·.ops.toList) = ops ∧ ∀ b ∈ batches, b.Cut
  refused : ∀ e, r.1 = .error e → r.2.disk.putsLeft = some 0 ∨ r.2.disk.writesLeft = some 0
  healthy : disk.Healthy → r.1 = .ok ()

variable {db : Database} {d : Dirty} {arrangement : Dirty.Arrangement} {w : Writer}

theorem Committer.le_of_not_due (size : Nat) (hd : due size = false) : size ≤ idealBatchSize :=
  Nat.le_of_lt (Nat.lt_of_not_le (of_decide_eq_false hd))

theorem le_of_not_exceeded (size : Nat) (hd : decide (idealBatchSize < size) = false) :
    size ≤ idealBatchSize :=
  Nat.le_of_not_lt (of_decide_eq_false hd)

theorem not_onNode_of_mem {op : Op} (ho : op ∈ preimagePuts d arrangement) : ¬ op.OnNode := by
  obtain ⟨p, _, rfl⟩ := List.mem_map.1 ho
  rintro ⟨h, hk⟩
  exact Store.nodeKey_ne_preimageKey hk.symm

theorem cuts_preimagePuts {disk : Store.Disk} {counters : Counters}
    (ha : Writer.addAll (preimagePuts d arrangement) (.start disk counters) = .ok w) :
    Cuts (preimagePuts d arrangement) [] (.start disk counters) w ∧ w.batch.Cut := by
  obtain ⟨hc, hb⟩ := Cuts.addAll ha
  exact ⟨hc, hb ▸ .of_append fun op => not_onNode_of_mem⟩

/-- Preimages are put into one batch, which is written or has room for nodes. -/
theorem cuts_flushPreimages {disk : Store.Disk} {counters : Counters}
    (hp : flushPreimages d arrangement (.start disk counters) = .ok w) :
    ∃ batches, Cuts (preimagePuts d arrangement) batches (.start disk counters) w ∧ w.Open := by
  rw [flushPreimages] at hp
  split at hp
  · next hnone =>
    cases hp
    rw [preimagePuts, Dirty.preimageList, hnone]
    exact ⟨[], .refl _, .of_empty rfl⟩
  · rw [← preimagePuts] at hp
    obtain ⟨w₁, hadd, hflush⟩ := bind_eq_ok hp
    obtain ⟨h₁, hcut⟩ := cuts_preimagePuts hadd
    obtain ⟨batches, h₂, ho⟩ := Cuts.flushIf le_of_not_exceeded hcut hflush
    exact ⟨_, List.append_nil (preimagePuts d arrangement) ▸ h₁.append h₂, ho⟩

theorem cuts_capPreimages (hp : db.capPreimages arrangement = .ok w) :
    ∃ batches, Cuts (if db.preimagesDue then preimagePuts db.dirty arrangement else []) batches
      (.start db.disk db.counters) w ∧ w.Open := by
  rw [capPreimages] at hp
  split at hp
  · next hd =>
    rw [if_pos hd]
    exact cuts_flushPreimages hp
  · next hd =>
    cases hp
    rw [if_neg hd]
    exact ⟨[], .refl _, .of_empty rfl⟩

theorem takes_writePreimages (hp : db.writePreimages arrangement = .ok w) :
    w.batch = .empty ∧ ∃ batches, db.disk.Takes batches w.disk ∧
      batches.flatMap (·.ops.toList) = preimagePuts db.dirty arrangement ∧
      ∀ b ∈ batches, b.Cut := by
  rw [writePreimages_eq] at hp
  split at hp
  · next hnone =>
    cases hp
    rw [preimagePuts, Dirty.preimageList, hnone]
    exact ⟨rfl, [], .refl _, rfl, List.forall_mem_nil _⟩
  · obtain ⟨w₂, hwrite, hw⟩ := bind_eq_ok hp
    cases hw
    obtain ⟨w₁, hadd, hflush⟩ := bind_eq_ok hwrite
    obtain ⟨h₁, hcut⟩ := cuts_preimagePuts hadd
    obtain ⟨h₂, he⟩ := Cuts.flush hcut hflush
    have hall := h₁.append h₂
    rw [List.append_nil] at hall
    exact ⟨rfl, _, hall.complete rfl he⟩

theorem goesOn_capPreimages (arrangement : Dirty.Arrangement) (hd : db.disk.Healthy) :
    GoesOn (db.capPreimages arrangement) := by
  rw [capPreimages, flushPreimages]
  split
  · split
    · exact ⟨_, rfl, hd⟩
    · exact (GoesOn.addAll _ hd).bind fun _ => .flushIf _
  · exact ⟨_, rfl, hd⟩

/-- The preimages that are due go into the batch that takes the first nodes, unless they fill it. -/
theorem batched_cap (db : Database) (arrangement : Dirty.Arrangement) (limit : Nat) :
    Batched (db.capOps arrangement limit) db.disk (db.cap arrangement limit) where
  written hr := by
    rw [cap_eq] at hr ⊢
    cases hp : db.capPreimages arrangement with
    | error halt =>
      rw [hp] at hr
      cases hr
    | ok w =>
      rw [hp] at hr
      dsimp only at hr ⊢
      rw [flush_spilled] at hr ⊢
      obtain ⟨batches, h₁, ho⟩ := cuts_capPreimages hp
      cases hs : Writer.pour Committer.due
          ((Dirty.splitOver limit db.dirty.oldestFirst db.dirty.memorySize).1.map fun n =>
            Store.putNode n.1 n.2.encoded) w >>= Writer.flush with
      | error halt =>
        rw [hs] at hr
        cases hr
      | ok w' =>
        obtain ⟨batches', h₂, he⟩ := Cuts.pour_flush Committer.le_of_not_due ho hs
        exact ⟨_, (h₁.append h₂).complete rfl he⟩
  refused e he := refused_of_cap (Prod.ext he rfl)
  healthy hd := by
    obtain ⟨w, hp, hw⟩ := goesOn_capPreimages arrangement hd
    obtain ⟨w', hs, _⟩ : GoesOn (Writer.pour Committer.due
        ((Dirty.splitOver limit db.dirty.oldestFirst db.dirty.memorySize).1.map fun n =>
          Store.putNode n.1 n.2.encoded) w >>= Writer.flush) :=
      (GoesOn.pour _ _ hw).bind fun _ => .flush
    rw [cap_eq, hp]
    dsimp only
    rw [flush_spilled, hs]

theorem batched_commit (db : Database) (arrangement : Dirty.Arrangement) (root : Hash)
    (report uncache : Bool) : Batched (commitOps db.dirty arrangement root) db.disk
      (db.commit arrangement root report uncache) where
  written hr := by
    cases hp : db.writePreimages arrangement with
    | error halt =>
      rw [commit, hp] at hr
      cases hr
    | ok w =>
      rw [commit_eq_conclude hp] at hr ⊢
      obtain ⟨hb, batches, htakes, hops, hcut⟩ := takes_writePreimages hp
      cases hs : Writer.pour Committer.due (nodePuts (pending db.dirty arrangement root)) w >>=
          Writer.flush with
      | error halt =>
        rw [hs] at hr
        cases hr
      | ok w' =>
        obtain ⟨batches', h₂, he⟩ := Cuts.pour_flush Committer.le_of_not_due (.of_empty hb) hs
        obtain ⟨htakes', hops', hcut'⟩ := h₂.complete hb he
        have hdisk : (db.settleAll uncache (pending db.dirty arrangement root) w').disk = w'.disk :=
          Committer.disk_settles _ _
        refine ⟨batches ++ batches', ?_, ?_, fun b hb => ?_⟩
        · change db.disk.Takes _ (db.settleAll uncache (pending db.dirty arrangement root) w').disk
          rw [hdisk]
          exact htakes.append htakes'
        · rw [List.flatMap_append, hops, hops', commitOps]
        · exact (List.mem_append.1 hb).elim (hcut b) (hcut' b)
  refused e he := refused_of_commit (Prod.ext he rfl)
  healthy hd := commit_ok_of_healthy hd

/-- Deletes may fill a batch exactly, which is then not written before the next one has come. -/
theorem batched_collect (db : Database) (arrangement : Dirty.Arrangement) (count : Nat) :
    Batched (db.collectOps arrangement count) db.disk (db.collect arrangement count) := by
  rw [collect]
  dsimp only
  split
  · next halt hs =>
    have hexcused := (Writer.Excused.pour _ _ _).bind Writer.Excused.flush halt hs
    refine ⟨fun hr => (by cases hr), fun _ _ => hexcused, fun hd => ?_⟩
    obtain ⟨w, hw, _⟩ : GoesOn (Writer.pour (fun size => decide (idealBatchSize < size))
        (db.collectOps arrangement count) (.start db.disk db.counters) >>= Writer.flush) :=
      (GoesOn.pour _ _ hd).bind fun _ => .flush
    cases hs.symm.trans hw
  · next w hs =>
    obtain ⟨batches, hc, he⟩ := Cuts.pour_flush le_of_not_exceeded (.of_empty rfl) hs
    exact ⟨fun _ => ⟨batches, hc.complete rfl he⟩, fun _ hr => (by cases hr), fun _ => rfl⟩

section Main

variable {disk : Store.Disk} {counters : Counters} {log : List Event} {files : Directory}
  {place : String → String} {config : Config} {calls : List Call}

/-- Making room, a commit and collecting each write all that they have to write and nothing else,
without anything dropped or repeated where it is cut into batches. A batch with a node in it exceeds
its ideal size by at most the last operation. -/
theorem operations_are_cut_into_batches
    (hrun : Run (.new disk counters log files place config) calls db) :
    (∀ order limit,
      db.CapPuts (db.dirty.insertionOrder calls) limit (db.capOps order limit) ∧
        Batched (db.capOps order limit) db.disk (db.cap order limit)) ∧
    (∀ order root report uncache,
      CommitPuts db.dirty root (commitOps db.dirty order root) ∧
        Batched (commitOps db.dirty order root) db.disk (db.commit order root report uncache)) ∧
    ∀ order count,
      CollectDeletes db.dirty count (db.collectOps order count) ∧
        Batched (db.collectOps order count) db.disk (db.collect order count) := by
  have hw := hrun.wellFormed wellFormed_new
  refine ⟨fun order limit => ⟨capPuts_capOps hw order limit, db.batched_cap order limit⟩,
    fun order root report uncache => ⟨commitPuts_commitOps db.dirty order root, ?_⟩,
    fun order count => ⟨collectDeletes_collectOps db order count, db.batched_collect order count⟩⟩
  exact db.batched_commit order root report uncache

end Main

/-- Of two leaves that are queued one is cached again; a blob of the size of a batch comes with a
small one above it. -/
def queueLeavesAndCacheBlobs : List Command :=
  [.insert (.fill 5) 5 leafNode, .insert (.fill 4) 5 leafNode, .reference (.fill 5) (.fill 4),
    .commit (.fill 4) false false, .nextVersion, .dereferenceStored (.fill 4),
    .insert (.fill 5) 5 leafNode, .insertBlob (.fill 1) (List.replicate idealBatchSize 0),
    .insertBlob (.fill 2) [2], .reference (.fill 1) (.fill 2), .insertPreimage (.fill 3) [3]]

/-- The preimage, a leaf and the large blob fill a batch, and one of the leaves is deleted. -/
theorem operations_of_large_blob_cut_into_batches :
    ∃ calls db, Run (.new {} {} [] {} id { preimageThreshold := 0 }) calls db ∧
      (∃ full rest, db.disk.Takes [full, rest] (db.cap .ascending 0).2.disk ∧ full.Cut ∧ rest.Cut ∧
        (full.ops.toList ++ rest.ops.toList).map Op.key = [preimageKey (.fill 3),
          nodeKey (.fill 5), nodeKey (.fill 1), nodeKey (.fill 2)] ∧
        rest.ops.toList = [putNode (.fill 2) [2]]) ∧
      ∃ deletes, db.disk.Takes [deletes] (db.collect .ascending 1).2.disk ∧ deletes.Cut ∧
        deletes.ops.toList = [deleteNode (.fill 4)] := by
  have hcheck : ((Database.new {} {} [] {} id { preimageThreshold := 0 }).run
      queueLeavesAndCacheBlobs).any fun r =>
        let capped := r.2.cap .ascending 0
        let collected := r.2.collect .ascending 1
        decide (capped.1 = .ok ()) &&
        decide (capped.2.disk.attempts.length = r.2.disk.attempts.length + 2) &&
        decide (capped.2.disk.attempts.getLast?.map (·.batch.ops.toList) =
          some [putNode (.fill 2) [2]]) &&
        decide ((r.2.capOps .ascending 0).map Op.key = [preimageKey (.fill 3), nodeKey (.fill 5),
          nodeKey (.fill 1), nodeKey (.fill 2)]) &&
        decide (collected.1 = .ok ()) &&
        decide (collected.2.disk.attempts.length = r.2.disk.attempts.length + 1) &&
        decide (r.2.collectOps .ascending 1 = [deleteNode (.fill 4)]) := by
    decide +kernel
  obtain ⟨⟨calls, db⟩, hr, hcheck⟩ := (Option.any_eq_true _ _).1 hcheck
  simp only [Bool.and_eq_true, decide_eq_true_eq] at hcheck
  obtain ⟨⟨⟨⟨⟨⟨hcap, htwo⟩, hlast⟩, hkeys⟩, hcollect⟩, hone⟩, hdelete⟩ := hcheck
  obtain ⟨hcaps, _, hcollects⟩ := operations_are_cut_into_batches (Run.of_run hr)
  obtain ⟨batches, htakes, hops, hcut⟩ := (hcaps .ascending 0).2.written hcap
  obtain ⟨batches', htakes', hops', hcut'⟩ := (hcollects .ascending 1).2.written hcollect
  rw [htakes.length_attempts, Nat.add_left_cancel_iff, List.length_eq_two] at htwo
  rw [htakes'.length_attempts, Nat.add_left_cancel_iff, List.length_eq_one_iff] at hone
  obtain ⟨full, rest, rfl⟩ := htwo
  obtain ⟨deletes, rfl⟩ := hone
  rw [List.forall_mem_cons, List.forall_mem_singleton] at hcut
  rw [List.forall_mem_singleton] at hcut'
  have hrest : rest.ops.toList = [putNode (.fill 2) [2]] := by
    rw [htakes.attempts] at hlast
    simpa using hlast
  have hfull : full.ops.toList ++ rest.ops.toList = db.capOps .ascending 0 := by
    simpa using hops
  have hdeletes : deletes.ops.toList = [deleteNode (.fill 4)] := by
    simpa [hdelete] using hops'
  exact ⟨calls, db, Run.of_run hr, ⟨full, rest, htakes, hcut.1, hcut.2, hfull ▸ hkeys, hrest⟩,
    deletes, htakes', hcut', hdeletes⟩

end TrieCache.Database
