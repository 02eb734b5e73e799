import TrieCache.Proofs.Database.Collection
import TrieCache.Proofs.Database.Uncached

namespace TrieCache

/-- What comes of reading a node. -/
inductive Answer
  | node (result : Except Error Node)
  | blob (result : Except Error Bytes)
deriving DecidableEq

def Call.answer (c : Call) : Option Answer :=
  match c.command with
  | .readNode h => some (.node (c.before.node h).1)
  | .readBlob h => some (.blob (c.before.blob h).1)
  | _ => none

/-- The node that a command reads. -/
def Command.target : Command → Option Hash
  | readNode h => some h
  | readBlob h => some h
  | _ => none

/-- A node that is found only because it is clean. -/
def Database.Stranded (db : Database) (h : Hash) : Prop := db.Finds h ∧ ¬db.Known h

instance (db : Database) (h : Hash) : Decidable (db.Stranded h) :=
  inferInstanceAs (Decidable (db.Finds h ∧ ¬db.Known h))

/-- A call that deletes a clean node from disk. -/
def Call.Strands (c : Call) (h : Hash) : Prop :=
  ∃ count order, c.command = .collect count order ∧ c.before.deletes order count h ∧
    (c.before.clean? h).isSome

variable {E : Hash → Bytes} {db bare start : Database} {c : Command} {cs : List Command}
  {calls : List Call} {call bareCall : Call} {h : Hash}

section Stranding

theorem Database.Backed.collect {order : Dirty.Arrangement} {count : Nat} (hb : db.Backed h)
    (hs : ¬(Call.mk db (.collect count order)).Strands h) :
    (db.collect order count).2.Backed h := by
  obtain ⟨hcleans, _⟩ := collect_cases (Prod.mk.eta (p := db.collect order count)).symm
  intro v hv
  rw [clean?, hcleans] at hv
  by_contra hstored
  refine hs ⟨count, order, rfl, ?_, Option.isSome_iff_exists.2 ⟨v, hv⟩⟩
  rw [deletes, stores, stores, hb v hv, Bool.true_and, Bool.not_eq_true', Bool.eq_false_iff]
  exact hstored

theorem Database.Backed.not_stranded (hb : db.Backed h) : ¬db.Stranded h := by
  rintro ⟨⟨hz, hv | hk⟩, hn⟩
  · obtain ⟨v, hv⟩ := Option.isSome_iff_exists.1 hv
    exact hn ⟨hz, .inr (hb v hv)⟩
  · exact hn ⟨hz, hk⟩

theorem Run.strands_of_stranded (hrun : Run start calls db) (hw : start.dirty.WellFormed [])
    (hb : start.Backed h) (hs : db.Stranded h) : ∃ call ∈ calls, call.Strands h := by
  by_contra hn
  rw [not_exists] at hn
  refine (hrun.backed hw hb ?_).not_stranded hs
  rintro ⟨before, command⟩ hm count order hc hbefore
  cases hc
  exact hbefore.collect fun hstrands => hn _ ⟨hm, hstrands⟩

end Stranding

section Reading

theorem Faithful.reads_ne (hf : Faithful E db) (hr : db.disk.readsFail = false)
    (hr' : bare.disk.readsFail = false) (hh : db.Finds h) (hh' : ¬bare.Finds h) :
    (db.blob h).1 ≠ (bare.blob h).1 ∧ (db.node h).1 ≠ (bare.node h).1 := by
  obtain ⟨found, hl, hb, hn⟩ := hf.lookup_of_found hr hh
  have hl' := Database.lookup_of_not_found hr' hh'
  rw [Database.blob, Database.blob, Database.node, Database.node]
  dsimp only
  rw [hl, hl']
  constructor
  · intro he
    cases he
  · change (found.node.mapError (Error.decode h)) ≠ .error (.notFound h)
    intro he
    cases hnode : found.node with
    | ok node =>
      rw [hnode] at he
      cases he
    | error e =>
      rw [hnode] at he
      cases he

theorem Database.Uncached.clean?_eq_none (hb : db.Uncached bare) : bare.clean? h = none := by
  rw [clean?, hb.cleans, Option.bind_none]

theorem Database.Uncached.finds_iff (hb : db.Uncached bare) : bare.Finds h ↔ db.Known h := by
  rw [Finds, Known, hb.clean?_eq_none, hb.dirty, hb.disk]
  simp

theorem Faithful.uncached (hf : Faithful E db) (hb : db.Uncached bare) : Faithful E bare where
  cached := by
    rw [hb.dirty]
    exact hf.cached
  stored := by
    rw [hb.disk]
    exact hf.stored
  clean h v hv := by
    rw [hb.clean?_eq_none] at hv
    cases hv

/-- The same call is answered in the same way just if the node it reads is not stranded. -/
theorem answer_eq_iff (hb : call.Beside bareCall) (hf : Faithful E call.before)
    (hr : call.before.disk.readsFail = false) :
    call.answer = bareCall.answer ↔
      ∀ h, call.command.target = some h → ¬call.before.Stranded h := by
  obtain ⟨db, _⟩ := call
  obtain ⟨bare, c⟩ := bareCall
  obtain ⟨hc, hb⟩ := hb
  dsimp only at hc hb hf hr
  subst hc
  have hr' : bare.disk.readsFail = false := by rw [hb.disk, hr]
  have hreads : ∀ h, (¬db.Stranded h → (db.blob h).1 = (bare.blob h).1 ∧
      (db.node h).1 = (bare.node h).1) ∧
      (db.Stranded h → (db.blob h).1 ≠ (bare.blob h).1 ∧ (db.node h).1 ≠ (bare.node h).1) := by
    intro h
    constructor
    · intro hs
      apply (hf.uncached hb).reads_eq hf hr' hr
      rw [hb.finds_iff]
      refine ⟨fun hh => by_contra fun hk => hs ⟨hh, hk⟩, fun hk => ⟨hk.1, .inr hk.2⟩⟩
    · intro hs
      exact hf.reads_ne hr hr' hs.1 fun hh => hs.2 (hb.finds_iff.1 hh)
  cases c with
  | readNode h =>
    change some (Answer.node (db.node h).1) = some (.node (bare.node h).1) ↔ _
    rw [Option.some.injEq, Answer.node.injEq]
    constructor
    · rintro he _ ⟨⟩ hs
      exact ((hreads h).2 hs).2 he
    · intro hs
      exact ((hreads h).1 (hs h rfl)).2
  | readBlob h =>
    change some (Answer.blob (db.blob h).1) = some (.blob (bare.blob h).1) ↔ _
    rw [Option.some.injEq, Answer.blob.injEq]
    constructor
    · rintro he _ ⟨⟩ hs
      exact ((hreads h).2 hs).1 he
    · intro hs
      exact ((hreads h).1 (hs h rfl)).1
  | _ => exact iff_of_true rfl nofun

theorem answers_eq_iff {bareCalls : List Call} (hb : List.Forall₂ Call.Beside calls bareCalls)
    (hf : ∀ call ∈ calls, Faithful E call.before)
    (hr : ∀ call ∈ calls, call.before.disk.readsFail = false) :
    calls.map Call.answer = bareCalls.map Call.answer ↔
      ∀ call ∈ calls, ∀ h, call.command.target = some h → ¬call.before.Stranded h := by
  induction hb with
  | nil => exact iff_of_true rfl fun _ hm => nomatch hm
  | cons hb _ ih =>
    rw [List.forall_mem_cons] at hf hr
    rw [List.map_cons, List.map_cons, List.cons.injEq, List.forall_mem_cons,
      answer_eq_iff hb hf.1 hr.1, ih hf.2 hr.2]

end Reading

section Runs

variable {last : Database}

theorem Run.faithful_before (hrun : Run start calls last) (hw : start.dirty.WellFormed [])
    (hf : Faithful E start) (hs : ∀ call ∈ calls, call.command.Caches E) :
    ∀ call ∈ calls, Faithful E call.before := by
  intro call hm
  obtain ⟨prior, hprior, hsubset⟩ := hrun.prior hm
  exact hprior.faithful hw hf fun earlier he => hs earlier (hsubset he)

theorem Run.strands_before (hrun : Run start calls last) (hw : start.dirty.WellFormed [])
    (hb : start.Backed h) (hm : call ∈ calls) (hs : call.before.Stranded h) :
    ∃ earlier ∈ calls, earlier.Strands h := by
  obtain ⟨prior, hprior, hsubset⟩ := hrun.prior hm
  obtain ⟨earlier, he, hstrands⟩ := hprior.strands_of_stranded hw hb hs
  exact ⟨earlier, hsubset he, hstrands⟩

theorem answers_of_run (hb : start.Uncached bare) (hw : start.dirty.WellFormed [])
    (hf : Faithful E start) (hs : ∀ c ∈ cs, c.Caches E) (hr : start.run cs = some (calls, last))
    (hreads : ∀ call ∈ calls, call.before.disk.readsFail = false) :
    ∃ bareCalls bareLast, bare.run cs = some (bareCalls, bareLast) ∧
      (calls.map Call.answer = bareCalls.map Call.answer ↔
        ∀ call ∈ calls, ∀ h, call.command.target = some h → ¬call.before.Stranded h) := by
  have hrel := uncached_run hb cs
  rw [hr] at hrel
  cases hbare : bare.run cs with
  | none =>
    rw [hbare] at hrel
    cases hrel
  | some r =>
    rw [hbare] at hrel
    cases hrel with | some hrel =>
    have hbefore : ∀ call ∈ calls, Faithful E call.before := by
      refine (Run.of_run hr).faithful_before hw hf fun call hm => hs _ ?_
      rw [← Run.commands_of_run hr]
      exact List.mem_map_of_mem hm
    exact ⟨r.1, r.2, rfl, answers_eq_iff hrel.1 hbefore hreads⟩

end Runs

section Main

variable {disk : Store.Disk} {counters : Counters} {log : List Event} {files : Directory}
  {place : String → String} {config : Config}

theorem Database.config_new : (new disk counters log files place config).config = config := by
  rw [new]
  split
  · rfl
  · split <;> rfl

theorem uncached_new : (Database.new disk counters log files place config).Uncached
    (.new disk counters log files place { config with cleanCacheSize := 0 }) where
  config := by rw [Database.config_new, Database.config_new]
  dirty := by rw [Database.dirty_new, Database.dirty_new]
  cleans := by rw [Database.new, if_pos rfl]
  disk := by rw [Database.disk_new, Database.disk_new]

/-- With a clean cache a run gives the same answers as without one, unless it reads a node that is
clean but neither cached nor on disk. Nothing else brings a node into this state than collecting,
which deletes it from disk and leaves it clean. -/
theorem answers_without_cleans (hj : config.journal = none) (hd : disk.table = ∅)
    (hs : ∀ c ∈ cs, c.Caches E) {last : Database}
    (hr : (Database.new disk counters log files place config).run cs = some (calls, last))
    (hreads : ∀ call ∈ calls, call.before.disk.readsFail = false) :
    ∃ bareCalls bareLast,
      (Database.new disk counters log files place { config with cleanCacheSize := 0 }).run cs =
        some (bareCalls, bareLast) ∧
      (calls.map Call.answer = bareCalls.map Call.answer ↔
        ∀ call ∈ calls, ∀ h, call.command.target = some h → ¬call.before.Stranded h) ∧
      ∀ call ∈ calls, ∀ h, call.before.Stranded h → ∃ earlier ∈ calls, earlier.Strands h := by
  obtain ⟨hfaithful, hbacked⟩ := coherent_iff.1 (coherent_new hj hd)
  obtain ⟨bareCalls, bareLast, hbare, hiff⟩ :=
    answers_of_run uncached_new Database.wellFormed_new hfaithful hs hr hreads
  refine ⟨bareCalls, bareLast, hbare, hiff, ?_⟩
  intro call hm h hstranded
  exact (Run.of_run hr).strands_before Database.wellFormed_new (hbacked h) hm hstranded

end Main

/-- A leaf that is not clean when it is deleted from disk. -/
def queueCollectAndReadLeaf : List Command :=
  commitAndQueueLeaf ++ [.collect 1, .readBlob (.fill 0x11)]

theorem caches_leaf (cs : List Command)
    (hi : ∀ c ∈ cs, c.insertion.all fun i => i.2.1 = .collapsed leafNode) :
    ∀ c ∈ cs, c.Caches fun _ => leafNode.encode := by
  intro c hm h content size hc
  have hcontent := hi c hm
  rw [hc, Option.all_some, decide_eq_true_eq] at hcontent
  cases hcontent
  have hdecode : Node.decode leafNode.encode = .ok leafNode := by decide
  exact ⟨rfl, hdecode, List.cons_ne_nil _ _⟩

theorem answers_without_cleans_leaf :
    ∃ calls last bareCalls bareLast,
      (Database.new {} {} [] {} id { cleanCacheSize := 4096 }).run queueCollectAndReadLeaf =
        some (calls, last) ∧
      (Database.new {} {} [] {} id {}).run queueCollectAndReadLeaf = some (bareCalls, bareLast) ∧
      calls.map Call.answer = bareCalls.map Call.answer := by
  have hcheck : ((Database.new {} {} [] {} id { cleanCacheSize := 4096 }).run
      queueCollectAndReadLeaf).any (fun r => r.1.all fun call => !call.before.disk.readsFail &&
        call.command.target.all fun h => !decide (call.before.Stranded h)) := by decide +kernel
  obtain ⟨⟨calls, last⟩, hr, hcheck⟩ := (Option.any_eq_true _ _).1 hcheck
  rw [List.all_eq_true] at hcheck
  have hreads : ∀ call ∈ calls, call.before.disk.readsFail = false := by
    intro call hm
    have hc := hcheck call hm
    rw [Bool.and_eq_true, Bool.not_eq_true'] at hc
    exact hc.1
  have hs := caches_leaf queueCollectAndReadLeaf (by decide +kernel)
  obtain ⟨bareCalls, bareLast, hr', hiff, _⟩ :=
    answers_without_cleans (E := fun _ => leafNode.encode) rfl rfl hs hr hreads
  refine ⟨calls, last, bareCalls, bareLast, hr, hr', hiff.2 ?_⟩
  intro call hm h ht
  have hc := hcheck call hm
  rw [Bool.and_eq_true, ht, Option.all_some] at hc
  exact of_decide_eq_false (Bool.eq_false_of_not_eq_true' hc.2)

/-- A leaf that is read once more before it is deleted from disk is still found afterwards, though
not without a clean cache. -/
theorem blob_found_after_collection :
    (∀ c ∈ commitAndQueueLeaf ++ [.readBlob (.fill 0x11), .collect 1, .readBlob (.fill 0x11)],
      c.Caches fun _ => leafNode.encode) ∧
    ((Database.new {} {} [] {} id { cleanCacheSize := 4096 }).run (commitAndQueueLeaf ++
      [.readBlob (.fill 0x11), .collect 1, .readBlob (.fill 0x11)])).map
        (fun r => r.1.getLast?.bind Call.answer) = some (some (.blob (.ok leafNode.encode))) ∧
    ((Database.new {} {} [] {} id {}).run (commitAndQueueLeaf ++
      [.readBlob (.fill 0x11), .collect 1, .readBlob (.fill 0x11)])).map
        (fun r => r.1.getLast?.bind Call.answer) =
          some (some (.blob (.error (.notFound (.fill 0x11))))) := by
  refine ⟨caches_leaf _ (by decide +kernel), by decide +kernel, by decide +kernel⟩

end TrieCache
