import TrieCache.Proofs.Database.Cap
import TrieCache.Proofs.Database.Commit
import TrieCache.Proofs.Database.Lookup
import TrieCache.Proofs.Database.Sweep

namespace TrieCache

/-- How the disk fails from now on. -/
structure Faults where
  writesLeft : Option Nat := none
  putsLeft : Option Nat := none
  readsFail : Bool := false
  backendFails : Bool := false

def Store.Disk.arm (d : Store.Disk) (f : Faults) : Store.Disk :=
  { d with
    writesLeft := f.writesLeft
    putsLeft := f.putsLeft
    readsFail := f.readsFail
    backendFails := f.backendFails }

/-- A call. The order in which hash tables are gone through and what the clock shows meanwhile are
not chosen by the caller. -/
inductive Command
  | insert (h : Hash) (size : Nat) (node : Node)
  | insertBlob (h : Hash) (blob : Bytes)
  | insertNode (node : Node)
  | insertPreimage (h : Hash) (preimage : Bytes)
  | reference (child parent : Hash)
  | stamp (root : Hash) (order : Dirty.Arrangement := .ascending) (elapsed : Duration := 0)
  | nextVersion
  | dereference (root : Hash) (order : Dirty.Arrangement := .ascending)
      (clock : List Duration := [])
  | dereferenceStored (root : Hash) (order : Dirty.Arrangement := .ascending)
      (clock : List Duration := [])
  | collect (count : Nat) (order : Dirty.Arrangement := .ascending)
  | forgetUseless
  | cap (limit : Nat) (order : Dirty.Arrangement := .ascending)
  | commit (root : Hash) (report uncache : Bool) (order : Dirty.Arrangement := .ascending)
  | readNode (h : Hash)
  | readBlob (h : Hash)
  | readPreimage (h : Hash)
  | arm (faults : Faults)

namespace Command

/-- What is left of the database; nothing if a sweep never ends. -/
def exec (db : Database) : Command → Option Database
  | insert h size node => some (db.insert h size node)
  | insertBlob h blob => some (db.insertBlob h blob)
  | insertNode node => some (db.insertNode node).2
  | insertPreimage h preimage => some (db.insertPreimage h preimage)
  | reference child parent => some (db.reference child parent)
  | stamp root order elapsed => some (db.stamp order elapsed root)
  | nextVersion => some db.nextVersion
  | dereference root order clock => (db.dereference order clock root).map Prod.snd
  | dereferenceStored root order clock => (db.dereferenceStored order clock root).map Prod.snd
  | collect count order => some (db.collect order count).2
  | forgetUseless => some db.forgetUseless
  | cap limit order => some (db.cap order limit).2
  | commit root report uncache order => some (db.commit order root report uncache).2
  | readNode h => some (db.node h).2
  | readBlob h => some (db.blob h).2
  | readPreimage h => some (db.preimage h).2
  | arm faults => some { db with disk := db.disk.arm faults }

def insertion : Command → Option (Hash × Dirty.Content × Nat)
  | insert h size node => some (h, .collapsed node, size)
  | insertBlob h blob => some (h, .raw blob, blob.length)
  | insertNode node => some (.keccak node.encode, .collapsed node, node.encode.length)
  | _ => none

end Command

/-- A call, and the state it is made in. -/
structure Call where
  before : Database
  command : Command

/-- The hash under which a call caches a node that is not cached yet. -/
def Call.inserted (c : Call) : Option Hash :=
  (c.command.insertion.map Prod.fst).filter fun h => !c.before.dirty.records.contains h

/-- The calls that lead from one state to another. -/
inductive Run (start : Database) : List Call → Database → Prop
  | nil : Run start [] start
  | snoc {calls : List Call} {db db' : Database} {c : Command} : Run start calls db →
    c.exec db = some db' → Run start (calls ++ [⟨db, c⟩]) db'

def Database.run (db : Database) : List Command → Option (List Call × Database)
  | [] => some ([], db)
  | c :: cs => do
    let db' ← c.exec db
    let (calls, last) ← run db' cs
    some (⟨db, c⟩ :: calls, last)

namespace Dirty

/-- What a command makes of the cached nodes. -/
inductive Effect (d : Dirty) (c : Command) : Dirty → Prop
  | inserted {h : Hash} {content : Content} {size : Nat} :
    c.insertion = some (h, content, size) → Effect d c (d.insert h content size)
  | referenced {child parent : Hash} :
    c = .reference child parent → Effect d c (d.reference child parent)
  | stamped {root : Hash} {arrangement : Arrangement} {elapsed : Duration} :
    c = .stamp root arrangement elapsed → Effect d c (d.stamp arrangement root)
  | versioned : c = .nextVersion → Effect d c d.nextVersion
  | trimmed {d' : Dirty} : c.insertion = none → d.Trims d' → Effect d c d'

end Dirty

variable {db db' start : Database} {c : Command} {calls : List Call} {order : List Hash}

theorem Database.dirty_insertContent (db : Database) (h : Hash) (content : Dirty.Content)
    (size : Nat) : (db.insertContent h content size).dirty = db.dirty.insert h content size := by
  rw [insertContent, Dirty.insert]
  split <;> rfl

theorem Database.disk_insertContent (db : Database) (h : Hash) (content : Dirty.Content)
    (size : Nat) : (db.insertContent h content size).disk = db.disk := by
  rw [insertContent]
  split <;> rfl

theorem Database.cleans_insertContent (db : Database) (h : Hash) (content : Dirty.Content)
    (size : Nat) : (db.insertContent h content size).cleans = db.cleans := by
  rw [insertContent]
  split <;> rfl

theorem Database.disk_reference (db : Database) (child parent : Hash) :
    (db.reference child parent).disk = db.disk := by
  rw [reference]
  split <;> rfl

theorem Database.disk_stamp (db : Database) (arrangement : Dirty.Arrangement)
    (elapsed : Duration) (root : Hash) : (db.stamp arrangement elapsed root).disk = db.disk := by
  rw [stamp]
  split <;> rfl

theorem Database.cleans_reference (db : Database) (child parent : Hash) :
    (db.reference child parent).cleans = db.cleans := by
  rw [reference]
  split <;> rfl

theorem Database.cleans_stamp (db : Database) (arrangement : Dirty.Arrangement)
    (elapsed : Duration) (root : Hash) :
    (db.stamp arrangement elapsed root).cleans = db.cleans := by
  rw [stamp]
  split <;> rfl

theorem Database.dirty_reference (db : Database) (child parent : Hash) :
    (db.reference child parent).dirty = db.dirty.reference child parent := by
  rw [reference]
  split <;> rfl

theorem Database.dirty_stamp (db : Database) (arrangement : Dirty.Arrangement)
    (elapsed : Duration) (root : Hash) :
    (db.stamp arrangement elapsed root).dirty = db.dirty.stamp arrangement root := by
  rw [stamp]
  split <;> rfl

theorem Dirty.trims_insertPreimage (d : Dirty) (h : Hash) (preimage : Bytes) :
    d.Trims (d.insertPreimage h preimage) := by
  rw [insertPreimage]
  split
  · exact .refl d
  split
  · exact .refl d
  · exact .of_eq rfl rfl rfl rfl rfl fun _ hk => hk

theorem Dirty.records_insertPreimage (d : Dirty) (h : Hash) (preimage : Bytes) :
    (d.insertPreimage h preimage).records = d.records := by
  rw [insertPreimage]
  split
  · rfl
  · split <;> rfl

theorem Dirty.fresh_insertPreimage (d : Dirty) (h : Hash) (preimage : Bytes) :
    (d.insertPreimage h preimage).fresh = d.fresh := by
  rw [insertPreimage]
  split
  · rfl
  · split <;> rfl

/-- The records and the fresh nodes are what they were, and so are the clean cache and what is on
disk. -/
structure Database.Keeps (db db' : Database) : Prop where
  trims : db.dirty.Trims db'.dirty
  records : db'.dirty.records = db.dirty.records
  fresh : db'.dirty.fresh = db.dirty.fresh
  cleans : db'.cleans = db.cleans
  table : db'.disk.table = db.disk.table

/-- Of the nodes, the clean cache and the disk a command changes just this. -/
inductive Database.Effect (db : Database) (c : Command) : Database → Prop
  | inserted {h : Hash} {content : Dirty.Content} {size : Nat} :
    c.insertion = some (h, content, size) → Effect db c (db.insertContent h content size)
  | referenced {child parent : Hash} :
    c = .reference child parent → Effect db c (db.reference child parent)
  | stamped {root : Hash} {arrangement : Dirty.Arrangement} {elapsed : Duration} :
    c = .stamp root arrangement elapsed → Effect db c (db.stamp arrangement elapsed root)
  | versioned : c = .nextVersion → Effect db c db.nextVersion
  | pruned {root : Hash} {arrangement : Dirty.Arrangement} {clock : List Duration}
      {dropped : List Hash} {db' : Database} :
    c = .dereference root arrangement clock ∨ c = .dereferenceStored root arrangement clock →
      Prunes db db' dropped → Effect db c db'
  | collected {count : Nat} {arrangement : Dirty.Arrangement} :
    c = .collect count arrangement → Effect db c (db.collect arrangement count).2
  | capped {limit : Nat} {arrangement : Dirty.Arrangement} :
    c = .cap limit arrangement → Effect db c (db.cap arrangement limit).2
  | committed {root : Hash} {report uncache : Bool} {arrangement : Dirty.Arrangement} :
    c = .commit root report uncache arrangement →
      Effect db c (db.commit arrangement root report uncache).2
  | looked {db' : Database} : c.insertion = none → Reads db db' → Effect db c db'
  | untouched {db' : Database} : c.insertion = none → Keeps db db' → Effect db c db'

/-- Every command has one of these effects; nothing else is used of what commands do. -/
theorem Command.effect (he : c.exec db = some db') : db.Effect c db' := by
  cases c with
  | insert h size node =>
    cases he
    exact .inserted rfl
  | insertBlob h blob =>
    cases he
    exact .inserted rfl
  | insertNode node =>
    cases he
    exact .inserted rfl
  | insertPreimage h preimage =>
    cases he
    exact .untouched rfl ⟨Dirty.trims_insertPreimage .., Dirty.records_insertPreimage ..,
      Dirty.fresh_insertPreimage .., rfl, rfl⟩
  | reference child parent =>
    cases he
    exact .referenced rfl
  | stamp root arrangement elapsed =>
    cases he
    exact .stamped rfl
  | nextVersion =>
    cases he
    exact .versioned rfl
  | dereference root arrangement clock =>
    obtain ⟨⟨result, db₁⟩, hd, rfl⟩ := Option.map_eq_some_iff.1 he
    obtain ⟨_, hp, _⟩ := Database.prunes_of_dereference hd
    exact .pruned (.inl rfl) hp
  | dereferenceStored root arrangement clock =>
    obtain ⟨⟨result, db₁⟩, hd, rfl⟩ := Option.map_eq_some_iff.1 he
    obtain ⟨_, hp, _⟩ := Database.prunes_of_dereferenceStored hd
    exact .pruned (.inr rfl) hp
  | collect count arrangement =>
    cases he
    exact .collected rfl
  | forgetUseless =>
    cases he
    exact .untouched rfl ⟨.of_eq rfl rfl rfl rfl rfl fun _ hk => hk, rfl, rfl, rfl, rfl⟩
  | cap limit arrangement =>
    cases he
    exact .capped rfl
  | commit root report uncache arrangement =>
    cases he
    exact .committed rfl
  | readNode h =>
    cases he
    exact .looked rfl (.lookup db h)
  | readBlob h =>
    cases he
    exact .looked rfl (.lookup db h)
  | readPreimage h =>
    cases he
    exact .looked rfl (.preimage db h)
  | arm faults =>
    cases he
    exact .untouched rfl ⟨.refl db.dirty, rfl, rfl, rfl, rfl⟩

theorem Database.Effect.dirty (hw : db.dirty.WellFormed order) (he : db.Effect c db') :
    db.dirty.Effect c db'.dirty := by
  cases he with
  | inserted hi =>
    rw [dirty_insertContent]
    exact .inserted hi
  | referenced hc =>
    rw [dirty_reference]
    exact .referenced hc
  | stamped hc =>
    rw [dirty_stamp]
    exact .stamped hc
  | versioned hc => exact .versioned hc
  | pruned hc hp =>
    have hi : c.insertion = none := by rcases hc with rfl | rfl <;> rfl
    exact .trimmed hi hp.trims
  | collected hc => exact .trimmed (hc ▸ rfl) (db.trims_collect _ _)
  | capped hc =>
    obtain ⟨_, hf⟩ := flushes_of_cap hw rfl
    exact .trimmed (hc ▸ rfl) hf.trims
  | committed hc =>
    obtain ⟨_, hf⟩ := flushes_of_commit hw rfl
    exact .trimmed (hc ▸ rfl) hf.trims
  | looked hi hr => exact .trimmed hi (hr.dirty ▸ .refl db.dirty)
  | untouched hi hkeeps => exact .trimmed hi hkeeps.trims

namespace Run

theorem cons {last : Database} (he : c.exec db = some db') (hr : Run db' calls last) :
    Run db (⟨db, c⟩ :: calls) last := by
  induction hr with
  | nil =>
    have hone : Run db ([] ++ [⟨db, c⟩]) db' := .snoc .nil he
    exact hone
  | snoc _ he' ih => exact .snoc ih he'

theorem trans {calls' : List Call} (h₁ : Run start calls db) (h₂ : Run db calls' db') :
    Run start (calls ++ calls') db' := by
  induction h₂ with
  | nil =>
    rw [List.append_nil]
    exact h₁
  | snoc _ he ih =>
    rw [← List.append_assoc]
    exact .snoc ih he

theorem prior {call : Call} (hr : Run start calls db) (hm : call ∈ calls) :
    ∃ prior, Run start prior call.before ∧ prior ⊆ calls := by
  induction hr with
  | nil => cases hm
  | snoc hr _ ih =>
    rcases List.mem_append.1 hm with hm | hm
    · obtain ⟨prior, hprior, hsubset⟩ := ih hm
      exact ⟨prior, hprior, fun _ hm => List.mem_append_left _ (hsubset hm)⟩
    · rw [List.mem_singleton.1 hm]
      exact ⟨_, hr, List.subset_append_left _ _⟩

/-- A run can be taken apart at each of its calls. -/
theorem split {early late : List Call} {call : Call} (hr : Run start (early ++ call :: late) db) :
    Run start early call.before ∧
      ∃ next, call.command.exec call.before = some next ∧ Run next late db := by
  generalize hcalls : early ++ call :: late = calls at hr
  induction hr generalizing late with
  | nil => cases (List.append_eq_nil_iff.1 hcalls).2
  | @snoc _ _ db' _ hr he ih =>
    rcases List.eq_nil_or_concat' late with rfl | ⟨late, last, rfl⟩
    · obtain ⟨rfl, hlast⟩ := List.append_inj' hcalls rfl
      cases hlast
      exact ⟨hr, db', he, .nil⟩
    · rw [← List.cons_append, ← List.append_assoc] at hcalls
      obtain ⟨hbut, hlast⟩ := List.append_inj' hcalls rfl
      cases hlast
      obtain ⟨hearly, next, hnext, hlate⟩ := ih hbut
      exact ⟨hearly, next, hnext, .snoc hlate he⟩

/-- What is computed by making the calls is a run. -/
theorem of_run {cs : List Command} {last : Database} (hr : db.run cs = some (calls, last)) :
    Run db calls last := by
  induction cs generalizing db calls with
  | nil =>
    cases hr
    exact .nil
  | cons c cs ih =>
    rw [Database.run, Option.bind_eq_bind, Option.bind_eq_some_iff] at hr
    obtain ⟨db', he, hr⟩ := hr
    rw [Option.bind_eq_bind, Option.bind_eq_some_iff] at hr
    obtain ⟨⟨rest, last'⟩, hr, hl⟩ := hr
    cases hl
    exact .cons he (ih hr)

theorem commands_of_run {cs : List Command} {last : Database}
    (hr : db.run cs = some (calls, last)) : calls.map Call.command = cs := by
  induction cs generalizing db calls with
  | nil =>
    cases hr
    rfl
  | cons c cs ih =>
    rw [Database.run, Option.bind_eq_bind, Option.bind_eq_some_iff] at hr
    obtain ⟨db', he, hr⟩ := hr
    rw [Option.bind_eq_bind, Option.bind_eq_some_iff] at hr
    obtain ⟨⟨rest, last'⟩, hr, hl⟩ := hr
    cases hl
    exact congrArg (c :: ·) (ih hr)

end Run

end TrieCache
