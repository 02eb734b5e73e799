import TrieCache.Database.Basic
import TrieCache.Proofs.Clean.Cache
import TrieCache.Proofs.Dirty.WellFormed
import TrieCache.Proofs.Store.Writer

namespace TrieCache.Store

variable {h k : Hash} {v preimage : Bytes}

theorem nodeKey_injective (he : nodeKey h = nodeKey k) : h = k :=
  Hash.eq_of_bytes he

theorem putNode_inj {v' : Bytes} (he : putNode h v = putNode k v') : h = k ∧ v = v' := by
  rw [putNode, putNode, Op.put.injEq] at he
  exact ⟨nodeKey_injective he.1, he.2⟩

theorem preimageKey_injective (he : preimageKey h = preimageKey k) : h = k :=
  Hash.eq_of_bytes (List.append_cancel_left he)

theorem nodeKey_ne_preimageKey : nodeKey h ≠ preimageKey k := by
  intro he
  have hk := congrArg List.length he
  rw [nodeKey, h.length_bytes, length_preimageKey] at hk
  exact absurd hk (by decide)

theorem putNode_ne_putPreimage : putNode h v ≠ putPreimage k preimage :=
  fun he => nodeKey_ne_preimageKey (congrArg Op.key he)

end TrieCache.Store

namespace TrieCache.Dirty

variable {d : Dirty} {arrangement : Arrangement} {h : Hash} {p : Bytes}

def remembered (d : Dirty) (h : Hash) : Option Bytes := d.preimages.bind fun m => m[h]?

theorem mem_preimageList : (h, p) ∈ d.preimageList arrangement ↔ d.remembered h = some p := by
  rw [preimageList, remembered]
  cases d.preimages with
  | none => exact iff_of_false List.not_mem_nil (Option.some_ne_none p).symm
  | some preimages =>
    dsimp only
    rw [List.mem_filterMap, Option.bind_some]
    constructor
    · rintro ⟨k, _, hk⟩
      obtain ⟨q, hq, he⟩ := Option.map_eq_some_iff.1 hk
      cases he
      exact hq
    · intro hp
      refine ⟨h, ?_, by rw [hp, Option.map_some]⟩
      rw [(arrangement.perm _ _).mem_iff, Std.ExtTreeMap.mem_keys,
        ← Std.ExtTreeMap.contains_iff_mem]
      exact Map.contains_of_get hp

theorem nodup_preimageList (d : Dirty) (arrangement : Arrangement) :
    ((d.preimageList arrangement).map Prod.fst).Nodup := by
  rw [preimageList]
  cases d.preimages with
  | none => exact List.nodup_nil
  | some preimages =>
    have hperm := arrangement.perm .preimages preimages.keys
    have hkeys : ∀ k ∈ arrangement.arrange .preimages preimages.keys, preimages.contains k := by
      intro k hk
      rw [hperm.mem_iff, Std.ExtTreeMap.mem_keys] at hk
      exact Std.ExtTreeMap.contains_iff_mem.2 hk
    have hfst := Map.map_fst_lookups id hkeys
    dsimp only [id] at hfst ⊢
    rw [hfst, hperm.nodup_iff]
    exact Std.ExtTreeMap.nodup_keys

end TrieCache.Dirty

namespace TrieCache.Database

open Store (Op)

/-- Of what the disk holds just `ops` have changed it. -/
structure Stores (db db' : Database) (ops : List Op) : Prop where
  table : db'.disk.table = ops.foldl Store.Table.apply db.disk.table
  readsFail : db'.disk.readsFail = db.disk.readsFail

def clean? (db : Database) (h : Hash) : Option Bytes := db.cleans.bind (·.find? h)

def Owned (d : Dirty) (op : Op) : Prop :=
  (∃ h preimage, op = Store.putPreimage h preimage) ∨
    ∃ h r, h ≠ Hash.zero ∧ d.records[h]? = some r ∧ op = Store.putNode h r.encoded

/-- Of the preimages and the cached nodes `ops` have been written. -/
structure Flushes (db db' : Database) (ops : List Op) : Prop where
  trims : db.dirty.Trims db'.dirty
  useless : db'.dirty.useless = db.dirty.useless
  stores : Stores db db' ops
  owned : ∀ op ∈ ops, Owned db.dirty op
  written : ∀ k r, db.dirty.records[k]? = some r → db'.dirty.records.contains k = false →
    Store.putNode k r.encoded ∈ ops
  cleans : ∀ k v, db'.clean? k = some v → db.clean? k = some v ∨ Store.putNode k v ∈ ops
  config : db'.config = db.config

def preimagePuts (d : Dirty) (arrangement : Dirty.Arrangement) : List Op :=
  (d.preimageList arrangement).map fun p => Store.putPreimage p.1 p.2

variable {db db' : Database} {w : Store.Writer} {ops refused : List Op}
  {arrangement : Dirty.Arrangement}

theorem mem_preimagePuts_iff {d : Dirty} {op : Op} : op ∈ preimagePuts d arrangement ↔
    ∃ h p, d.remembered h = some p ∧ Store.putPreimage h p = op := by
  rw [preimagePuts, List.mem_map, Prod.exists]
  simp only [Dirty.mem_preimageList]

theorem owned_of_preimagePuts {d : Dirty} {op : Op} (ho : op ∈ preimagePuts d arrangement)
    (d' : Dirty) : Owned d' op := by
  obtain ⟨p, _, rfl⟩ := List.mem_map.1 ho
  exact .inl ⟨p.1, p.2, rfl⟩

theorem Owned.node {d : Dirty} {h : Hash} {v : Bytes} (ho : Owned d (Store.putNode h v)) :
    h ≠ Hash.zero ∧ ∃ r, d.records[h]? = some r ∧ v = r.encoded := by
  rcases ho with ⟨k, preimage, he⟩ | ⟨k, r, hz, hr, he⟩
  · exact absurd he Store.putNode_ne_putPreimage
  · obtain ⟨rfl, rfl⟩ := Store.putNode_inj he
    exact ⟨hz, r, hr, rfl⟩

theorem Stores.of_wrote (hw : Store.Writer.Wrote ops refused (.start db.disk db.counters) w)
    (hd : db'.disk = w.disk) : Stores db db' ops :=
  ⟨hd ▸ hw.table, hd ▸ hw.readsFail⟩

theorem Stores.append {disk : Store.Disk} {counters : Counters} {ops' : List Op}
    (hs : Stores db { db with disk } ops)
    (hw : Store.Writer.Wrote ops' refused (.start disk counters) w) :
    Stores db { db with disk := w.disk } (ops ++ ops') where
  table := by
    rw [List.foldl_append, ← hs.table]
    exact hw.table
  readsFail := hw.readsFail.trans hs.readsFail

theorem Flushes.of_dirty_eq (hd : db'.dirty = db.dirty) (hcleans : db'.cleans = db.cleans)
    (hconfig : db'.config = db.config) (hs : Stores db db' ops)
    (ho : ∀ op ∈ ops, Owned db.dirty op) : Flushes db db' ops where
  trims := hd ▸ .refl _
  useless := hd ▸ rfl
  stores := hs
  owned := ho
  written k r hr hc := by
    rw [hd, Map.contains_eq_false_iff, hr] at hc
    cases hc
  cleans k v hk := by
    rw [clean?, hcleans] at hk
    exact .inl hk
  config := hconfig

theorem trims_clearPreimages (d : Dirty) : d.Trims d.clearPreimages := by
  rw [Dirty.clearPreimages]
  split <;> exact .of_eq rfl rfl rfl rfl rfl fun _ hk => hk

theorem useless_clearPreimages (d : Dirty) : d.clearPreimages.useless = d.useless := by
  rw [Dirty.clearPreimages]
  split <;> rfl

theorem records_clearPreimages (d : Dirty) : d.clearPreimages.records = d.records := by
  rw [Dirty.clearPreimages]
  split <;> rfl

end TrieCache.Database
