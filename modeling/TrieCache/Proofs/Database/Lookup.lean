import TrieCache.Database.Lookup
import TrieCache.Proofs.Database.Flush

namespace TrieCache.Database

variable {db db' db'' : Database} {h : Hash}

/-- `db'` is `db` after something has been read. -/
structure Reads (db db' : Database) : Prop where
  dirty : db'.dirty = db.dirty
  disk : db'.disk = db.disk
  config : db'.config = db.config
  cleans : ∀ k v, db'.clean? k = some v →
    db.clean? k = some v ∨ db.disk.table[Store.nodeKey k]? = some v

namespace Reads

theorem of_cleans (hd : db'.dirty = db.dirty) (hk : db'.disk = db.disk)
    (hconfig : db'.config = db.config) (hc : db'.cleans = db.cleans) : Reads db db' where
  dirty := hd
  disk := hk
  config := hconfig
  cleans k v hv := by
    rw [clean?, hc] at hv
    exact .inl hv

theorem trans (h₁ : Reads db db') (h₂ : Reads db' db'') : Reads db db'' where
  dirty := h₂.dirty.trans h₁.dirty
  disk := h₂.disk.trans h₁.disk
  config := h₂.config.trans h₁.config
  cleans k v hv := by
    rcases h₂.cleans k v hv with hv | hv
    · exact h₁.cleans k v hv
    · rw [h₁.disk] at hv
      exact .inr hv

theorem lookupClean (db : Database) (h : Hash) : Reads db (db.lookupClean h).2 := by
  rw [Database.lookupClean]
  split
  · exact .of_cleans rfl rfl rfl rfl
  · next cleans hc =>
    have hget : ∀ k v, (cleans.get h).2.find? k = some v → db.clean? k = some v := by
      intro k v hv
      rw [clean?, hc]
      exact Clean.Cache.find?_get hv
    dsimp only
    split
    · exact ⟨rfl, rfl, rfl, fun k v hv => .inl (hget k v hv)⟩
    · exact ⟨rfl, rfl, rfl, fun k v hv => .inl (hget k v hv)⟩

theorem lookupDirty (db : Database) (h : Hash) : Reads db (db.lookupDirty h).2 := by
  rw [Database.lookupDirty]
  split
  · exact .of_cleans rfl rfl rfl rfl
  · exact .of_cleans rfl rfl rfl rfl

theorem fillClean {encoded : Bytes} (hs : db.disk.table[Store.nodeKey h]? = some encoded) :
    Reads db (db.fillClean h encoded) := by
  rw [Database.fillClean]
  split
  · exact .of_cleans rfl rfl rfl rfl
  · next cleans hc =>
    refine ⟨rfl, rfl, rfl, ?_⟩
    intro k v hv
    rcases Clean.Cache.find?_set hv with ⟨rfl, rfl⟩ | hv
    · exact .inr hs
    · rw [clean?, hc]
      exact .inl hv

end Reads

theorem read_eq (d : Store.Disk) (key : Bytes) (c : Counters) (hr : d.readsFail = false) :
    (d.read key c).1 = .ok d.table[key]? := by
  rw [Store.Disk.read, hr, if_neg Bool.false_ne_true, Store.Table.read]
  cases d.table[key]? <;> rfl

theorem get_of_read {d : Store.Disk} {key : Bytes} {c : Counters} {found : Option Bytes}
    (hf : (d.read key c).1 = .ok found) : d.table[key]? = found := by
  cases hr : d.readsFail with
  | false =>
    rw [read_eq d key c hr] at hf
    cases hf
    rfl
  | true =>
    rw [Store.Disk.read, hr, if_pos rfl] at hf
    cases hf

theorem Reads.lookupDisk (db : Database) (h : Hash) : Reads db (db.lookupDisk h).2 := by
  rw [Database.lookupDisk]
  dsimp only
  split
  · exact .of_cleans rfl rfl rfl rfl
  · exact .of_cleans rfl rfl rfl rfl
  · next encoded hf =>
    split
    · exact .of_cleans rfl rfl rfl rfl
    · have hs : db.disk.table[Store.nodeKey h]? = some encoded := get_of_read hf
      let counted := { db with counters := (db.disk.read (Store.nodeKey h) db.counters).2 }
      have hc : Reads db counted := .of_cleans rfl rfl rfl rfl
      have hf : Reads counted (counted.fillClean h encoded) := .fillClean hs
      exact hc.trans hf

theorem Reads.lookup (db : Database) (h : Hash) : Reads db (db.lookup h).2 := by
  have h₁ := lookupClean db h
  rw [Database.lookup]
  split
  · exact .of_cleans rfl rfl rfl rfl
  split
  · next db₁ he =>
    rw [he] at h₁
    exact h₁
  · next db₁ he =>
    rw [he] at h₁
    have h₂ := lookupDirty db₁ h
    split
    · next db₂ he =>
      rw [he] at h₂
      exact h₁.trans h₂
    · next db₂ he =>
      rw [he] at h₂
      have h₃ := h₂.trans (lookupDisk db₂ h)
      split
      all_goals
        next he =>
        rw [he] at h₃
        exact h₁.trans h₃

theorem Reads.preimage (db : Database) (h : Hash) : Reads db (db.preimage h).2 := by
  rw [Database.preimage]
  split
  · exact .of_cleans rfl rfl rfl rfl
  · split <;> exact .of_cleans rfl rfl rfl rfl

section Results

theorem lookupClean_fst (db : Database) (h : Hash) : (db.lookupClean h).1 = db.clean? h := by
  rw [lookupClean, clean?]
  cases db.cleans with
  | none => rfl
  | some cleans =>
    change _ = (cleans.get h).1
    dsimp only
    cases (cleans.get h).1 <;> rfl

theorem lookupDirty_fst (db : Database) (h : Hash) :
    (db.lookupDirty h).1 = db.dirty.records[h]? := by
  rw [lookupDirty]
  cases db.dirty.records[h]? <;> rfl

theorem lookupDisk_fst (db : Database) (h : Hash) (hr : db.disk.readsFail = false) :
    (db.lookupDisk h).1 =
      .ok (db.disk.table[Store.nodeKey h]?.filter fun encoded => !encoded.isEmpty) := by
  have hf := read_eq db.disk (Store.nodeKey h) db.counters hr
  rw [lookupDisk]
  cases hread : db.disk.read (Store.nodeKey h) db.counters with
  | mk found counters =>
    rw [hread] at hf
    cases hf
    cases db.disk.table[Store.nodeKey h]? with
    | none => rfl
    | some encoded => cases encoded <;> rfl

theorem lookup_fst (db : Database) (h : Hash) (hz : h ≠ Hash.zero)
    (hr : db.disk.readsFail = false) :
    (db.lookup h).1 =
      match db.clean? h, db.dirty.records[h]?,
        db.disk.table[Store.nodeKey h]?.filter fun encoded => !encoded.isEmpty with
      | some encoded, _, _ => .ok (.stored encoded)
      | none, some r, _ => .ok (.cached r)
      | none, none, some encoded => .ok (.stored encoded)
      | none, none, none => .error (.notFound h) := by
  have hz' : h.isZero = false := decide_eq_false hz
  have h₁ := lookupClean_fst db h
  have hr₁ := Reads.lookupClean db h
  rw [lookup, hz', if_neg Bool.false_ne_true]
  cases hclean : db.lookupClean h with
  | mk found db₁ =>
    rw [hclean] at h₁ hr₁
    rw [← h₁]
    cases found with
    | some encoded => rfl
    | none =>
      have h₂ := lookupDirty_fst db₁ h
      have hr₂ := hr₁.trans (Reads.lookupDirty db₁ h)
      rw [hr₁.dirty] at h₂
      dsimp only
      cases hdirty : db₁.lookupDirty h with
      | mk found db₂ =>
        rw [hdirty] at h₂ hr₂
        rw [← h₂]
        cases found with
        | some r => rfl
        | none =>
          have h₃ := lookupDisk_fst db₂ h (by rw [hr₂.disk, hr])
          rw [hr₂.disk] at h₃
          dsimp only
          cases hdisk : db₂.lookupDisk h with
          | mk found db₃ =>
            rw [hdisk] at h₃
            cases h₃
            cases db.disk.table[Store.nodeKey h]?.filter fun encoded => !encoded.isEmpty <;> rfl

end Results

end TrieCache.Database
