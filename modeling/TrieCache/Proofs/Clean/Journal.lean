import TrieCache.Proofs.Clean.Recency
import TrieCache.Proofs.Directory

namespace TrieCache

namespace Varint

theorem decodeGroups_encode {n room : Nat} (hn : n < 128 ^ (room + 1)) (rest : Bytes) :
    decodeGroups (room + 1) (encode n ++ rest) = .ok (n, rest) := by
  induction n using encode.induct generalizing room with
  | case1 n hlow =>
    have hb : n.toUInt8.toNat = n := by
      rw [Nat.toUInt8, UInt8.toNat_ofNat']
      omega
    have hlast : n.toUInt8 < 128 := by
      rw [UInt8.lt_iff_toNat_lt, hb]
      exact hlow
    rw [encode, if_pos hlow, List.singleton_append, decodeGroups, if_pos hlast, hb]
  | case2 n hlow ih =>
    have hb : (n % 128 + 128).toUInt8.toNat = n % 128 + 128 := by
      rw [Nat.toUInt8, UInt8.toNat_ofNat']
      omega
    have hmore : ¬ (n % 128 + 128).toUInt8 < 128 := by
      rw [UInt8.lt_iff_toNat_lt, hb]
      exact Nat.not_lt.2 (Nat.le_add_left _ _)
    cases room with
    | zero => omega
    | succ room =>
      have hhigh : n / 128 < 128 ^ (room + 1) := by
        rw [Nat.pow_succ] at hn
        omega
      rw [encode, if_neg hlow, List.cons_append, decodeGroups, if_neg hmore, ih hhigh, hb]
      change Except.ok (n % 128 + 128 - 128 + 128 * (n / 128), rest) = _
      rw [Nat.add_sub_cancel, Nat.mod_add_div]

theorem decode_encode {bits n : Nat} (hb : 0 < bits) (hn : n < 2 ^ bits) (rest : Bytes) :
    decode bits (encode n ++ rest) = .ok (n, rest) := by
  obtain ⟨room, hroom⟩ : ∃ room, (bits + 6) / 7 = room + 1 := ⟨(bits - 1) / 7, by omega⟩
  have hpow : n < 128 ^ (room + 1) := by
    refine hn.trans_le ?_
    rw [show 128 = 2 ^ 7 from rfl, ← Nat.pow_mul]
    exact Nat.pow_le_pow_right (by decide) (by omega)
  rw [decode, hroom, decodeGroups_encode hpow]
  change (if n < 1 <<< bits then Except.ok (n, rest) else _) = _
  rw [if_pos (by rwa [Nat.one_shiftLeft])]

end Varint

namespace Clean

namespace Journal

variable {e : Entry} {entries : List Entry}

theorem decodeHash_bytes (h : Hash) (rest : Bytes) :
    decodeHash (h.bytes ++ rest) = .ok (h, rest) := by
  have ht : (h.bytes ++ rest).take 32 = h.bytes := List.take_left' h.length_bytes
  have hd : (h.bytes ++ rest).drop 32 = rest := List.drop_left' h.length_bytes
  rw [decodeHash, dif_pos (by rw [ht, h.length_bytes])]
  congr 2
  exact Hash.eq_of_bytes ht

theorem decodeEntry_encode (he : e.2.length < 2 ^ 64) (rest : Bytes) :
    decodeEntry (e.1.bytes ++ Varint.encode e.2.length ++ e.2 ++ rest) = .ok (e, rest) := by
  rw [decodeEntry, List.append_assoc, List.append_assoc, decodeHash_bytes]
  change (decodeNumber 64 (Varint.encode e.2.length ++ (e.2 ++ rest)) >>= _) = _
  rw [decodeNumber, Varint.decode_encode (by decide) he]
  change (if ((e.2 ++ rest).take e.2.length).length = e.2.length then _ else _) = _
  rw [List.take_left, List.drop_left, if_pos rfl]

theorem decodeEntries_encode (he : ∀ e ∈ entries, e.2.length < 2 ^ 64) {size : Nat}
    (hs : entries.length < size) :
    decodeEntries size (entries.flatMap encodeEntry ++ [endTag]) = .ok entries := by
  induction entries generalizing size with
  | nil =>
    obtain ⟨size, rfl⟩ := Nat.exists_eq_add_of_lt hs
    rfl
  | cons e entries ih =>
    obtain ⟨hhead, htail⟩ := List.forall_mem_cons.1 he
    cases size with
    | zero => cases hs
    | succ size =>
      rw [List.flatMap_cons, encodeEntry, List.append_assoc, List.cons_append, decodeEntries,
        if_neg (by decide), if_pos rfl, decodeEntry_encode hhead]
      change (decodeEntries size _ >>= _) = _
      rw [ih htail (Nat.lt_of_succ_lt_succ hs)]
      rfl

theorem length_le_flatMap_encodeEntry (entries : List Entry) :
    entries.length ≤ (entries.flatMap encodeEntry).length := by
  induction entries with
  | nil => exact Nat.le_refl _
  | cons e entries ih =>
    rw [List.flatMap_cons, List.length_append, encodeEntry, List.length_cons, List.length_cons]
    omega

/-- The journal of any entries is read as these entries. -/
theorem decode_encode (he : ∀ e ∈ entries, e.2.length < 2 ^ 64) :
    decode (encode entries) = .ok entries := by
  have hlen := length_le_flatMap_encodeEntry entries
  rw [decode, encode, List.append_assoc, List.append_assoc, List.take_left, List.drop_left,
    if_neg (Nat.lt_irrefl _), if_neg (not_not_intro rfl), decodeNumber,
    Varint.decode_encode (by decide) (by decide)]
  change decodeEntries (entries.flatMap encodeEntry ++ [endTag]).length _ = _
  refine decodeEntries_encode he ?_
  rw [List.length_append, List.length_singleton]
  omega

end Journal

namespace Cache

variable {c : Cache} {maxBytes maxBytes' n : Nat} {files files' : Directory} {path : String}

theorem length_lt_of_mem_entries (hm : maxBytes ≤ wordMax) (hc : Reached maxBytes c) {e : Entry}
    (he : e ∈ c.entries) : e.2.length < 2 ^ 64 := by
  obtain ⟨s, hs, he⟩ := List.mem_flatMap.1 he
  rw [toList_shards] at hs
  obtain ⟨i, _, rfl⟩ := List.mem_map.1 hs
  have hbudget := shardBudget_new hm
  have hw := weight_le_of_mem (List.mem_reverse.1 he)
  have hwithin := ((hc.sound hm).shard i).within
  rw [hc.shardBudget] at hwithin
  have hmax : wordMax = 2 ^ 64 - 1 := rfl
  simp only [weight] at hw
  omega

theorem read_of_save (hs : c.save files path = (.ok n, files')) :
    files'.read path = .ok c.journal ∧ n = c.entries.length := by
  rw [save] at hs
  rcases hr : files.replace path c.journal with ⟨_ | _, files''⟩
  · rw [hr] at hs
    cases hs
  · rw [hr] at hs
    cases hs
    exact ⟨Directory.read_of_replace hr, rfl⟩

/-- A saved cache is loaded by putting its entries, in the order of the journal, into a new one. -/
theorem load_of_save (hm : maxBytes ≤ wordMax) (hc : Reached maxBytes c)
    (hs : c.save files path = (.ok n, files')) (place : String) (maxBytes' : Nat) :
    load files' path place maxBytes' =
      ((new maxBytes').setAll c.entries, .journalLoaded n place) := by
  obtain ⟨hread, rfl⟩ := read_of_save hs
  have hdecode := Journal.decode_encode fun e he => length_lt_of_mem_entries hm hc he
  rw [load, hread]
  dsimp only
  rw [journal, hdecode]

theorem longestRun_setAll_entries (hm : maxBytes ≤ wordMax) (hc : c.Sound) (i : Fin shardCount) :
    LongestRun (new maxBytes).shardBudget
        (c.shards[i].entries.filter (Shard.fits (new maxBytes).shardBudget))
        ((new maxBytes).setAll c.entries).shards[i].entries ∧
      ((new maxBytes).setAll c.entries).shards[i].bytes =
        weigh ((new maxBytes).setAll c.entries).shards[i].entries := by
  have hb := shardBudget_new hm
  rw [getElem_setAll_entries hc]
  exact ⟨Shard.longestRun_fill hb (hc.shard i).nodup, (Shard.sound_fill hb _).counted⟩

theorem getElem_setAll_entries_of_le (hm : maxBytes ≤ wordMax) (hc : c.Sound)
    (hb : c.shardBudget ≤ (new maxBytes).shardBudget) (i : Fin shardCount) :
    ((new maxBytes).setAll c.entries).shards[i] = c.shards[i] := by
  obtain ⟨hrun, hbytes⟩ := longestRun_setAll_entries hm hc i
  have hs := hc.shard i
  have hwithin : weigh c.shards[i].entries ≤ (new maxBytes).shardBudget := hs.within.trans hb
  have hfits : c.shards[i].entries.filter (Shard.fits (new maxBytes).shardBudget) =
      c.shards[i].entries :=
    List.filter_eq_self.2 fun e he => decide_eq_true ((weight_le_of_mem he).trans hwithin)
  rw [hfits] at hrun
  have hentries := hrun.unique (.all hwithin)
  calc ((new maxBytes).setAll c.entries).shards[i]
      = ⟨c.shards[i].entries, weigh c.shards[i].entries⟩ := by rw [← hentries, ← hbytes]
    _ = c.shards[i] := by rw [← hs.counted]

/-- A cache that is saved and loaded into another budget keeps, in each shard, the longest run of
the most recently used entries for which that budget has room, of those it has room for at all. It
keeps everything in the same order if its budget does not shrink. -/
theorem load_after_save (hm : maxBytes ≤ wordMax) (hm' : maxBytes' ≤ wordMax)
    (hc : Reached maxBytes c) (hs : c.save files path = (.ok n, files')) (place : String) :
    ∃ restored, load files' path place maxBytes' = (restored, .journalLoaded n place) ∧
      (∀ i : Fin shardCount,
        LongestRun (new maxBytes').shardBudget
            (c.shards[i].entries.filter (Shard.fits (new maxBytes').shardBudget))
            restored.shards[i].entries ∧
          restored.shards[i].bytes = weigh restored.shards[i].entries) ∧
      ((new maxBytes).shardBudget ≤ (new maxBytes').shardBudget →
        restored.shards = c.shards ∧ restored.length = c.length ∧ restored.size = c.size) := by
  have hsound := hc.sound hm
  refine ⟨_, load_of_save hm hc hs place maxBytes', longestRun_setAll_entries hm' hsound,
    fun hb => ?_⟩
  have hshards : ((new maxBytes').setAll c.entries).shards = c.shards :=
    Vector.ext fun i hi =>
      getElem_setAll_entries_of_le hm' hsound (by rwa [hc.shardBudget]) ⟨i, hi⟩
  refine ⟨hshards, ?_, ?_⟩
  · rw [length, hshards, length]
  · rw [size, hshards, size]

/-- Two entries of one shard, the second one put there after the first has been read. -/
def pair : Cache :=
  (((new 1600).set (.fill 0x11) [1]).get (.fill 0x11)).2.set (.fill 0x21) [2, 3]

/-- With room for one entry only the one used last comes back. -/
theorem load_after_save_newest :
    ∃ restored, load (pair.save {} "cleans").2 "cleans" "cleans" 640 =
        (restored, .journalLoaded 2 "cleans") ∧
      LongestRun 40 [(.fill 0x21, [2, 3]), (.fill 0x11, [1])] restored.shards[1].entries ∧
      restored.shards[1].entries = [(.fill 0x21, [2, 3])] := by
  have hc : Reached 1600 pair := ((Reached.new.set _ _).get _).set _ _
  have hs : pair.save {} "cleans" = (.ok 2, (pair.save {} "cleans").2) := rfl
  obtain ⟨restored, hl, hrun, _⟩ :=
    load_after_save (show 1600 ≤ wordMax by decide) (show 640 ≤ wordMax by decide) hc hs "cleans"
  refine ⟨restored, hl, (hrun 1).1, ?_⟩
  have hr : (load (pair.save {} "cleans").2 "cleans" "cleans" 640).1 = restored :=
    congrArg Prod.fst hl
  rw [← hr]
  decide +kernel

end Cache

end Clean

end TrieCache
