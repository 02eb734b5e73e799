import Mathlib.Algebra.Order.BigOperators.Group.List
import Mathlib.Algebra.Order.Group.Nat
import Mathlib.Data.List.Nodup
import Mathlib.Data.Nat.Cast.Basic
import TrieCache.Clean.File
import TrieCache.Proofs.Clean.Cache

namespace TrieCache.Clean

/-- The bytes of an entry, as they are counted while no count reaches its largest value. -/
def weight (e : Entry) : Nat := 32 + e.2.length

def weigh (entries : List Entry) : Nat := (entries.map weight).sum

@[simp] theorem weigh_nil : weigh [] = 0 := rfl

@[simp] theorem weigh_cons (e : Entry) (entries : List Entry) :
    weigh (e :: entries) = weight e + weigh entries := rfl

theorem weigh_append (entries entries' : List Entry) :
    weigh (entries ++ entries') = weigh entries + weigh entries' := by
  rw [weigh, List.map_append, List.sum_append, weigh, weigh]

theorem weigh_perm {entries entries' : List Entry} (h : entries.Perm entries') :
    weigh entries = weigh entries' :=
  (h.map weight).sum_nat

theorem weigh_reverse (entries : List Entry) : weigh entries.reverse = weigh entries :=
  weigh_perm entries.reverse_perm

theorem weight_le_of_mem {e : Entry} {entries : List Entry} (h : e ∈ entries) :
    weight e ≤ weigh entries := by
  obtain ⟨front, back, rfl⟩ := List.append_of_mem h
  rw [weigh_append, weigh_cons]
  omega

theorem cost_eq {e : Entry} (h : weight e ≤ wordMax) : cost e.2 = weight e := satAdd_eq h

/-- The longest run of entries, from the first on, that is within a budget. -/
structure LongestRun (budget : Nat) (entries run : List Entry) : Prop where
  start : run <+: entries
  within : weigh run ≤ budget
  longest : ∀ other, other <+: entries → weigh other ≤ budget → other <+: run

namespace LongestRun

variable {budget : Nat} {entries run run' : List Entry}

theorem unique (h : LongestRun budget entries run) (h' : LongestRun budget entries run') :
    run = run' :=
  (h'.longest run h.start h.within).eq_of_length_le
    (h.longest run' h'.start h'.within).length_le

theorem all (h : weigh entries ≤ budget) : LongestRun budget entries entries :=
  ⟨List.prefix_rfl, h, fun _ hp _ => hp⟩

theorem cons {e : Entry} (h : LongestRun budget entries run)
    (h' : LongestRun budget (e :: run) run') : LongestRun budget (e :: entries) run' where
  start := h'.start.trans (List.cons_prefix_cons.2 ⟨rfl, h.start⟩)
  within := h'.within
  longest other hp hw := by
    refine h'.longest other ?_ hw
    obtain rfl | ⟨rest, rfl, hrest⟩ := List.prefix_cons_iff.1 hp
    · exact List.nil_prefix
    · rw [weigh_cons] at hw
      exact List.cons_prefix_cons.2 ⟨rfl, h.longest rest hrest (by omega)⟩

end LongestRun

namespace Shard

variable {s : Shard} {budget : Nat} {h : Hash} {blob : Bytes}

theorem dropOver_spec (budget : Nat) (entries : List Entry) (hmax : weigh entries ≤ wordMax) :
    (dropOver budget entries (weigh entries)).2 =
        weigh (dropOver budget entries (weigh entries)).1 ∧
      weigh (dropOver budget entries (weigh entries)).1 ≤ budget ∧
      ∀ rest, rest <:+ entries → weigh rest ≤ budget →
        rest <:+ (dropOver budget entries (weigh entries)).1 := by
  induction entries with
  | nil => exact ⟨rfl, Nat.zero_le _, fun _ hr _ => hr⟩
  | cons e entries ih =>
    rw [weigh_cons] at hmax
    rw [dropOver]
    split
    · next hw => exact ⟨rfl, hw, fun _ hr _ => hr⟩
    · next hw =>
      have hrest : weigh (e :: entries) - cost e.2 = weigh entries := by
        rw [cost_eq (by omega), weigh_cons, Nat.add_sub_cancel_left]
      rw [hrest]
      obtain ⟨hbytes, hwithin, hlongest⟩ := ih (by omega)
      refine ⟨hbytes, hwithin, fun rest hr hrw => ?_⟩
      obtain rfl | hr := List.suffix_cons_iff.1 hr
      · exact absurd hrw hw
      · exact hlongest rest hr hrw

/-- What is left when a shard has been brought within its budget. -/
theorem longestRun_evict (hb : s.bytes = weigh s.entries) (hmax : weigh s.entries ≤ wordMax) :
    LongestRun budget s.entries (s.evict budget).entries ∧
      (s.evict budget).bytes = weigh (s.evict budget).entries := by
  have hrev : s.bytes = weigh s.entries.reverse := by rw [weigh_reverse, hb]
  obtain ⟨hbytes, hwithin, hlongest⟩ :=
    dropOver_spec budget s.entries.reverse (by rwa [weigh_reverse])
  have hsuffix := dropOver_suffix budget s.entries.reverse (weigh s.entries.reverse)
  rw [evict, hrev]
  dsimp only
  refine ⟨⟨?_, ?_, fun other hp hw => ?_⟩, ?_⟩
  · rw [← List.reverse_suffix, List.reverse_reverse]
    exact hsuffix
  · rw [weigh_reverse]
    exact hwithin
  · rw [← List.reverse_suffix, List.reverse_reverse]
    exact hlongest _ (List.reverse_suffix.2 hp) (by rwa [weigh_reverse])
  · exact hbytes.trans (weigh_reverse _).symm

/-- A shard in order: no hash twice, the bytes counted right, and not more of them than allowed. -/
structure Sound (budget : Nat) (s : Shard) : Prop where
  nodup : (s.entries.map (·.1)).Nodup
  counted : s.bytes = weigh s.entries
  within : weigh s.entries ≤ budget

theorem sound_empty (budget : Nat) : Sound budget empty :=
  ⟨List.nodup_nil, rfl, Nat.zero_le _⟩

def others (s : Shard) (h : Hash) : List Entry := s.entries.filter (·.1 ≠ h)

theorem ne_of_mem_others {e : Entry} (he : e ∈ s.others h) : e.1 ≠ h :=
  of_decide_eq_true (List.mem_filter.1 he).2

theorem mem_of_mem_others {e : Entry} (he : e ∈ s.others h) : e ∈ s.entries :=
  (List.mem_filter.1 he).1

theorem others_eq_of_notMem (hh : h ∉ s.entries.map (·.1)) : s.others h = s.entries :=
  List.filter_eq_self.2 fun _ he =>
    decide_eq_true fun heq => hh (heq ▸ List.mem_map_of_mem he)

theorem find?_eq_none_iff : s.find? h = none ↔ h ∉ s.entries.map (·.1) := by
  rw [find?, Option.map_eq_none_iff, List.find?_eq_none]
  simp only [decide_eq_true_eq, List.mem_map, not_exists, not_and]

theorem mem_of_find? (hf : s.find? h = some blob) : (h, blob) ∈ s.entries := by
  obtain ⟨⟨k, b⟩, he, rfl⟩ := Option.map_eq_some_iff.1 hf
  have hk := List.find?_some he
  cases of_decide_eq_true hk
  exact List.mem_of_find?_eq_some he

theorem entries_remove : (s.remove h).entries = s.others h := by
  rw [remove]
  split
  · next hf => exact (others_eq_of_notMem (find?_eq_none_iff.1 hf)).symm
  · rfl

theorem nodup_cons_others (hn : (s.entries.map (·.1)).Nodup) :
    (((h, blob) :: s.others h).map (·.1)).Nodup := by
  refine List.nodup_cons.2 ⟨fun hm => ?_, hn.sublist ((List.filter_sublist).map _)⟩
  obtain ⟨e, he, heq⟩ := List.mem_map.1 hm
  exact ne_of_mem_others he heq

theorem perm_cons_others (hn : (s.entries.map (·.1)).Nodup) (hf : s.find? h = some blob) :
    s.entries.Perm ((h, blob) :: s.others h) := by
  refine (List.perm_ext_iff_of_nodup hn.of_map (nodup_cons_others hn).of_map).2 fun e => ?_
  rw [List.mem_cons]
  refine ⟨fun he => ?_, fun he => ?_⟩
  · by_cases heh : e.1 = h
    · subst heh
      exact .inl (List.inj_on_of_nodup_map hn he (mem_of_find? hf) rfl)
    · exact .inr (List.mem_filter.2 ⟨he, decide_eq_true heh⟩)
  · obtain rfl | he := he
    · exact mem_of_find? hf
    · exact mem_of_mem_others he

theorem weigh_others (hn : (s.entries.map (·.1)).Nodup) (hf : s.find? h = some blob) :
    weigh s.entries = weight (h, blob) + weigh (s.others h) := by
  rw [weigh_perm (perm_cons_others hn hf), weigh_cons]

theorem Sound.touch (hs : Sound budget s) : Sound budget (s.touch h) := by
  rw [Shard.touch]
  split
  · exact hs
  · next blob hf =>
    have hw : weigh ((h, blob) :: s.others h) = weigh s.entries := (weigh_others hs.nodup hf).symm
    exact ⟨nodup_cons_others hs.nodup, hs.counted.trans hw.symm, hw ▸ hs.within⟩

theorem Sound.remove (hs : Sound budget s) (hb : budget ≤ wordMax) :
    Sound budget (s.remove h) := by
  rw [Shard.remove]
  split
  · exact hs
  · next blob hf =>
    have hw := weigh_others hs.nodup hf
    have hwithin := hs.within
    have hcost : cost blob = weight (h, blob) := cost_eq (e := (h, blob)) (by omega)
    refine ⟨hs.nodup.sublist (List.filter_sublist.map _), ?_, ?_⟩
    · dsimp only
      rw [hs.counted, hw, hcost]
      exact Nat.add_sub_cancel_left _ _
    · change weigh (s.others h) ≤ budget
      omega

theorem insert_of_over (hw : budget < weight (h, blob)) (hb : budget < wordMax) :
    s.insert budget h blob = s := by
  rw [insert, if_pos]
  rw [cost, satAdd]
  simp only [weight] at hw
  omega

/-- An entry that fits is put before the others, and of these the longest run is kept. -/
theorem longestRun_insert (hs : Sound budget s) (hb : budget + budget ≤ wordMax)
    (hw : weight (h, blob) ≤ budget) :
    LongestRun budget ((h, blob) :: s.others h) (s.insert budget h blob).entries ∧
      (s.insert budget h blob).bytes = weigh (s.insert budget h blob).entries := by
  have hcost : cost blob = weight (h, blob) := cost_eq (e := (h, blob)) (by omega)
  have hr := hs.remove (h := h) (by omega)
  have hbytes := hr.counted
  have hwithin := hr.within
  rw [entries_remove] at hbytes hwithin
  rw [insert, if_neg (by omega), hcost]
  dsimp only
  rw [entries_remove, hbytes, satAdd_eq (by omega), Nat.add_comm]
  exact longestRun_evict (s := ⟨(h, blob) :: s.others h, weight (h, blob) + weigh (s.others h)⟩)
    rfl (by rw [weigh_cons]; omega)

theorem Sound.insert (hs : Sound budget s) (hb : budget + budget < wordMax) :
    Sound budget (s.insert budget h blob) := by
  by_cases hw : weight (h, blob) ≤ budget
  · obtain ⟨hrun, hbytes⟩ := longestRun_insert hs (Nat.le_of_lt hb) hw
    exact ⟨(nodup_cons_others hs.nodup).sublist (hrun.start.sublist.map _), hbytes, hrun.within⟩
  · rw [insert_of_over (by omega) (by omega)]
    exact hs

def fits (budget : Nat) (e : Entry) : Bool := weight e ≤ budget

/-- Inserts entries into an empty shard, those at the end of the list first. -/
def fill (budget : Nat) (entries : List Entry) : Shard :=
  entries.foldr (fun e s => s.insert budget e.1 e.2) empty

theorem sound_fill (hb : budget + budget < wordMax) (entries : List Entry) :
    Sound budget (fill budget entries) := by
  induction entries with
  | nil => exact sound_empty budget
  | cons e entries ih => exact ih.insert hb

/-- A shard that is filled keeps the longest run of the entries that fit: each insertion drops only
what no longer run could hold. -/
theorem longestRun_fill (hb : budget + budget < wordMax) {entries : List Entry}
    (hn : (entries.map (·.1)).Nodup) :
    LongestRun budget (entries.filter (fits budget)) (fill budget entries).entries := by
  induction entries with
  | nil => exact .all (Nat.zero_le _)
  | cons e entries ih =>
    obtain ⟨hnew, hn⟩ := List.nodup_cons.1 hn
    have hrun := ih hn
    by_cases hw : weight e ≤ budget
    · have hfresh : (fill budget entries).others e.1 = (fill budget entries).entries := by
        refine others_eq_of_notMem fun hm => hnew ?_
        exact ((hrun.start.sublist.trans List.filter_sublist).map (·.1)).mem hm
      have hins := (longestRun_insert (sound_fill hb entries) (Nat.le_of_lt hb) hw).1
      rw [hfresh] at hins
      rw [List.filter_cons_of_pos (show fits budget e from decide_eq_true hw)]
      exact hrun.cons hins
    · rw [List.filter_cons_of_neg (by simpa [fits] using hw)]
      change LongestRun budget _ ((fill budget entries).insert budget e.1 e.2).entries
      rw [insert_of_over (Nat.lt_of_not_le hw) (by omega)]
      exact hrun

theorem mem_touch {e : Entry} (he : e ∈ (s.touch h).entries) : e.1 = h ∨ e ∈ s.entries := by
  rw [touch] at he
  split at he
  · exact .inr he
  · obtain rfl | he := List.mem_cons.1 he
    · exact .inl rfl
    · exact .inr (mem_of_mem_others he)

theorem mem_remove {e : Entry} (he : e ∈ (s.remove h).entries) : e ∈ s.entries :=
  mem_of_mem_others (entries_remove ▸ he)

theorem mem_insert {e : Entry} (hs : Sound budget s) (hb : budget + budget < wordMax)
    (he : e ∈ (s.insert budget h blob).entries) : e.1 = h ∨ e ∈ s.entries := by
  by_cases hw : weight (h, blob) ≤ budget
  · obtain rfl | he := List.mem_cons.1 ((longestRun_insert hs (Nat.le_of_lt hb) hw).1.start.mem he)
    · exact .inl rfl
    · exact .inr (mem_of_mem_others he)
  · rw [insert_of_over (by omega) (by omega)] at he
    exact .inr he

end Shard

namespace Cache

variable {c : Cache} {h : Hash} {blob : Bytes}

theorem getElem_update (c : Cache) (h : Hash) (f : Shard → Shard) (i : Fin shardCount) :
    (c.update h f).shards[i] = if shardOf h = i then f c.shards[i] else c.shards[i] := by
  rw [update, Fin.getElem_fin, Vector.getElem_set]
  by_cases he : shardOf h = i
  · subst he
    rw [if_pos rfl, if_pos rfl]
    rfl
  · rw [if_neg (fun hv => he (Fin.ext hv)), if_neg he]
    rfl

theorem remove_comm (c : Cache) (h k : Hash) : (c.remove h).remove k = (c.remove k).remove h := by
  have hshards : ((c.remove h).remove k).shards = ((c.remove k).remove h).shards := by
    refine Vector.ext fun i hi => ?_
    have hget := getElem_update (c.remove h) k (·.remove k) ⟨i, hi⟩
    have hget' := getElem_update (c.remove k) h (·.remove h) ⟨i, hi⟩
    change ((c.remove h).remove k).shards[i] = _ at hget
    change ((c.remove k).remove h).shards[i] = _ at hget'
    rw [hget, hget', remove, remove, getElem_update, getElem_update]
    split <;> split
    · exact Shard.remove_comm _ h k
    all_goals rfl
  exact congrArg (Cache.mk · c.shardBudget) hshards

theorem removeAll_append (c : Cache) (hashes hashes' : List Hash) :
    (c.removeAll hashes).removeAll hashes' = c.removeAll (hashes ++ hashes') :=
  List.foldl_append.symm

theorem removeAll_perm {hashes hashes' : List Hash} (c : Cache) (hp : hashes.Perm hashes') :
    c.removeAll hashes = c.removeAll hashes' :=
  hp.foldl_eq' (fun h _ k _ c => remove_comm c h k) c

/-- A cache in order: each shard is sound and has only the hashes that belong into it. -/
structure Sound (c : Cache) : Prop where
  shard : ∀ i : Fin shardCount, c.shards[i].Sound c.shardBudget
  placed : ∀ i : Fin shardCount, ∀ e ∈ c.shards[i].entries, shardOf e.1 = i

theorem Sound.update {f : Shard → Shard} (hc : c.Sound)
    (hs : ∀ s, s.Sound c.shardBudget → (f s).Sound c.shardBudget)
    (hm : ∀ s, s.Sound c.shardBudget → ∀ e ∈ (f s).entries, e.1 = h ∨ e ∈ s.entries) :
    (c.update h f).Sound := by
  refine ⟨fun i => ?_, fun i e he => ?_⟩
  · rw [getElem_update]
    split
    · exact hs _ (hc.shard i)
    · exact hc.shard i
  · rw [getElem_update] at he
    split at he
    · next hi =>
      obtain rfl | he := hm _ (hc.shard i) e he
      · exact hi
      · exact hc.placed i e he
    · exact hc.placed i e he

theorem Sound.get (hc : c.Sound) (h : Hash) : (c.get h).2.Sound :=
  hc.update (fun _ hs => hs.touch) fun _ _ _ he => Shard.mem_touch he

theorem Sound.remove (hc : c.Sound) (hb : c.shardBudget + c.shardBudget < wordMax) (h : Hash) :
    (c.remove h).Sound :=
  hc.update (fun _ hs => hs.remove (by omega)) fun _ _ _ he => .inr (Shard.mem_remove he)

theorem Sound.set (hc : c.Sound) (hb : c.shardBudget + c.shardBudget < wordMax) (h : Hash)
    (blob : Bytes) : (c.set h blob).Sound :=
  hc.update (fun _ hs => hs.insert hb) fun _ hs _ he => Shard.mem_insert hs hb he

theorem shardBudget_setAll (c : Cache) (entries : List Entry) :
    (c.setAll entries).shardBudget = c.shardBudget := by
  induction entries generalizing c with
  | nil => rfl
  | cons e entries ih => exact ih (c.set e.1 e.2)

theorem Sound.setAll (hc : c.Sound) (hb : c.shardBudget + c.shardBudget < wordMax)
    (entries : List Entry) : (c.setAll entries).Sound := by
  induction entries generalizing c with
  | nil => exact hc
  | cons e entries ih => exact ih (hc.set hb e.1 e.2) hb

theorem getElem_new (maxBytes : Nat) (i : Fin shardCount) :
    (new maxBytes).shards[i] = Shard.empty := by
  rw [new, Fin.getElem_fin, Vector.getElem_replicate]

theorem sound_new (maxBytes : Nat) : (new maxBytes).Sound := by
  refine ⟨fun i => ?_, fun i e he => ?_⟩
  · rw [getElem_new]
    exact Shard.sound_empty _
  · rw [getElem_new] at he
    cases he

theorem shardBudget_new {maxBytes : Nat} (hm : maxBytes ≤ wordMax) :
    (new maxBytes).shardBudget + (new maxBytes).shardBudget < wordMax := by
  have hw : wordMax = 2 ^ 64 - 1 := rfl
  simp only [new, shardCount]
  omega

/-- The caches of a budget that can come about: a new or loaded one, set, read and removed from in
any order. -/
inductive Reached (maxBytes : Nat) : Cache → Prop
  | new : Reached maxBytes (new maxBytes)
  | load (d : Directory) (path place : String) : Reached maxBytes (load d path place maxBytes).1
  | get {c : Cache} (hc : Reached maxBytes c) (h : Hash) : Reached maxBytes (c.get h).2
  | set {c : Cache} (hc : Reached maxBytes c) (h : Hash) (blob : Bytes) :
      Reached maxBytes (c.set h blob)
  | remove {c : Cache} (hc : Reached maxBytes c) (h : Hash) : Reached maxBytes (c.remove h)

theorem load_cases (d : Directory) (path place : String) (maxBytes : Nat) :
    ∃ entries, (load d path place maxBytes).1 = (new maxBytes).setAll entries := by
  rw [load]
  split
  · split
    · next entries _ => exact ⟨entries, rfl⟩
    · exact ⟨[], rfl⟩
  all_goals exact ⟨[], rfl⟩

theorem Reached.shardBudget {maxBytes : Nat} (hc : Reached maxBytes c) :
    c.shardBudget = (Cache.new maxBytes).shardBudget := by
  induction hc with
  | new => rfl
  | load d path place =>
    obtain ⟨entries, he⟩ := load_cases d path place maxBytes
    rw [he, shardBudget_setAll]
  | get _ _ ih => exact ih
  | set _ _ _ ih => exact ih
  | remove _ _ ih => exact ih

theorem Reached.sound {maxBytes : Nat} (hm : maxBytes ≤ wordMax) (hc : Reached maxBytes c) :
    c.Sound := by
  have hb := shardBudget_new hm
  induction hc with
  | new => exact sound_new maxBytes
  | load d path place =>
    obtain ⟨entries, he⟩ := load_cases d path place maxBytes
    rw [he]
    exact (sound_new maxBytes).setAll hb entries
  | get _ h ih => exact ih.get h
  | set hc h blob ih => exact ih.set (by rwa [hc.shardBudget]) h blob
  | remove hc h ih => exact ih.remove (by rwa [hc.shardBudget]) h

theorem getElem_setAll (c : Cache) (entries : List Entry) (i : Fin shardCount) :
    (c.setAll entries).shards[i] =
      (entries.filter (shardOf ·.1 = i)).foldl (fun s e => s.insert c.shardBudget e.1 e.2)
        c.shards[i] := by
  induction entries generalizing c with
  | nil => rfl
  | cons e entries ih =>
    change ((c.set e.1 e.2).setAll entries).shards[i] = _
    rw [ih, set, getElem_update]
    by_cases hi : shardOf e.1 = i
    · rw [if_pos hi, List.filter_cons_of_pos (by simpa using hi)]
      rfl
    · rw [if_neg hi, List.filter_cons_of_neg (by simpa using hi)]
      rfl

theorem flatMap_eq_of_mem {ι α : Type} {l : List ι} {f : ι → List α} {i : ι} (hn : l.Nodup)
    (hi : i ∈ l) (hf : ∀ j, j ≠ i → f j = []) : l.flatMap f = f i := by
  obtain ⟨front, back, rfl⟩ := List.append_of_mem hi
  obtain ⟨_, hback, hdisjoint⟩ := List.nodup_append.1 hn
  have hfront : front.flatMap f = [] :=
    List.flatMap_eq_nil_iff.2 fun j hj => hf j (hdisjoint j hj i List.mem_cons_self)
  have hback : back.flatMap f = [] :=
    List.flatMap_eq_nil_iff.2 fun j hj => hf j fun hji => (List.nodup_cons.1 hback).1 (hji ▸ hj)
  rw [List.flatMap_append, List.flatMap_cons, hfront, hback, List.nil_append, List.append_nil]

theorem toList_shards (c : Cache) :
    c.shards.toList = (List.finRange shardCount).map (c.shards[·]) := by
  refine List.ext_getElem (by simp) fun n h h' => ?_
  simp

theorem filter_entries (hc : c.Sound) (i : Fin shardCount) :
    c.entries.filter (shardOf ·.1 = i) = c.shards[i].entries.reverse := by
  have hself : c.shards[i].entries.reverse.filter (shardOf ·.1 = i) =
      c.shards[i].entries.reverse := by
    refine List.filter_eq_self.2 fun e he => decide_eq_true ?_
    exact hc.placed i e (List.mem_reverse.1 he)
  have hother (j : Fin shardCount) (hj : j ≠ i) :
      c.shards[j].entries.reverse.filter (shardOf ·.1 = i) = [] := by
    refine List.filter_eq_nil_iff.2 fun e he => ?_
    rw [hc.placed j e (List.mem_reverse.1 he)]
    simpa using hj
  rw [entries, toList_shards, List.flatMap_map, List.filter_flatMap]
  exact (flatMap_eq_of_mem (List.nodup_finRange _) (List.mem_finRange i) hother).trans hself

/-- Putting the entries of a cache into a new one fills each of its shards anew. -/
theorem getElem_setAll_entries (hc : c.Sound) (maxBytes : Nat) (i : Fin shardCount) :
    ((new maxBytes).setAll c.entries).shards[i] =
      Shard.fill (new maxBytes).shardBudget c.shards[i].entries := by
  rw [getElem_setAll, filter_entries hc, List.foldl_reverse, getElem_new]
  rfl

end Cache

end TrieCache.Clean
