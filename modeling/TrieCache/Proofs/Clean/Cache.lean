import Mathlib.Data.List.Basic
import TrieCache.Clean.Cache

namespace TrieCache.Clean

variable {h k : Hash} {blob v : Bytes}

namespace Shard

variable {s : Shard} {budget : Nat}

theorem dropOver_suffix (budget : Nat) (entries : List Entry) (bytes : Nat) :
    (dropOver budget entries bytes).1 <:+ entries := by
  induction entries generalizing bytes with
  | nil => exact List.suffix_refl []
  | cons e rest ih =>
    rw [dropOver]
    split
    · exact List.suffix_refl _
    · exact (ih _).trans (List.suffix_cons e rest)

theorem find?_of_filter (entries : List Entry) (hk : k ≠ h) :
    (entries.filter (·.1 ≠ h)).find? (·.1 = k) = entries.find? (·.1 = k) := by
  rw [List.find?_filter]
  congr
  funext e
  by_cases he : e.1 = k
  · simp [he, hk]
  · simp [he]

theorem find?_of_prefix {entries entries' : List Entry} (hp : entries <+: entries')
    (hf : (entries.find? (·.1 = k)).map (·.2) = some v) :
    (entries'.find? (·.1 = k)).map (·.2) = some v := by
  obtain ⟨e, he, hv⟩ := Option.map_eq_some_iff.1 hf
  rw [hp.find?_eq_some he, Option.map_some, hv]

theorem find?_touch (hf : (s.touch h).find? k = some v) : s.find? k = some v := by
  rw [touch] at hf
  split at hf
  · exact hf
  · next blob hb =>
    rw [find?, List.find?_cons] at hf
    split at hf
    · next hk =>
      rw [← of_decide_eq_true hk, hb]
      exact hf
    · next hk =>
      rw [find?_of_filter _ (Ne.symm (of_decide_eq_false hk))] at hf
      exact hf

theorem find?_remove (hf : (s.remove h).find? k = some v) : s.find? k = some v := by
  rw [remove] at hf
  split at hf
  · exact hf
  · by_cases hk : k = h
    · subst k
      obtain ⟨e, he, _⟩ := Option.map_eq_some_iff.1 hf
      have hm := List.mem_of_find?_eq_some he
      have hp := List.find?_some he
      exact absurd (of_decide_eq_true hp) (of_decide_eq_true (List.mem_filter.1 hm).2)
    · rw [find?, find?_of_filter _ hk] at hf
      exact hf

theorem find?_remove_eq (s : Shard) (h k : Hash) :
    (s.remove h).find? k = if k = h then none else s.find? k := by
  rw [remove]
  split
  · next hn =>
    split
    · next hk => rw [hk, hn]
    · rfl
  · split
    · next hk =>
      rw [find?, Option.map_eq_none_iff, List.find?_eq_none]
      intro e he
      rw [hk]
      simpa using (List.mem_filter.1 he).2
    · next hk => rw [find?, find?_of_filter _ hk, find?]

theorem remove_eq (s : Shard) (h : Hash) : s.remove h =
    ⟨s.entries.filter (·.1 ≠ h), s.bytes - ((s.find? h).map cost).getD 0⟩ := by
  rw [remove]
  split
  · next hn =>
    have hall : s.entries.filter (·.1 ≠ h) = s.entries := by
      rw [find?, Option.map_eq_none_iff, List.find?_eq_none] at hn
      exact List.filter_eq_self.2 fun e he => by simpa using hn e he
    rw [hn, hall]
    rfl
  · next blob hb => rw [hb, Option.map_some, Option.getD_some]

theorem remove_comm (s : Shard) (h k : Hash) : (s.remove h).remove k = (s.remove k).remove h := by
  by_cases hk : k = h
  · rw [hk]
  · rw [remove_eq (s.remove h), remove_eq (s.remove k), find?_remove_eq, find?_remove_eq, if_neg hk,
      if_neg (Ne.symm hk), remove_eq s h, remove_eq s k, Shard.mk.injEq]
    exact ⟨List.filter_comm _ _ _, Nat.sub_right_comm _ _ _⟩

theorem find?_evict (hf : (s.evict budget).find? k = some v) : s.find? k = some v := by
  have hp : (s.evict budget).entries <+: s.entries := by
    have hs := dropOver_suffix budget s.entries.reverse s.bytes
    rw [← List.reverse_prefix, List.reverse_reverse] at hs
    exact hs
  exact find?_of_prefix hp hf

theorem find?_insert (hf : (s.insert budget h blob).find? k = some v) :
    k = h ∧ v = blob ∨ s.find? k = some v := by
  rw [insert] at hf
  split at hf
  · exact .inr hf
  · have hf := find?_evict hf
    rw [find?, List.find?_cons] at hf
    split at hf
    · next hk =>
      cases hf
      exact .inl ⟨(of_decide_eq_true hk).symm, rfl⟩
    · exact .inr (find?_remove hf)

end Shard

namespace Cache

variable {c : Cache}

def find? (c : Cache) (h : Hash) : Option Bytes := (c.shard h).find? h

theorem shard_update (c : Cache) (h k : Hash) (f : Shard → Shard) :
    (c.update h f).shard k = if shardOf h = shardOf k then f (c.shard k) else c.shard k := by
  rw [shard, update, Fin.getElem_fin, Vector.getElem_set]
  by_cases he : shardOf h = shardOf k
  · have hshard : c.shard h = c.shard k := congrArg (c.shards[·]) he
    rw [if_pos (congrArg Fin.val he), if_pos he, hshard]
  · rw [if_neg (fun hv => he (Fin.ext hv)), if_neg he]
    rfl

theorem find?_update {f : Shard → Shard} (hu : (c.update h f).find? k = some v) :
    (f (c.shard k)).find? k = some v ∨ c.find? k = some v := by
  rw [find?, shard_update] at hu
  split at hu
  · exact .inl hu
  · exact .inr hu

theorem find?_get (hg : (c.get h).2.find? k = some v) : c.find? k = some v :=
  (find?_update hg).elim Shard.find?_touch id

theorem find?_set (hs : (c.set h blob).find? k = some v) :
    k = h ∧ v = blob ∨ c.find? k = some v :=
  (find?_update hs).elim Shard.find?_insert .inr

theorem find?_remove (hr : (c.remove h).find? k = some v) : c.find? k = some v :=
  (find?_update hr).elim Shard.find?_remove id

theorem find?_removeAll {hashes : List Hash} (hr : (c.removeAll hashes).find? k = some v) :
    c.find? k = some v := by
  induction hashes generalizing c with
  | nil => exact hr
  | cons h hashes ih => exact find?_remove (ih hr)

theorem find?_remove_eq (c : Cache) (h k : Hash) :
    (c.remove h).find? k = if k = h then none else c.find? k := by
  rw [find?, remove, shard_update]
  by_cases hs : shardOf h = shardOf k
  · rw [if_pos hs, Shard.find?_remove_eq, find?]
  · rw [if_neg hs, if_neg fun hk => hs (congrArg shardOf hk.symm), find?]

theorem find?_removeAll_eq (c : Cache) (hashes : List Hash) (k : Hash) :
    (c.removeAll hashes).find? k = if k ∈ hashes then none else c.find? k := by
  induction hashes generalizing c with
  | nil => exact (if_neg List.not_mem_nil).symm
  | cons h hashes ih =>
    change ((c.remove h).removeAll hashes).find? k = _
    rw [ih, find?_remove_eq]
    by_cases hk : k = h <;> by_cases hm : k ∈ hashes <;> simp [hk, hm]

theorem find?_new (maxBytes : Nat) (h : Hash) : (Cache.new maxBytes).find? h = none := by
  rw [find?, shard, new, Fin.getElem_fin, Vector.getElem_replicate]
  rfl

end Cache

end TrieCache.Clean
