import Mathlib.Algebra.Order.BigOperators.Group.List
import Mathlib.Algebra.Order.Group.Nat
import Mathlib.Data.Nat.Cast.Basic
import TrieCache.Hash

namespace TrieCache.Map

variable {α β : Type} [Ord α] [Std.TransOrd α] {m m' : Std.ExtTreeMap α β}

theorem contains_iff {k : α} : m.contains k ↔ ∃ v, m[k]? = some v := by
  rw [Std.ExtTreeMap.contains_eq_isSome_getElem?, Option.isSome_iff_exists]

theorem contains_eq_false_iff {k : α} : m.contains k = false ↔ m[k]? = none := by
  rw [Std.ExtTreeMap.contains_eq_isSome_getElem?, Option.isSome_eq_false_iff,
    Option.isNone_iff_eq_none]

theorem contains_of_get {k : α} {v : β} (h : m[k]? = some v) : m.contains k :=
  contains_iff.2 ⟨v, h⟩

theorem contains_eq_of_map {γ : Type} {f : β → γ} {k : α}
    (h : m'[k]?.map f = m[k]?.map f) : m'.contains k = m.contains k := by
  have he := congrArg Option.isSome h
  rwa [Option.isSome_map, Option.isSome_map, ← Std.ExtTreeMap.contains_eq_isSome_getElem?,
    ← Std.ExtTreeMap.contains_eq_isSome_getElem?] at he

theorem map_fst_lookups {γ : Type} (f : β → γ) {ks : List α} (h : ∀ k ∈ ks, m.contains k) :
    (ks.filterMap fun k => m[k]?.map fun v => (k, f v)).map Prod.fst = ks := by
  have he : ∀ k ∈ ks, (m[k]?.map fun v => (k, f v)).map Prod.fst = some k := by
    intro k hk
    obtain ⟨v, hv⟩ := contains_iff.1 (h k hk)
    rw [hv, Option.map_some, Option.map_some]
  rw [List.map_filterMap, List.filterMap_congr he, List.filterMap_some]

def total (m : Std.ExtTreeMap α β) (w : β → Nat) : Nat :=
  (m.toList.map fun e => w e.2).sum

theorem total_eq_total_map (m : Std.ExtTreeMap α β) (w : β → Nat) :
    total m w = total (m.map fun _ => w) id := by
  simp only [total, Std.ExtTreeMap.toList_map, List.map_map]
  rfl

theorem total_le_total {w w' : β → Nat} (h : ∀ v, w v ≤ w' v) : total m w ≤ total m w' :=
  List.sum_le_sum fun e _ => h e.2

theorem total_add (m : Std.ExtTreeMap α β) (w w' : β → Nat) :
    (total m fun v => w v + w' v) = total m w + total m w' :=
  List.sum_map_add

theorem total_const (m : Std.ExtTreeMap α β) (c : Nat) : (total m fun _ => c) = m.size * c := by
  simp [total, Std.ExtTreeMap.length_toList]

theorem nodup_toList (m : Std.ExtTreeMap α β) : m.toList.Nodup := by
  have hk : (m.toList.map Prod.fst).Nodup := by
    rw [Std.ExtTreeMap.map_fst_toList_eq_keys]
    exact Std.ExtTreeMap.nodup_keys
  exact List.Pairwise.of_map _ (fun _ _ hne he => hne (congrArg _ he)) hk

variable [Std.LawfulEqOrd α]

theorem total_congr {w w' : β → Nat} (h : ∀ k : α, m[k]?.map w = m'[k]?.map w') :
    total m w = total m' w' := by
  have he : (m.map fun _ => w) = m'.map fun _ => w' := by
    apply Std.ExtTreeMap.ext_getElem?
    intro k
    rw [Std.ExtTreeMap.getElem?_map, Std.ExtTreeMap.getElem?_map]
    exact h k
  rw [total_eq_total_map m, he, ← total_eq_total_map]

theorem contains_erase (m : Std.ExtTreeMap α β) (k a : α) :
    (m.erase k).contains a ↔ k ≠ a ∧ m.contains a := by
  simp

theorem contains_insert (m : Std.ExtTreeMap α β) (k a : α) (v : β) :
    (m.insert k v).contains a ↔ k = a ∨ m.contains a := by
  simp

variable [DecidableEq α]

theorem get_insert (m : Std.ExtTreeMap α β) (k a : α) (v : β) :
    (m.insert k v)[a]? = if k = a then some v else m[a]? := by
  simp only [Std.ExtTreeMap.getElem?_insert, Std.LawfulEqOrd.compare_eq_iff_eq]

theorem get_erase (m : Std.ExtTreeMap α β) (k a : α) :
    (m.erase k)[a]? = if k = a then none else m[a]? := by
  simp only [Std.ExtTreeMap.getElem?_erase, Std.LawfulEqOrd.compare_eq_iff_eq]

theorem get_modify (m : Std.ExtTreeMap α β) (k a : α) (f : β → β) :
    (m.modify k f)[a]? = if k = a then m[a]?.map f else m[a]? := by
  rw [Std.ExtTreeMap.getElem?_modify]
  by_cases h : k = a
  · rw [if_pos (Std.LawfulEqOrd.compare_eq_iff_eq.2 h), if_pos h, h]
  · rw [if_neg (fun he => h (Std.LawfulEqOrd.compare_eq_iff_eq.1 he)), if_neg h]

theorem map_modify {γ : Type} (m : Std.ExtTreeMap α β) (k a : α) {f : β → β} {g : β → γ}
    (hf : ∀ v, g (f v) = g v) : (m.modify k f)[a]?.map g = m[a]?.map g := by
  rw [get_modify]
  split
  · rw [Option.map_map]
    exact congrArg (Option.map · _) (funext hf)
  · rfl

theorem toList_perm_of_get {k : α} {v : β} (h : m[k]? = some v) :
    m.toList.Perm ((k, v) :: (m.erase k).toList) := by
  have hk : (k, v) ∉ (m.erase k).toList := by
    rw [Std.ExtTreeMap.mem_toList_iff_getElem?_eq_some, get_erase, if_pos rfl]
    exact nofun
  rw [List.perm_ext_iff_of_nodup (nodup_toList m) (List.nodup_cons.2 ⟨hk, nodup_toList _⟩)]
  intro ⟨a, b⟩
  rw [List.mem_cons, Std.ExtTreeMap.mem_toList_iff_getElem?_eq_some,
    Std.ExtTreeMap.mem_toList_iff_getElem?_eq_some, get_erase]
  by_cases he : k = a
  · subst a
    simp [h, eq_comm]
  · simp [he, eq_comm (a := a)]

theorem total_eq_add_of_get (w : β → Nat) {k : α} {v : β} (h : m[k]? = some v) :
    total m w = w v + total (m.erase k) w := by
  rw [total, ((toList_perm_of_get h).map _).sum_eq, List.map_cons, List.sum_cons, total]

theorem total_insert (w : β → Nat) {k : α} (v : β) (h : m[k]? = none) :
    total (m.insert k v) w = w v + total m w := by
  have he : (m.insert k v).erase k = m := by
    apply Std.ExtTreeMap.ext_getElem?
    intro a
    rw [get_erase, get_insert]
    split
    · next he => rw [← he, h]
    · rfl
  have hk : (m.insert k v)[k]? = some v := by rw [get_insert, if_pos rfl]
  rw [total_eq_add_of_get w hk, he]

theorem erase_insert (m : Std.ExtTreeMap α β) {k a : α} (v : β) (h : k ≠ a) :
    (m.insert k v).erase a = (m.erase a).insert k v := by
  apply Std.ExtTreeMap.ext_getElem?
  intro b
  rw [get_erase, get_insert, get_insert, get_erase]
  by_cases hb : k = b
  · rw [if_pos hb, if_pos hb, if_neg (hb ▸ h.symm)]
  · rw [if_neg hb, if_neg hb]

theorem erase_modify_self (m : Std.ExtTreeMap α β) (k : α) (f : β → β) :
    (m.modify k f).erase k = m.erase k := by
  apply Std.ExtTreeMap.ext_getElem?
  intro b
  rw [get_erase, get_erase, get_modify]
  split <;> rfl

theorem erase_modify (m : Std.ExtTreeMap α β) {k a : α} (f : β → β) (h : k ≠ a) :
    (m.modify k f).erase a = (m.erase a).modify k f := by
  apply Std.ExtTreeMap.ext_getElem?
  intro b
  rw [get_erase, get_modify, get_modify, get_erase]
  by_cases hb : k = b
  · rw [if_pos hb, if_pos hb, if_neg (hb ▸ h.symm), if_neg (hb ▸ h.symm)]
  · rw [if_neg hb, if_neg hb]

theorem erase_erase (m : Std.ExtTreeMap α β) (k a : α) :
    (m.erase k).erase a = (m.erase a).erase k := by
  apply Std.ExtTreeMap.ext_getElem?
  intro b
  simp only [get_erase]
  split <;> split <;> rfl

theorem erase_of_not_contains {k : α} (h : m[k]? = none) : m.erase k = m := by
  apply Std.ExtTreeMap.ext_getElem?
  intro b
  rw [get_erase]
  split
  · next he => rw [← he, h]
  · rfl

def eraseAll (m : Std.ExtTreeMap α β) (ks : List α) : Std.ExtTreeMap α β :=
  ks.foldl (fun m k => m.erase k) m

omit [Std.LawfulEqOrd α] [DecidableEq α] in
theorem eraseAll_append (m : Std.ExtTreeMap α β) (ks ks' : List α) :
    eraseAll m (ks ++ ks') = eraseAll (eraseAll m ks) ks' :=
  List.foldl_append

theorem get_eraseAll (m : Std.ExtTreeMap α β) (ks : List α) (a : α) :
    (eraseAll m ks)[a]? = if a ∈ ks then none else m[a]? := by
  induction ks generalizing m with
  | nil => rfl
  | cons k ks ih =>
    change (eraseAll (m.erase k) ks)[a]? = _
    rw [ih, get_erase]
    by_cases ha : k = a
    · simp [ha]
    · simp [ha, Ne.symm ha]

theorem total_eraseAll (w : β → Nat) {ks : List α} (hn : ks.Nodup)
    (hks : ∀ k ∈ ks, m.contains k) :
    total m w = (ks.map fun k => (m[k]?.map w).getD 0).sum + total (eraseAll m ks) w := by
  induction ks generalizing m with
  | nil => exact (Nat.zero_add _).symm
  | cons k ks ih =>
    obtain ⟨hk, hn⟩ := List.nodup_cons.1 hn
    obtain ⟨v, hv⟩ := contains_iff.1 (hks k List.mem_cons_self)
    have hother : ∀ a ∈ ks, (m.erase k)[a]? = m[a]? := by
      intro a ha
      have hne : k ≠ a := fun he => hk (he ▸ ha)
      rw [get_erase, if_neg hne]
    have hcontains : ∀ a ∈ ks, (m.erase k).contains a := fun a ha =>
      (contains_erase m k a).2 ⟨fun he => hk (he ▸ ha), hks a (List.mem_cons_of_mem k ha)⟩
    have hsame : (ks.map fun a => ((m.erase k)[a]?.map w).getD 0) =
        ks.map fun a => (m[a]?.map w).getD 0 :=
      List.map_congr_left fun a ha => by rw [hother a ha]
    rw [total_eq_add_of_get w hv, ih hn hcontains, hsame, List.map_cons, List.sum_cons, hv,
      Option.map_some, Option.getD_some, Nat.add_assoc]
    rfl

section Gone

variable {γ : Type} {ks : List α} {f : β → γ} (hn : ks.Nodup) (hks : ∀ k ∈ ks, m.contains k)
  (hm : ∀ k : α, m'[k]?.map f = if k ∈ ks then none else m[k]?.map f)
include hn hks hm

/-- What the values of some keys add to a sum is missing when just these are gone. -/
theorem total_of_gone (w : γ → Nat) : total m (w ∘ f) =
    (ks.map fun k => (m[k]?.map (w ∘ f)).getD 0).sum + total m' (w ∘ f) := by
  have he : total m' (w ∘ f) = total (eraseAll m ks) (w ∘ f) := by
    apply total_congr
    intro k
    rw [get_eraseAll, ← Option.map_map, hm]
    split
    · rfl
    · rw [Option.map_map]
  rw [he]
  exact total_eraseAll _ hn hks

theorem size_of_gone : m.size = ks.length + m'.size := by
  have ht := total_of_gone hn hks hm fun _ => 1
  have hone : (ks.map fun k => (m[k]?.map ((fun _ => 1) ∘ f)).getD 0) = ks.map fun _ => 1 := by
    apply List.map_congr_left
    intro k hk
    obtain ⟨v, hv⟩ := contains_iff.1 (hks k hk)
    rw [hv]
    rfl
  have hsize : ∀ m : Std.ExtTreeMap α β, total m ((fun _ => 1) ∘ f) = m.size := by
    intro m
    exact (total_const m 1).trans (Nat.mul_one _)
  rw [hsize, hsize, hone] at ht
  simpa using ht

end Gone

theorem total_modify (w : β → Nat) {k : α} {v : β} (f : β → β) (h : m[k]? = some v) :
    total (m.modify k f) w + w v = total m w + w (f v) := by
  have hf : (m.modify k f)[k]? = some (f v) := by rw [get_modify, if_pos rfl, h, Option.map_some]
  rw [total_eq_add_of_get w hf, total_eq_add_of_get w h, erase_modify_self]
  omega

theorem le_total (w : β → Nat) {k : α} {v : β} (h : m[k]? = some v) : w v ≤ total m w := by
  rw [total_eq_add_of_get w h]
  exact Nat.le_add_right _ _

end TrieCache.Map
