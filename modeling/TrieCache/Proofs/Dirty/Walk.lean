import TrieCache.Dirty.Walk
import TrieCache.Proofs.Map

namespace TrieCache.Dirty

/-- A path through nodes that can be entered leads from the first node to the second. -/
inductive Reaches (next : Hash → Option (List Hash)) : Hash → Hash → Prop
  | refl {h : Hash} : (next h).isSome → Reaches next h h
  | head {h c k : Hash} {children : List Hash} :
    next h = some children → c ∈ children → Reaches next c k → Reaches next h k

namespace Reaches

variable {next next' : Hash → Option (List Hash)} {h k : Hash}

theorem isSome_left (hr : Reaches next h k) : (next h).isSome := by
  cases hr with
  | refl hn => exact hn
  | head hn _ _ => rw [hn, Option.isSome_some]

theorem isSome_right (hr : Reaches next h k) : (next k).isSome := by
  induction hr with
  | refl hn => exact hn
  | head _ _ _ ih => exact ih

theorem mono (hr : Reaches next h k) (hn : ∀ h children, next h = some children →
    ∃ children', next' h = some children' ∧ children ⊆ children') : Reaches next' h k := by
  induction hr with
  | @refl h hs =>
    obtain ⟨children, hc⟩ := Option.isSome_iff_exists.1 hs
    obtain ⟨children', hc', _⟩ := hn h children hc
    exact .refl (by rw [hc', Option.isSome_some])
  | head hc hm _ ih =>
    obtain ⟨children', hc', hsub⟩ := hn _ _ hc
    exact .head hc' (hsub hm) ih

end Reaches

namespace Walk

variable {next : Hash → Option (List Hash)} {w w' w'' : Walk} {h k : Hash}
  {starts children dom : List Hash}

/-- What a walk down from `starts` has done: the nodes entered are those left again, they are
reached from `starts`, and nothing that can be entered from them is passed over. -/
structure Explores (next : Hash → Option (List Hash)) (starts : List Hash) (w w' : Walk) :
    Prop where
  seen : ∀ k ∈ w.seen, k ∈ w'.seen
  left : ∀ k, k ∈ w'.left ↔ k ∈ w.left ∨ k ∈ w'.seen ∧ k ∉ w.seen
  reached : ∀ k ∈ w'.seen, k ∈ w.seen ∨ ∃ h ∈ starts, Reaches next h k
  roots : ∀ h ∈ starts, (next h).isSome → h ∈ w'.seen
  closed : ∀ k ∈ w'.seen, k ∉ w.seen → ∀ children, next k = some children →
    ∀ c ∈ children, (next c).isSome → c ∈ w'.seen

namespace Explores

theorem nil (next : Hash → Option (List Hash)) (w : Walk) : Explores next [] w w where
  seen _ hk := hk
  left k := by simp
  reached _ hk := .inl hk
  roots := nofun
  closed k hk hn := absurd hk hn

theorem skip (hs : (next h).isSome → h ∈ w.seen) : Explores next [h] w w where
  seen _ hk := hk
  left k := by simp
  reached _ hk := .inl hk
  roots k hk := by
    rw [List.mem_singleton] at hk
    exact hk ▸ hs
  closed k hk hn := absurd hk hn

theorem cons (h₁ : Explores next [h] w w') (h₂ : Explores next starts w' w'') :
    Explores next (h :: starts) w w'' where
  seen k hk := h₂.seen k (h₁.seen k hk)
  left k := by
    rw [h₂.left, h₁.left]
    have h01 := h₁.seen k
    have h12 := h₂.seen k
    tauto
  reached k hk := by
    rcases h₂.reached k hk with hk | ⟨a, ha, hr⟩
    · rcases h₁.reached k hk with hk | ⟨a, ha, hr⟩
      · exact .inl hk
      · rw [List.mem_singleton] at ha
        exact .inr ⟨h, List.mem_cons_self, ha ▸ hr⟩
    · exact .inr ⟨a, List.mem_cons_of_mem _ ha, hr⟩
  roots a ha hn := by
    rcases List.mem_cons.1 ha with rfl | ha
    · exact h₂.seen a (h₁.roots a List.mem_cons_self hn)
    · exact h₂.roots a ha hn
  closed k hk hn children hc c hm hs := by
    by_cases hk' : k ∈ w'.seen
    · exact h₂.seen c (h₁.closed k hk' hn children hc c hm hs)
    · exact h₂.closed k hk hk' children hc c hm hs

theorem enter (hn : next h = some children) (hs : h ∉ w.seen)
    (he : Explores next children { w with seen := w.seen.insert h } w') :
    Explores next [h] w { w' with left := h :: w'.left } := by
  have hmem : ∀ k, k ∈ w.seen.insert h ↔ h = k ∨ k ∈ w.seen := by
    intro k
    rw [Std.ExtTreeSet.mem_insert, Std.LawfulEqOrd.compare_eq_iff_eq]
  have hh : h ∈ w'.seen := he.seen h ((hmem h).2 (.inl rfl))
  refine ⟨?_, ?_, ?_, ?_, ?_⟩
  · intro k hk
    exact he.seen k ((hmem k).2 (.inr hk))
  · intro k
    rw [List.mem_cons, he.left, hmem]
    by_cases hk : k = h
    · subst k
      simp [hh, hs]
    · simp [hk, Ne.symm hk]
  · intro k hk
    rcases he.reached k hk with hk | ⟨c, hc, hr⟩
    · rcases (hmem k).1 hk with rfl | hk
      · exact .inr ⟨h, List.mem_singleton_self h, .refl (by rw [hn, Option.isSome_some])⟩
      · exact .inl hk
    · exact .inr ⟨h, List.mem_singleton_self h, .head hn hc hr⟩
  · intro k hk _
    rw [List.mem_singleton] at hk
    exact hk ▸ hh
  · intro k hk hks cs hcs c hc hsome
    by_cases he' : h = k
    · subst k
      rw [hn, Option.some.injEq] at hcs
      subst hcs
      exact he.roots c hc hsome
    · have hk' : k ∉ w.seen.insert h := fun hm => ((hmem k).1 hm).elim he' hks
      exact he.closed k hk hk' cs hcs c hc hsome

/-- A walk that starts with nothing entered misses nothing. -/
theorem mem_of_reaches (he : Explores next starts w w') (hw : ∀ k, k ∉ w.seen)
    (hr : Reaches next h k) (hh : h ∈ w'.seen) : k ∈ w'.seen := by
  induction hr with
  | refl _ => exact hh
  | head hn hc hr ih => exact ih (he.closed _ hh (hw _) _ hn _ hc hr.isSome_left)

end Explores

def unseen (dom : List Hash) (seen : HashSet) : Nat := dom.countP (· ∉ seen)

theorem unseen_le {seen seen' : HashSet} (hs : ∀ k ∈ seen, k ∈ seen') :
    unseen dom seen' ≤ unseen dom seen := by
  apply List.countP_mono_left
  intro k _ hk
  simp only [decide_eq_true_eq] at hk ⊢
  exact fun hm => hk (hs k hm)

theorem unseen_insert_lt {seen : HashSet} (hd : h ∈ dom) (hs : h ∉ seen) :
    unseen dom (seen.insert h) < unseen dom seen := by
  have hmem : ∀ k ∈ seen, k ∈ seen.insert h := by
    intro k hk
    rw [Std.ExtTreeSet.mem_insert]
    exact .inr hk
  have hh : h ∈ seen.insert h := by simp
  obtain ⟨p, q, rfl⟩ := List.append_of_mem hd
  have hp : unseen p (seen.insert h) ≤ unseen p seen := unseen_le hmem
  have hq : unseen q (seen.insert h) ≤ unseen q seen := unseen_le hmem
  simp only [unseen, List.countP_append, List.countP_cons, hh, hs, not_true_eq_false,
    not_false_eq_true, decide_true, decide_false, Bool.false_eq_true, ↓reduceIte] at hp hq ⊢
  omega

theorem explores_foldl {depth : Nat} (hvisit : ∀ w h, unseen dom w.seen < depth →
      Explores next [h] w (visit next depth w h)) (hw : unseen dom w.seen < depth) :
    Explores next starts w (starts.foldl (visit next depth) w) := by
  induction starts generalizing w with
  | nil => exact .nil next w
  | cons h starts ih =>
    have h₁ := hvisit w h hw
    exact h₁.cons (ih ((unseen_le h₁.seen).trans_lt hw))

theorem explores_visit {depth : Nat} (hdom : ∀ k, (next k).isSome → k ∈ dom)
    (hw : unseen dom w.seen < depth) :
    Explores next [h] w (visit next depth w h) := by
  induction depth generalizing w h with
  | zero => exact absurd hw (Nat.not_lt_zero _)
  | succ depth ih =>
    rw [visit]
    split
    · next hs => exact .skip fun _ => hs
    · next hs =>
      cases hn : next h with
      | none => exact .skip fun hsome => by rw [hn] at hsome; cases hsome
      | some children =>
        have hh : h ∈ dom := hdom h (by rw [hn, Option.isSome_some])
        have hlt := unseen_insert_lt hh hs
        exact .enter hn hs (explores_foldl (fun w h => ih) (by dsimp only; omega))

end Walk

theorem mem_postorder_iff {next : Hash → Option (List Hash)} {dom : List Hash} {depth : Nat}
    {root k : Hash} (hdom : ∀ k, (next k).isSome → k ∈ dom) (hdepth : dom.length < depth) :
    k ∈ postorder next depth root ↔ Reaches next root k := by
  have hw : Walk.unseen dom ({} : Walk).seen < depth := List.countP_le_length.trans_lt hdepth
  have he := Walk.explores_visit (h := root) hdom hw
  have hempty : k ∉ ({} : Walk).seen := by simp
  rw [postorder, List.mem_reverse, he.left, or_iff_right List.not_mem_nil, and_iff_left hempty]
  constructor
  · intro hk
    rcases he.reached k hk with hk | ⟨h, hh, hr⟩
    · exact absurd hk hempty
    · rw [List.mem_singleton] at hh
      exact hh ▸ hr
  · intro hr
    have hroot := he.roots root (List.mem_singleton_self root) hr.isSome_left
    exact he.mem_of_reaches (fun _ => by simp) hr hroot

section Cached

variable {d : Dirty} {h k root : Hash}

theorem mem_keys_of_isSome {β : Type} {f : Record → β} (hs : (d.records[h]?.map f).isSome) :
    h ∈ d.records.keys := by
  rw [Option.isSome_map, ← Std.ExtTreeMap.contains_eq_isSome_getElem?] at hs
  rw [Std.ExtTreeMap.mem_keys, ← Std.ExtTreeMap.contains_iff_mem]
  exact hs

theorem mem_keys_of_freshChildren {order : Arrangement} (hs : (d.freshChildren order h).isSome) :
    h ∈ d.records.keys := by
  rw [freshChildren] at hs
  split at hs
  · exact mem_keys_of_isSome hs
  · cases hs

theorem length_keys_lt (d : Dirty) : d.records.keys.length < d.depthBound := by
  rw [Std.ExtTreeMap.length_keys]
  exact Nat.lt_succ_self _

theorem Record.arrangedChildren_perm (r : Record) (order : Arrangement) (h : Hash) :
    (r.arrangedChildren order h).Perm r.children :=
  (order.perm _ r.explicitChildren).append_right r.implicitChildren

theorem reaches_arrangedChildren_iff {order : Arrangement} :
    Reaches (d.arrangedChildren order) h k ↔ Reaches d.cachedChildren h k := by
  constructor <;> intro hr <;> apply hr.mono <;> intro h children hc <;>
    obtain ⟨r, hg, rfl⟩ := Option.map_eq_some_iff.1 hc <;>
    have hperm := r.arrangedChildren_perm order h
  · exact ⟨r.children, by rw [cachedChildren, hg, Option.map_some], hperm.subset⟩
  · exact ⟨_, by rw [arrangedChildren, hg, Option.map_some], hperm.symm.subset⟩

theorem mem_closure_iff (d : Dirty) (order : Arrangement) (root k : Hash) :
    k ∈ d.closure order root ↔ Reaches d.cachedChildren root k :=
  (mem_postorder_iff (fun _ hs => mem_keys_of_isSome hs) d.length_keys_lt).trans
    reaches_arrangedChildren_iff

theorem mem_freshClosure_iff (d : Dirty) (order : Arrangement) (root k : Hash) :
    k ∈ d.freshClosure order root ↔ Reaches (d.freshChildren order) root k :=
  mem_postorder_iff (fun _ => mem_keys_of_freshChildren) d.length_keys_lt

theorem fresh_of_freshChildren {order : Arrangement} (hs : (d.freshChildren order h).isSome) :
    h ∈ d.fresh := by
  rw [freshChildren] at hs
  split at hs
  · next hf => exact hf
  · cases hs

theorem fresh_of_mem_freshClosure {order : Arrangement} (hk : k ∈ d.freshClosure order root) :
    k ∈ d.fresh :=
  fresh_of_freshChildren ((mem_freshClosure_iff d order root k).1 hk).isSome_right

theorem get_claims (hs : List Hash) (d : Dirty) (k : Hash) :
    (hs.foldl claim d).records[k]? =
      d.records[k]?.map fun r => if k ∈ hs then { r with version := d.version } else r := by
  induction hs generalizing d with
  | nil => simp
  | cons h hs ih =>
    rw [List.foldl_cons, ih, claim, Map.get_modify]
    by_cases hk : h = k
    · subst k
      cases d.records[h]? <;> simp
    · cases d.records[k]? <;> simp [hk, Ne.symm hk]

theorem claims_eq (claimed : List Hash) (d : Dirty) :
    claimed.foldl claim d = { d with records := (claimed.foldl claim d).records } := by
  induction claimed generalizing d with
  | nil => rfl
  | cons h claimed ih =>
    rw [List.foldl_cons, ih]
    rfl

theorem version_claims (hs : List Hash) (d : Dirty) : (hs.foldl claim d).version = d.version := by
  rw [claims_eq]

theorem fresh_stamp (d : Dirty) (order : Arrangement) (root : Hash) :
    (d.stamp order root).fresh = d.fresh := by
  rw [stamp, claims_eq]

theorem version_stamp (d : Dirty) (order : Arrangement) (root : Hash) :
    (d.stamp order root).version = d.version :=
  version_claims ..

theorem get_stamp (d : Dirty) (order : Arrangement) (root k : Hash) :
    (d.stamp order root).records[k]? = d.records[k]?.map fun r =>
      if k ∈ d.closure order root then { r with version := d.version } else r :=
  get_claims ..

end Cached

end TrieCache.Dirty
