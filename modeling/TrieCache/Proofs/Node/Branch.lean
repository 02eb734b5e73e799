import TrieCache.Proofs.Node.Canonical

namespace TrieCache

theorem Slots.eq_of_get? {n : Nat} {s t : Slots n} (h : ∀ i < n, s.get? i = t.get? i) : s = t := by
  induction n with
  | zero =>
    cases s
    cases t
    rfl
  | succ n ih =>
    obtain ⟨slot, rest, rfl⟩ := s.exists_cons
    obtain ⟨slot', rest', rfl⟩ := t.exists_cons
    have hslot : slot = slot' := by
      simpa only [get?_cons_zero] using h 0 n.succ_pos
    have hrest : rest = rest' := ih fun i hi => by
      simpa only [get?_cons_succ] using h (i + 1) (Nat.succ_lt_succ hi)
    rw [hslot, hrest]

namespace Node

/-- The slot that a nibble falls on. -/
def slotOf (nibble : UInt8) : Nat := (nibble &&& 0xf).toNat

/-- The child of the last pair whose nibble stands for `i`. -/
def lastChild (place : UInt8 → Nat) (children : List (UInt8 × Node)) (i : Nat) : Option Node :=
  ((children.filter fun c => place c.1 = i).getLast?).map Prod.snd

/-- A nibble above fifteen decides on a slot: no later pair falls on it, and what it brings is not
what the pairs with the right nibble have put there. -/
def Misplaced (children : List (UInt8 × Node)) : Prop :=
  ∃ p c q, children = p ++ c :: q ∧ 16 ≤ c.1.toNat ∧ (∀ c' ∈ q, slotOf c'.1 ≠ slotOf c.1) ∧
    lastChild UInt8.toNat p (slotOf c.1) ≠ some c.2

variable {place : UInt8 → Nat} {children p q : List (UInt8 × Node)} {c : UInt8 × Node} {i : Nat}

theorem slotOf_eq (nibble : UInt8) : slotOf nibble = nibble.toNat % 16 := by
  rw [slotOf, UInt8.toNat_and]
  exact Nat.and_two_pow_sub_one_eq_mod nibble.toNat 4

theorem slotOf_lt (nibble : UInt8) : slotOf nibble < 16 := by
  rw [slotOf_eq]
  exact Nat.mod_lt _ (by decide)

theorem slotOf_of_lt {nibble : UInt8} (h : nibble.toNat < 16) : slotOf nibble = nibble.toNat := by
  rw [slotOf_eq, Nat.mod_eq_of_lt h]

theorem lastChild_concat :
    lastChild place (children ++ [c]) i =
      if place c.1 = i then some c.2 else lastChild place children i := by
  rw [lastChild, List.filter_append]
  by_cases h : place c.1 = i
  · simp [h]
  · simp [h, lastChild]

theorem lastChild_append_of_forall_ne (h : ∀ c ∈ q, place c.1 ≠ i) :
    lastChild place (p ++ q) i = lastChild place p i := by
  have hq : q.filter (fun c => place c.1 = i) = [] := by
    simpa using h
  rw [lastChild, List.filter_append, hq, List.append_nil, lastChild]

theorem lastChild_cases (place : UInt8 → Nat) (children : List (UInt8 × Node)) (i : Nat) :
    (∀ c ∈ children, place c.1 ≠ i) ∨
      ∃ p c q, children = p ++ c :: q ∧ place c.1 = i ∧ ∀ c' ∈ q, place c'.1 ≠ i := by
  induction children using List.reverseRecOn with
  | nil => exact .inl nofun
  | append_singleton children c ih =>
    by_cases h : place c.1 = i
    · exact .inr ⟨children, c, [], rfl, h, nofun⟩
    · obtain hnone | ⟨p, c', q, rfl, hc', hq⟩ := ih
      · left
        intro c' hm
        rcases List.mem_append.1 hm with hm | hm
        · exact hnone c' hm
        · rw [List.mem_singleton.1 hm]
          exact h
      · refine .inr ⟨p, c', q ++ [c], by simp, hc', ?_⟩
        intro c'' hm
        rcases List.mem_append.1 hm with hm | hm
        · exact hq c'' hm
        · rw [List.mem_singleton.1 hm]
          exact h

theorem get?_foldl_set (children : List (UInt8 × Node)) (hi : i < 17) :
    (children.foldl (fun s c => s.set (slotOf c.1) (some c.2)) (Slots.empty 17)).get? i =
      lastChild slotOf children i := by
  induction children using List.reverseRecOn with
  | nil => rw [List.foldl_nil, Slots.get?_empty]; rfl
  | append_singleton children c ih =>
    rw [List.foldl_concat, lastChild_concat]
    by_cases h : slotOf c.1 = i
    · rw [if_pos h, ← h]
      exact Slots.get?_set_self _ _ (h ▸ hi)
    · rw [if_neg h, Slots.get?_set_ne _ _ h, ih]

theorem lastChild_of_split (h : ∀ c' ∈ q, place c'.1 ≠ i) :
    lastChild place (p ++ c :: q) i =
      if place c.1 = i then some c.2 else lastChild place p i := by
  rw [List.append_cons, lastChild_append_of_forall_ne h, lastChild_concat]

theorem lastChild_filter (children : List (UInt8 × Node)) (hi : i < 16) :
    lastChild slotOf (children.filter fun c => c.1.toNat < 16) i =
      lastChild UInt8.toNat children i := by
  rw [lastChild, lastChild, List.filter_filter]
  congr 3
  funext c
  rw [slotOf_eq, ← Bool.decide_and, decide_eq_decide]
  omega

/-- The two differ just if the last pair that falls on the slot has another nibble and brings
something new. -/
theorem lastChild_eq_iff (children : List (UInt8 × Node)) (hi : i < 16) :
    lastChild slotOf children i = lastChild UInt8.toNat children i ↔
      ∀ p c q, children = p ++ c :: q → 16 ≤ c.1.toNat → (∀ c' ∈ q, slotOf c'.1 ≠ slotOf c.1) →
        slotOf c.1 = i → lastChild UInt8.toNat p i = some c.2 := by
  have hne : ∀ nibble : UInt8, slotOf nibble ≠ i → nibble.toNat ≠ i := by
    intro nibble h he
    rw [slotOf_eq] at h
    omega
  constructor
  · rintro he p c q rfl hc hq rfl
    rw [lastChild_of_split hq, if_pos rfl, lastChild_of_split fun c' hm => hne c'.1 (hq c' hm),
      if_neg (by omega)] at he
    exact he.symm
  · intro h
    obtain hnone | ⟨p, c, q, rfl, rfl, hq⟩ := lastChild_cases slotOf children i
    · have hs := lastChild_append_of_forall_ne (p := []) hnone
      have hn := lastChild_append_of_forall_ne (p := []) fun c hm => hne c.1 (hnone c hm)
      exact hs.trans hn.symm
    · rw [lastChild_of_split hq, if_pos rfl, lastChild_of_split fun c' hm => hne c'.1 (hq c' hm)]
      by_cases hc : c.1.toNat < 16
      · rw [if_pos (slotOf_of_lt hc).symm]
      · rw [if_neg (by omega)]
        exact (h p c q rfl (by omega) hq rfl).symm

theorem forall_lastChild_eq_iff (children : List (UInt8 × Node)) :
    (∀ i : Fin 16, lastChild slotOf children i = lastChild UInt8.toNat children i) ↔
      ¬ Misplaced children := by
  constructor
  · rintro h ⟨p, c, q, he, hc, hq, hne⟩
    have hi := slotOf_lt c.1
    exact hne ((lastChild_eq_iff children hi).1 (h ⟨_, hi⟩) p c q he hc hq rfl)
  · intro h i
    refine (lastChild_eq_iff children i.isLt).2 fun p c q he hc hq hi => ?_
    by_contra hne
    exact h ⟨p, c, q, he, hc, hq, hi ▸ hne⟩

theorem exists_slots_branch (children : List (UInt8 × Node)) (value : Option Bytes) :
    ∃ slots, branch children value = full slots ∧
      (∀ i : Fin 16, slots.get? i = lastChild slotOf children i) ∧
      slots.get? 16 = value.map .value := by
  refine ⟨_, rfl, fun i => ?_, Slots.get?_set_self _ _ (by decide)⟩
  rw [Slots.get?_set_ne _ _ (by omega)]
  exact get?_foldl_set children (by omega)

/-- Each slot of a branch holds the child of the last pair that falls on it, and the last slot the
value. That child is the one of the slot's own nibble, as if there were no pairs with other nibbles,
just if no pair is misplaced. -/
theorem branch_places_children (children : List (UInt8 × Node)) (value : Option Bytes) :
    ∃ slots, branch children value = full slots ∧
      (∀ i : Fin 16, slots.get? i = lastChild slotOf children i) ∧
      slots.get? 16 = value.map .value ∧
      ((∀ i : Fin 16, slots.get? i = lastChild UInt8.toNat children i) ↔
        ¬ Misplaced children) ∧
      (branch (children.filter fun c => c.1.toNat < 16) value = branch children value ↔
        ¬ Misplaced children) := by
  obtain ⟨slots, hs, hchild, hvalue⟩ := exists_slots_branch children value
  obtain ⟨slots', hs', hchild', hvalue'⟩ :=
    exists_slots_branch (children.filter fun c => c.1.toNat < 16) value
  have hown : ∀ i : Fin 16, slots'.get? i = lastChild UInt8.toNat children i := fun i =>
    (hchild' i).trans (lastChild_filter children i.isLt)
  refine ⟨slots, hs, hchild, hvalue, ?_, ?_⟩
  · rw [← forall_lastChild_eq_iff]
    exact forall_congr' fun i => by rw [hchild i]
  · rw [hs, hs', full.injEq, ← forall_lastChild_eq_iff]
    constructor
    · rintro rfl i
      rw [← hchild i, hown i]
    · intro h
      refine Slots.eq_of_get? fun i hi => ?_
      by_cases h16 : i = 16
      · rw [h16, hvalue, hvalue']
      · have hi : i < 16 := by omega
        exact (hown ⟨i, hi⟩).trans ((h ⟨i, hi⟩).symm.trans (hchild ⟨i, hi⟩).symm)

/-- A pair with the nibble sixteen takes the first slot from the pair that it belongs to. -/
theorem child_displaced_by_sixteen :
    let children := [(0, hash (.fill 0x11)), (16, hash (.fill 0x22))]
    ∃ slots, branch children none = full slots ∧ slots.get? 0 = some (hash (.fill 0x22)) ∧
      lastChild UInt8.toNat children 0 = some (hash (.fill 0x11)) ∧
      branch (children.filter fun c => c.1.toNat < 16) none ≠ branch children none := by
  exact ⟨_, rfl, rfl, rfl, by decide⟩

end Node
end TrieCache
