import Mathlib.Data.Fintype.Order
import TrieCache.Proofs.Node.Canonical

namespace TrieCache

/-- A trie with everything that is below its root. -/
inductive Trie
  | leaf (path : Path) (value : Bytes)
  | extension (path : Path) (child : Trie)
  | branch (children : Fin 16 → Option Trie) (value : Option Bytes)

namespace Trie

/-- Paths are what they should be, and the empty string is not taken for a branch's value. -/
inductive WellFormed : Trie → Prop
  | leaf {path : Path} {value : Bytes} : path.WellFormed → path.terminated →
    WellFormed (.leaf path value)
  | extension {path : Path} {child : Trie} : path.WellFormed → path.terminated = false →
    child.WellFormed → WellFormed (.extension path child)
  | branch {children : Fin 16 → Option Trie} {value : Option Bytes} :
    (∀ i child, children i = some child → child.WellFormed) → value ≠ some [] →
    WellFormed (.branch children value)

section Collapse

mutual

def node : Trie → Node
  | .leaf path value => .leaf path value
  | .extension path child => .extension path child.node.collapse.1
  | .branch children value =>
    .branch ((List.finRange 16).filterMap fun i =>
      (reference (children i)).map (i.val.toUInt8, ·)) value

def reference : Option Trie → Option Node
  | none => none
  | some child => some child.node.collapse.1

end

/-- A node beside its stored form, if it has to be stored on its own. -/
def returned (node : Node) : List (Node × Bytes) :=
  (node.collapse.2.map (node, ·)).toList

mutual

/-- The nodes below the root that have to be stored, each with its stored form. -/
def inner : Trie → List (Node × Bytes)
  | .leaf _ _ => []
  | .extension _ child => child.inner ++ returned child.node
  | .branch children _ => (List.finRange 16).flatMap fun i => innerSlot (children i)

def innerSlot : Option Trie → List (Node × Bytes)
  | none => []
  | some child => child.inner ++ returned child.node

end

/-- All that is stored for a trie; its root always is. -/
def stored (t : Trie) : List (Node × Bytes) := t.inner ++ [(t.node, t.node.encode)]

/-- What is found under a hash after everything has been stored in turn. -/
def table (stored : List (Node × Bytes)) : HashMap Bytes :=
  stored.foldl (fun table entry => table.insert (Hash.keccak entry.2) entry.2) ∅

end Collapse

section Resolve

def ownValue : Option Node → Option (Option Bytes)
  | none => some none
  | some (.value bytes) => some (some bytes)
  | some _ => none

/-- Puts the trie at a node together: hashes are looked up and what is found is read. -/
def resolve (table : HashMap Bytes) : (depth : Nat) → Node → Option Trie
  | 0, _ => none
  | depth + 1, .hash h => do
    let bytes ← table[h]?
    let node ← (Node.decode bytes).toOption
    resolve table depth node
  | _ + 1, .short path (.value value) => some (.leaf path value)
  | depth + 1, .short path child => (resolve table depth child).map (.extension path)
  | depth + 1, .full slots =>
    let children (i : Fin 16) := (slots.get? i).bind (resolve table depth)
    if ∀ i, (children i).isSome = (slots.get? i).isSome then
      (ownValue (slots.get? 16)).map (.branch children)
    else none
  | _ + 1, .value _ => none

end Resolve

variable {t : Trie} {n : Node} {entry : Node × Bytes} {table : HashMap Bytes}

section Canonical

theorem get?_foldl_set (f : Fin 16 → Option Node) (is : List (Fin 16)) (slots : Slots 17)
    (j : Fin 16) :
    ((is.filterMap fun i => (f i).map (i.val.toUInt8, ·)).foldl
      (fun s c => s.set (c.1 &&& 0xf).toNat (some c.2)) slots).get? j =
        if j ∈ is then (f j).or (slots.get? j) else slots.get? j := by
  have hindex : ∀ i : Fin 16, (i.val.toUInt8 &&& 0xf).toNat = i.val := by decide
  induction is generalizing slots with
  | nil => rfl
  | cons i is ih =>
    cases hf : f i with
    | none =>
      rw [List.filterMap_cons_none (by rw [hf]; rfl), ih]
      by_cases hj : j = i
      · subst hj
        simp [hf]
      · simp [hj]
    | some c =>
      rw [List.filterMap_cons_some (by rw [hf]; rfl), List.foldl_cons, ih, hindex]
      by_cases hj : j = i
      · subst hj
        rw [Slots.get?_set_self slots _ (by omega)]
        simp [hf]
      · rw [Slots.get?_set_ne slots _ fun he => hj (Fin.ext he.symm)]
        simp [hj]

theorem exists_slots (children : Fin 16 → Option Trie) (value : Option Bytes) :
    ∃ slots, (branch children value).node = .full slots ∧
      (∀ i : Fin 16, slots.get? i = reference (children i)) ∧
      slots.get? 16 = value.map .value := by
  refine ⟨_, by rw [node, Node.branch], ?_, Slots.get?_set_self _ _ (by decide)⟩
  intro i
  rw [Slots.get?_set_ne _ _ (by omega), get?_foldl_set, if_pos (List.mem_finRange i),
    Slots.get?_empty, Option.or_none]

theorem reference_collapse (hc : n.Canonical) : n.collapse.1.Reference := by
  rw [Node.collapse]
  split
  · next hs => exact .embedded hc hs
  · exact .hash

theorem canonical_node (ht : t.WellFormed) : t.node.Canonical := by
  induction ht with
  | leaf hpath hterminated =>
    rw [node]
    exact .leaf hpath hterminated
  | extension hpath hterminated _ ih =>
    rw [node]
    exact .extension hpath hterminated (reference_collapse ih)
  | @branch children value _ hv ih =>
    obtain ⟨slots, he, hchildren, hvalue⟩ := exists_slots children value
    rw [he]
    constructor
    · intro i child hi hg
      have hslot := hchildren ⟨i, hi⟩
      dsimp only at hslot
      rw [hg] at hslot
      cases hc : children ⟨i, hi⟩ with
      | none =>
        rw [hc, reference] at hslot
        cases hslot
      | some t =>
        rw [hc, reference] at hslot
        cases hslot
        exact reference_collapse (ih _ t hc)
    · intro v hg
      rw [hvalue] at hg
      obtain ⟨bytes, rfl, rfl⟩ := Option.map_eq_some_iff.1 hg
      exact ⟨bytes, fun he => hv (congrArg some he), rfl⟩

theorem eq_of_mem_returned (h : entry ∈ returned n) : entry = (n, n.encode) := by
  rw [returned, Node.collapse] at h
  split at h
  · cases h
  · exact List.mem_singleton.1 h

theorem mem_inner_branch {children : Fin 16 → Option Trie} {value : Option Bytes} :
    entry ∈ (branch children value).inner ↔
      ∃ i child, children i = some child ∧ entry ∈ child.inner ++ returned child.node := by
  rw [inner, List.mem_flatMap]
  constructor
  · rintro ⟨i, _, h⟩
    cases hc : children i with
    | none =>
      rw [hc, innerSlot] at h
      cases h
    | some child =>
      rw [hc, innerSlot] at h
      exact ⟨i, child, hc, h⟩
  · rintro ⟨i, child, hc, h⟩
    refine ⟨i, List.mem_finRange i, ?_⟩
    rw [hc, innerSlot]
    exact h

theorem canonical_of_mem_inner (ht : t.WellFormed) (h : entry ∈ t.inner) :
    entry.1.Canonical ∧ entry.2 = entry.1.encode := by
  have hchild : ∀ {child : Trie}, child.WellFormed →
      (entry ∈ child.inner → entry.1.Canonical ∧ entry.2 = entry.1.encode) →
      entry ∈ child.inner ++ returned child.node →
      entry.1.Canonical ∧ entry.2 = entry.1.encode := by
    intro child hc ih hm
    rcases List.mem_append.1 hm with hm | hm
    · exact ih hm
    · rw [eq_of_mem_returned hm]
      exact ⟨canonical_node hc, rfl⟩
  induction ht with
  | leaf _ _ =>
    rw [inner] at h
    cases h
  | extension _ _ hc ih =>
    rw [inner] at h
    exact hchild hc ih h
  | branch hc _ ih =>
    obtain ⟨i, child, hi, hm⟩ := mem_inner_branch.1 h
    exact hchild (hc i child hi) (ih i child hi) hm

theorem mem_stored : entry ∈ t.stored ↔ entry ∈ t.inner ∨ entry = (t.node, t.node.encode) := by
  rw [stored, List.mem_append, List.mem_singleton]

theorem canonical_of_mem_stored (ht : t.WellFormed) (h : entry ∈ t.stored) :
    entry.1.Canonical ∧ entry.2 = entry.1.encode := by
  rcases mem_stored.1 h with h | rfl
  · exact canonical_of_mem_inner ht h
  · exact ⟨canonical_node ht, rfl⟩

end Canonical

section Rebuild

/-- Everything there is to find is found, and is short enough to be read. -/
def Finds (table : HashMap Bytes) (entries : List (Node × Bytes)) : Prop :=
  ∀ entry ∈ entries, table[Hash.keccak entry.2]? = some entry.2 ∧
    Node.decode entry.2 = .ok entry.1

/-- From some depth on the trie at a node is put together. -/
def Rebuilds (table : HashMap Bytes) (n : Node) (t : Trie) : Prop :=
  ∃ depth, ∀ d, depth ≤ d → resolve table d n = some t

theorem Rebuilds.step {d : Nat} (h : ∀ e, d ≤ e → resolve table (e + 1) n = some t) :
    Rebuilds table n t := by
  refine ⟨d + 1, ?_⟩
  intro e hle
  obtain ⟨k, rfl⟩ := Nat.exists_eq_add_of_le' hle
  rw [← Nat.add_assoc]
  exact h (k + d) (Nat.le_add_left _ _)

theorem Rebuilds.hash (hr : Rebuilds table n t)
    (hfound : table[Hash.keccak n.encode]? = some n.encode) (hd : Node.decode n.encode = .ok n) :
    Rebuilds table (.hash n.hashOf) t := by
  obtain ⟨depth, hr⟩ := hr
  apply Rebuilds.step (d := depth)
  intro d hle
  rw [resolve, Node.hashOf, hfound]
  change ((Node.decode n.encode).toOption.bind (resolve table d)) = some t
  rw [hd]
  exact hr d hle

theorem Rebuilds.collapse (hr : Rebuilds table n t) (hf : Finds table (returned n)) :
    Rebuilds table n.collapse.1 t := by
  rw [Finds, returned, Node.collapse] at hf
  rw [Node.collapse]
  split
  · exact hr
  · next hs =>
    rw [if_neg hs] at hf
    obtain ⟨hfound, hd⟩ := hf _ (List.mem_singleton.2 rfl)
    exact hr.hash hfound hd

theorem Rebuilds.extension {path : Path} {child : Node} (hr : Rebuilds table child t)
    (hc : child.Reference) : Rebuilds table (.short path child) (.extension path t) := by
  obtain ⟨depth, hr⟩ := hr
  apply Rebuilds.step (d := depth)
  intro d hle
  have hchild := hr d hle
  rw [resolve, hchild]
  · rfl
  · rintro v rfl
    rcases hc with _ | ⟨hc, _⟩
    cases hc

theorem Rebuilds.branch {children : Fin 16 → Option Trie} {value : Option Bytes} {slots : Slots 17}
    (hslots : ∀ i : Fin 16, slots.get? i = reference (children i))
    (hvalue : slots.get? 16 = value.map .value)
    (hr : ∀ i child, children i = some child → Rebuilds table child.node.collapse.1 child) :
    Rebuilds table (.full slots) (.branch children value) := by
  have hdepth : ∀ i : Fin 16, ∃ depth, ∀ d, depth ≤ d →
      (slots.get? i).bind (resolve table d) = children i := by
    intro i
    rw [hslots]
    cases hc : children i with
    | none => exact ⟨0, fun _ _ => rfl⟩
    | some child => exact hr i child hc
  choose depths hdepths using hdepth
  obtain ⟨depth, hle⟩ := Finite.exists_le depths
  apply Rebuilds.step (d := depth)
  intro d hd
  have hchildren : ∀ i : Fin 16, (slots.get? i).bind (resolve table d) = children i :=
    fun i => hdepths i d (Nat.le_trans (hle i) hd)
  have hsome : ∀ i : Fin 16,
      ((slots.get? i).bind (resolve table d)).isSome = (slots.get? i).isSome := by
    intro i
    rw [hchildren, hslots]
    cases children i <;> rfl
  have hown : ownValue (slots.get? 16) = some value := by
    rw [hvalue]
    cases value <;> rfl
  rw [resolve]
  dsimp only
  rw [if_pos hsome, hown, Option.map_some, funext hchildren]

/-- With all that is stored below it a trie is put together from its root. -/
theorem rebuilds_node (ht : t.WellFormed) (hf : Finds table t.inner) :
    Rebuilds table t.node t := by
  induction ht with
  | leaf _ _ =>
    apply Rebuilds.step (d := 0)
    intro d _
    rw [node, Node.leaf, resolve]
  | extension _ _ hc ih =>
    rw [inner, Finds, List.forall_mem_append] at hf
    rw [node]
    exact ((ih hf.1).collapse hf.2).extension (reference_collapse (canonical_node hc))
  | @branch children value _ _ ih =>
    obtain ⟨slots, he, hslots, hvalue⟩ := exists_slots children value
    rw [he]
    apply Rebuilds.branch hslots hvalue
    intro i child hi
    have hchild : Finds table (child.inner ++ returned child.node) :=
      fun entry hm => hf entry (mem_inner_branch.2 ⟨i, child, hi, hm⟩)
    rw [Finds, List.forall_mem_append] at hchild
    exact (ih i child hi hchild.1).collapse hchild.2

theorem get_foldl_insert {entries : List (Node × Bytes)} {bytes : Bytes}
    (hk : ∀ a ∈ entries, Hash.keccak a.2 = Hash.keccak bytes → a.2 = bytes)
    (h : (∃ a ∈ entries, a.2 = bytes) ∨ table[Hash.keccak bytes]? = some bytes) :
    (entries.foldl (fun table entry => table.insert (Hash.keccak entry.2) entry.2)
      table)[Hash.keccak bytes]? = some bytes := by
  induction entries generalizing table with
  | nil => simpa using h
  | cons a entries ih =>
    rw [List.forall_mem_cons] at hk
    apply ih hk.2
    rw [List.exists_mem_cons_iff] at h
    rw [Std.ExtTreeMap.getElem?_insert]
    by_cases hcollide : Hash.keccak a.2 = Hash.keccak bytes
    · simp [hk.1 hcollide]
    · rcases h with (ha | h) | h
      · exact absurd (congrArg Hash.keccak ha) hcollide
      · exact .inl h
      · simp [hcollide, h]

end Rebuild

/-- Collapsing a trie loses nothing. Whatever is stored for it is read as the node that was stored,
and unless two stored forms have the same hash the trie is put together again from its root. -/
theorem resolve_stored (ht : t.WellFormed)
    (hl : ∀ entry ∈ t.stored, entry.2.length < UInt64.size) :
    (∀ entry ∈ t.stored, entry.2 = entry.1.encode ∧ Node.decode entry.2 = .ok entry.1) ∧
      ((∀ a ∈ t.stored, ∀ b ∈ t.stored, Hash.keccak a.2 = Hash.keccak b.2 → a.2 = b.2) →
        ∃ depth, ∀ d, depth ≤ d →
          resolve (Trie.table t.stored) d (.hash t.node.hashOf) = some t) := by
  have hd : ∀ entry ∈ t.stored, entry.2 = entry.1.encode ∧ Node.decode entry.2 = .ok entry.1 := by
    intro entry hm
    obtain ⟨hc, he⟩ := canonical_of_mem_stored ht hm
    have hlength := hl entry hm
    rw [he] at hlength ⊢
    exact ⟨rfl, Node.decode_of_reads (Node.reads_encode hc hlength)⟩
  refine ⟨hd, ?_⟩
  intro hk
  have hf : Finds (Trie.table t.stored) t.stored := by
    intro entry hm
    refine ⟨get_foldl_insert ?_ (.inl ⟨entry, hm, rfl⟩), (hd entry hm).2⟩
    exact fun a ha => hk a ha entry hm
  have hroot := hf (t.node, t.node.encode) (mem_stored.2 (.inr rfl))
  have hinner : Finds (Trie.table t.stored) t.inner :=
    fun entry hm => hf entry (mem_stored.2 (.inl hm))
  exact (rebuilds_node ht hinner).hash hroot.1 hroot.2

/-- A branch below an extension, with one child that is embedded and one that is not. -/
def sample : Trie :=
  .extension ⟨[1, 2]⟩ (.branch (fun i =>
    if i.val = 3 then some (.leaf ⟨[4, 16]⟩ (List.replicate 40 9))
    else if i.val = 5 then some (.leaf ⟨[16]⟩ []) else none) (some [7]))

theorem wellFormed_sample : sample.WellFormed := by
  refine .extension (by decide) rfl (.branch ?_ (by decide))
  intro i child h
  split at h
  · cases h
    exact .leaf (by decide) rfl
  · split at h
    · cases h
      exact .leaf (by decide) rfl
    · cases h

/-- The extension, the branch and the longer leaf are stored, each on its own. -/
theorem resolve_stored_sample : sample.WellFormed ∧ sample.stored.length = 3 ∧
    (∀ entry ∈ sample.stored, entry.2 = entry.1.encode ∧ Node.decode entry.2 = .ok entry.1) ∧
    ∃ depth, ∀ d, depth ≤ d →
      resolve (Trie.table sample.stored) d (.hash sample.node.hashOf) = some sample := by
  obtain ⟨hd, hr⟩ := resolve_stored wellFormed_sample (by decide +kernel)
  exact ⟨wellFormed_sample, by decide +kernel, hd, hr (by decide +kernel)⟩

end Trie

end TrieCache
