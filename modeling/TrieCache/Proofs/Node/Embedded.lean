import Mathlib.Data.List.Basic
import Mathlib.Logic.Relation
import TrieCache.Proofs.Node.Canonical

namespace TrieCache

open Relation

namespace Node

/-- A part of a node: what is below a path, or what fills a slot. -/
inductive Part : Node → Node → Prop
  | child {key : Path} {child : Node} : Part child (short key child)
  | slot {slots : Slots 17} {item : Node} {i : Nat} : slots.get? i = some item →
    Part item (full slots)

/-- A part of a node, or something within a part of it. -/
abbrev Within : Node → Node → Prop := TransGen Part

/-- A node with parts, neither a hash nor a value. -/
def composite : Node → Bool
  | short _ _ | full _ => true
  | hash _ | value _ => false

def asHash : Node → Option Hash
  | hash h => some h
  | _ => none

/-- The hashes among the parts of a node, in order; a branch's own value is passed over. -/
def directHashes : Node → List Hash
  | short _ child => child.asHash.toList
  | full slots => (List.range 16).filterMap fun i => (slots.get? i).bind asHash
  | hash _ | value _ => []

end Node

variable {node inner : Node} {bytes : Bytes} {h : Hash} {n : Nat}

namespace Slots

theorem lt_of_get?_eq_some {slots : Slots n} {i : Nat} {item : Node}
    (hg : slots.get? i = some item) : i < n := by
  induction n generalizing i with
  | zero =>
    cases slots
    cases hg
  | succ n ih =>
    obtain ⟨slot, rest, rfl⟩ := slots.exists_cons
    cases i with
    | zero => exact Nat.succ_pos n
    | succ i =>
      rw [get?_cons_succ] at hg
      exact Nat.succ_lt_succ (ih hg)

theorem childHashes_cons (slot : Option Node) (rest : Slots (n + 1)) :
    (cons slot rest).childHashes = slot.elim [] Node.childHashes ++ rest.childHashes := by
  cases slot with
  | none => rw [cons, childHashes, Option.elim_none, List.nil_append]
  | some item => rw [cons, childHashes, Option.elim_some]

theorem childHashes_eq_flatMap (slots : Slots (n + 1)) :
    slots.childHashes =
      (List.range n).flatMap fun i => (slots.get? i).elim [] Node.childHashes := by
  induction n with
  | zero =>
    obtain ⟨slot, rest, rfl⟩ := slots.exists_cons
    cases rest
    cases slot <;> rfl
  | succ n ih =>
    obtain ⟨slot, rest, rfl⟩ := slots.exists_cons
    rw [childHashes_cons, ih rest, List.range_succ_eq_map, List.flatMap_cons, List.flatMap_map,
      get?_cons_zero]
    simp only [get?_cons_succ]

end Slots

namespace Node

section Parts

theorem not_part_hash : ¬Part inner (hash h) := nofun

theorem not_part_value : ¬Part inner (value bytes) := nofun

theorem not_within (hp : ∀ part, ¬Part part node) : ¬Within inner node := by
  intro hw
  obtain ⟨part, _, hpart⟩ := TransGen.tail'_iff.1 hw
  exact hp part hpart

theorem Part.length_encode_le (hp : Part inner node) :
    inner.encode.length ≤ node.encode.length := by
  cases hp with
  | @child key child =>
    rw [encode.eq_def (short _ _)]
    have hle := Rlp.length_le_list (Rlp.string key.toCompact ++ inner.encode)
    rw [List.length_append] at hle
    exact Nat.le_trans (Nat.le_add_left _ _) hle
  | @slot slots _ i hg =>
    have hle := slots.length_itemOf_le (Slots.lt_of_get?_eq_some hg)
    rw [hg] at hle
    rw [encode.eq_def (full slots)]
    exact Nat.le_trans hle (Rlp.length_le_list _)

theorem Within.length_encode_le (hw : Within inner node) :
    inner.encode.length ≤ node.encode.length := by
  induction hw with
  | single hp => exact hp.length_encode_le
  | tail _ hp ih => exact Nat.le_trans ih hp.length_encode_le

theorem length_encode_hash (h : Hash) : 32 ≤ (hash h).encode.length := by
  have hle := Rlp.length_le_string h.bytes
  rw [h.length_bytes] at hle
  rwa [encode]

theorem not_within_of_length (hl : node.encode.length < 32) : ¬Within (hash h) node := by
  intro hw
  exact Nat.not_le.2 hl (Nat.le_trans (length_encode_hash h) hw.length_encode_le)

mutual

theorem reflTransGen_of_mem_childHashes : ∀ {node : Node}, h ∈ node.childHashes →
    ReflTransGen Part (hash h) node
  | short key child, hm => by
    rw [childHashes] at hm
    exact (reflTransGen_of_mem_childHashes hm).tail .child
  | full slots, hm => by
    rw [childHashes] at hm
    obtain ⟨i, item, hg, hr⟩ := exists_slot_of_mem_childHashes hm
    exact hr.tail (.slot hg)
  | hash k, hm => by
    rw [childHashes] at hm
    cases List.mem_singleton.1 hm
    exact .refl
  | value _, hm => by
    rw [childHashes] at hm
    cases hm

theorem exists_slot_of_mem_childHashes : ∀ {n : Nat} {slots : Slots n}, h ∈ slots.childHashes →
    ∃ i item, slots.get? i = some item ∧ ReflTransGen Part (hash h) item
  | _, .nil, hm => by
    rw [Slots.childHashes] at hm
    cases hm
  | _, .vacant rest, hm => by
    rw [Slots.childHashes] at hm
    obtain ⟨i, item, hg, hr⟩ := exists_slot_of_mem_childHashes hm
    exact ⟨i + 1, item, hg, hr⟩
  | 1, .filled _ _, hm => by
    rw [Slots.childHashes] at hm
    cases hm
  | _ + 2, .filled item rest, hm => by
    rw [Slots.childHashes] at hm
    rcases List.mem_append.1 hm with hm | hm
    · exact ⟨0, item, rfl, reflTransGen_of_mem_childHashes hm⟩
    · obtain ⟨i, other, hg, hr⟩ := exists_slot_of_mem_childHashes hm
      exact ⟨i + 1, other, hg, hr⟩

end

end Parts

section Canonical

theorem Canonical.part (hc : node.Canonical) (hp : Part inner node) :
    inner.Reference ∨ ∃ v, inner = value v := by
  cases hc with
  | leaf _ _ =>
    cases hp
    exact .inr ⟨_, rfl⟩
  | extension _ _ hr =>
    cases hp
    exact .inl hr
  | @branch slots hr hv =>
    obtain _ | @⟨_, _, i, hg⟩ := hp
    have hi := Slots.lt_of_get?_eq_some hg
    obtain hi | rfl : i < 16 ∨ i = 16 := by omega
    · exact .inl (hr i inner hi hg)
    · obtain ⟨v, _, rfl⟩ := hv inner hg
      exact .inr ⟨v, rfl⟩

/-- Whatever is within a canonical node is a reference or a value, however deep it is. -/
theorem Canonical.within (hc : node.Canonical) (hw : Within inner node) :
    inner.Reference ∨ ∃ v, inner = value v := by
  induction hw using TransGen.head_induction_on with
  | single hp => exact hc.part hp
  | head hp _ ih =>
    rcases ih with hr | ⟨v, rfl⟩
    · cases hr with
      | hash => exact absurd hp not_part_hash
      | embedded hc _ => exact hc.part hp
    · exact absurd hp not_part_value

theorem Reference.not_within_hash (hr : node.Reference) : ¬Within (Node.hash h) node := by
  cases hr with
  | hash => exact not_within fun _ => not_part_hash
  | embedded _ hl => exact not_within_of_length hl

theorem Reference.length_encode_lt (hr : node.Reference) (hc : node.composite) :
    node.encode.length < 32 := by
  cases hr with
  | hash => cases hc
  | embedded _ hl => exact hl

theorem Reference.childHashes_eq (hr : node.Reference) :
    node.childHashes = node.asHash.toList := by
  cases hr with
  | @hash k => rw [childHashes, asHash, Option.toList_some]
  | embedded hc hl =>
    have hnil : node.childHashes = [] := by
      rw [List.eq_nil_iff_forall_not_mem]
      intro h hm
      rcases reflTransGen_iff_eq_or_transGen.1 (reflTransGen_of_mem_childHashes hm) with rfl | hw
      · exact Nat.not_le.2 hl (length_encode_hash h)
      · exact not_within_of_length hl hw
    rw [hnil]
    cases hc <;> rfl

theorem Canonical.childHashes_eq (hc : node.Canonical) :
    node.childHashes = node.directHashes := by
  cases hc with
  | leaf _ _ =>
    rw [childHashes, childHashes, directHashes]
    rfl
  | extension _ _ hr => rw [childHashes, directHashes, hr.childHashes_eq]
  | @branch slots hr _ =>
    rw [childHashes, slots.childHashes_eq_flatMap, directHashes, List.filterMap_eq_flatMap_toList]
    apply List.flatMap_congr
    intro i hi
    cases hg : slots.get? i with
    | none => rfl
    | some child => exact (hr i child (List.mem_range.1 hi) hg).childHashes_eq

theorem length_directHashes_le (node : Node) : node.directHashes.length ≤ 16 := by
  cases node with
  | short key child =>
    rw [directHashes]
    exact Nat.le_trans Option.length_toList_le (by decide)
  | full slots =>
    rw [directHashes]
    exact Nat.le_trans (List.length_filterMap_le _ _) (Nat.le_of_eq List.length_range)
  | hash _ => exact Nat.zero_le _
  | value _ => exact Nat.zero_le _

end Canonical

/-- A node that was read embeds no hash, in however odd a way it was written: the hashes it refers
to are in its own slots. What it embeds stays as short as it has to be, so the node is read back
from its stored form; only that there are at least `2 ^ 64` bytes could stand in the way, since
headers do not tell of so many. -/
theorem childHashes_of_decode (hd : decode bytes = .ok node) :
    (∀ inner, Within inner node → (∀ h, ¬Within (hash h) inner) ∧
      (inner.composite → inner.encode.length < 32)) ∧
    node.childHashes = node.directHashes ∧ node.childHashes.length ≤ 16 ∧
    (bytes.length < UInt64.size → decode node.encode = .ok node) := by
  have hr := reads_of_decode hd
  have hc := hr.canonical
  refine ⟨?_, hc.childHashes_eq, ?_, ?_⟩
  · intro inner hw
    rcases hc.within hw with hr | ⟨v, rfl⟩
    · exact ⟨fun h => hr.not_within_hash, hr.length_encode_lt⟩
    · exact ⟨fun h => not_within fun _ => not_part_value, nofun⟩
  · rw [hc.childHashes_eq]
    exact node.length_directHashes_le
  · intro hl
    exact decode_of_reads (reads_encode_of_payload hc (Nat.lt_trans hr.length_payload_lt hl))

/-- A branch that names one child by its hash and embeds an extension to a leaf. -/
def mixed : Node :=
  branch [(3, hash (.fill 7)), (5, extension ⟨[1]⟩ (leaf ⟨[2, 16]⟩ [9]))] (some [8])

theorem childHashes_of_decode_mixed : decode mixed.encode = .ok mixed ∧
    Within (leaf ⟨[2, 16]⟩ [9]) mixed ∧ (leaf ⟨[2, 16]⟩ [9]).encode.length < 32 ∧
    mixed.childHashes = mixed.directHashes ∧ mixed.directHashes = [.fill 7] := by
  have hd : decode mixed.encode = .ok mixed := by decide +kernel
  have hw : Within (leaf ⟨[2, 16]⟩ [9]) mixed :=
    .tail (.single .child) (.slot (i := 5) rfl)
  obtain ⟨hwithin, hhashes, _⟩ := childHashes_of_decode hd
  exact ⟨hd, hw, (hwithin _ hw).2 rfl, hhashes, by decide⟩

end Node

end TrieCache
