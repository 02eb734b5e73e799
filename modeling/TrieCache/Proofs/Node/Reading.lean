import TrieCache.Node.Decoding
import TrieCache.Proofs.Except

namespace TrieCache.Node

mutual

/-- A list is read as a node. -/
inductive Reads : Bytes → Node → Prop
  | leaf {bytes key item : Bytes} : Rlp.isList bytes → Rlp.listItems bytes = [key, item] →
    (Path.ofCompact (Rlp.payload key)).terminated →
    Reads bytes (short (.ofCompact (Rlp.payload key)) (value (Rlp.payload item)))
  | extension {bytes key item : Bytes} {child : Node} : Rlp.isList bytes →
    Rlp.listItems bytes = [key, item] → (Path.ofCompact (Rlp.payload key)).terminated = false →
    ReadsReference item (some child) → Reads bytes (short (.ofCompact (Rlp.payload key)) child)
  | branch {bytes : Bytes} {slots : Slots 17} : Rlp.isList bytes →
    ReadsSlots (Rlp.listItems bytes) slots → Reads bytes (full slots)

/-- An item is read as what stands for a child. -/
inductive ReadsReference : Bytes → Option Node → Prop
  | absent {item : Bytes} : Rlp.isList item = false → Rlp.payload item = [] →
    ReadsReference item none
  | hash {item : Bytes} {h : Hash} : Rlp.isList item = false → Rlp.payload item = h.bytes →
    ReadsReference item (some (hash h))
  | embedded {item : Bytes} {child : Node} : item.length < 32 → Reads item child →
    ReadsReference item (some child)

/-- As many items are read as there are slots, the last one as a value. -/
inductive ReadsSlots : {n : Nat} → List Bytes → Slots (n + 1) → Prop
  | last {item : Bytes} : ReadsSlots [item] (.cons (ofValue (Rlp.payload item)) .nil)
  | more {n : Nat} {item : Bytes} {items : List Bytes} {slot : Option Node}
    {slots : Slots (n + 1)} : ReadsReference item slot → ReadsSlots items slots →
    ReadsSlots (item :: items) (.cons slot slots)

end

variable {bytes item : Bytes} {items : List Bytes} {node : Node} {slot : Option Node} {n : Nat}

theorem Reads.isList (hr : Reads bytes node) : Rlp.isList bytes := by
  cases hr <;> assumption

theorem ReadsSlots.length : ∀ {n : Nat} {items : List Bytes} {slots : Slots (n + 1)},
    ReadsSlots items slots → items.length = n + 1
  | _, _, _, .last => rfl
  | _, _, _, .more _ hs => congrArg Nat.succ hs.length

theorem decodeItems_of_length (hl : items.length = 17) :
    decodeItems decode items = (decodeSlots decode 17 items).map .full := by
  rw [decodeItems]
  · exact if_pos hl
  · rintro key item rfl
    cases hl

mutual

theorem decode_of_reads : ∀ {bytes : Bytes} {node : Node}, Reads bytes node →
    decode bytes = .ok node
  | _, _, .leaf hl hitems ht => by
    rw [decode_eq, if_pos hl, hitems, decodeItems, decodeShort, if_pos ht]
  | _, _, .extension hl hitems ht hr => by
    rw [decode_eq, if_pos hl, hitems, decodeItems, decodeShort, if_neg (ht ▸ Bool.false_ne_true),
      decodeReference_of_reads hr]
    rfl
  | _, _, .branch hl hs => by
    rw [decode_eq, if_pos hl, decodeItems_of_length hs.length, decodeSlots_of_reads hs]
    rfl

theorem decodeReference_of_reads : ∀ {item : Bytes} {slot : Option Node},
    ReadsReference item slot → decodeReference decode item = .ok slot
  | _, _, .absent hl hp => by
    rw [decodeReference, hl, if_neg Bool.false_ne_true, hp]
    rfl
  | item, _, .hash hl hp => by
    have hne : (Rlp.payload item).isEmpty = false := by
      rw [List.isEmpty_eq_false_iff, ← List.length_pos_iff, hp, Hash.length_bytes]
      decide
    rw [decodeReference, hl, if_neg Bool.false_ne_true, ofHash, hne, if_neg Bool.false_ne_true, hp,
      Hash.ofBytes_bytes]
  | _, _, .embedded hs hr => by
    rw [decodeReference, if_pos hr.isList, if_neg (Nat.not_le.2 hs), decode_of_reads hr]
    rfl

theorem decodeSlots_of_reads : ∀ {n : Nat} {items : List Bytes} {slots : Slots (n + 1)},
    ReadsSlots items slots → decodeSlots decode (n + 1) items = .ok slots
  | _, _, _, .last => rfl
  | _, _, _, .more hr hs => by
    rw [decodeSlots, decodeReference_of_reads hr]
    dsimp only [bind, Except.bind]
    rw [decodeSlots_of_reads hs]

end

theorem readsReference_of_decode
    (hr : ∀ node, decode item = .ok node → Reads item node)
    (hd : decodeReference decode item = .ok slot) : ReadsReference item slot := by
  rw [decodeReference] at hd
  split at hd
  · split at hd
    · cases hd
    · next hs =>
      obtain ⟨child, hc, rfl⟩ := map_eq_ok hd
      exact .embedded (Nat.not_le.1 hs) (hr child hc)
  · next hl =>
    rw [ofHash] at hd
    split at hd
    · next hp =>
      cases hd
      exact .absent (Bool.eq_false_iff.2 hl) (List.isEmpty_iff.1 hp)
    · split at hd
      · next h hh =>
        cases hd
        refine .hash (Bool.eq_false_iff.2 hl) ?_
        rw [Hash.ofBytes] at hh
        split at hh
        · cases hh
          rfl
        · cases hh
      · cases hd

theorem readsSlots_of_decode {slots : Slots (n + 1)} (hl : items.length = n + 1)
    (hr : ∀ item ∈ items, ∀ node, decode item = .ok node → Reads item node)
    (hd : decodeSlots decode (n + 1) items = .ok slots) : ReadsSlots items slots := by
  induction n generalizing items with
  | zero =>
    obtain ⟨item, rfl⟩ := List.length_eq_one_iff.1 hl
    cases hd
    exact .last
  | succ n ih =>
    cases items with
    | nil => cases hl
    | cons item items =>
      rw [List.forall_mem_cons] at hr
      rw [decodeSlots] at hd
      obtain ⟨slot, hi, hd⟩ := bind_eq_ok hd
      obtain ⟨rest, hrest, hd⟩ := bind_eq_ok hd
      cases hd
      exact .more (readsReference_of_decode hr.1 hi) (ih (Nat.succ.inj hl) hr.2 hrest)

theorem length_lt_of_mem_listItems (hl : Rlp.isList bytes) (hi : item ∈ Rlp.listItems bytes) :
    item.length < bytes.length :=
  Nat.lt_of_le_of_lt (Rlp.length_le_flatten hi) (Rlp.length_flatten_listItems hl)

/-- Decoding is the relation: the items of a list are shorter than the list. -/
theorem reads_of_decode (hd : decode bytes = .ok node) : Reads bytes node := by
  induction hn : bytes.length using Nat.strongRecOn generalizing bytes node with
  | ind n ih =>
    rw [decode_eq] at hd
    split at hd
    case isFalse => cases hd
    next hl =>
    have hr : ∀ item ∈ Rlp.listItems bytes, ∀ node, decode item = .ok node → Reads item node := by
      intro item hi node hd
      exact ih _ (hn ▸ length_lt_of_mem_listItems hl hi) hd rfl
    rw [decodeItems.eq_def] at hd
    split at hd
    · next key item hitems =>
      rw [hitems, List.forall_mem_cons, List.forall_mem_singleton] at hr
      rw [decodeShort] at hd
      split at hd
      · next ht =>
        cases hd
        exact .leaf hl hitems ht
      · next ht =>
        obtain ⟨slot, hslot, hd⟩ := bind_eq_ok hd
        cases slot with
        | none => cases hd
        | some child =>
          cases hd
          exact .extension hl hitems (Bool.eq_false_iff.2 ht)
            (readsReference_of_decode hr.2 hslot)
    · split at hd
      · next hcount =>
        obtain ⟨slots, hslots, rfl⟩ := map_eq_ok hd
        exact .branch hl (readsSlots_of_decode hcount hr hslots)
      · cases hd

theorem decode_eq_ok_iff : decode bytes = .ok node ↔ Reads bytes node :=
  ⟨reads_of_decode, decode_of_reads⟩

end TrieCache.Node
