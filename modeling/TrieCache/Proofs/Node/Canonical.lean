import TrieCache.Proofs.Node.Reading
import TrieCache.Proofs.Path

namespace TrieCache

mutual

/-- A leaf, an extension or a branch as it is stored: whatever is below it is referred to. -/
inductive Node.Canonical : Node → Prop
  | leaf {key : Path} {value : Bytes} : key.WellFormed → key.terminated →
    Canonical (.short key (.value value))
  | extension {key : Path} {child : Node} : key.WellFormed → key.terminated = false →
    child.Reference → Canonical (.short key child)
  | branch {slots : Slots 17} :
    (∀ i child, i < 16 → slots.get? i = some child → child.Reference) →
    (∀ value, slots.get? 16 = some value → ∃ bytes, bytes ≠ [] ∧ value = .value bytes) →
    Canonical (.full slots)

/-- What stands for a child: its hash, or a node that is too short to be named by its hash. -/
inductive Node.Reference : Node → Prop
  | hash {h : Hash} : Reference (.hash h)
  | embedded {node : Node} : node.Canonical → node.encode.length < 32 → Reference node

end

variable {n : Nat} {node : Node} {bytes : Bytes}

namespace Slots

def itemOf (slot : Option Node) : Bytes := slot.elim (Rlp.string []) Node.encode

def items {n : Nat} (slots : Slots n) : List Bytes := slots.toList.map itemOf

theorem exists_cons (slots : Slots (n + 1)) : ∃ slot rest, slots = cons slot rest := by
  cases slots with
  | vacant rest => exact ⟨none, rest, rfl⟩
  | filled item rest => exact ⟨some item, rest, rfl⟩

theorem get?_cons_zero (slot : Option Node) (rest : Slots n) : (cons slot rest).get? 0 = slot := by
  cases slot <;> rfl

theorem get?_cons_succ (slot : Option Node) (rest : Slots n) (i : Nat) :
    (cons slot rest).get? (i + 1) = rest.get? i := by
  cases slot <;> rfl

theorem items_cons (slot : Option Node) (rest : Slots n) :
    (cons slot rest).items = itemOf slot :: rest.items := by
  cases slot <;> rfl

theorem encode_cons (slot : Option Node) (rest : Slots n) :
    (cons slot rest).encode = itemOf slot ++ rest.encode := by
  cases slot <;> rfl

theorem items_eq_map (slots : Slots n) :
    slots.items = (List.range n).map fun i => itemOf (slots.get? i) := by
  induction n with
  | zero =>
    cases slots
    rfl
  | succ n ih =>
    obtain ⟨slot, rest, rfl⟩ := slots.exists_cons
    rw [items_cons, List.range_succ_eq_map, List.map_cons, List.map_map, get?_cons_zero, ih rest]
    congr 1
    apply List.map_congr_left
    intro i _
    rw [Function.comp_apply, get?_cons_succ]

theorem encode_eq_flatten (slots : Slots n) : slots.encode = slots.items.flatten := by
  induction n with
  | zero =>
    cases slots
    rfl
  | succ n ih =>
    obtain ⟨slot, rest, rfl⟩ := slots.exists_cons
    rw [encode_cons, items_cons, List.flatten_cons, ih]

theorem length_itemOf_le {slots : Slots n} {i : Nat} (hi : i < n) :
    (itemOf (slots.get? i)).length ≤ slots.encode.length := by
  rw [slots.encode_eq_flatten, slots.items_eq_map]
  exact Rlp.length_le_flatten (List.mem_map_of_mem (List.mem_range.2 hi))

end Slots

namespace Node

/-- What a node's stored form holds, without its header. -/
def payload : Node → Bytes
  | short key child => Rlp.string key.toCompact ++ child.encode
  | full slots => slots.encode
  | hash h => h.bytes
  | value bytes => bytes

theorem length_payload_le (node : Node) : node.payload.length ≤ node.encode.length := by
  cases node with
  | short key child =>
    rw [payload, encode]
    exact Rlp.length_le_list _
  | full slots =>
    rw [payload, encode]
    exact Rlp.length_le_list _
  | hash h =>
    rw [payload, encode]
    exact Rlp.length_le_string _
  | value bytes =>
    rw [payload, encode]
    exact Rlp.length_le_string _

theorem length_payload_lt (hl : node.encode.length < n) : node.payload.length < n :=
  Nat.lt_of_le_of_lt node.length_payload_le hl

end Node

section Complete

theorem Node.complete_encode (node : Node) (hl : node.encode.length < UInt64.size) :
    Rlp.Complete node.encode := by
  cases node with
  | short key child =>
    rw [encode] at hl ⊢
    exact Rlp.complete_list (Rlp.length_lt_of_list hl)
  | full slots =>
    rw [encode] at hl ⊢
    exact Rlp.complete_list (Rlp.length_lt_of_list hl)
  | hash h =>
    rw [encode] at hl ⊢
    exact Rlp.complete_string (Rlp.length_lt_of_string hl)
  | value v =>
    rw [encode] at hl ⊢
    exact Rlp.complete_string (Rlp.length_lt_of_string hl)

theorem Slots.complete_items {slots : Slots n} (hl : slots.encode.length < UInt64.size) :
    ∀ item ∈ slots.items, Rlp.Complete item := by
  induction n with
  | zero =>
    cases slots
    exact nofun
  | succ n ih =>
    obtain ⟨slot, rest, rfl⟩ := slots.exists_cons
    rw [encode_cons, List.length_append] at hl
    rw [items_cons, List.forall_mem_cons]
    constructor
    · cases slot with
      | none => exact ⟨_, rfl, rfl⟩
      | some node => exact node.complete_encode (Nat.lt_of_le_of_lt (Nat.le_add_right _ _) hl)
    · exact ih (Nat.lt_of_le_of_lt (Nat.le_add_left _ _) hl)

end Complete

namespace Node

section Write

theorem listItems_short {key : Path} (hp : (short key node).payload.length < UInt64.size) :
    Rlp.isList (short key node).encode ∧
      Rlp.listItems (short key node).encode = [Rlp.string key.toCompact, node.encode] ∧
      key.toCompact.length < UInt64.size ∧ node.encode.length < UInt64.size := by
  rw [payload] at hp
  rw [encode]
  obtain ⟨hk, hn⟩ : (Rlp.string key.toCompact).length < UInt64.size ∧
      node.encode.length < UInt64.size := by
    rw [List.length_append] at hp
    omega
  have hk' := Rlp.length_lt_of_string hk
  have hc : ∀ item ∈ [Rlp.string key.toCompact, node.encode], Rlp.Complete item := by
    rw [List.forall_mem_cons, List.forall_mem_singleton]
    exact ⟨Rlp.complete_string hk', node.complete_encode hn⟩
  have hitems := Rlp.listItems_list hc
  rw [List.flatten_cons, List.flatten_singleton] at hitems
  exact ⟨Rlp.isList_list hp, hitems hp, hk', hn⟩

theorem listItems_full {slots : Slots 17} (hp : (full slots).payload.length < UInt64.size) :
    Rlp.isList (full slots).encode ∧ Rlp.listItems (full slots).encode = slots.items ∧
      slots.encode.length < UInt64.size := by
  rw [payload] at hp
  rw [encode]
  refine ⟨Rlp.isList_list hp, ?_, hp⟩
  rw [slots.encode_eq_flatten] at hp ⊢
  exact Rlp.listItems_list (Slots.complete_items (slots.encode_eq_flatten ▸ hp)) hp

theorem readsReference_hash (h : Hash) : ReadsReference (hash h).encode (some (hash h)) := by
  have hl : h.bytes.length < UInt64.size := by
    rw [h.length_bytes]
    decide
  rw [encode]
  exact .hash (Rlp.isList_string hl) (Rlp.payload_string hl)

theorem ofValue_payload {slot : Option Node} (hl : (Slots.itemOf slot).length < UInt64.size)
    (hv : ∀ v, slot = some v → ∃ bytes, bytes ≠ [] ∧ v = value bytes) :
    ofValue (Rlp.payload (Slots.itemOf slot)) = slot := by
  cases slot with
  | none => rfl
  | some v =>
    obtain ⟨bytes, hne, rfl⟩ := hv v rfl
    rw [Slots.itemOf, Option.elim_some, encode] at hl ⊢
    rw [Rlp.payload_string (Rlp.length_lt_of_string hl), ofValue,
      List.isEmpty_eq_false_iff.2 hne, if_neg Bool.false_ne_true]

theorem readsSlots_items {slots : Slots (n + 1)} (hl : slots.encode.length < UInt64.size)
    (hr : ∀ i child, i < n → slots.get? i = some child →
      child.encode.length < UInt64.size → ReadsReference child.encode (some child))
    (hv : ∀ v, slots.get? n = some v → ∃ bytes, bytes ≠ [] ∧ v = value bytes) :
    ReadsSlots slots.items slots := by
  induction n with
  | zero =>
    obtain ⟨slot, rest, rfl⟩ := slots.exists_cons
    cases rest
    rw [Slots.encode_cons, List.length_append] at hl
    have hslot := Nat.lt_of_le_of_lt (Nat.le_add_right _ _) hl
    have hlast := @ReadsSlots.last (Slots.itemOf slot)
    rw [Slots.get?_cons_zero] at hv
    rw [ofValue_payload hslot hv] at hlast
    rw [Slots.items_cons]
    exact hlast
  | succ n ih =>
    obtain ⟨slot, rest, rfl⟩ := slots.exists_cons
    rw [Slots.encode_cons, List.length_append] at hl
    have hslot := Nat.lt_of_le_of_lt (Nat.le_add_right _ _) hl
    have hrest := Nat.lt_of_le_of_lt (Nat.le_add_left _ _) hl
    rw [Slots.items_cons]
    apply ReadsSlots.more
    · cases slot with
      | none => exact .absent rfl rfl
      | some child => exact hr 0 child (Nat.succ_pos n) (Slots.get?_cons_zero _ _) hslot
    · apply ih hrest
      · intro i child hi hg
        exact hr (i + 1) child (Nat.succ_lt_succ hi) ((Slots.get?_cons_succ _ _ i).trans hg)
      · intro v hg
        exact hv v ((Slots.get?_cons_succ _ _ n).trans hg)

mutual

/-- A canonical node is read back as long as a header can tell how much it holds. -/
theorem reads_encode_of_payload : ∀ {node : Node}, node.Canonical →
    node.payload.length < UInt64.size → Reads node.encode node
  | short key (value v), .leaf hkey ht, hp => by
    obtain ⟨hlist, hitems, hk, hn⟩ := listItems_short hp
    have hv := Rlp.length_lt_of_string (encode.eq_def (value v) ▸ hn)
    have hr := Reads.leaf hlist hitems
    rw [Rlp.payload_string hk, Path.ofCompact_toCompact hkey, encode.eq_def (value v)] at hr
    dsimp only at hr
    rw [Rlp.payload_string hv] at hr
    exact hr ht
  | short key child, .extension hkey ht hchild, hp => by
    obtain ⟨hlist, hitems, hk, hn⟩ := listItems_short hp
    have hr := @Reads.extension _ _ _ child hlist hitems
    rw [Rlp.payload_string hk, Path.ofCompact_toCompact hkey] at hr
    exact hr ht (readsReference_encode hchild hn)
  | full slots, .branch hchild hv, hp => by
    obtain ⟨hlist, hitems, hs⟩ := listItems_full hp
    refine .branch hlist (hitems.symm ▸ readsSlots_items hs ?_ hv)
    intro i child hi hg hn
    exact readsReference_encode (hchild i child hi hg) hn

theorem readsReference_encode : ∀ {node : Node}, node.Reference →
    node.encode.length < UInt64.size → ReadsReference node.encode (some node)
  | _, .hash, _ => readsReference_hash _
  | _, .embedded hc hs, hl => .embedded hs (reads_encode_of_payload hc (length_payload_lt hl))

end

theorem reads_encode (hc : node.Canonical) (hl : node.encode.length < UInt64.size) :
    Reads node.encode node :=
  reads_encode_of_payload hc (length_payload_lt hl)

end Write

section Read

theorem length_list {p : Bytes} (hp : p.length ≤ 55) : (Rlp.list p).length = p.length + 1 := by
  rw [Rlp.list, Rlp.header, if_pos hp, List.length_append, List.length_singleton, Nat.add_comm]

theorem length_string_key_le {key : Bytes} (hc : Rlp.Complete key) :
    (Rlp.string (Path.ofCompact (Rlp.payload key)).toCompact).length ≤ key.length :=
  Nat.le_trans (Path.length_string_toCompact_le _) (Rlp.length_string_payload_le hc)

theorem itemOf_ofValue (v : Bytes) : Slots.itemOf (ofValue v) = Rlp.string v := by
  rw [ofValue]
  split
  · next hv => rw [List.isEmpty_iff.1 hv, Slots.itemOf, Option.elim_none]
  · rw [Slots.itemOf, Option.elim_some, encode]

theorem Reads.encode_eq (hr : Reads bytes node) : node.encode = Rlp.list node.payload := by
  cases hr with
  | leaf _ _ _ => rw [encode, payload]
  | extension _ _ _ _ => rw [encode, payload]
  | branch _ _ => rw [encode, payload]

theorem Reads.length_encode_le_of_payload (hr : Reads bytes node)
    (hp : node.payload.length < bytes.length) (hs : bytes.length ≤ 55) :
    node.encode.length ≤ bytes.length := by
  rw [hr.encode_eq, length_list (by omega)]
  exact hp

mutual

theorem Reads.length_payload_lt : ∀ {bytes : Bytes} {node : Node}, Reads bytes node →
    node.payload.length < bytes.length
  | bytes, _, @Reads.leaf _ key item hl hitems _ => by
    obtain ⟨hc, hc'⟩ := Rlp.complete_of_pair hitems
    have hlt := Rlp.length_flatten_pair hl hitems
    have hkey := length_string_key_le hc
    have hvalue := Rlp.length_string_payload_le hc'
    rw [payload, encode, List.length_append]
    omega
  | bytes, _, @Reads.extension _ key item child hl hitems _ hr => by
    obtain ⟨hc, hc'⟩ := Rlp.complete_of_pair hitems
    have hlt := Rlp.length_flatten_pair hl hitems
    have hkey := length_string_key_le hc
    have hchild : child.encode.length ≤ item.length := hr.length_itemOf_le hc'
    rw [payload, List.length_append]
    omega
  | bytes, _, .branch hl hr => by
    rw [payload]
    exact Nat.lt_of_le_of_lt (hr.length_encode_le fun _ => Rlp.complete_of_mem_listItems)
      (Rlp.length_flatten_listItems hl)

theorem ReadsReference.length_itemOf_le : ∀ {item : Bytes} {slot : Option Node},
    ReadsReference item slot → Rlp.Complete item → (Slots.itemOf slot).length ≤ item.length
  | _, _, .absent _ _, hc => hc.pos
  | _, _, .hash _ hp, hc => by
    rw [Slots.itemOf, Option.elim_some, encode, ← hp]
    exact Rlp.length_string_payload_le hc
  | _, _, .embedded hs hr, _ => hr.length_encode_le_of_payload hr.length_payload_lt (by omega)

theorem ReadsSlots.length_encode_le : ∀ {n : Nat} {items : List Bytes} {slots : Slots (n + 1)},
    ReadsSlots items slots → (∀ item ∈ items, Rlp.Complete item) →
    slots.encode.length ≤ items.flatten.length
  | _, [item], _, .last, hc => by
    rw [Slots.encode_cons, itemOf_ofValue, Slots.encode, List.append_nil,
      List.flatten_singleton]
    exact Rlp.length_string_payload_le (hc item (by simp))
  | _, item :: items, _, .more hr hrs, hc => by
    rw [List.forall_mem_cons] at hc
    have hle := hr.length_itemOf_le hc.1
    have hle' := hrs.length_encode_le hc.2
    rw [List.flatten_cons, List.length_append, Slots.encode_cons, List.length_append]
    omega

end

theorem Reads.length_encode_le (hr : Reads bytes node) (hs : bytes.length ≤ 55) :
    node.encode.length ≤ bytes.length :=
  hr.length_encode_le_of_payload hr.length_payload_lt hs

mutual

/-- Whatever is read is canonical, in however odd a way it was written. -/
theorem Reads.canonical : ∀ {bytes : Bytes} {node : Node}, Reads bytes node → node.Canonical
  | _, _, .leaf _ _ ht => .leaf (Path.wellFormed_ofCompact _) ht
  | _, _, .extension _ _ ht hr => .extension (Path.wellFormed_ofCompact _) ht (hr.reference rfl)
  | _, _, .branch _ hr => .branch hr.reference hr.value

theorem ReadsReference.reference : ∀ {item : Bytes} {slot : Option Node} {child : Node},
    ReadsReference item slot → slot = some child → child.Reference
  | _, _, _, .hash _ _, rfl => .hash
  | _, _, _, .embedded hs hr, rfl =>
    .embedded hr.canonical (Nat.lt_of_le_of_lt (hr.length_encode_le (by omega)) hs)

theorem ReadsSlots.reference : ∀ {n : Nat} {items : List Bytes} {slots : Slots (n + 1)},
    ReadsSlots items slots → ∀ i child, i < n → slots.get? i = some child → child.Reference
  | _ + 1, _, _, .more hr hrs, i, child, hi, hg => by
    cases i with
    | zero =>
      rw [Slots.get?_cons_zero] at hg
      exact hr.reference hg
    | succ i =>
      rw [Slots.get?_cons_succ] at hg
      exact hrs.reference i child (Nat.lt_of_succ_lt_succ hi) hg

theorem ReadsSlots.value : ∀ {n : Nat} {items : List Bytes} {slots : Slots (n + 1)},
    ReadsSlots items slots → ∀ v, slots.get? n = some v → ∃ bytes, bytes ≠ [] ∧ v = value bytes
  | _, [item], _, .last, v, hg => by
    rw [Slots.get?_cons_zero, ofValue] at hg
    split at hg
    · cases hg
    · next hne =>
      cases hg
      exact ⟨_, fun he => hne (List.isEmpty_iff.2 he), rfl⟩
  | n + 1, _, _, .more _ hrs, v, hg => by
    rw [Slots.get?_cons_succ] at hg
    exact hrs.value v hg

end

end Read

/-- A node is read back from its stored form just if it is canonical. Any stored form is shorter
than `2 ^ 64` bytes, and headers do not tell of longer ones; nothing else hangs on it. -/
theorem decode_encode_iff :
    (decode node.encode = .ok node → node.Canonical) ∧
      (node.encode.length < UInt64.size → node.Canonical → decode node.encode = .ok node) :=
  ⟨fun hd => (reads_of_decode hd).canonical, fun hl hc => decode_of_reads (reads_encode hc hl)⟩

/-- An extension to a leaf that is embedded in it. -/
theorem decode_encode_extension :
    (extension ⟨[1]⟩ (leaf ⟨[2, 16]⟩ [9])).Canonical ∧
      decode (extension ⟨[1]⟩ (leaf ⟨[2, 16]⟩ [9])).encode =
        .ok (extension ⟨[1]⟩ (leaf ⟨[2, 16]⟩ [9])) := by
  have hleaf : (leaf ⟨[2, 16]⟩ [9]).Canonical := .leaf (by decide) rfl
  have hc : (extension ⟨[1]⟩ (leaf ⟨[2, 16]⟩ [9])).Canonical :=
    .extension (by decide) rfl (.embedded hleaf (by decide +kernel))
  exact ⟨decode_encode_iff.1 (by decide +kernel), decode_encode_iff.2 (by decide +kernel) hc⟩

end Node

end TrieCache
