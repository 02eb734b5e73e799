import TrieCache.Proofs.Node.Canonical

namespace TrieCache.Node

/-- A key as it is written: a string that holds a compact form. -/
structure StrictKey (key : Bytes) : Prop where
  minimal : Rlp.Minimal key
  compact : Path.IsCompact (Rlp.payload key)

mutual

/-- A list that nothing can be left out of, all the way down. -/
inductive Strict : Bytes → Prop
  | leaf {bytes key item : Bytes} : Rlp.isList bytes → Rlp.Exact bytes →
    Rlp.listItems bytes = [key, item] → StrictKey key →
    (Path.ofCompact (Rlp.payload key)).terminated → Rlp.Minimal item → Strict bytes
  | extension {bytes key item : Bytes} : Rlp.isList bytes → Rlp.Exact bytes →
    Rlp.listItems bytes = [key, item] → StrictKey key →
    (Path.ofCompact (Rlp.payload key)).terminated = false → StrictReference item → Strict bytes
  | branch {bytes last : Bytes} {references : List Bytes} : Rlp.isList bytes → Rlp.Exact bytes →
    Rlp.listItems bytes = references ++ [last] → references.length = 16 →
    (∀ item ∈ references, StrictReference item) → Rlp.Minimal last → Strict bytes

/-- A string in its shortest spelling, or an embedded list. -/
inductive StrictReference : Bytes → Prop
  | string {item : Bytes} : Rlp.Minimal item → StrictReference item
  | embedded {item : Bytes} : Strict item → StrictReference item

end

variable {bytes item last : Bytes} {items references : List Bytes} {node : Node} {n : Nat}

section Read

theorem Strict.isList (hs : Strict bytes) : Rlp.isList bytes := by
  cases hs <;> assumption

theorem StrictReference.minimal (hs : StrictReference item) (hl : Rlp.isList item = false) :
    Rlp.Minimal item := by
  cases hs with
  | string hm => exact hm
  | embedded hs => exact absurd hs.isList (Bool.eq_false_iff.1 hl)

theorem StrictReference.strict (hs : StrictReference item) (hl : Rlp.isList item) :
    Strict item := by
  cases hs with
  | string hm => exact absurd hl (Bool.eq_false_iff.1 hm.1)
  | embedded hs => exact hs

theorem string_toCompact_ofCompact (hc : Rlp.Complete item) (hk : StrictKey item) :
    Rlp.string (Path.ofCompact (Rlp.payload item)).toCompact = item := by
  rw [(Path.toCompact_ofCompact_iff _).2 hk.compact, (Rlp.string_payload_iff hc).2 hk.minimal]

theorem Strict.pair {key : Bytes} (hs : Strict bytes) (hitems : Rlp.listItems bytes = [key, item]) :
    Rlp.Exact bytes ∧ StrictKey key ∧
      if (Path.ofCompact (Rlp.payload key)).terminated then Rlp.Minimal item
      else StrictReference item := by
  cases hs with
  | leaf _ he hitems' hk ht hm =>
    cases hitems.symm.trans hitems'
    exact ⟨he, hk, by rwa [if_pos ht]⟩
  | extension _ he hitems' hk ht hr =>
    cases hitems.symm.trans hitems'
    exact ⟨he, hk, by rwa [if_neg (ht ▸ Bool.false_ne_true)]⟩
  | branch _ _ hitems' hl _ _ =>
    have hlength := congrArg List.length (hitems.symm.trans hitems')
    rw [List.length_append, hl] at hlength
    cases hlength

theorem Strict.slots (hs : Strict bytes) (hl : (Rlp.listItems bytes).length = 17) :
    Rlp.Exact bytes ∧ ∃ references last, Rlp.listItems bytes = references ++ [last] ∧
      (∀ item ∈ references, StrictReference item) ∧ Rlp.Minimal last := by
  cases hs with
  | leaf _ _ hitems _ _ _ =>
    rw [hitems] at hl
    cases hl
  | extension _ _ hitems _ _ _ =>
    rw [hitems] at hl
    cases hl
  | branch _ he hitems _ hr hm => exact ⟨he, _, _, hitems, hr, hm⟩

mutual

/-- What is read from a strict list is written as that list. -/
theorem Reads.encode_of_strict : ∀ {bytes : Bytes} {node : Node}, Reads bytes node →
    Strict bytes → node.encode = bytes
  | bytes, _, @Reads.leaf _ key item hl hitems ht, hs => by
    obtain ⟨he, hk, hm⟩ := hs.pair hitems
    rw [if_pos ht] at hm
    obtain ⟨hc, hc'⟩ := Rlp.complete_of_pair hitems
    rw [encode, encode, string_toCompact_ofCompact hc hk, (Rlp.string_payload_iff hc').2 hm,
      he.list_pair hl hitems]
  | bytes, _, @Reads.extension _ key item child hl hitems ht hr, hs => by
    obtain ⟨he, hk, hi⟩ := hs.pair hitems
    rw [if_neg (ht ▸ Bool.false_ne_true)] at hi
    obtain ⟨hc, hc'⟩ := Rlp.complete_of_pair hitems
    have hchild : child.encode = item := hr.itemOf_of_strict hc' hi
    rw [encode, string_toCompact_ofCompact hc hk, hchild, he.list_pair hl hitems]
  | bytes, _, .branch hl hr, hs => by
    obtain ⟨he, references, last, hitems, hreferences, hm⟩ := hs.slots hr.length
    have hwritten :=
      hr.items_of_strict (fun _ => Rlp.complete_of_mem_listItems) hitems hreferences hm
    rw [encode, Slots.encode_eq_flatten, hwritten, he.list_flatten hl]

theorem ReadsReference.itemOf_of_strict : ∀ {item : Bytes} {slot : Option Node},
    ReadsReference item slot → Rlp.Complete item → StrictReference item → Slots.itemOf slot = item
  | item, _, .absent hl hp, hc, hs => by
    have hitem := (Rlp.string_payload_iff hc).2 (hs.minimal hl)
    rw [hp] at hitem
    exact hitem
  | item, _, .hash hl hp, hc, hs => by
    have hitem := (Rlp.string_payload_iff hc).2 (hs.minimal hl)
    rw [hp] at hitem
    rw [Slots.itemOf, Option.elim_some, encode, hitem]
  | _, _, .embedded _ hr, _, hs => hr.encode_of_strict (hs.strict hr.isList)

theorem ReadsSlots.items_of_strict : ∀ {n : Nat} {items : List Bytes} {slots : Slots (n + 1)}
    {references : List Bytes} {last : Bytes}, ReadsSlots items slots →
    (∀ item ∈ items, Rlp.Complete item) → items = references ++ [last] →
    (∀ item ∈ references, StrictReference item) → Rlp.Minimal last → slots.items = items
  | _, [item], _, references, last, .last, hc, hitems, _, hm => by
    obtain ⟨rfl, rfl⟩ : references = [] ∧ item = last := by
      cases references with
      | nil => exact ⟨rfl, (List.cons.inj hitems).1⟩
      | cons r rs => exact absurd (congrArg List.length hitems) (by simp)
    rw [Slots.items_cons, itemOf_ofValue, (Rlp.string_payload_iff (hc item (by simp))).2 hm]
    rfl
  | _, item :: items, _, references, last, .more hr hrs, hc, hitems, hreferences, hm => by
    rw [List.forall_mem_cons] at hc
    cases references with
    | nil =>
      cases hitems
      cases hrs
    | cons r rs =>
      obtain ⟨hitem, htail⟩ := List.cons.inj hitems
      rw [List.forall_mem_cons] at hreferences
      rw [Slots.items_cons, hr.itemOf_of_strict hc.1 (hitem ▸ hreferences.1),
        hrs.items_of_strict hc.2 htail hreferences.2 hm]

end

end Read

section Written

theorem exact_encode_short {key : Path} (hl : (short key node).encode.length < UInt64.size) :
    Rlp.Exact (short key node).encode where
  complete := complete_encode _ hl
  filled := by
    rw [(listItems_short (length_payload_lt hl)).2.1, List.flatten_cons, List.flatten_singleton]
    rw [encode] at hl ⊢
    rw [Rlp.payload_list (Rlp.length_lt_of_list hl)]

theorem exact_encode_full {slots : Slots 17} (hl : (full slots).encode.length < UInt64.size) :
    Rlp.Exact (full slots).encode where
  complete := complete_encode _ hl
  filled := by
    rw [(listItems_full (length_payload_lt hl)).2.1, ← Slots.encode_eq_flatten]
    rw [encode] at hl ⊢
    rw [Rlp.payload_list (Rlp.length_lt_of_list hl)]

theorem strictKey_toCompact {key : Path} (hkey : key.WellFormed)
    (hl : key.toCompact.length < UInt64.size) : StrictKey (Rlp.string key.toCompact) where
  minimal := Rlp.minimal_string hl
  compact := by
    rw [Rlp.payload_string hl]
    exact Path.isCompact_toCompact hkey

theorem minimal_value {slot : Option Node} (hl : (Slots.itemOf slot).length < UInt64.size)
    (hv : ∀ v, slot = some v → ∃ bytes, bytes ≠ [] ∧ v = value bytes) :
    Rlp.Minimal (Slots.itemOf slot) := by
  cases slot with
  | none => exact Rlp.minimal_string (v := []) (by decide)
  | some v =>
    obtain ⟨bytes, _, rfl⟩ := hv v rfl
    rw [Slots.itemOf, Option.elim_some, encode] at hl ⊢
    exact Rlp.minimal_string (Rlp.length_lt_of_string hl)

mutual

theorem Canonical.strict_encode : ∀ {node : Node}, node.Canonical →
    node.encode.length < UInt64.size → Strict node.encode
  | short key (value v), .leaf hkey ht, hl => by
    obtain ⟨hlist, hitems, hk, hn⟩ := listItems_short (length_payload_lt hl)
    have hpath : Path.ofCompact (Rlp.payload (Rlp.string key.toCompact)) = key := by
      rw [Rlp.payload_string hk, Path.ofCompact_toCompact hkey]
    refine .leaf hlist (exact_encode_short hl) hitems (strictKey_toCompact hkey hk) ?_ ?_
    · rw [hpath, ht]
    · rw [encode] at hn ⊢
      exact Rlp.minimal_string (Rlp.length_lt_of_string hn)
  | short key child, .extension hkey ht hchild, hl => by
    obtain ⟨hlist, hitems, hk, hn⟩ := listItems_short (length_payload_lt hl)
    refine .extension hlist (exact_encode_short hl) hitems (strictKey_toCompact hkey hk) ?_
      (hchild.strict_encode hn)
    rw [Rlp.payload_string hk, Path.ofCompact_toCompact hkey, ht]
  | full slots, .branch hchild hv, hl => by
    obtain ⟨hlist, hitems, hs⟩ := listItems_full (length_payload_lt hl)
    have hlength : ∀ i < 17, (Slots.itemOf (slots.get? i)).length < UInt64.size :=
      fun i hi => Nat.lt_of_le_of_lt (Slots.length_itemOf_le hi) hs
    rw [slots.items_eq_map, List.range_succ, List.map_append, List.map_singleton] at hitems
    refine .branch hlist (exact_encode_full hl) hitems (by simp) ?_
      (minimal_value (hlength 16 (by decide)) hv)
    intro item hitem
    obtain ⟨i, hi, rfl⟩ := List.mem_map.1 hitem
    rw [List.mem_range] at hi
    have hi' := hlength i (Nat.lt_succ_of_lt hi)
    cases hg : slots.get? i with
    | none => exact .string (Rlp.minimal_string (v := []) (by decide))
    | some child =>
      rw [hg] at hi'
      exact (hchild i child hi hg).strict_encode hi'

theorem Reference.strict_encode : ∀ {node : Node}, node.Reference →
    node.encode.length < UInt64.size → StrictReference node.encode
  | _, @Reference.hash h, hl => by
    rw [encode] at hl ⊢
    exact .string (Rlp.minimal_string (Rlp.length_lt_of_string hl))
  | _, .embedded hc _, hl => .embedded (hc.strict_encode hl)

end

end Written

/-- The bytes a node is read from are its stored form just if they are strict, and no others that
are strict are read as the node. -/
theorem encode_eq_iff_strict (hd : decode bytes = .ok node) (hl : bytes.length < UInt64.size) :
    (node.encode = bytes ↔ Strict bytes) ∧
      ∀ other, decode other = .ok node → Strict bytes → Strict other → other = bytes := by
  have hr := reads_of_decode hd
  constructor
  · constructor
    · intro he
      rw [← he] at hl ⊢
      exact hr.canonical.strict_encode hl
    · exact hr.encode_of_strict
  · intro other hother hs hs'
    rw [← hr.encode_of_strict hs, (reads_of_decode hother).encode_of_strict hs']

/-- A byte that is its own item may also be read with a tag in front of it. -/
theorem strict_leaf_of_byte : decode [0xc2, 0x20, 0x05] = .ok (leaf ⟨[16]⟩ [5]) ∧
    Strict [0xc2, 0x20, 0x05] ∧ ¬Strict [0xc3, 0x20, 0x81, 0x05] := by
  have hd : decode [0xc2, 0x20, 0x05] = .ok (leaf ⟨[16]⟩ [5]) := by decide +kernel
  have hd' : decode [0xc3, 0x20, 0x81, 0x05] = .ok (leaf ⟨[16]⟩ [5]) := by decide +kernel
  refine ⟨hd, (encode_eq_iff_strict hd (by decide)).1.1 (by decide +kernel), ?_⟩
  intro hs
  exact absurd ((encode_eq_iff_strict hd' (by decide)).1.2 hs) (by decide +kernel)

/-- Two byte strings that are read as the same node. -/
theorem decode_tagged_byte : decode [0xc3, 0x20, 0x81, 0x05] = .ok (leaf ⟨[16]⟩ [5]) ∧
    (leaf ⟨[16]⟩ [5]).encode ≠ [0xc3, 0x20, 0x81, 0x05] ∧
    decode [0xc2, 0x20, 0x05] = decode [0xc3, 0x20, 0x81, 0x05] := by
  decide +kernel

end TrieCache.Node
