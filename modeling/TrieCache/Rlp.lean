import TrieCache.Bytes

namespace TrieCache.Rlp

/-- The bytes in front of `n` bytes of payload; `base` is the tag of an empty payload. -/
def header (base : UInt8) (n : Nat) : Bytes :=
  if n ≤ 55 then [base + n.toUInt8]
  else
    let size := Bytes.bigEndian n
    (base + 55 + size.length.toUInt8) :: size

/-- A byte string. A single byte below `0x80` stands for itself. -/
def string (payload : Bytes) : Bytes :=
  match payload with
  | [b] => if b < 0x80 then [b] else [0x81, b]
  | _ => header 0x80 payload.length ++ payload

/-- A list, from its items written one after another. -/
def list (items : Bytes) : Bytes :=
  header 0xc0 items.length ++ items

/-- How many bytes of header and of payload an item announces. -/
structure Extent where
  header : Nat
  payload : Nat

def Extent.total (e : Extent) : Nat := e.header + e.payload

/-- The extent of an item whose length is written in the `n` bytes after its tag. The length has
no leading zero, and is above 55. -/
def longExtent (n : Nat) (rest : Bytes) : Option Extent :=
  let size := rest.take n
  if size.length < n ∨ size.head? = some 0 ∨ Bytes.toNat size ≤ 55 then none
  else some ⟨1 + n, Bytes.toNat size⟩

/-- The extent announced at the start of `bytes`. -/
def extent : Bytes → Option Extent
  | [] => none
  | tag :: rest =>
    let t := tag.toNat
    if t < 0x80 then some ⟨0, 1⟩
    else if t < 0xb8 then some ⟨1, t - 0x80⟩
    else if t < 0xc0 then longExtent (t - 0xb7) rest
    else if t < 0xf8 then some ⟨1, t - 0xc0⟩
    else longExtent (t - 0xf7) rest

/-- Cuts the first item off, if it is there in full. -/
def cut (bytes : Bytes) : Option (Bytes × Bytes) :=
  match extent bytes with
  | none => none
  | some e =>
    let item := bytes.take e.total
    if item.length = e.total then some (item, bytes.drop e.total) else none

theorem longExtent_header {n : Nat} {rest : Bytes} {e : Extent}
    (h : longExtent n rest = some e) : 0 < e.header := by
  simp only [longExtent] at h
  split at h
  · cases h
  · cases h
    exact Nat.add_pos_left Nat.one_pos n

theorem extent_total {bytes : Bytes} {e : Extent} (h : extent bytes = some e) : 0 < e.total := by
  cases bytes with
  | nil => cases h
  | cons tag rest =>
    simp only [extent] at h
    split at h
    · cases h
      simp [Extent.total]
    · split at h
      · cases h
        simp only [Extent.total]
        omega
      · split at h
        · have := longExtent_header h
          simp only [Extent.total]
          omega
        · split at h
          · cases h
            simp only [Extent.total]
            omega
          · have := longExtent_header h
            simp only [Extent.total]
            omega

theorem cut_append {bytes item rest : Bytes} (h : cut bytes = some (item, rest)) :
    bytes = item ++ rest := by
  simp only [cut] at h
  split at h
  · cases h
  · split at h
    · cases h
      simp
    · cases h

theorem cut_pos {bytes item rest : Bytes} (h : cut bytes = some (item, rest)) :
    0 < item.length := by
  simp only [cut] at h
  split at h
  · cases h
  · rename_i e he
    split at h
    · rename_i hl
      cases h
      rw [hl]
      exact extent_total he
    · cases h

theorem cut_shorter {bytes item rest : Bytes} (h : cut bytes = some (item, rest)) :
    rest.length < bytes.length := by
  have := cut_pos h
  rw [cut_append h, List.length_append]
  omega

/-- The items one after another in at most `size` bytes. -/
def itemsWithin : (size : Nat) → Bytes → List Bytes
  | 0, _ => []
  | size + 1, bytes =>
    match cut bytes with
    | none => []
    | some (item, rest) => item :: itemsWithin size rest

/-- The items one after another in `bytes`, up to the first that is not there in full. -/
def items (bytes : Bytes) : List Bytes :=
  itemsWithin bytes.length bytes

theorem itemsWithin_eq {size : Nat} {bytes : Bytes} (h : bytes.length ≤ size) :
    itemsWithin size bytes = items bytes := by
  suffices ∀ n m (bytes : Bytes), bytes.length ≤ n → bytes.length ≤ m →
      itemsWithin n bytes = itemsWithin m bytes from this _ _ _ h (Nat.le_refl _)
  intro n
  induction n with
  | zero =>
    intro m bytes hn hm
    cases List.length_eq_zero_iff.1 (Nat.le_zero.1 hn)
    cases m <;> rfl
  | succ n ih =>
    intro m bytes hn hm
    cases m with
    | zero =>
      cases List.length_eq_zero_iff.1 (Nat.le_zero.1 hm)
      rfl
    | succ m =>
      simp only [itemsWithin]
      split
      · rfl
      · rename_i hc
        have := cut_shorter hc
        rw [ih m _ (by omega) (by omega)]

theorem items_of_cut_eq_none {bytes : Bytes} (h : cut bytes = none) : items bytes = [] := by
  cases bytes with
  | nil => rfl
  | cons => simp only [items, List.length_cons, itemsWithin, h]

theorem items_of_cut_eq_some {bytes item rest : Bytes} (h : cut bytes = some (item, rest)) :
    items bytes = item :: items rest := by
  cases bytes with
  | nil => cases h
  | cons tag tail =>
    have := cut_shorter h
    simp only [List.length_cons] at this
    simp only [items, List.length_cons, itemsWithin, h]
    rw [itemsWithin_eq (by omega)]
    rfl

def isList : Bytes → Bool
  | [] => false
  | tag :: _ => 0xc0 ≤ tag

/-- What an item holds, whether it is tagged as a string or as a list. -/
def payload (item : Bytes) : Bytes :=
  match extent item with
  | none => []
  | some e => (item.drop e.header).take e.payload

/-- The items of a list. The first has to lie within the announced payload; the others are read on
to the end of `bytes`, wherever the payload ends. -/
def listItems (bytes : Bytes) : List Bytes :=
  match extent bytes, cut bytes with
  | some e, some (whole, _) =>
    match cut (whole.drop e.header) with
    | none => []
    | some (first, _) => first :: items (bytes.drop (e.header + first.length))
  | _, _ => []

theorem length_flatten_itemsWithin (size : Nat) (bytes : Bytes) :
    (itemsWithin size bytes).flatten.length ≤ bytes.length := by
  induction size generalizing bytes with
  | zero => exact Nat.zero_le _
  | succ size ih =>
    simp only [itemsWithin]
    split
    · exact Nat.zero_le _
    · rename_i item rest h
      have := ih rest
      rw [cut_append h, List.flatten_cons, List.length_append, List.length_append]
      omega

theorem length_flatten_items (bytes : Bytes) : (items bytes).flatten.length ≤ bytes.length :=
  length_flatten_itemsWithin _ _

theorem extent_header_of_isList {bytes : Bytes} {e : Extent} (hl : isList bytes = true)
    (h : extent bytes = some e) : 0 < e.header := by
  cases bytes with
  | nil => cases h
  | cons tag rest =>
    have ht : 0xc0 ≤ tag.toNat := by
      simp only [isList, decide_eq_true_eq] at hl
      exact hl
    simp only [extent] at h
    rw [if_neg (by omega), if_neg (by omega), if_neg (by omega)] at h
    split at h
    · cases h
      simp
    · exact longExtent_header h

theorem length_flatten_listItems {bytes : Bytes} (hl : isList bytes = true) :
    (listItems bytes).flatten.length < bytes.length := by
  have hpos : 0 < bytes.length := by
    cases bytes with
    | nil => cases hl
    | cons => simp
  simp only [listItems]
  split
  · rename_i e whole rest he hc
    split
    · simpa using hpos
    · rename_i first more hf
      have hh := extent_header_of_isList hl he
      have hw := congrArg List.length (cut_append hc)
      have hd := congrArg List.length (cut_append hf)
      have hp := cut_pos hf
      have hi := length_flatten_items (bytes.drop (e.header + first.length))
      simp only [List.length_append, List.length_drop] at hw hd hi
      simp only [List.flatten_cons, List.length_append]
      omega
  · simpa using hpos

theorem length_le_flatten {item : Bytes} {items : List Bytes} (h : item ∈ items) :
    item.length ≤ items.flatten.length := by
  induction h with
  | head => simp
  | tail _ _ ih =>
    rw [List.flatten_cons, List.length_append]
    omega

end TrieCache.Rlp
