import TrieCache.Node.Encoding

namespace TrieCache

/-- Why bytes are not a node. -/
inductive DecodeError
  /-- A byte string where a node was expected. -/
  | notAList
  /-- Neither the two items of a short node nor the seventeen of a branch. -/
  | itemCount (n : Nat)
  /-- An embedded node that should have been named by its hash. -/
  | oversized (length : Nat)
  | hashLength (cause : Hash.LengthError)
  /-- An extension without a child. -/
  | missingChild
deriving DecidableEq

def DecodeError.message : DecodeError → String
  | .notAList => "expected an rlp list, found a byte string"
  | .itemCount n => s!"invalid number of list items: {n}"
  | .oversized n => s!"oversized embedded node ({n} bytes)"
  | .hashLength cause => cause.message
  | .missingChild => "extension node has no child"

namespace Node

def ofValue (bytes : Bytes) : Option Node :=
  if bytes.isEmpty then none else some (.value bytes)

def ofHash (bytes : Bytes) : Except DecodeError (Option Node) :=
  if bytes.isEmpty then .ok none
  else match Hash.ofBytes bytes with
    | .ok h => .ok (some (.hash h))
    | .error e => .error (.hashLength e)

/-- Reads what stands for a child: an embedded node, read by `node`, or a hash, or nothing. -/
def decodeReference (node : Bytes → Except DecodeError Node) (bytes : Bytes) :
    Except DecodeError (Option Node) :=
  if Rlp.isList bytes then
    if 32 ≤ bytes.length then .error (.oversized bytes.length)
    else (node bytes).map some
  else ofHash (Rlp.payload bytes)

def decodeSlots (node : Bytes → Except DecodeError Node) :
    (n : Nat) → List Bytes → Except DecodeError (Slots n)
  | 0, _ => .ok .nil
  | n + 1, [] => .ok (.empty (n + 1))
  | 1, item :: _ => .ok (.cons (ofValue (Rlp.payload item)) .nil)
  | n + 2, item :: rest => do
    let child ← decodeReference node item
    let slots ← decodeSlots node (n + 1) rest
    .ok (.cons child slots)

def decodeShort (node : Bytes → Except DecodeError Node) (key item : Bytes) :
    Except DecodeError Node :=
  let path := Path.ofCompact (Rlp.payload key)
  if path.terminated then .ok (.short path (.value (Rlp.payload item)))
  else do
    match ← decodeReference node item with
    | some child => .ok (.short path child)
    | none => .error .missingChild

def decodeItems (node : Bytes → Except DecodeError Node) (items : List Bytes) :
    Except DecodeError Node :=
  match items with
  | [key, item] => decodeShort node key item
  | items =>
    if items.length = 17 then (decodeSlots node 17 items).map .full
    else .error (.itemCount items.length)

/-- Reads a node of at most `size` bytes, which bounds how deep nodes are embedded in it. -/
def decodeWithin : (size : Nat) → Bytes → Except DecodeError Node
  | 0, _ => .error .notAList
  | size + 1, bytes =>
    if Rlp.isList bytes then decodeItems (decodeWithin size) (Rlp.listItems bytes)
    else .error .notAList

def decode (bytes : Bytes) : Except DecodeError Node :=
  decodeWithin bytes.length bytes

theorem decodeReference_congr {f g : Bytes → Except DecodeError Node} {bytes : Bytes}
    (h : f bytes = g bytes) : decodeReference f bytes = decodeReference g bytes := by
  simp only [decodeReference, h]

theorem decodeSlots_congr {f g : Bytes → Except DecodeError Node} (n : Nat) (items : List Bytes)
    (h : ∀ item ∈ items, f item = g item) : decodeSlots f n items = decodeSlots g n items := by
  induction n generalizing items with
  | zero => rfl
  | succ n ih =>
    cases items with
    | nil => rfl
    | cons item rest =>
      cases n with
      | zero => rfl
      | succ n =>
        rw [decodeSlots, decodeSlots, decodeReference_congr (h item List.mem_cons_self),
          ih rest fun i hi => h i (List.mem_cons_of_mem _ hi)]

theorem decodeItems_congr {f g : Bytes → Except DecodeError Node} (items : List Bytes)
    (h : ∀ item ∈ items, f item = g item) : decodeItems f items = decodeItems g items := by
  simp only [decodeItems]
  split
  · rw [decodeShort, decodeShort, decodeReference_congr (h _ (by simp))]
  · rw [decodeSlots_congr 17 _ h]

theorem decodeWithin_eq {size : Nat} {bytes : Bytes} (h : bytes.length ≤ size) :
    decodeWithin size bytes = decode bytes := by
  suffices ∀ n m (bytes : Bytes), bytes.length ≤ n → bytes.length ≤ m →
      decodeWithin n bytes = decodeWithin m bytes from this _ _ _ h (Nat.le_refl _)
  intro n
  induction n with
  | zero =>
    intro m bytes hn hm
    cases List.length_eq_zero_iff.1 (Nat.le_zero.1 hn)
    cases m <;> rfl
  | succ n ih =>
    intro m bytes hn hm
    cases m with
    | zero =>
      cases List.length_eq_zero_iff.1 (Nat.le_zero.1 hm)
      rfl
    | succ m =>
      simp only [decodeWithin]
      split
      · rename_i hl
        refine decodeItems_congr _ fun item hi => ih m item ?_ ?_
        all_goals
          have := Rlp.length_flatten_listItems hl
          have := Rlp.length_le_flatten hi
          omega
      · rfl

/-- A node is read from the items of its list, embedded nodes the same way. -/
theorem decode_eq (bytes : Bytes) :
    decode bytes = if Rlp.isList bytes then decodeItems decode (Rlp.listItems bytes)
      else .error .notAList := by
  cases bytes with
  | nil => rfl
  | cons tag rest =>
    simp only [decode, List.length_cons, decodeWithin]
    split
    · rename_i hl
      refine decodeItems_congr _ fun item hi => decodeWithin_eq ?_
      have := Rlp.length_flatten_listItems hl
      have := Rlp.length_le_flatten hi
      simp only [List.length_cons] at *
      omega
    · rfl

end Node

end TrieCache
