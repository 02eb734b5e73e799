import TrieCache.Hash
import TrieCache.Path

namespace TrieCache

mutual

/-- A collapsed trie node. -/
inductive Node
  /-- A partial path and what lies below it: a leaf's value or an extension's child. -/
  | short (key : Path) (child : Node)
  /-- A branch: sixteen children, then its own value. -/
  | full (slots : Slots 17)
  /-- A node stored under its hash. -/
  | hash (hash : Hash)
  /-- The value of a leaf or a branch. -/
  | value (bytes : Bytes)

/-- A row of places for nodes. -/
inductive Slots : Nat → Type
  | nil : Slots 0
  | vacant {n : Nat} (rest : Slots n) : Slots (n + 1)
  | filled {n : Nat} (item : Node) (rest : Slots n) : Slots (n + 1)

end

deriving instance DecidableEq for Node, Slots

namespace Slots

def empty : (n : Nat) → Slots n
  | 0 => nil
  | n + 1 => vacant (empty n)

def cons {n : Nat} : Option Node → Slots n → Slots (n + 1)
  | none, rest => vacant rest
  | some item, rest => filled item rest

def get? {n : Nat} : Slots n → Nat → Option Node
  | nil, _ => none
  | vacant _, 0 => none
  | filled item _, 0 => some item
  | vacant rest, i + 1 => rest.get? i
  | filled _ rest, i + 1 => rest.get? i

def set {n : Nat} : Slots n → Nat → Option Node → Slots n
  | nil, _, _ => nil
  | vacant rest, 0, item => cons item rest
  | filled _ rest, 0, item => cons item rest
  | vacant rest, i + 1, item => vacant (rest.set i item)
  | filled first rest, i + 1, item => filled first (rest.set i item)

def toList {n : Nat} : Slots n → List (Option Node)
  | nil => []
  | vacant rest => none :: rest.toList
  | filled item rest => some item :: rest.toList

theorem get?_empty (n i : Nat) : (empty n).get? i = none := by
  induction n generalizing i with
  | zero => rfl
  | succ n ih =>
    cases i with
    | zero => rfl
    | succ i => exact ih i

theorem get?_set_self {n i : Nat} (s : Slots n) (item : Option Node) (h : i < n) :
    (s.set i item).get? i = item := by
  induction i generalizing n with
  | zero =>
    cases s with
    | nil => omega
    | vacant rest => cases item <;> rfl
    | filled first rest => cases item <;> rfl
  | succ i ih =>
    cases s with
    | nil => omega
    | vacant rest => exact ih rest (by omega)
    | filled first rest => exact ih rest (by omega)

theorem get?_set_ne {n i j : Nat} (s : Slots n) (item : Option Node) (h : i ≠ j) :
    (s.set i item).get? j = s.get? j := by
  induction i generalizing n j with
  | zero =>
    cases j with
    | zero => exact absurd rfl h
    | succ j =>
      cases s with
      | nil => rfl
      | vacant rest => cases item <;> rfl
      | filled first rest => cases item <;> rfl
  | succ i ih =>
    cases j with
    | zero => cases s <;> rfl
    | succ j =>
      cases s with
      | nil => rfl
      | vacant rest => exact ih rest (by omega)
      | filled first rest => exact ih rest (by omega)

end Slots

namespace Node

def leaf (key : Path) (value : Bytes) : Node := short key (.value value)

def extension (key : Path) (child : Node) : Node := short key child

/-- A branch from nibbles and children, a later pair replacing an earlier one. Only the low half
of a nibble counts. -/
def branch (children : List (UInt8 × Node)) (value : Option Bytes) : Node :=
  let slots := children.foldl (fun s c => s.set (c.1 &&& 0xf).toNat (some c.2)) (Slots.empty 17)
  full (slots.set 16 (value.map .value))

end Node

mutual

/-- The hashes a node refers to, embedded nodes included, in order. Values have none. -/
def Node.childHashes : Node → List Hash
  | .short _ child => child.childHashes
  | .full slots => slots.childHashes
  | .hash h => [h]
  | .value _ => []

/-- The hashes in all slots but the last, which is a branch's own value. -/
def Slots.childHashes : {n : Nat} → Slots n → List Hash
  | _, .nil => []
  | _, .vacant rest => rest.childHashes
  | 1, .filled _ _ => []
  | _ + 2, .filled item rest => item.childHashes ++ rest.childHashes

end

end TrieCache
