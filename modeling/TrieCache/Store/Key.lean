import TrieCache.Hash
import TrieCache.Store.Batch

namespace TrieCache.Store

/-- The bytes of `secure-key-`, in front of the key of every preimage. -/
def preimageTag : Bytes :=
  [0x73, 0x65, 0x63, 0x75, 0x72, 0x65, 0x2d, 0x6b, 0x65, 0x79, 0x2d]

def nodeKey (h : Hash) : Bytes := h.bytes

def preimageKey (h : Hash) : Bytes := preimageTag ++ h.bytes

def preimageKeyLength : Nat := preimageTag.length + 32

theorem length_preimageKey (h : Hash) : (preimageKey h).length = preimageKeyLength := by
  rw [preimageKey, List.length_append, h.length_bytes]
  rfl

def putNode (h : Hash) (encoded : Bytes) : Op := .put (nodeKey h) encoded

def deleteNode (h : Hash) : Op := .delete (nodeKey h)

def putPreimage (h : Hash) (preimage : Bytes) : Op := .put (preimageKey h) preimage

end TrieCache.Store
