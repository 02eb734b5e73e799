import TrieCache.Node.Basic
import TrieCache.Rlp

namespace TrieCache

mutual

def Node.encode : Node → Bytes
  | .short key child => Rlp.list (Rlp.string key.toCompact ++ child.encode)
  | .full slots => Rlp.list slots.encode
  | .hash h => Rlp.string h.bytes
  | .value bytes => Rlp.string bytes

def Slots.encode {n : Nat} : Slots n → Bytes
  | .nil => []
  | .vacant rest => 0x80 :: rest.encode
  | .filled item rest => item.encode ++ rest.encode

end

namespace Node

def hashOf (n : Node) : Hash := Hash.keccak n.encode

/-- How a parent refers to a node: a node shorter than a hash is embedded, any other is named by
its hash, and its stored form is returned beside the reference. -/
def collapse (n : Node) : Node × Option Bytes :=
  let encoded := n.encode
  if encoded.length < 32 then (n, none)
  else (hash (Hash.keccak encoded), some encoded)

end Node

end TrieCache
