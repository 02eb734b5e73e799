import TrieCache.Directory.Basic
import TrieCache.Node.Decoding
import TrieCache.Store.Table

namespace TrieCache

inductive Error
  /-- The node is neither cached nor on disk. -/
  | notFound (h : Hash)
  | disk (cause : Store.DiskError)
  /-- What is stored under the hash is not a node. -/
  | decode (h : Hash) (cause : DecodeError)
  /-- The meta-root cannot be swept. -/
  | metaRoot
  | journal (cause : FileError)
deriving DecidableEq

def Error.message : Error → String
  | .notFound h => s!"trie node {h} not found"
  | .disk cause =>
    let text := cause.message
    s!"disk error: {text}"
  | .decode h cause =>
    let text := cause.message
    s!"failed to decode trie node {h}: {text}"
  | .metaRoot => "attempted to dereference the trie cache meta-root"
  | .journal cause =>
    let text := cause.message
    s!"clean cache journal error: {text}"

end TrieCache
