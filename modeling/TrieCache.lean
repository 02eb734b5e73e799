import TrieCache.Database.Cap
import TrieCache.Database.Commit
import TrieCache.Database.Journal
import TrieCache.Database.Lookup
import TrieCache.Database.Sweep
import TrieCache.Proofs.Database.Collection
import TrieCache.Proofs.Database.Failure
import TrieCache.Proofs.Database.Persistence
import TrieCache.Proofs.Database.Protection
import TrieCache.Proofs.Database.Retry
import TrieCache.Proofs.Database.Answers
import TrieCache.Proofs.Database.WriteOrder
import TrieCache.Store.Replay
import TrieCache.Proofs.Path
import TrieCache.Proofs.Node.Strict
import TrieCache.Proofs.Node.Trie
import TrieCache.Proofs.Clean.Journal
import TrieCache.Proofs.Database.Dereference
import TrieCache.Proofs.Database.Conservation
import TrieCache.Proofs.Database.Stamp
import TrieCache.Proofs.Database.Eviction
import TrieCache.Proofs.Clean.Requests
import TrieCache.Proofs.Clean.Overwriting
import TrieCache.Proofs.Clean.Format
import TrieCache.Proofs.Database.Commuting
import TrieCache.Proofs.Database.Batches
import TrieCache.Proofs.Database.Preimages
import TrieCache.Proofs.Database.Anchors
import TrieCache.Proofs.Database.Parents
import TrieCache.Proofs.Node.Embedded
import TrieCache.Proofs.Database.References
import TrieCache.Proofs.Store.Log
import TrieCache.Proofs.Database.Blobs
import TrieCache.Proofs.Node.Branch
import TrieCache.Proofs.Clean.Saving
