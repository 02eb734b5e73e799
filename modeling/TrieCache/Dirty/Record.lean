import TrieCache.Dirty.Arrangement
import TrieCache.Node.Decoding
import TrieCache.Saturating

namespace TrieCache.Dirty

/-- A cached node as it was handed in. -/
inductive Content
  /-- A node, whose hash children are known. -/
  | collapsed (node : Node)
  /-- Bytes that are never looked into, such as contract code. -/
  | raw (blob : Bytes)
deriving DecidableEq

structure Record where
  content : Content
  /-- The length of the node's stored form, as its owner gave it. -/
  size : Nat
  /-- How often other records name this one as a child. -/
  parents : Nat := 0
  /-- The children named by the owner, with the number of times each was named. -/
  edges : Option (HashMap Nat) := none
  /-- The next older and the next newer entry of the flush list. -/
  prev : Option Hash := none
  next : Option Hash := none
  /-- The version the node was last claimed for. -/
  version : Nat

abbrev Records := HashMap Record

/-- What a record is accounted with, besides its node. -/
def recordCost : Nat := 176

def edgeMapCost : Nat := 48

/-- What each edge is accounted with: its hash and a count of two bytes. -/
def edgeCost : Nat := 34

def maxEdgeCount : Nat := UInt16.size - 1

def maxParents : Nat := UInt32.size - 1

namespace Record

/-- The record of the meta-root, which only has edges. -/
def metaRoot : Record := { content := .raw [], size := 0, edges := some ∅, version := 0 }

def isRaw (r : Record) : Bool :=
  match r.content with
  | .raw _ => true
  | .collapsed _ => false

def encoded (r : Record) : Bytes :=
  match r.content with
  | .raw blob => blob
  | .collapsed node => node.encode

def node (r : Record) : Except DecodeError Node :=
  match r.content with
  | .raw blob => Node.decode blob
  | .collapsed node => .ok node

/-- The children named by the owner, in ascending order. -/
def explicitChildren (r : Record) : List Hash :=
  match r.edges with
  | none => []
  | some edges => edges.keys

def implicitChildren (r : Record) : List Hash :=
  match r.content with
  | .raw _ => []
  | .collapsed node => node.childHashes

def children (r : Record) : List Hash := r.explicitChildren ++ r.implicitChildren

/-- The children of the record under `h`, in the order in which they are walked. -/
def arrangedChildren (r : Record) (order : Arrangement) (h : Hash) : List Hash :=
  order.arrange (.children h) r.explicitChildren ++ r.implicitChildren

def edgesSize (r : Record) : Nat :=
  match r.edges with
  | none => 0
  | some edges => satAdd edgeMapCost (satMul edges.size edgeCost)

def payload (r : Record) : Nat := satAdd 32 r.size

/-- The bytes that leave memory with the record. -/
def footprint (r : Record) : Nat :=
  satAdd (satAdd r.payload recordCost) r.edgesSize

end Record

end TrieCache.Dirty
