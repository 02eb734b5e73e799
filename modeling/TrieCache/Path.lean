import TrieCache.Bytes

namespace TrieCache

/-- Part of a node's path: one nibble a byte, a last `16` marking a path that ends at a value. -/
structure Path where
  nibbles : List UInt8
deriving DecidableEq

namespace Path

def terminator : UInt8 := 16

def split (b : UInt8) : List UInt8 := [b >>> 4, b &&& 0xf]

/-- The path of a whole key, terminated. -/
def ofKey (key : Bytes) : Path :=
  ⟨key.flatMap split ++ [terminator]⟩

def terminated (p : Path) : Bool :=
  p.nibbles.getLast? = some terminator

def body (p : Path) : List UInt8 :=
  if p.terminated then p.nibbles.dropLast else p.nibbles

/-- Two nibbles a byte, the first one high; a nibble left over goes high. -/
def pack : List UInt8 → Bytes
  | [] => []
  | [high] => [high <<< 4]
  | high :: low :: rest => ((high <<< 4) ||| low) :: pack rest

/-- The compact form. Its first byte tells in bit 5 whether the path is terminated and in bit 4
whether the number of nibbles is odd, in which case it also holds the first of them. -/
def toCompact (p : Path) : Bytes :=
  let flags : UInt8 := if p.terminated then 2 else 0
  match p.body with
  | [] => [flags <<< 4]
  | first :: rest =>
    if rest.length % 2 = 0 then (((flags ||| 1) <<< 4) ||| first) :: pack rest
    else (flags <<< 4) :: pack (first :: rest)

/-- Reads a compact form. Of the first byte only the two flags and an odd nibble count. -/
def ofCompact : Bytes → Path
  | [] => ⟨[]⟩
  | first :: rest =>
    let flags := first >>> 4
    let odd := if flags &&& 1 = 0 then [] else [first &&& 0xf]
    let last := if flags &&& 2 = 0 then [] else [terminator]
    ⟨odd ++ rest.flatMap split ++ last⟩

def displayElement (n : UInt8) : List Char :=
  if n = terminator then ['T']
  else if n < 16 then [Bytes.hexDigit n.toNat, ' ']
  else "[invalid ".toList ++ Bytes.hexPair n ++ "] ".toList

def display (p : Path) : String :=
  String.ofList (p.nibbles.flatMap displayElement)

end Path

end TrieCache
