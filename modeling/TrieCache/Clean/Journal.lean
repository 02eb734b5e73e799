import TrieCache.Clean.Cache
import TrieCache.Varint

namespace TrieCache.Clean.Journal

def magic : Bytes := [0x54, 0x52, 0x49, 0x45, 0x4a, 0x52, 0x4e, 0x4c]

def version : Nat := 1

def recordTag : UInt8 := 0x01

def endTag : UInt8 := 0x00

/-- Why bytes are not a journal. -/
inductive Fault
  | badMagic
  | unsupportedVersion (n : Nat)
  | unexpectedTag (tag : UInt8)
  /-- The bytes end inside the magic number, a tag or a hash. -/
  | truncated
  /-- The bytes end inside a blob. -/
  | truncatedBlob
  | number (fault : Varint.Fault)
deriving DecidableEq

def Fault.message : Fault → String
  | .badMagic => "bad journal magic"
  | .unsupportedVersion n => s!"unsupported journal version {n}"
  | .unexpectedTag tag =>
    let digits := Bytes.hex [tag]
    s!"unexpected journal record tag 0x{digits}"
  | .truncated => "failed to fill whole buffer"
  | .truncatedBlob => "unexpected end of file"
  | .number .noNumber => "Reached EOF"
  | .number .unterminated => "Unterminated varint"

/-- One entry: its tag, hash, the length of its blob, and the blob. -/
def encodeEntry (e : Entry) : Bytes :=
  recordTag :: (e.1.bytes ++ Varint.encode e.2.length ++ e.2)

def encode (entries : List Entry) : Bytes :=
  magic ++ Varint.encode version ++ entries.flatMap encodeEntry ++ [endTag]

def decodeNumber (bits : Nat) (bytes : Bytes) : Except Fault (Nat × Bytes) :=
  match Varint.decode bits bytes with
  | .ok r => .ok r
  | .error e => .error (.number e)

def decodeHash (bytes : Bytes) : Except Fault (Hash × Bytes) :=
  if h : (bytes.take 32).length = 32 then .ok (⟨bytes.take 32, h⟩, bytes.drop 32)
  else .error .truncated

def decodeEntry (bytes : Bytes) : Except Fault (Entry × Bytes) := do
  let (hash, rest) ← decodeHash bytes
  let (length, rest) ← decodeNumber 64 rest
  let blob := rest.take length
  if blob.length = length then .ok ((hash, blob), rest.drop length) else .error .truncatedBlob

/-- Reads records up to the end mark, of at most `size` bytes together. What follows the end mark
is not looked at. -/
def decodeEntries : (size : Nat) → Bytes → Except Fault (List Entry)
  | 0, _ => .error .truncated
  | _ + 1, [] => .error .truncated
  | size + 1, tag :: rest =>
    if tag = endTag then .ok []
    else if tag = recordTag then do
      let (entry, rest) ← decodeEntry rest
      let entries ← decodeEntries size rest
      .ok (entry :: entries)
    else .error (.unexpectedTag tag)

def decode (bytes : Bytes) : Except Fault (List Entry) := do
  let start := bytes.take magic.length
  if start.length < magic.length then .error .truncated
  else if start ≠ magic then .error .badMagic
  else
    let (n, rest) ← decodeNumber 32 (bytes.drop magic.length)
    if n ≠ version then .error (.unsupportedVersion n) else decodeEntries rest.length rest

end TrieCache.Clean.Journal
