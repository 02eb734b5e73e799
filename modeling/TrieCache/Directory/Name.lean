namespace TrieCache.Directory

abbrev Name := List Char

/-- The names that lead from the root to a folder or a file. -/
abbrev Location := List Name

/-- The names between the slashes of a path, empty ones included. -/
def splitPath : List Char → List Name
  | [] => [[]]
  | c :: rest =>
    if c = '/' then [] :: splitPath rest
    else
      match splitPath rest with
      | [] => [[c]]
      | name :: names => (c :: name) :: names

def joinPath : List Name → List Char
  | [] => []
  | [name] => name
  | name :: names => name ++ '/' :: joinPath names

namespace Name

def here : Name := ['.']

def up : Name := ['.', '.']

def size (name : Name) : Nat := name.foldl (fun n c => n + c.utf8Size) 0

/-- A name up to its extension, which starts at the last dot unless that is the first character. -/
def stem (name : Name) : Name :=
  match (name.reverse.dropWhile (· ≠ '.')).reverse.dropLast with
  | [] => name
  | front => front

/-- The name with the extension `tmp`. An old extension is cut off before, and at the end of a path
that can leave the name of the folder above, which takes no extension. -/
def temporary (name : Name) (last : Bool) : Name :=
  if last ∧ name.stem = here then up else name.stem ++ ".tmp".toList

end Name

/-- The path with the extension `tmp` in the place of its own. A path without a name of its own
stays as it is. -/
def temporaryPath (path : List Char) : List Char :=
  let names := (splitPath path).reverse
  match names.dropWhile fun name => name = [] ∨ name = Name.here with
  | [] => path
  | name :: above =>
    if name = Name.up then path
    else joinPath ((Name.temporary name (names.head? = some name) :: above).reverse)

end TrieCache.Directory
