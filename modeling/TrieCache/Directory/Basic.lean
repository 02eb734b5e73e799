import Std.Data.ExtTreeMap
import Std.Data.ExtTreeSet
import TrieCache.Bytes
import TrieCache.Directory.Name

namespace TrieCache

/-- Why a file could not be opened, written or put in its place. -/
inductive FileError
  | notFound
  | busy
  | notADirectory
  | isADirectory
  | nameTooLong
  | zeroByte
deriving DecidableEq

def FileError.message : FileError → String
  | .notFound => "No such file or directory (os error 2)"
  | .busy => "Device or resource busy (os error 16)"
  | .notADirectory => "Not a directory (os error 20)"
  | .isADirectory => "Is a directory (os error 21)"
  | .nameTooLong => "File name too long (os error 36)"
  | .zeroByte => "file name contained an unexpected NUL byte"

/-- The folders and files that paths can lead to. -/
structure Directory where
  files : Std.ExtTreeMap Directory.Location Bytes := ∅
  /-- The folders below the root. -/
  folders : Std.ExtTreeSet Directory.Location := ∅
  /-- The folder that paths start from unless they start with a slash. -/
  home : Directory.Location := []

namespace Directory

/-- What a path leads to. -/
inductive Place
  /-- The root, the path giving no name. -/
  | root
  /-- A folder by the name `.` or `..`. -/
  | dots
  /-- A folder or a file by its name, whether or not there is one; `slash` if a slash follows the
  name. -/
  | entry (location : Location) (slash : Bool)
deriving DecidableEq

/-- How many bytes a name may have. -/
def maxName : Nat := 255

/-- How many bytes a path may have, with a zero byte at its end. -/
def maxPath : Nat := 4096

def isFolder (d : Directory) (location : Location) : Bool :=
  location = [] || d.folders.contains location

def enter (d : Directory) (folder : Location) (name : Name) : Except FileError Location :=
  if name = Name.here then .ok folder
  else if name = Name.up then .ok folder.dropLast
  else if maxName < name.size then .error .nameTooLong
  else if d.isFolder (folder ++ [name]) then .ok (folder ++ [name])
  else if d.files.contains (folder ++ [name]) then .error .notADirectory
  else .error .notFound

/-- Follows names from a folder on. All but the last one are entered. -/
def follow (d : Directory) (slash : Bool) : Location → List Name → Except FileError Place
  | _, [] => .ok .root
  | folder, [name] =>
    if name = Name.here ∨ name = Name.up then .ok .dots
    else if maxName < name.size then .error .nameTooLong
    else .ok (.entry (folder ++ [name]) slash)
  | folder, name :: rest => do d.follow slash (← d.enter folder name) rest

def isAbsolute (path : String) : Bool := path.toList.head? = some '/'

def locate (d : Directory) (path : String) : Except FileError Place :=
  if '\x00' ∈ path.toList then .error .zeroByte
  else if path = "" then .error .notFound
  else if maxPath ≤ path.utf8ByteSize then .error .nameTooLong
  else
    d.follow (path.toList.getLast? = some '/') (if isAbsolute path then [] else d.home)
      ((splitPath path.toList).filter (· ≠ []))

def read (d : Directory) (path : String) : Except FileError Bytes := do
  match ← d.locate path with
  | .root | .dots => .error .isADirectory
  | .entry location slash =>
    if d.isFolder location then .error .isADirectory
    else
      match d.files[location]? with
      | none => .error .notFound
      | some bytes => if slash then .error .notADirectory else .ok bytes

def contains (d : Directory) (path : String) : Bool :=
  match d.locate path with
  | .error _ => false
  | .ok .root | .ok .dots => true
  | .ok (.entry location slash) =>
    d.isFolder location || d.files.contains location && !slash

/-- The file that a path leads to when it is opened for writing. -/
def opened (d : Directory) (path : String) : Except FileError Location := do
  match ← d.locate path with
  | .root | .dots | .entry _ true => .error .isADirectory
  | .entry location false =>
    if d.isFolder location then .error .isADirectory else .ok location

/-- The file that a path leads to when another file is renamed to it. -/
def renamed (d : Directory) (path : String) : Except FileError Location := do
  match ← d.locate path with
  | .root | .dots => .error .busy
  | .entry _ true => .error .notADirectory
  | .entry location false =>
    if d.isFolder location then .error .isADirectory else .ok location

def insert (d : Directory) (file : Location) (bytes : Bytes) : Directory :=
  { d with files := d.files.insert file bytes }

/-- Moves a file to another place, where it replaces a file that is there. -/
def rename (d : Directory) (source target : Location) : Directory :=
  match d.files[source]? with
  | none => d
  | some bytes => { d with files := (d.files.erase source).insert target bytes }

def write (d : Directory) (path : String) (bytes : Bytes) : Except FileError Directory := do
  let file ← d.opened path
  .ok (d.insert file bytes)

/-- Writes a file by way of a temporary one that is then renamed. The temporary file stays if it
cannot be renamed. -/
def replace (d : Directory) (path : String) (bytes : Bytes) : Except FileError Unit × Directory :=
  match d.opened (String.ofList (temporaryPath path.toList)) with
  | .error e => (.error e, d)
  | .ok source =>
    let d := d.insert source bytes
    match d.renamed path with
    | .error e => (.error e, d)
    | .ok target => (.ok (), d.rename source target)

/-- The names of the files in a folder, in ascending order. -/
def names (d : Directory) (folder : Location) : List Name :=
  d.files.keys.filterMap fun location =>
    if location.dropLast = folder then location.getLast? else none

end Directory

end TrieCache
