import TrieCache.Proofs.Directory.Names

namespace TrieCache.Directory

/-- Where replacing a file breaks off although its paths are good, and what is reported. -/
inductive Fault
  /-- The temporary file cannot be opened. -/
  | opening (cause : FileError)
  /-- Only the first bytes come into the temporary file. -/
  | writing (count : Nat) (cause : FileError)
  /-- The temporary file is complete and stays where it is. -/
  | moving (cause : FileError)

def Fault.strike (d : Directory) (source : Location) (bytes : Bytes) :
    Fault → Except FileError Unit × Directory
  | .opening e => (.error e, d)
  | .writing count e => (.error e, d.insert source (bytes.take count))
  | .moving e => (.error e, d.insert source bytes)

/-- Replacing a file with a fault on the way, or without one. Where there is no file to be opened
first it fails of itself. -/
def replaceUnder (fault : Option Fault) (d : Directory) (path : String) (bytes : Bytes) :
    Except FileError Unit × Directory :=
  match fault, d.temporaryFile path with
  | some fault, some source => fault.strike d source bytes
  | _, _ => d.replace path bytes

/-- What can come of replacing a file. -/
inductive Replacing (d : Directory) (path : String) (bytes : Bytes) :
    Except FileError Unit × Directory → Prop
  | refused (e : FileError) : Replacing d path bytes (.error e, d)
  | broken {source : Location} {written : Bytes} (e : FileError) :
    d.temporaryFile path = some source → written <+: bytes →
      Replacing d path bytes (.error e, d.insert source written)
  | done {source target : Location} : d.temporaryFile path = some source →
    d.fileOf path = some target →
      Replacing d path bytes (.ok (), (d.insert source bytes).rename source target)

variable {d : Directory} {fault : Option Fault} {path : String} {file source target : Location}
variable {bytes written : Bytes} {result : Except FileError Unit × Directory}

theorem replacing_replace (d : Directory) (path : String) (bytes : Bytes) :
    Replacing d path bytes (d.replace path bytes) := by
  rw [replace]
  split
  · exact .refused _
  · next source ho =>
    have hs : d.temporaryFile path = some source := fileOf_eq_some_iff.2 ho
    dsimp only
    split
    · exact .broken _ hs (List.prefix_refl bytes)
    · next target hr =>
      have hf := fileOf_eq_some_iff.2 (renamed_eq_ok_iff.1 hr)
      exact .done hs (((SameFolders.insert d source bytes).fileOf path).symm.trans hf)

theorem Fault.replacing_strike (fault : Fault) (hs : d.temporaryFile path = some source) :
    Replacing d path bytes (fault.strike d source bytes) := by
  cases fault with
  | opening e => exact .refused e
  | writing count e => exact .broken e hs <| List.take_prefix count bytes
  | moving e => exact .broken e hs (List.prefix_refl bytes)

theorem replacing_replaceUnder (fault : Option Fault) (d : Directory) (path : String)
    (bytes : Bytes) : Replacing d path bytes (replaceUnder fault d path bytes) := by
  cases fault with
  | none => exact replacing_replace d path bytes
  | some fault =>
    cases hs : d.temporaryFile path with
    | none =>
      unfold replaceUnder
      rw [hs]
      exact replacing_replace d path bytes
    | some source =>
      unfold replaceUnder
      rw [hs]
      exact fault.replacing_strike hs

theorem Replacing.sameFolders (h : Replacing d path bytes result) : SameFolders d result.2 := by
  cases h with
  | refused e => exact .refl d
  | broken e hs hw => exact .insert ..
  | done hs hp => exact (SameFolders.insert ..).trans (.rename ..)

theorem get_done : ((d.insert source bytes).rename source target).files[file]? =
    if target = file then some bytes else if source = file then none else d.files[file]? := by
  rw [get_rename (by rw [get_insert, if_pos rfl]), get_insert]
  split
  · rfl
  · split <;> rfl

/-- Only the file and its temporary file are changed, and the file itself only if it is replaced. -/
theorem Replacing.get_eq (h : Replacing d path bytes result) (ht : d.temporaryFile path ≠ some file)
    (hf : d.fileOf path ≠ some file ∨ ∃ e, result.1 = .error e) :
    result.2.files[file]? = d.files[file]? := by
  cases h with
  | refused e => rfl
  | @broken source written e hs hw =>
    have hsource : source ≠ file := fun he => ht (he ▸ hs)
    rw [get_insert, if_neg hsource]
  | @done source target hs hp =>
    have hsource : source ≠ file := fun he => ht (he ▸ hs)
    have htarget : target ≠ file := by
      rintro rfl
      exact hf.elim (fun hf => hf hp) nofun
    rw [get_done, if_neg htarget, if_neg hsource]

end TrieCache.Directory
