import Mathlib.Tactic.SplitIfs
import TrieCache.Directory.Basic
import TrieCache.Proofs.Map

namespace TrieCache.Directory

/-- The same folders, whatever files there are in them. -/
structure SameFolders (d d' : Directory) : Prop where
  folders : d'.folders = d.folders
  home : d'.home = d.home

variable {d d' : Directory} {slash : Bool} {path : String} {bytes : Bytes}
variable {folder file source target : Location} {name : Name} {names : List Name} {place : Place}

namespace SameFolders

theorem refl (d : Directory) : SameFolders d d := ⟨rfl, rfl⟩

theorem symm (hs : SameFolders d d') : SameFolders d' d := ⟨hs.folders.symm, hs.home.symm⟩

theorem insert (d : Directory) (file : Location) (bytes : Bytes) :
    SameFolders d (d.insert file bytes) := ⟨rfl, rfl⟩

theorem rename (d : Directory) (source target : Location) :
    SameFolders d (d.rename source target) := by
  rw [Directory.rename]
  split
  · exact refl d
  · exact ⟨rfl, rfl⟩

theorem trans {d'' : Directory} (h₁ : SameFolders d d') (h₂ : SameFolders d' d'') :
    SameFolders d d'' :=
  ⟨h₂.folders.trans h₁.folders, h₂.home.trans h₁.home⟩

theorem isFolder (hs : SameFolders d d') (location : Location) :
    d'.isFolder location = d.isFolder location := by
  rw [Directory.isFolder, hs.folders, Directory.isFolder]

theorem enter {folder' : Location} (hs : SameFolders d d')
    (he : d.enter folder name = .ok folder') : d'.enter folder name = .ok folder' := by
  rw [Directory.enter] at he ⊢
  rw [hs.isFolder]
  split_ifs at he ⊢ <;> exact he

theorem follow (hs : SameFolders d d') (hf : d.follow slash folder names = .ok place) :
    d'.follow slash folder names = .ok place := by
  induction names generalizing folder with
  | nil => exact hf
  | cons name rest ih =>
    cases rest with
    | nil => exact hf
    | cons name' rest =>
      rw [Directory.follow] at hf ⊢
      · cases he : d.enter folder name with
        | error e =>
          rw [he] at hf
          cases hf
        | ok folder' =>
          rw [he] at hf
          rw [hs.enter he]
          exact ih hf
      all_goals exact List.cons_ne_nil _ _

end SameFolders

def start (d : Directory) (path : String) : Location := if isAbsolute path then [] else d.home

theorem locate_eq_ok_iff : d.locate path = .ok place ↔
    '\x00' ∉ path.toList ∧ path ≠ "" ∧ path.utf8ByteSize < maxPath ∧
      d.follow (path.toList.getLast? = some '/') (d.start path)
        ((splitPath path.toList).filter (· ≠ [])) = .ok place := by
  rw [locate]
  by_cases hzero : '\x00' ∈ path.toList
  · rw [if_pos hzero]
    exact ⟨nofun, fun h => absurd hzero h.1⟩
  by_cases hempty : path = ""
  · rw [if_neg hzero, if_pos hempty]
    exact ⟨nofun, fun h => absurd hempty h.2.1⟩
  by_cases hlong : maxPath ≤ path.utf8ByteSize
  · rw [if_neg hzero, if_neg hempty, if_pos hlong]
    exact ⟨nofun, fun h => absurd h.2.2.1 (Nat.not_lt.2 hlong)⟩
  rw [if_neg hzero, if_neg hempty, if_neg hlong]
  exact ⟨fun h => ⟨hzero, hempty, Nat.lt_of_not_le hlong, h⟩, fun h => h.2.2.2⟩

theorem SameFolders.locate (hs : SameFolders d d') (hl : d.locate path = .ok place) :
    d'.locate path = .ok place := by
  obtain ⟨hzero, hempty, hlong, hf⟩ := locate_eq_ok_iff.1 hl
  rw [start, ← hs.home] at hf
  exact locate_eq_ok_iff.2 ⟨hzero, hempty, hlong, hs.follow hf⟩

/-- The file that a path leads to, whether or not it is there. -/
def fileOf (d : Directory) (path : String) : Option Location := (d.opened path).toOption

theorem opened_eq_ok_iff : d.opened path = .ok file ↔
    d.locate path = .ok (.entry file false) ∧ d.isFolder file = false := by
  cases hl : d.locate path with
  | error e => simp [opened, hl, bind, Except.bind]
  | ok place =>
    rcases place with _ | _ | ⟨file', _ | _⟩
    case entry.false =>
      simp only [opened, hl, bind, Except.bind]
      split_ifs with hf
      · simp only [Except.ok.injEq, Place.entry.injEq, and_true, false_iff, not_and]
        rintro rfl
        simp [hf]
      · simp only [Except.ok.injEq, Place.entry.injEq, and_true]
        exact ⟨fun h => ⟨h, h ▸ Bool.eq_false_iff.2 hf⟩, And.left⟩
    all_goals simp [opened, hl, bind, Except.bind]

theorem renamed_eq_ok_iff : d.renamed path = .ok file ↔ d.opened path = .ok file := by
  cases hl : d.locate path with
  | error e => simp [renamed, opened, hl, bind, Except.bind]
  | ok place =>
    rcases place with _ | _ | ⟨file', _ | _⟩ <;> simp [renamed, opened, hl, bind, Except.bind]

theorem fileOf_eq_some_iff : d.fileOf path = some file ↔ d.opened path = .ok file := by
  rw [fileOf]
  cases d.opened path <;> simp [Except.toOption]

theorem SameFolders.fileOf (hs : SameFolders d d') (path : String) :
    d'.fileOf path = d.fileOf path := by
  have himp : ∀ {d d' : Directory}, SameFolders d d' → ∀ file, d.fileOf path = some file →
      d'.fileOf path = some file := by
    intro d d' hs file hf
    rw [fileOf_eq_some_iff, opened_eq_ok_iff] at hf ⊢
    rw [hs.isFolder]
    exact ⟨hs.locate hf.1, hf.2⟩
  exact Option.ext fun file => ⟨himp hs.symm file, himp hs file⟩

theorem read_of_fileOf (h : d.fileOf path = some file) :
    d.read path = d.files[file]?.elim (.error .notFound) .ok := by
  obtain ⟨hl, hf⟩ := opened_eq_ok_iff.1 (fileOf_eq_some_iff.1 h)
  simp only [read, hl, bind, Except.bind, hf, Bool.false_eq_true, if_false]
  cases d.files[file]? <;> rfl

theorem exists_file_of_read (h : d.read path = .ok bytes) : ∃ file, d.fileOf path = some file := by
  cases hl : d.locate path with
  | error e => simp [read, hl, bind, Except.bind] at h
  | ok place =>
    rcases place with _ | _ | ⟨file, slash⟩
    case entry =>
      simp only [read, hl, bind, Except.bind] at h
      split at h
      · cases h
      · next hf =>
        split at h
        · cases h
        · cases slash with
          | true => cases h
          | false =>
            have ho := opened_eq_ok_iff.2 ⟨hl, Bool.eq_false_iff.2 hf⟩
            exact ⟨file, fileOf_eq_some_iff.2 ho⟩
    all_goals simp [read, hl, bind, Except.bind] at h

theorem get_insert : (d.insert source bytes).files[file]? =
    if source = file then some bytes else d.files[file]? :=
  Map.get_insert d.files source file bytes

theorem get_rename (h : d.files[source]? = some bytes) :
    (d.rename source target).files[file]? =
      if target = file then some bytes else if source = file then none else d.files[file]? := by
  rw [rename, h]
  change ((d.files.erase source).insert target bytes)[file]? = _
  rw [Map.get_insert, Map.get_erase]

theorem read_of_replace (h : d.replace path bytes = (.ok (), d')) : d'.read path = .ok bytes := by
  rw [replace] at h
  split at h
  · cases congrArg Prod.fst h
  · next source _ =>
    dsimp only at h
    split at h
    · cases congrArg Prod.fst h
    · next target hr =>
      obtain rfl := congrArg Prod.snd h
      have hs : SameFolders (d.insert source bytes)
          ((d.insert source bytes).rename source target) := .rename ..
      have hf := fileOf_eq_some_iff.2 (renamed_eq_ok_iff.1 hr)
      have hsource : (d.insert source bytes).files[source]? = some bytes := by
        rw [get_insert, if_pos rfl]
      rw [read_of_fileOf ((hs.fileOf path).trans hf), get_rename hsource, if_pos rfl]
      rfl

end TrieCache.Directory
