import TrieCache.Proofs.Clean.Journal
import TrieCache.Proofs.Directory.Replacing

namespace TrieCache.Clean.Cache

open Directory

def saveUnder (fault : Option Fault) (c : Cache) (d : Directory) (path : String) :
    Except FileError Nat × Directory :=
  let (result, d) := replaceUnder fault d path c.journal
  (result.map fun _ => c.entries.length, d)

/-- Whether a file is the one at a path, or the one at the path with `.tmp` behind it. -/
def Own (d : Directory) (path : String) (file : Location) : Prop :=
  d.fileOf path = some file ∨ d.fileOf (path ++ ".tmp") = some file

/-- Saving to a path changes no file of others, so that the journals there are loaded as before; and
when it fails, what was at the path is loaded as before, too. -/
structure Spares (c : Cache) (d : Directory) (path : String) (fault : Option Fault) : Prop where
  files : ∀ file, ¬ Own d path file →
    (c.saveUnder fault d path).2.files[file]? = d.files[file]?
  journals : ∀ other file, d.fileOf other = some file → ¬ Own d path file → ∀ place maxBytes,
    load (c.saveUnder fault d path).2 other place maxBytes = load d other place maxBytes
  failing : ∀ e bytes, (c.saveUnder fault d path).1 = .error e → d.read path = .ok bytes →
    ∀ place maxBytes,
      load (c.saveUnder fault d path).2 path place maxBytes = load d path place maxBytes

variable {c : Cache} {d d' : Directory} {fault : Option Fault} {path place : String}
variable {file : Location} {maxBytes : Nat}

theorem saveUnder_none : c.saveUnder none d path = c.save d path := rfl

theorem load_congr (h : d'.read path = d.read path) :
    load d' path place maxBytes = load d path place maxBytes := by
  rw [load, h, load]

theorem saveUnder_eq_error {e : FileError} (h : (c.saveUnder fault d path).1 = .error e) :
    ∃ e, (replaceUnder fault d path c.journal).1 = .error e := by
  rw [saveUnder] at h
  rcases hr : replaceUnder fault d path c.journal with ⟨_ | _, d'⟩
  · exact ⟨_, rfl⟩
  · rw [hr] at h
    cases h

theorem spares_of_temporaryFile
    (h : ∀ source, d.temporaryFile path = some source → d.fileOf (path ++ ".tmp") = some source)
    (c : Cache) (fault : Option Fault) : Spares c d path fault := by
  have hr := replacing_replaceUnder fault d path c.journal
  have hsame : SameFolders d (c.saveUnder fault d path).2 := hr.sameFolders
  have hread : ∀ {path' file}, d.fileOf path' = some file →
      (c.saveUnder fault d path).2.files[file]? = d.files[file]? →
        (c.saveUnder fault d path).2.read path' = d.read path' := by
    intro path' file hf hfile
    rw [read_of_fileOf hf, read_of_fileOf ((hsame.fileOf path').trans hf), hfile]
  have hfiles : ∀ file, ¬ Own d path file →
      (c.saveUnder fault d path).2.files[file]? = d.files[file]? := by
    intro file hown
    rw [Own, not_or] at hown
    exact hr.get_eq (fun ht => hown.2 (h file ht)) (.inl hown.1)
  refine ⟨hfiles, fun other file ho hown place maxBytes => ?_, ?_⟩
  · exact load_congr (hread ho (hfiles file hown))
  · intro e bytes he hb place maxBytes
    obtain ⟨file, hp⟩ := exists_file_of_read hb
    have ht : d.temporaryFile path ≠ some file := fun ht => fileOf_tmp_ne hp (h file ht)
    exact load_congr (hread hp (hr.get_eq ht (.inr (saveUnder_eq_error he))))

/-- An empty file in the place of the temporary one shows that this must be the one at the path
with `.tmp` behind it: after a failure it is not as it was, and the journal that it then holds is
loaded. -/
theorem own_of_spares {source : Location}
    (h : ∀ c files fault, Spares c { d with files } path fault)
    (hs : d.temporaryFile path = some source) : d.fileOf (path ++ ".tmp") = some source := by
  let c : Cache := .new 0
  let d₀ : Directory := d.insert source []
  let fault : Fault := .moving .busy
  have hsame : SameFolders d d₀ := .insert ..
  have hspares : Spares c d₀ path (some fault) := h c d₀.files (some fault)
  have hs₀ : d₀.temporaryFile path = some source := (hsame.fileOf _).trans hs
  have hsave : c.saveUnder (some fault) d₀ path = (.error .busy, d₀.insert source c.journal) := by
    simp only [saveUnder, replaceUnder, hs₀]
    rfl
  have hbefore : d₀.files[source]? = some [] := by rw [get_insert, if_pos rfl]
  have hafter : (d₀.insert source c.journal).files[source]? = some c.journal := by
    rw [get_insert, if_pos rfl]
  rw [← hsame.fileOf]
  by_contra htmp
  by_cases hp : d₀.fileOf path = some source
  · have hp' := ((SameFolders.insert d₀ source c.journal).fileOf path).trans hp
    have hread : d₀.read path = .ok [] := by
      rw [read_of_fileOf hp, hbefore]
      rfl
    have hload := hspares.failing .busy [] (by rw [hsave]) hread "" 0
    rw [hsave, load, load, read_of_fileOf hp, read_of_fileOf hp', hbefore, hafter] at hload
    exact absurd (congrArg Prod.snd hload) (by decide +kernel)
  · have hfile := hspares.files source (not_or.2 ⟨hp, htmp⟩)
    rw [hsave, hbefore, hafter] at hfile
    exact absurd hfile (by decide)

theorem own_iff :
    (∀ source, d.temporaryFile path = some source → d.fileOf (path ++ ".tmp") = some source) ↔
      d.temporaryFile path = none ∨ temporaryPath path.toList = (path ++ ".tmp").toList := by
  rw [String.toList_append]
  constructor
  · intro h
    cases ht : d.temporaryFile path with
    | none => exact .inl rfl
    | some source => exact .inr (temporaryPath_of_fileOf ht (h source ht))
  · rintro (hnone | ht) source hs
    · rw [hnone] at hs
      cases hs
    · rw [temporaryFile, ht, ← String.toList_append, String.ofList_toList] at hs
      exact hs

/-- What saving does to the files, among any folders and from any home. It spares those of others,
whatever files there are and wherever it may fail, just for the paths whose temporary file, if it
can be opened at all, has the path with `.tmp` behind it: of those that end in a name, the ones
without an extension. -/
theorem saving_spares_others_iff (d : Directory) (path : String) :
    ((∀ c files fault, Spares c { d with files } path fault) ↔
      d.temporaryFile path = none ∨ temporaryPath path.toList = (path ++ ".tmp").toList) ∧
    (∀ above name, splitPath path.toList = above ++ [name] →
      name ≠ [] → name ≠ Name.here → name ≠ Name.up →
        (temporaryPath path.toList = (path ++ ".tmp").toList ↔ '.' ∉ name.tail)) ∧
    ∀ c : Cache, c.saveUnder none d path = c.save d path ∧
      ∀ fault, SameFolders d (c.saveUnder fault d path).2 ∧ match c.saveUnder fault d path with
      | (.error _, d') => d' = d ∨ ∃ source written, d.temporaryFile path = some source ∧
          written <+: c.journal ∧ ∀ file : Location, d'.files[file]? =
            if source = file then some written else d.files[file]?
      | (.ok n, d') => n = c.entries.length ∧
          ∃ source target, d.temporaryFile path = some source ∧ d.fileOf path = some target ∧
            ∀ file : Location, d'.files[file]? =
              if target = file then some c.journal else if source = file then none
              else d.files[file]? := by
  refine ⟨?_, ?_, ?_⟩
  · rw [← own_iff]
    refine ⟨fun h source => own_of_spares h, fun h c files => spares_of_temporaryFile ?_ c⟩
    have hsame : SameFolders d { d with files } := ⟨rfl, rfl⟩
    intro source hs
    exact (hsame.fileOf _).trans (h source ((hsame.fileOf _).symm.trans hs))
  · intro above name hs hname hhere hup
    rw [String.toList_append]
    exact temporaryPath_eq_append_iff hs hname hhere hup
  · refine fun c => ⟨saveUnder_none, fun fault => ?_⟩
    have hr := replacing_replaceUnder fault d path c.journal
    refine ⟨hr.sameFolders, ?_⟩
    rw [saveUnder]
    generalize replaceUnder fault d path c.journal = result at hr
    cases hr with
    | refused e => exact .inl rfl
    | broken e hs hw => exact .inr ⟨_, _, hs, hw, fun file => get_insert⟩
    | done hs hp => exact ⟨rfl, _, _, hs, hp, fun file => get_done⟩

/-- A path through a folder has its temporary file in that folder. -/
example : let d : Directory := { folders := {[['v', 'a', 'r']]} }
    d.temporaryFile "/var/x.journal" = some [['v', 'a', 'r'], ['x', '.', 't', 'm', 'p']] ∧
      d.temporaryFile "/lib/x.journal" = none := by
  decide +kernel

/-- A cache with one blob. -/
def single : Cache := (new 1600).set (.fill 0x11) [1]

/-- A journal is destroyed by saving to a path with the same stem. -/
theorem journal_destroyed_by_saving :
    let d := (single.save {} "cleans.tmp").2
    d.read "cleans.tmp" = .ok single.journal ∧
      ¬ Own d "cleans.journal" ["cleans.tmp".toList] ∧
      (single.save d "cleans.journal").1 = .ok 1 ∧
      (single.save d "cleans.journal").2.read "cleans.tmp" = .error .notFound ∧
      ¬ Spares single d "cleans.journal" none := by
  have hown : ¬ Own (single.save {} "cleans.tmp").2 "cleans.journal" ["cleans.tmp".toList] := by
    rw [Own, not_or]
    decide +kernel
  refine ⟨by decide +kernel, hown, by decide +kernel, by decide +kernel, fun h => ?_⟩
  exact absurd (h.files ["cleans.tmp".toList] hown) (by decide +kernel)

end TrieCache.Clean.Cache
