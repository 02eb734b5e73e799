import Mathlib.Data.List.TakeWhile
import TrieCache.Proofs.Directory
import TrieCache.Proofs.Except

namespace TrieCache.Directory

variable {d : Directory} {cs rest suffix : List Char} {names above : List Name} {first name : Name}
variable {path : String} {folder folder' file : Location}

section Split

theorem splitPath_ne_nil (cs : List Char) : splitPath cs ≠ [] := by
  cases cs with
  | nil => exact List.cons_ne_nil _ _
  | cons c cs =>
    rw [splitPath]
    split
    · exact List.cons_ne_nil _ _
    · split <;> exact List.cons_ne_nil _ _

theorem exists_last (cs : List Char) : ∃ above name, splitPath cs = above ++ [name] :=
  ⟨_, _, (List.dropLast_concat_getLast (splitPath_ne_nil cs)).symm⟩

theorem splitPath_cons_slash : splitPath ('/' :: cs) = [] :: splitPath cs := by
  rw [splitPath, if_pos rfl]

theorem exists_splitPath_cons {c : Char} (hc : c ≠ '/') (cs : List Char) :
    ∃ first names, splitPath cs = first :: names ∧
      splitPath (c :: cs) = (c :: first) :: names := by
  cases hs : splitPath cs with
  | nil => exact absurd hs (splitPath_ne_nil cs)
  | cons first names => exact ⟨first, names, rfl, by rw [splitPath, if_neg hc, hs]⟩

theorem splitPath_append_slash (h : '/' ∉ name) :
    splitPath (name ++ '/' :: rest) = name :: splitPath rest := by
  induction name with
  | nil => exact splitPath_cons_slash
  | cons c name ih =>
    rw [List.mem_cons, not_or] at h
    rw [List.cons_append, splitPath, if_neg (Ne.symm h.1), ih h.2]

theorem splitPath_of_notMem (h : '/' ∉ name) : splitPath name = [name] := by
  induction name with
  | nil => rfl
  | cons c name ih =>
    rw [List.mem_cons, not_or] at h
    rw [splitPath, if_neg (Ne.symm h.1), ih h.2]

theorem notMem_of_mem_splitPath (cs : List Char) : ∀ name ∈ splitPath cs, '/' ∉ name := by
  induction cs with
  | nil => simp [splitPath]
  | cons c cs ih =>
    by_cases hc : c = '/'
    · rw [hc, splitPath_cons_slash, List.forall_mem_cons]
      exact ⟨List.not_mem_nil, ih⟩
    · obtain ⟨first, names, hs, hcons⟩ := exists_splitPath_cons hc cs
      rw [hs, List.forall_mem_cons] at ih
      rw [hcons, List.forall_mem_cons, List.mem_cons, not_or]
      exact ⟨⟨Ne.symm hc, ih.1⟩, ih.2⟩

theorem joinPath_cons (name : Name) (h : names ≠ []) :
    joinPath (name :: names) = name ++ '/' :: joinPath names := by
  cases names with
  | nil => exact absurd rfl h
  | cons => rfl

theorem joinPath_concat (h : above ≠ []) :
    joinPath (above ++ [name]) = joinPath above ++ '/' :: name := by
  induction above with
  | nil => exact absurd rfl h
  | cons first above ih =>
    cases above with
    | nil => rfl
    | cons second above =>
      rw [List.cons_append, joinPath_cons first (by simp), ih (List.cons_ne_nil _ _),
        joinPath_cons first (List.cons_ne_nil _ _), List.append_assoc, List.cons_append]

theorem joinPath_concat_append :
    joinPath (above ++ [name]) ++ suffix = joinPath (above ++ [name ++ suffix]) := by
  by_cases h : above = []
  · subst h
    rfl
  · rw [joinPath_concat h, joinPath_concat h, List.append_assoc, List.cons_append]

theorem joinPath_concat_inj {name' : Name}
    (h : joinPath (above ++ [name]) = joinPath (above ++ [name'])) : name = name' := by
  by_cases ha : above = []
  · subst ha
    exact h
  · rw [joinPath_concat ha, joinPath_concat ha, List.append_cancel_left_eq, List.cons.injEq] at h
    exact h.2

theorem joinPath_splitPath (cs : List Char) : joinPath (splitPath cs) = cs := by
  induction cs with
  | nil => rfl
  | cons c cs ih =>
    by_cases hc : c = '/'
    · rw [hc, splitPath_cons_slash, joinPath_cons [] (splitPath_ne_nil cs), ih, List.nil_append]
    · obtain ⟨first, names, hs, hcons⟩ := exists_splitPath_cons hc cs
      rw [hs] at ih
      rw [hcons, ← ih]
      cases names <;> rfl

theorem splitPath_joinPath (hne : names ≠ []) (h : ∀ name ∈ names, '/' ∉ name) :
    splitPath (joinPath names) = names := by
  induction names with
  | nil => exact absurd rfl hne
  | cons name names ih =>
    obtain ⟨hname, hnames⟩ := List.forall_mem_cons.1 h
    by_cases hn : names = []
    · subst hn
      exact splitPath_of_notMem hname
    · rw [joinPath_cons name hn, splitPath_append_slash hname, ih hn hnames]

theorem splitPath_joinPath_concat (h : ∀ n ∈ above, '/' ∉ n) (hname : '/' ∉ name) :
    splitPath (joinPath (above ++ [name])) = above ++ [name] := by
  refine splitPath_joinPath (by simp) fun n hn => ?_
  rcases List.mem_append.1 hn with hn | hn
  · exact h n hn
  · rwa [List.mem_singleton.1 hn]

theorem notMem_of_splitPath (hs : splitPath cs = above ++ [name]) :
    (∀ n ∈ above, '/' ∉ n) ∧ '/' ∉ name := by
  have h := notMem_of_mem_splitPath cs
  rw [hs, List.forall_mem_append, List.forall_mem_singleton] at h
  exact h

theorem splitPath_append (hs : splitPath cs = above ++ [name]) (h : '/' ∉ suffix) :
    splitPath (cs ++ suffix) = above ++ [name ++ suffix] := by
  obtain ⟨habove, hname⟩ := notMem_of_splitPath hs
  rw [← joinPath_splitPath cs, hs, joinPath_concat_append]
  refine splitPath_joinPath_concat habove ?_
  rw [List.mem_append, not_or]
  exact ⟨hname, h⟩

end Split

section Files

theorem isAbsolute_iff (hs : splitPath path.toList = first :: names) :
    isAbsolute path ↔ first = [] ∧ names ≠ [] := by
  rw [isAbsolute, decide_eq_true_eq]
  cases hp : path.toList with
  | nil =>
    rw [hp] at hs
    cases hs
    simp
  | cons c cs =>
    rw [hp] at hs
    rw [List.head?_cons, Option.some.injEq]
    by_cases hc : c = '/'
    · rw [hc, splitPath_cons_slash, List.cons.injEq] at hs
      exact iff_of_true hc ⟨hs.1.symm, hs.2 ▸ splitPath_ne_nil cs⟩
    · obtain ⟨first', names', _, hcons⟩ := exists_splitPath_cons hc cs
      rw [hcons, List.cons.injEq] at hs
      exact iff_of_false hc fun h => List.cons_ne_nil _ _ (hs.1.trans h.1)

theorem start_congr {path' : String} {front rest : List Name} {name' : Name}
    (hs : splitPath path.toList = front ++ first :: rest) (hne : first ≠ [])
    (hs' : splitPath path'.toList = front ++ [name']) : d.start path = d.start path' := by
  have habs : isAbsolute path = isAbsolute path' := by
    rw [Bool.eq_iff_iff]
    cases front with
    | nil =>
      rw [isAbsolute_iff hs, isAbsolute_iff hs']
      exact iff_of_false (fun h => hne h.1) fun h => h.2 rfl
    | cons =>
      rw [isAbsolute_iff hs, isAbsolute_iff hs']
      simp
  rw [start, habs, start]

theorem enter_of_ne (he : d.enter folder name = .ok folder') (hhere : name ≠ Name.here)
    (hup : name ≠ Name.up) : folder' = folder ++ [name] := by
  rw [enter, if_neg hhere, if_neg hup] at he
  split_ifs at he
  cases he
  rfl

theorem enter_here (d : Directory) (folder : Location) :
    d.enter folder Name.here = .ok folder := by
  rw [enter, if_pos rfl]

theorem enterAll_here (h : ∀ n ∈ names, n = Name.here) :
    names.foldlM d.enter folder = .ok folder := by
  induction names with
  | nil => rfl
  | cons name names ih =>
    obtain ⟨rfl, hnames⟩ := List.forall_mem_cons.1 h
    rw [List.foldlM_cons, enter_here]
    exact ih hnames

theorem follow_concat (d : Directory) (slash : Bool) (folder : Location) (above : List Name)
    (name : Name) : d.follow slash folder (above ++ [name]) =
      above.foldlM d.enter folder >>= fun folder => d.follow slash folder [name] := by
  induction above generalizing folder with
  | nil => rfl
  | cons first above ih =>
    rw [List.cons_append, follow, List.foldlM_cons, bind_assoc]
    · exact bind_congr ih
    · simp

theorem follow_eq_entry {slash slash' : Bool}
    (h : d.follow slash folder names = .ok (.entry file slash')) :
    slash' = slash ∧ ∃ above name folder', names = above ++ [name] ∧
      above.foldlM d.enter folder = .ok folder' ∧ name ≠ Name.here ∧ name ≠ Name.up ∧
      file = folder' ++ [name] := by
  rcases List.eq_nil_or_concat' names with rfl | ⟨above, name, rfl⟩
  · cases h
  · rw [follow_concat] at h
    obtain ⟨folder', he, h⟩ := bind_eq_ok h
    rw [follow] at h
    split_ifs at h with hdots hlong
    · cases h
    · rw [not_or] at hdots
      cases h
      exact ⟨rfl, above, name, folder', rfl, he, hdots.1, hdots.2, rfl⟩

theorem names_of_fileOf (h : d.fileOf path = some file)
    (hs : splitPath path.toList = above ++ [name]) :
    name ≠ [] ∧ name ≠ Name.here ∧ name ≠ Name.up ∧ ∃ folder,
      (above.filter (· ≠ [])).foldlM d.enter (d.start path) = .ok folder ∧
        file = folder ++ [name] := by
  obtain ⟨hl, _⟩ := opened_eq_ok_iff.1 (fileOf_eq_some_iff.1 h)
  obtain ⟨_, hempty, _, hf⟩ := locate_eq_ok_iff.1 hl
  obtain ⟨hslash, above', name', folder, hn, he, hhere, hup, rfl⟩ := follow_eq_entry hf
  have hname : name ≠ [] := by
    rintro rfl
    by_cases ha : above = []
    · subst ha
      rw [hs] at hn
      simp at hn
    · rw [← joinPath_splitPath path.toList, hs, joinPath_concat ha] at hslash
      simp at hslash
  have hlast : [name].filter (· ≠ []) = [name] := by simpa using hname
  rw [hs, List.filter_append, hlast, List.append_singleton_inj] at hn
  obtain ⟨rfl, rfl⟩ := hn
  exact ⟨hname, hhere, hup, folder, he, rfl⟩

theorem splitPath_tmp (hs : splitPath path.toList = above ++ [name]) :
    splitPath (path ++ ".tmp").toList = above ++ [name ++ ".tmp".toList] := by
  rw [String.toList_append]
  exact splitPath_append hs (by decide)

/-- A path and the one with `.tmp` behind it never lead to the same file. -/
theorem fileOf_tmp_ne (h : d.fileOf path = some file) : d.fileOf (path ++ ".tmp") ≠ some file := by
  intro htmp
  obtain ⟨above, name, hs⟩ := exists_last path.toList
  obtain ⟨_, _, _, _, _, rfl⟩ := names_of_fileOf h hs
  obtain ⟨_, _, _, _, _, he⟩ := names_of_fileOf htmp (splitPath_tmp hs)
  simpa using congrArg List.length (List.append_singleton_inj.1 he).2

end Files

section Temporary

/-- The file that is written before the one at a path is replaced. -/
def temporaryFile (d : Directory) (path : String) : Option Location :=
  d.fileOf (String.ofList (temporaryPath path.toList))

theorem subset_stem : name.stem ⊆ name := by
  intro c hc
  rw [Name.stem] at hc
  split at hc
  · exact hc
  · have hm := List.dropLast_subset _ hc
    rw [List.mem_reverse] at hm
    exact List.mem_reverse.1 ((List.dropWhile_sublist _).mem hm)

theorem notMem_temporary {last : Bool} (h : '/' ∉ name) : '/' ∉ name.temporary last := by
  rw [Name.temporary]
  split
  · decide
  · rw [List.mem_append, not_or]
    exact ⟨fun hm => h (subset_stem hm), by decide⟩

theorem stem_append {front ext : Name} (he : '.' ∉ ext) :
    (front ++ '.' :: ext : Name).stem = if front = [] then '.' :: ext else front := by
  have hd : (front ++ '.' :: ext).reverse.dropWhile (· ≠ '.') = '.' :: front.reverse := by
    rw [List.reverse_append, List.reverse_cons, List.append_assoc, List.dropWhile_append_of_pos]
    · rfl
    · intro c hc
      rw [decide_eq_true_eq]
      rintro rfl
      exact he (List.mem_reverse.1 hc)
  rw [Name.stem, hd, List.reverse_cons, List.reverse_reverse, List.dropLast_concat]
  cases front <;> rfl

theorem stem_eq_self_iff : name.stem = name ↔ '.' ∉ name.tail := by
  by_cases hdot : '.' ∈ name.reverse
  · obtain ⟨ext, front, hrev, he⟩ := List.eq_append_cons_of_mem hdot
    obtain rfl : name = front.reverse ++ '.' :: ext.reverse := by
      rw [← List.reverse_reverse name, hrev]
      simp
    rw [stem_append (mt List.mem_reverse.1 he)]
    cases hf : front.reverse with
    | nil => simpa using he
    | cons c front => simp
  · have hnone : name.reverse.dropWhile (· ≠ '.') = [] := by
      rw [List.dropWhile_eq_nil_iff]
      intro c hc
      rw [decide_eq_true_eq]
      rintro rfl
      exact hdot hc
    have htail : '.' ∉ name.tail := fun hm => hdot (List.mem_reverse.2 (List.mem_of_mem_tail hm))
    rw [Name.stem, hnone]
    exact ⟨fun _ => htail, fun _ => rfl⟩

theorem temporary_eq_append_iff (hhere : name ≠ Name.here) :
    name.temporary true = name ++ ".tmp".toList ↔ '.' ∉ name.tail := by
  have hlen : Name.up ≠ name ++ ".tmp".toList := by
    intro he
    have hl := congrArg List.length he
    rw [List.length_append] at hl
    change 2 = name.length + 4 at hl
    omega
  rw [← stem_eq_self_iff, Name.temporary]
  by_cases hs : name.stem = Name.here
  · rw [if_pos ⟨rfl, hs⟩, hs]
    exact ⟨fun he => absurd he hlen, fun he => absurd he.symm hhere⟩
  · rw [if_neg (by simp [hs]), List.append_cancel_right_eq]

theorem temporaryPath_of_name (hs : splitPath cs = above ++ [name]) (h : name ≠ [])
    (hhere : name ≠ Name.here) (hup : name ≠ Name.up) :
    temporaryPath cs = joinPath (above ++ [name.temporary true]) := by
  rw [temporaryPath, hs, List.reverse_concat]
  simp [h, hhere, hup]

theorem temporaryPath_eq_append_iff (hs : splitPath cs = above ++ [name]) (h : name ≠ [])
    (hhere : name ≠ Name.here) (hup : name ≠ Name.up) :
    temporaryPath cs = cs ++ ".tmp".toList ↔ '.' ∉ name.tail := by
  have hcs : cs ++ ".tmp".toList = joinPath (above ++ [name ++ ".tmp".toList]) := by
    rw [← joinPath_concat_append, ← hs, joinPath_splitPath]
  rw [temporaryPath_of_name hs h hhere hup, ← temporary_eq_append_iff hhere, hcs]
  exact ⟨joinPath_concat_inj, fun he => by rw [he]⟩

/-- Where slashes or dots follow the last name of a path, they are left out and the name is changed
in its place. -/
theorem temporaryPath_of_dots (hs : splitPath cs = above ++ [name])
    (h : name = [] ∨ name = Name.here) :
    temporaryPath cs = cs ∨ ∃ (front : List Name) (name' : Name) (dots : List Name),
      above = front ++ name' :: dots ∧ (∀ n ∈ dots, n = [] ∨ n = Name.here) ∧
      name' ≠ [] ∧ name' ≠ Name.here ∧ name' ≠ Name.up ∧
      temporaryPath cs = joinPath (front ++ [name'.temporary false]) := by
  simp only [temporaryPath, hs, List.reverse_concat]
  rw [List.dropWhile_cons_of_pos (by simpa using h)]
  generalize hdotted : (fun n : Name => decide (n = [] ∨ n = Name.here)) = dotted
  have hdots : ∀ n : Name, dotted n ↔ n = [] ∨ n = Name.here := by
    simp [← hdotted]
  have hcut : above = (above.reverse.dropWhile dotted).reverse ++
      (above.reverse.takeWhile dotted).reverse := by
    rw [← List.reverse_append, List.takeWhile_append_dropWhile, List.reverse_reverse]
  cases hd : above.reverse.dropWhile dotted with
  | nil => exact .inl rfl
  | cons name' above' =>
    dsimp only
    by_cases hup : name' = Name.up
    · exact .inl (if_pos hup)
    have hkept := List.head?_dropWhile_not dotted above.reverse
    rw [hd, List.head?_cons] at hkept
    have hname : ¬ (name' = [] ∨ name' = Name.here) := fun hn => by
      rw [← hdots] at hn
      simp [hn] at hkept
    have hlast : some name ≠ some name' := by
      rintro ⟨⟩
      exact hname h
    obtain ⟨hne, hhere⟩ := not_or.1 hname
    refine .inr ⟨above'.reverse, name', (above.reverse.takeWhile dotted).reverse, ?_, ?_, hne,
      hhere, hup, ?_⟩
    · rw [hd, List.reverse_cons, List.append_assoc] at hcut
      exact hcut
    · intro n hn
      exact (hdots n).1 (List.mem_takeWhile_imp (List.mem_reverse.1 hn))
    · rw [if_neg hup, List.head?_cons, decide_eq_false (by simpa using hlast), List.reverse_cons]

theorem temporaryPath_of_up (hs : splitPath cs = above ++ [Name.up]) : temporaryPath cs = cs := by
  rw [temporaryPath, hs, List.reverse_concat]
  rfl

theorem names_of_temporaryFile {front : List Name} {last : Bool} (hs : ∀ n ∈ front, '/' ∉ n)
    (hname : '/' ∉ name)
    (hpath : temporaryPath path.toList = joinPath (front ++ [name.temporary last]))
    (h : d.temporaryFile path = some file) : ∃ path' folder,
      splitPath path'.toList = front ++ [name.temporary last] ∧
      (front.filter (· ≠ [])).foldlM d.enter (d.start path') = .ok folder ∧
      file = folder ++ [name.temporary last] := by
  have hsplit : splitPath (String.ofList (temporaryPath path.toList)).toList =
      front ++ [name.temporary last] := by
    rw [String.toList_ofList, hpath, splitPath_joinPath_concat hs (notMem_temporary hname)]
  obtain ⟨_, _, _, folder, hfolder, rfl⟩ := names_of_fileOf h hsplit
  exact ⟨_, folder, hsplit, hfolder, rfl⟩

/-- If the temporary file for a path is that of the path with `.tmp` behind it, then by its name. -/
theorem temporaryPath_of_fileOf (ht : d.temporaryFile path = some file)
    (htmp : d.fileOf (path ++ ".tmp") = some file) :
    temporaryPath path.toList = path.toList ++ ".tmp".toList := by
  obtain ⟨above, name, hs⟩ := exists_last path.toList
  obtain ⟨habove, hslash⟩ := notMem_of_splitPath hs
  have hstmp := splitPath_tmp hs
  obtain ⟨_, _, _, folder, hfolder, rfl⟩ := names_of_fileOf htmp hstmp
  have hmoved : temporaryPath path.toList ≠ path.toList := by
    intro hkept
    rw [temporaryFile, hkept, String.ofList_toList] at ht
    exact fileOf_tmp_ne ht htmp
  by_cases hname : name = [] ∨ name = Name.here
  · obtain hkept | ⟨front, name', dots, rfl, hdots, hne, hhere, hup, hpath⟩ :=
      temporaryPath_of_dots hs hname
    · exact absurd hkept hmoved
    · -- The folder of the one file would be the one above the folder of the other.
      rw [List.forall_mem_append, List.forall_mem_cons] at habove
      obtain ⟨path', folder', hs', hfolder', he⟩ :=
        names_of_temporaryFile habove.1 habove.2.1 hpath ht
      obtain ⟨rfl, _⟩ := List.append_singleton_inj.1 he
      rw [List.append_assoc, List.cons_append] at hstmp
      have hname' : (name' :: dots).filter (· ≠ []) = name' :: dots.filter (· ≠ []) :=
        List.filter_cons_of_pos (by simpa using hne)
      rw [start_congr hstmp hne hs', List.filter_append, hname', List.foldlM_append, hfolder']
        at hfolder
      change List.foldlM d.enter folder (name' :: _) = _ at hfolder
      obtain ⟨below, henter, hfolder⟩ := bind_eq_ok hfolder
      obtain rfl := enter_of_ne henter hhere hup
      rw [enterAll_here] at hfolder
      · simp at hfolder
      · intro n hn
        have hn := List.mem_filter.1 hn
        exact (hdots n hn.1).resolve_left (by simpa using hn.2)
  · rw [not_or] at hname
    by_cases hup : name = Name.up
    · subst hup
      exact absurd (temporaryPath_of_up hs) hmoved
    · have hpath := temporaryPath_of_name hs hname.1 hname.2 hup
      obtain ⟨_, _, _, _, he⟩ := names_of_temporaryFile habove hslash hpath ht
      rw [hpath, ← (List.append_singleton_inj.1 he).2, ← joinPath_concat_append, ← hs,
        joinPath_splitPath]

end Temporary

end TrieCache.Directory
