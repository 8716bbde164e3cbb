import ShiftReduce.Proofs.Volume.Folder

/-!
# Replaced extensions

A path is the text of a folder and a name. Replacing the extension keeps the folder and the stem of
the name, so the file it leads to stands beside the old one.
-/

namespace ShiftReduce

namespace Path

/-- A file name without its extension. -/
def stem (name : String) : String :=
  String.ofList (splitName name.toList.reverse).2.reverse

/-! ## The name at the end of a path

Texts are in reverse here, so what stands in front of the name comes behind it.
-/

section Reversed

variable {name rest : List Char}

theorem dropTrailing_append (hempty : name ≠ []) (hself : name ≠ ['.']) (hslash : '/' ∉ name) :
    dropTrailing (name ++ rest) = name ++ rest := by
  obtain ⟨c, after, rfl⟩ := List.exists_cons_of_ne_nil hempty
  obtain ⟨hc, hafter⟩ := not_or.mp (List.mem_cons.not.mp hslash)
  rw [List.cons_append]
  unfold dropTrailing
  split
  next htext => exact absurd (List.cons.inj htext).1.symm hc
  next htext =>
    obtain ⟨rfl, hbehind⟩ := List.cons.inj htext
    have hafter_ne : after ≠ [] := fun h => hself (by rw [h])
    obtain ⟨d, behind, rfl⟩ := List.exists_cons_of_ne_nil hafter_ne
    have hd : '/' = d := (List.cons.inj hbehind).1.symm
    exact absurd (by rw [hd]; exact List.mem_cons_self) hafter
  next => rfl

/-- Reading goes on past the name only if there is a slash. -/
theorem span_slash (hslash : '/' ∉ name) (hrest : rest = [] ∨ ∃ front, rest = '/' :: front) :
    (name ++ rest).takeWhile (· ≠ '/') = name ∧ (name ++ rest).dropWhile (· ≠ '/') = rest := by
  have hname : ∀ c ∈ name, decide (c ≠ '/') = true :=
    fun c hc => decide_eq_true fun h => hslash (h ▸ hc)
  rw [List.takeWhile_append_of_pos hname, List.dropWhile_append_of_pos hname]
  rcases hrest with rfl | ⟨front, rfl⟩ <;> simp

theorem lastName_append (hempty : name ≠ []) (hself : name ≠ ['.']) (hslash : '/' ∉ name)
    (hrest : rest = [] ∨ ∃ front, rest = '/' :: front) : lastName (name ++ rest) = name := by
  rw [lastName, dropTrailing_append hempty hself hslash]
  exact (span_slash hslash hrest).1

/-- A name has an extension behind a dot that is not its first character, or it has none. -/
theorem splitName_cases (name : List Char) :
    (∃ extension c stem, name = extension ++ '.' :: c :: stem ∧
      splitName name = (extension, c :: stem)) ∨ splitName name = ([], name) := by
  unfold splitName
  split
  next c stem hdot =>
    refine .inl ⟨_, c, stem, ?_, rfl⟩
    rw [← hdot]
    exact (List.takeWhile_append_dropWhile (p := (· ≠ '.'))).symm
  next => exact .inr rfl

theorem splitName_append {extension : List Char} (hdot : '.' ∉ extension) (c : Char)
    (stem : List Char) : splitName (extension ++ '.' :: c :: stem) = (extension, c :: stem) := by
  have hextension : ∀ d ∈ extension, decide (d ≠ '.') = true :=
    fun d hd => decide_eq_true fun h => hdot (h ▸ hd)
  unfold splitName
  rw [List.takeWhile_append_of_pos hextension, List.dropWhile_append_of_pos hextension]
  simp

theorem setExtension_append (hname : isFileName name = true) (hslash : '/' ∉ name)
    (hrest : rest = [] ∨ ∃ front, rest = '/' :: front) (extension : List Char) :
    setExtension extension (name ++ rest) = extension ++ '.' :: (splitName name).2 ++ rest := by
  have hempty : name ≠ [] := by simp_all [isFileName]
  have hself : name ≠ ['.'] := by simp_all [isFileName]
  rw [setExtension, lastName_append hempty hself hslash hrest, if_pos hname,
    dropTrailing_append hempty hself hslash, (span_slash hslash hrest).2]

theorem cutExtension_append (hname : isFileName name = true) (hslash : '/' ∉ name)
    (hrest : rest = [] ∨ ∃ front, rest = '/' :: front) :
    cutExtension (name ++ rest) = (name ++ rest).drop (splitName name).1.length := by
  have hempty : name ≠ [] := by simp_all [isFileName]
  have hself : name ≠ ['.'] := by simp_all [isFileName]
  rw [cutExtension, lastName_append hempty hself hslash hrest, if_pos hname]

/-- The stem takes the new extension. Of `..x` the cut leaves no file name, so nothing is added. -/
theorem setExtension_cutExtension (hname : isFileName name = true) (hslash : '/' ∉ name)
    (hrest : rest = [] ∨ ∃ front, rest = '/' :: front) (extension : List Char) :
    setExtension extension (cutExtension (name ++ rest)) =
      if (splitName name).2 = ['.'] then '.' :: '.' :: rest
      else extension ++ '.' :: (splitName name).2 ++ rest := by
  rw [cutExtension_append hname hslash hrest]
  rcases splitName_cases name with ⟨old, c, stem, hcut, hsplit⟩ | hsplit
  · have hleft : (name ++ rest).drop old.length = ('.' :: c :: stem) ++ rest := by
      rw [hcut, List.append_assoc, List.drop_left]
    have hslash : '/' ∉ '.' :: c :: stem := fun h => hslash (hcut ▸ List.mem_append_right old h)
    rw [hsplit, hleft]
    split
    next hparent =>
      obtain ⟨rfl, rfl⟩ := List.cons.inj hparent
      have hlast : lastName (['.', '.'] ++ rest) = ['.', '.'] :=
        lastName_append (by decide) (by decide) hslash hrest
      rw [setExtension, hlast]
      rfl
    next hstem =>
      have hname : isFileName ('.' :: c :: stem) = true := by
        simpa [isFileName, imp_iff_not_or] using hstem
      exact setExtension_append hname hslash hrest extension
  · have hself : name ≠ ['.'] := by simp_all [isFileName]
    rw [hsplit, List.length_nil, List.drop_zero, if_neg hself,
      setExtension_append hname hslash hrest, hsplit]

end Reversed

theorem isFileName_reverse {name : String} (hname : IsName name) :
    isFileName name.toList.reverse = true := by
  have hempty : name.toList.reverse ≠ [] := by simpa using hname.ne_empty
  have hself : name.toList.reverse ≠ ['.'] := fun h =>
    hname.ne_self (String.toList_inj.mp (List.reverse_eq_iff.mp h))
  have hparent : name.toList.reverse ≠ ['.', '.'] := fun h =>
    hname.ne_parent (String.toList_inj.mp (List.reverse_eq_iff.mp h))
  simp [isFileName, hempty, hself, hparent]

theorem reverse_folder {folder : String} (hfolder : IsFolder folder) :
    folder.toList.reverse = [] ∨ ∃ front, folder.toList.reverse = '/' :: front := by
  rcases hfolder with rfl | ⟨path, rfl⟩ <;> simp

/-- The folder stays, and the stem of the name takes the new extension. -/
theorem withExtension_append {folder name : String} (hfolder : IsFolder folder)
    (hname : IsName name) (extension : String) : withExtension (folder ++ name) extension =
      folder ++ if stem name = "." then ".." else stem name ++ "." ++ extension := by
  have hslash : '/' ∉ name.toList.reverse := fun h => hname.slash_not_mem (List.mem_reverse.mp h)
  have hstem : stem name = "." ↔ (splitName name.toList.reverse).2 = ['.'] := by
    rw [stem, ← String.toList_inj, String.toList_ofList, List.reverse_eq_iff]
    rfl
  rw [withExtension, String.toList_append, List.reverse_append,
    setExtension_cutExtension (isFileName_reverse hname) hslash (reverse_folder hfolder)]
  split
  next hself =>
    rw [if_pos (hstem.mpr hself)]
    refine String.toList_inj.mp ?_
    simp
  next hself =>
    rw [if_neg (hstem.not.mpr hself), stem]
    refine String.toList_inj.mp ?_
    simp

theorem stem_append {stem extension : String} (hstem : stem ≠ "")
    (hdot : '.' ∉ extension.toList) : Path.stem (stem ++ "." ++ extension) = stem := by
  have hreverse : stem.toList.reverse ≠ [] := by simpa using hstem
  obtain ⟨c, before, hreverse⟩ := List.exists_cons_of_ne_nil hreverse
  have hname : (stem ++ "." ++ extension).toList.reverse =
      extension.toList.reverse ++ '.' :: c :: before := by
    simp [hreverse]
  have hdot : '.' ∉ extension.toList.reverse := fun h => hdot (List.mem_reverse.mp h)
  rw [Path.stem, hname, splitName_append hdot, ← hreverse]
  simp

/-- A name is longer than its stem, so no name ends in two extensions behind its own stem. -/
theorem ne_stem_append (name inner : String) {extension : String} (hdot : '.' ∉ extension.toList) :
    name ≠ stem name ++ "." ++ inner ++ "." ++ extension := by
  intro heq
  have hinner : stem name ++ "." ++ inner ≠ "" := by simp
  have hstem : stem name = stem name ++ "." ++ inner :=
    (congrArg stem heq).trans (stem_append hinner hdot)
  have hlength := congrArg String.length hstem
  simp only [String.length_append] at hlength
  have hpoint : ".".length = 1 := rfl
  omega

theorem slash_not_mem_stem {name : String} (hslash : '/' ∉ name.toList) :
    '/' ∉ (stem name).toList := by
  have hsuffix : (splitName name.toList.reverse).2 <:+ name.toList.reverse := by
    rcases splitName_cases name.toList.reverse with ⟨old, c, before, hcut, hsplit⟩ | hsplit
    · exact ⟨old ++ ['.'], by rw [hsplit, hcut]; simp⟩
    · exact ⟨[], by simp [hsplit]⟩
  intro hmem
  have hreverse : '/' ∈ name.toList.reverse := hsuffix.mem (by simpa [stem] using hmem)
  exact hslash (List.mem_reverse.mp hreverse)

end Path

namespace Volume

open ShiftReduce.Path

variable {v : Volume}

/-- With a new extension a path leads to a file beside the old one. -/
theorem exists_parent_of_withExtension {path extension : String} {place other : Place}
    (hplace : v.placeOf? path = some place) (hslash : '/' ∉ extension.toList)
    (hother : v.placeOf? (withExtension path extension) = some other) :
    ∃ folder name parent, path = folder ++ name ∧ place = parent ++ [name] ∧
      withExtension path extension = folder ++ (stem name ++ "." ++ extension) ∧
      other = parent ++ [stem name ++ "." ++ extension] := by
  obtain ⟨folder, name, parent, rfl, hfolder, hname, hplace, hbeside⟩ :=
    exists_folder_of_placeOf? hplace
  obtain ⟨target, htarget, hother⟩ := placeOf?_eq_some_iff.mp hother
  have hpath := withExtension_append hfolder hname extension
  rw [hpath] at htarget
  split at hpath
  next hself =>
    -- the parent of a folder is a directory
    rw [if_pos hself, hbeside ".." (by decide) (by simp)] at htarget
    obtain ⟨_, -, hparent, -⟩ := exists_parent_of_descend htarget hother (by decide)
    exact absurd rfl hparent.ne_parent
  next hself =>
    have hslash : '/' ∉ (stem name ++ "." ++ extension).toList := by
      simp [slash_not_mem_stem hname.slash_not_mem, hslash]
    rw [if_neg hself, hbeside _ hslash (by simp)] at htarget
    obtain ⟨_, hparent, -, hother⟩ := exists_parent_of_descend htarget hother hslash
    obtain rfl := Target.directory.inj hparent
    exact ⟨folder, name, parent, rfl, hplace, hpath, hother⟩

/-- The place stays the same only if the path does. -/
theorem placeOf?_withExtension_eq_iff {path extension : String} {place other : Place}
    (hplace : v.placeOf? path = some place) (hslash : '/' ∉ extension.toList)
    (hother : v.placeOf? (withExtension path extension) = some other) :
    other = place ↔ withExtension path extension = path := by
  obtain ⟨folder, name, parent, rfl, rfl, hpath, rfl⟩ :=
    exists_parent_of_withExtension hplace hslash hother
  rw [hpath, List.append_right_inj, List.singleton_inj, String.append_right_inj]

end Volume

end ShiftReduce
