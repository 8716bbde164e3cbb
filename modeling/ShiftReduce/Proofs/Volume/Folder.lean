import Mathlib.Data.List.TakeWhile
import ShiftReduce.Proofs.Volume.CanonicalPath

/-!
# Folders

A path is the text of a folder and of a last component. All paths in a folder go on from one
directory, so what they lead to stands side by side, and a file is only ever written into a
directory.
-/

namespace ShiftReduce

namespace Path

/-- What a path has in front of its last component. -/
def IsFolder (folder : String) : Prop :=
  folder = "" ∨ ∃ path, folder = path ++ "/"

/-- Every path is that of a folder and of a last component. -/
theorem exists_folder (path : String) :
    ∃ folder name, path = folder ++ name ∧ IsFolder folder ∧ '/' ∉ name.toList := by
  have hsplit := List.takeWhile_append_dropWhile (p := (· ≠ '/')) (l := path.toList.reverse)
  refine ⟨String.ofList (path.toList.reverse.dropWhile (· ≠ '/')).reverse,
    String.ofList (path.toList.reverse.takeWhile (· ≠ '/')).reverse, ?_, ?_, ?_⟩
  · refine String.toList_inj.mp ?_
    rw [String.toList_append, String.toList_ofList, String.toList_ofList, ← List.reverse_append,
      hsplit, List.reverse_reverse]
  · cases hfront : path.toList.reverse.dropWhile (· ≠ '/') with
    | nil => exact .inl rfl
    | cons c front =>
      have hc : c = '/' := by
        have hhead := List.head?_dropWhile_not (· ≠ '/') path.toList.reverse
        rw [hfront] at hhead
        simpa using hhead
      refine .inr ⟨String.ofList front.reverse, String.toList_inj.mp ?_⟩
      simp [hc]
  · intro hmem
    have hmem : '/' ∈ path.toList.reverse.takeWhile (· ≠ '/') := by simpa using hmem
    simpa using List.mem_takeWhile_imp hmem

theorem components_eq_singleton {name : String} (hslash : '/' ∉ name.toList) :
    components name = [name] := by
  rw [components, List.splitOn_eq_singleton hslash]
  simp

theorem components_append {name : String} (hslash : '/' ∉ name.toList) (path : String) :
    components (path ++ "/" ++ name) = components path ++ [name] := by
  have htext : (path ++ "/" ++ name).toList = path.toList ++ '/' :: name.toList := by simp
  rw [← components_eq_singleton hslash, components, htext, splitOn_append_slash, List.map_append]
  rfl

theorem isAbsolute_append (path name : String) :
    isAbsolute (path ++ "/" ++ name) = isAbsolute (path ++ "/") := by
  simp [isAbsolute]

end Path

namespace Volume

open ShiftReduce.Path

variable {v : Volume}

/-- All paths in a folder begin alike. -/
theorem exists_resolve_folder (v : Volume) {folder : String} (hfolder : IsFolder folder) :
    ∃ front : Except FileError Target, ∀ name, '/' ∉ name.toList → folder ++ name ≠ "" →
      v.resolve (folder ++ name) = front >>= fun target => v.descend target name := by
  rcases hfolder with rfl | ⟨path, rfl⟩
  · refine ⟨.ok (.directory v.working), fun name hslash hpath => ?_⟩
    have hrelative : isAbsolute name = false := by
      refine beq_eq_false_iff_ne.mpr fun hhead => hslash ?_
      exact List.mem_of_mem_head? hhead
    rw [String.empty_append] at hpath ⊢
    rw [resolve, if_neg hpath, follow, components_eq_singleton hslash, hrelative]
    exact bind_pure (v.descend (.directory v.working) name)
  · let start := if isAbsolute (path ++ "/") then root else v.working
    refine ⟨(components path).foldlM v.descend (.directory start), fun name hslash hpath => ?_⟩
    rw [resolve, if_neg hpath, follow, components_append hslash, isAbsolute_append,
      List.foldlM_append]
    refine bind_congr fun target => ?_
    simp

/-- Only a proper name leads on to a place, and only from a directory. -/
theorem exists_parent_of_descend {start target : Target} {component : String} {place : Place}
    (htarget : v.descend start component = .ok target) (hplace : target.place? = some place)
    (hslash : '/' ∉ component.toList) : ∃ parent, start = .directory parent ∧ IsName component ∧
      place = parent ++ [component] := by
  cases start with
  | file | missing => cases htarget
  | directory parent =>
    rw [descend_directory] at htarget
    split at htarget
    next =>
      rw [← Except.ok.inj htarget] at hplace
      cases hplace
    next hstay =>
      split at htarget
      next =>
        rw [← Except.ok.inj htarget] at hplace
        cases hplace
      next hup =>
        split at htarget
        next => cases htarget
        next hshort =>
          obtain ⟨hempty, hself⟩ := not_or.mp hstay
          rw [← Except.ok.inj htarget] at hplace
          exact ⟨parent, rfl, ⟨hempty, hself, hup, hslash, Nat.not_lt.mp hshort⟩,
            place?_target hplace⟩

/-- What leads to a place has its name behind a folder, and the other paths in the folder lead to
what stands beside it. -/
theorem exists_folder_of_placeOf? {path : String} {place : Place}
    (hplace : v.placeOf? path = some place) : ∃ folder name parent, path = folder ++ name ∧
      IsFolder folder ∧ IsName name ∧ place = parent ++ [name] ∧
      ∀ other, '/' ∉ other.toList → folder ++ other ≠ "" →
        v.resolve (folder ++ other) = v.descend (.directory parent) other := by
  obtain ⟨target, htarget, hreached⟩ := placeOf?_eq_some_iff.mp hplace
  obtain ⟨folder, name, rfl, hfolder, hslash⟩ := exists_folder path
  obtain ⟨front, hfront⟩ := v.exists_resolve_folder hfolder
  have hpath : folder ++ name ≠ "" := by
    intro hempty
    rw [hempty] at htarget
    cases htarget
  rw [hfront name hslash hpath] at htarget
  obtain ⟨start, rfl, htarget⟩ := exists_of_bind_eq_ok htarget
  obtain ⟨parent, rfl, hname, hplace⟩ := exists_parent_of_descend htarget hreached hslash
  exact ⟨folder, name, parent, rfl, hfolder, hname, hplace, hfront⟩

namespace WellFormed

variable (hv : v.WellFormed)

include hv

theorem put {path : String} {place : Place} (hplace : v.placeOf? path = some place)
    (content : ByteArray) : (v.put place content).WellFormed := by
  obtain ⟨target, htarget, hreached⟩ := placeOf?_eq_some_iff.mp hplace
  obtain ⟨_, name, parent, -, -, hname, rfl, -⟩ := exists_folder_of_placeOf? hplace
  obtain ⟨place, rfl, hparent⟩ := hv.exists_target_of_resolve htarget
  obtain rfl := place?_target hreached
  rw [List.dropLast_concat] at hparent
  have hfile : v.isDirectory (parent ++ [name]) = false := by
    refine Bool.eq_false_iff.mpr fun hdirectory => ?_
    rw [target_eq_directory_iff.mpr ⟨hdirectory, rfl⟩] at hreached
    cases hreached
  refine ⟨hv.isDirectory_working, hv.of_directory, fun other held hheld => ?_⟩
  rw [content?_put] at hheld
  split at hheld
  next heq => exact ⟨parent, name, heq, hname, hparent, heq ▸ hfile⟩
  next => exact hv.of_file other held hheld

end WellFormed

end Volume

end ShiftReduce
