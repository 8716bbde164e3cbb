import Mathlib.Data.List.Induction
import Mathlib.Tactic.MkIffOfInductiveProp
import ShiftReduce.Proofs.Volume.Writing

/-!
# Canonical paths

In a well-formed volume everything stands in a directory under a proper name. So whatever a path
leads to stands at a place, and the canonical path of the place leads to the same.
-/

namespace ShiftReduce

/-- What a file or a directory can be called. -/
@[mk_iff]
structure IsName (name : String) : Prop where
  ne_empty : name ≠ ""
  ne_self : name ≠ "."
  ne_parent : name ≠ ".."
  slash_not_mem : '/' ∉ name.toList
  size_le : name.utf8ByteSize ≤ Volume.nameLimit

instance (name : String) : Decidable (IsName name) :=
  decidable_of_iff' _ (isName_iff name)

/-- A slash ends a component. -/
theorem Path.splitOn_append_slash (first second : List Char) :
    (first ++ '/' :: second).splitOn '/' = first.splitOn '/' ++ second.splitOn '/' :=
  List.splitOnP_append_cons first second rfl

namespace Volume

/-- Directories and files stand in directories. -/
structure WellFormed (v : Volume) : Prop where
  isDirectory_working : v.isDirectory v.working = true
  of_directory : ∀ parent name, v.isDirectory (parent ++ [name]) = true →
    IsName name ∧ v.isDirectory parent = true
  of_file : ∀ place content, v.content? place = some content →
    ∃ parent name, place = parent ++ [name] ∧ IsName name ∧ v.isDirectory parent = true ∧
      v.isDirectory place = false

variable {v : Volume}

theorem target_eq_directory_iff {place other : Place} :
    v.target place = .directory other ↔ v.isDirectory place = true ∧ other = place := by
  unfold target
  split
  next hdirectory => simp [hdirectory, eq_comm]
  next hdirectory => split <;> simp [hdirectory]

theorem target_eq_file_iff {place other : Place} {content : ByteArray} :
    v.target place = .file other content ↔
      v.isDirectory place = false ∧ v.content? place = some content ∧ other = place := by
  unfold target
  split
  next hdirectory => simp [hdirectory]
  next hdirectory =>
    split
    next hheld => simp [hdirectory, hheld, eq_comm, and_comm]
    next hheld => simp [hheld]

theorem descend_name {parent : Place} {name : String} (hname : IsName name) :
    v.descend (.directory parent) name = .ok (v.target (parent ++ [name])) := by
  have hstay : ¬ (name = "" ∨ name = ".") := not_or.mpr ⟨hname.ne_empty, hname.ne_self⟩
  have hshort : ¬ name.utf8ByteSize > nameLimit := Nat.not_lt.mpr hname.size_le
  rw [descend_directory, if_neg hstay, if_neg hname.ne_parent, if_neg hshort]

namespace WellFormed

variable (hv : v.WellFormed)

include hv

theorem isDirectory_dropLast {place : Place} (hplace : v.isDirectory place = true) :
    v.isDirectory place.dropLast = true := by
  cases place using List.reverseRecOn with
  | nil => exact hplace
  | append_singleton parent name =>
    rw [List.dropLast_concat]
    exact (hv.of_directory parent name hplace).2

/-- Whatever is reached stands, or would stand, in a directory. -/
theorem exists_target_of_descend {place : Place} {target : Target} {component : String}
    (htarget : v.descend (v.target place) component = .ok target) :
    ∃ next, target = v.target next ∧ v.isDirectory next.dropLast = true := by
  cases hheld : v.target place with
  | file | missing =>
    rw [hheld] at htarget
    cases htarget
  | directory parent =>
    obtain ⟨hdirectory, rfl⟩ := target_eq_directory_iff.mp hheld
    have hup := hv.isDirectory_dropLast hdirectory
    rw [hheld, descend_directory] at htarget
    split at htarget
    next => exact ⟨parent, (Except.ok.inj htarget).symm.trans hheld.symm, hup⟩
    next =>
      split at htarget
      next =>
        have hheldUp := target_eq_directory_iff.mpr ⟨hup, rfl⟩
        exact ⟨parent.dropLast, (Except.ok.inj htarget).symm.trans hheldUp.symm,
          hv.isDirectory_dropLast hup⟩
      next =>
        split at htarget
        next => cases htarget
        next =>
          refine ⟨parent ++ [component], (Except.ok.inj htarget).symm, ?_⟩
          rwa [List.dropLast_concat]

theorem exists_target_of_resolve {path : String} {target : Target}
    (htarget : v.resolve path = .ok target) :
    ∃ place, target = v.target place ∧ v.isDirectory place.dropLast = true := by
  unfold resolve follow at htarget
  split at htarget
  next => cases htarget
  next =>
    refine foldlM_invariant (P := fun _ reached => ∃ place, reached = v.target place ∧
      v.isDirectory place.dropLast = true) ?_ ?_ htarget
    · rintro _ component _ next ⟨place, rfl, -⟩ hnext
      exact hv.exists_target_of_descend hnext
    · have hstart : ∀ start, v.isDirectory start = true → ∃ place,
          .directory start = v.target place ∧ v.isDirectory place.dropLast = true := fun start h =>
        ⟨start, (target_eq_directory_iff.mpr ⟨h, rfl⟩).symm, hv.isDirectory_dropLast h⟩
      split
      next => exact hstart root rfl
      next => exact hstart v.working hv.isDirectory_working

/-- From the root the names of a directory lead to it. -/
theorem foldlM_descend_directory {place : Place} (hplace : v.isDirectory place = true) :
    place.foldlM v.descend (.directory root) = .ok (.directory place) := by
  induction place using List.reverseRecOn with
  | nil => rfl
  | append_singleton parent name ih =>
    obtain ⟨hname, hparent⟩ := hv.of_directory parent name hplace
    rw [foldlM_append_of_eq_ok (ih hparent), List.foldlM_cons, descend_name hname,
      target_eq_directory_iff.mpr ⟨hplace, rfl⟩]
    rfl

theorem isName_of_mem {place : Place} (hplace : v.isDirectory place = true) :
    ∀ name ∈ place, IsName name := by
  induction place using List.reverseRecOn with
  | nil => simp
  | append_singleton parent name ih =>
    obtain ⟨hname, hparent⟩ := hv.of_directory parent name hplace
    intro other hother
    rcases List.mem_append.mp hother with hother | hother
    · exact ih hparent other hother
    · rwa [List.mem_singleton.mp hother]

/-- What stands anywhere but at the root has a name in a directory. -/
theorem exists_parent {place : Place} {content : ByteArray}
    (hcontent : v.content? place = some content) : ∃ parent name, place = parent ++ [name] ∧
      IsName name ∧ v.isDirectory parent = true ∧ v.target place = .file place content := by
  obtain ⟨parent, name, hplace, hname, hparent, hfile⟩ := hv.of_file place content hcontent
  exact ⟨parent, name, hplace, hname, hparent, target_eq_file_iff.mpr ⟨hfile, hcontent, rfl⟩⟩

end WellFormed

theorem components_placeText {place : Place} (hplace : place ≠ [])
    (hnames : ∀ name ∈ place, '/' ∉ name.toList) :
    Path.components (placeText place) = "" :: place := by
  have hsplit : (['/'].intercalate (place.map String.toList)).splitOn '/' =
      place.map String.toList := by
    refine List.splitOn_intercalate '/' ?_ (by simpa using hplace)
    intro name hname
    obtain ⟨name, hmem, rfl⟩ := List.mem_map.mp hname
    exact hnames name hmem
  have htext : (placeText place).toList =
      [] ++ '/' :: ['/'].intercalate (place.map String.toList) := by
    simp [placeText, String.toList_intercalate]
  rw [Path.components, htext, Path.splitOn_append_slash, hsplit]
  simp [Function.comp_def]

namespace WellFormed

variable (hv : v.WellFormed)

include hv

theorem resolve_placeText_append {parent : Place} {name : String}
    (hparent : v.isDirectory parent = true) (hname : IsName name) :
    v.resolve (placeText (parent ++ [name])) = .ok (v.target (parent ++ [name])) := by
  have hnames : ∀ other ∈ parent ++ [name], '/' ∉ other.toList := by
    intro other hother
    rcases List.mem_append.mp hother with hother | hother
    · exact (hv.isName_of_mem hparent other hother).slash_not_mem
    · exact List.mem_singleton.mp hother ▸ hname.slash_not_mem
  have htext : placeText (parent ++ [name]) ≠ "" := by
    simp [placeText, String.ext_iff]
  have habsolute : Path.isAbsolute (placeText (parent ++ [name])) = true := by
    simp [placeText, Path.isAbsolute]
  rw [resolve, if_neg htext, follow, components_placeText (by simp) hnames, if_pos habsolute]
  -- the empty component in front stays at the root
  change (parent ++ [name]).foldlM v.descend (.directory root) = _
  rw [foldlM_append_of_eq_ok (hv.foldlM_descend_directory hparent), List.foldlM_cons,
    descend_name hname]
  rfl

/-- The path that a place is written as leads to what stands there. -/
theorem resolve_placeText {place : Place} (hplace : v.isDirectory place = true ∨
    ∃ content, v.content? place = some content) :
    v.resolve (placeText place) = .ok (v.target place) := by
  rcases hplace with hdirectory | ⟨content, hcontent⟩
  · cases place using List.reverseRecOn with
    | nil =>
      rw [target_eq_directory_iff.mpr ⟨hdirectory, rfl⟩]
      rfl
    | append_singleton parent name =>
      obtain ⟨hname, hparent⟩ := hv.of_directory parent name hdirectory
      exact hv.resolve_placeText_append hparent hname
  · obtain ⟨parent, name, rfl, hname, hparent, -⟩ := hv.exists_parent hcontent
    exact hv.resolve_placeText_append hparent hname

theorem placeOf?_placeText {place : Place} {content : ByteArray}
    (hcontent : v.content? place = some content) : v.placeOf? (placeText place) = some place := by
  obtain ⟨-, -, -, -, -, htarget⟩ := hv.exists_parent hcontent
  have hresolve := hv.resolve_placeText (.inr ⟨content, hcontent⟩)
  exact placeOf?_eq_some_iff.mpr ⟨_, hresolve, by rw [htarget]; rfl⟩

/-- A canonical path that can be read is that of a file, to which the path has led before. -/
theorem exists_file_of_canonicalize {path text : String} {content : ByteArray}
    (htext : v.canonicalize path = .ok text) (hread : v.read text = .ok content) :
    ∃ place, text = placeText place ∧ v.content? place = some content ∧
      v.resolve path = .ok (.file place content) := by
  rw [read_eq_resolve (canBePassed_of_read hread)] at hread
  unfold canonicalize at htext
  split at htext
  next => cases htext
  next =>
    split at htext
    next => cases htext
    next place hresolve =>
      obtain ⟨other, hother, -⟩ := hv.exists_target_of_resolve hresolve
      obtain ⟨hdirectory, rfl⟩ := target_eq_directory_iff.mp hother.symm
      rw [← Except.ok.inj htext, hv.resolve_placeText (.inl hdirectory), ← hother] at hread
      cases hread
    next place held hresolve =>
      obtain ⟨other, hother, -⟩ := hv.exists_target_of_resolve hresolve
      obtain ⟨-, hcontent, rfl⟩ := target_eq_file_iff.mp hother.symm
      rw [← Except.ok.inj htext, hv.resolve_placeText (.inr ⟨held, hcontent⟩), ← hother] at hread
      obtain rfl := Except.ok.inj hread
      exact ⟨place, (Except.ok.inj htext).symm, hcontent, hresolve⟩
    next => cases htext

end WellFormed

end Volume

end ShiftReduce
