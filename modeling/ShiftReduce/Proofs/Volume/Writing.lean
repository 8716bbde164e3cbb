import Mathlib.Logic.Basic
import ShiftReduce.Proofs.Checked
import ShiftReduce.Volume.Basic

/-!
# Writing to a volume

A path that is written to leads to the place of a file or of one that can be created there. Writing
puts the content at that place and leaves all else alone: other places keep what they hold, and
every path goes on leading where it has led.
-/

namespace ShiftReduce

namespace Target

/-- The place of a file, or of one that can be created. -/
def place? : Target → Option Place
  | .directory _ => none
  | .file place _ => some place
  | .missing place => some place

/-- What a path leads to once a file has been put at a place. -/
def put (place : Place) (content : ByteArray) : Target → Target
  | .directory other => .directory other
  | .file other old => if other = place then .file other content else .file other old
  | .missing other => if other = place then .file other content else .missing other

@[simp] theorem put_directory (place other : Place) (content : ByteArray) :
    (directory other).put place content = .directory other := rfl

@[simp] theorem place?_put (place : Place) (content : ByteArray) (target : Target) :
    (target.put place content).place? = target.place? := by
  cases target with
  | directory => rfl
  | file | missing =>
    simp only [put]
    split <;> rfl

theorem put_of_place? {place : Place} {content : ByteArray} {target : Target}
    (hplace : target.place? = some place) : target.put place content = .file place content := by
  cases target with
  | directory => cases hplace
  | file | missing =>
    obtain rfl := Option.some.inj hplace
    simp [put]

end Target

namespace Volume

variable (v : Volume)

/-- What the file at a place holds, if there is one. -/
def content? (place : Place) : Option ByteArray :=
  v.files.lookup place

/-- What stands at a place, or can be created there. -/
def target (place : Place) : Target :=
  if v.isDirectory place then .directory place
  else match v.content? place with
    | some content => .file place content
    | none => .missing place

/-- Where a path leads to a file or to where one can be created. -/
def placeOf? (path : String) : Option Place :=
  match v.resolve path with
  | .error _ => none
  | .ok target => target.place?

/-- The volume with a file put at a place. -/
def put (place : Place) (content : ByteArray) : Volume :=
  { v with files := setEntry place content v.files }

/-- A path that can be handed over to be read or written. -/
structure CanBePassed (path : String) : Prop where
  hasZero_eq : Path.hasZero path = false
  isTooLong_eq : Path.isTooLong path = false

variable {v}

theorem placeOf?_eq_some_iff {path : String} {place : Place} :
    v.placeOf? path = some place ↔ ∃ target, v.resolve path = .ok target ∧
      target.place? = some place := by
  unfold placeOf?
  cases v.resolve path with
  | error e => simp
  | ok target => simp

theorem child_eq (parent : Place) (name : String) : v.child parent name =
    if name.utf8ByteSize > nameLimit then .error .nameTooLong
    else .ok (v.target (parent ++ [name])) := by
  unfold child target content?
  split
  next => rfl
  next =>
    by_cases hdirectory : v.isDirectory (parent ++ [name]) = true
    · simp only [hdirectory, if_true]
    · simp only [if_neg hdirectory]
      cases v.files.lookup (parent ++ [name]) <;> rfl

theorem descend_directory (parent : Place) (component : String) :
    v.descend (.directory parent) component =
      if component = "" ∨ component = "." then .ok (.directory parent)
      else if component = ".." then .ok (.directory parent.dropLast)
      else if component.utf8ByteSize > nameLimit then .error .nameTooLong
      else .ok (v.target (parent ++ [component])) := by
  rw [← child_eq]
  rfl

theorem place?_target {place other : Place} (hplace : (v.target place).place? = some other) :
    other = place := by
  unfold target at hplace
  split at hplace
  next => cases hplace
  next => split at hplace <;> exact (Option.some.inj hplace).symm

section Put

variable {place : Place} {content : ByteArray}

@[simp] theorem isDirectory_put : (v.put place content).isDirectory = v.isDirectory := rfl

theorem content?_put (other : Place) : (v.put place content).content? other =
    if other = place then some content else v.content? other := by
  -- entry lists compare keys by their decidable equality, places are looked up as lists
  have hbeq : (List.instBEq : BEq Place) = instBEqOfDecidableEq := lawful_beq_subsingleton _ _
  unfold content? put
  rw [hbeq]
  exact lookup_setEntry place other content v.files

theorem target_put (other : Place) :
    (v.put place content).target other = (v.target other).put place content := by
  unfold target
  rw [isDirectory_put, content?_put]
  split
  next => rfl
  next =>
    by_cases hother : other = place
    · rw [if_pos hother]
      cases v.content? other <;> simp [Target.put, hother]
    · rw [if_neg hother]
      cases v.content? other <;> simp [Target.put, hother]

theorem descend_put_eq_ok_iff {start next : Target} {component : String} :
    (v.put place content).descend (start.put place content) component = .ok next ↔
      ∃ old, v.descend start component = .ok old ∧ next = old.put place content := by
  cases start with
  | file | missing =>
    simp only [Target.put]
    split <;> simp [descend]
  | directory parent =>
    rw [Target.put_directory, descend_directory, descend_directory]
    split
    next => simp [eq_comm]
    next =>
      split
      next => simp [eq_comm]
      next => split <;> simp [target_put, eq_comm]

theorem foldlM_descend_put_eq_ok_iff (components : List String) (start : Target)
    {target : Target} :
    components.foldlM (v.put place content).descend (start.put place content) = .ok target ↔
      ∃ old, components.foldlM v.descend start = .ok old ∧ target = old.put place content := by
  induction components generalizing start with
  | nil => simp [pure, Except.pure, eq_comm]
  | cons component rest ih =>
    rw [List.foldlM_cons, List.foldlM_cons]
    constructor
    · intro htarget
      obtain ⟨next, hnext, htarget⟩ := exists_of_bind_eq_ok htarget
      obtain ⟨old, hold, rfl⟩ := descend_put_eq_ok_iff.mp hnext
      rw [hold]
      exact (ih old).mp htarget
    · rintro ⟨old, hold, rfl⟩
      obtain ⟨next, hnext, hold⟩ := exists_of_bind_eq_ok hold
      rw [descend_put_eq_ok_iff.mpr ⟨next, hnext, rfl⟩]
      exact (ih next).mpr ⟨old, hold, rfl⟩

/-- Paths go on leading where they have led. -/
theorem resolve_put_eq_ok_iff {path : String} {target : Target} :
    (v.put place content).resolve path = .ok target ↔
      ∃ old, v.resolve path = .ok old ∧ target = old.put place content := by
  unfold resolve follow
  split
  next => simp
  next => exact foldlM_descend_put_eq_ok_iff _ (.directory _)

@[simp] theorem placeOf?_put (path : String) :
    (v.put place content).placeOf? path = v.placeOf? path := by
  refine Option.ext fun other => ?_
  rw [placeOf?_eq_some_iff, placeOf?_eq_some_iff]
  constructor
  · rintro ⟨_, htarget, hplace⟩
    obtain ⟨old, hold, rfl⟩ := resolve_put_eq_ok_iff.mp htarget
    exact ⟨old, hold, (Target.place?_put place content old).symm.trans hplace⟩
  · rintro ⟨old, hold, hplace⟩
    exact ⟨_, resolve_put_eq_ok_iff.mpr ⟨old, hold, rfl⟩,
      (Target.place?_put place content old).trans hplace⟩

theorem read_eq_resolve {path : String} (hpath : CanBePassed path) : v.read path =
    match v.resolve path with
    | .error error => .error error
    | .ok (.directory _) => .error .isDirectory
    | .ok (.file _ content) => .ok content
    | .ok (.missing _) => .error .notFound := by
  rw [read, hpath.hasZero_eq, hpath.isTooLong_eq]
  rfl

theorem canBePassed_of_read {path : String} {held : ByteArray} (hread : v.read path = .ok held) :
    CanBePassed path := by
  unfold read at hread
  split at hread
  next => cases hread
  next hzero =>
    split at hread
    next => cases hread
    next hlong => exact ⟨Bool.eq_false_iff.mpr hzero, Bool.eq_false_iff.mpr hlong⟩

/-- Whatever path leads to the place, what has been put there is read. -/
theorem read_put {path : String} (hpath : CanBePassed path)
    (hplace : v.placeOf? path = some place) : (v.put place content).read path = .ok content := by
  obtain ⟨target, htarget, hplace⟩ := placeOf?_eq_some_iff.mp hplace
  rw [read_eq_resolve hpath, resolve_put_eq_ok_iff.mpr ⟨target, htarget, rfl⟩,
    Target.put_of_place? hplace]

/-- Paths that lead elsewhere are read as before. -/
theorem read_put_of_ne {path : String} {other : Place} {old : ByteArray}
    (hpath : CanBePassed path) (hother : v.placeOf? path = some other) (hne : other ≠ place)
    (hread : v.read path = .ok old) : (v.put place content).read path = .ok old := by
  obtain ⟨target, htarget, hother⟩ := placeOf?_eq_some_iff.mp hother
  rw [read_eq_resolve hpath, htarget] at hread
  rw [read_eq_resolve hpath, resolve_put_eq_ok_iff.mpr ⟨target, htarget, rfl⟩]
  cases target with
  | directory | missing => cases hread
  | file reached held =>
    obtain rfl := Option.some.inj hother
    simp only [Target.put, if_neg hne]
    exact hread

/-- A path that can be written to does not end in a slash, so it is resolved as for reading. -/
theorem resolve_of_resolveForWriting {path : String} {target : Target}
    (htarget : v.resolveForWriting path = .ok target) : v.resolve path = .ok target := by
  unfold resolveForWriting at htarget
  dsimp only at htarget
  split at htarget
  next => split at htarget <;> cases htarget
  next => exact htarget

/-- A write that succeeds puts the content where the path leads to. -/
theorem exists_of_write {path : String} {after : Volume}
    (hwrite : v.write path content = .ok after) :
    CanBePassed path ∧ ∃ place, v.placeOf? path = some place ∧ after = v.put place content := by
  unfold write at hwrite
  split at hwrite
  next => cases hwrite
  next hzero =>
    split at hwrite
    next => cases hwrite
    next hlong =>
      refine ⟨⟨Bool.eq_false_iff.mpr hzero, Bool.eq_false_iff.mpr hlong⟩, ?_⟩
      split at hwrite
      next => cases hwrite
      next => cases hwrite
      next place _ htarget =>
        exact ⟨place, placeOf?_eq_some_iff.mpr ⟨_, resolve_of_resolveForWriting htarget, rfl⟩,
          (Except.ok.inj hwrite).symm⟩
      next place htarget =>
        exact ⟨place, placeOf?_eq_some_iff.mpr ⟨_, resolve_of_resolveForWriting htarget, rfl⟩,
          (Except.ok.inj hwrite).symm⟩

end Put

end Volume

end ShiftReduce
