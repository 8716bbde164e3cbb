import ShiftReduce.Proofs.Volume.Folder

/-!
# Volumes with faults

A volume refuses what its files and directories do not allow. More can go wrong around a program:
anything can be refused for other reasons, and a write can break off when its file has already been
opened. Such faults are given from outside and can depend on all that is asked.
-/

namespace ShiftReduce

/-- How a write fails that its volume would let through. -/
inductive WriteFault where
  /-- The file is not opened. -/
  | refused (error : FileError)
  /-- The file has been opened, which creates or empties it, and any content is left in it. -/
  | broken (error : FileError) (left : ByteArray)

/-- What goes wrong for reasons that a volume does not hold itself. -/
structure Faults where
  find : Volume → String → Option FileError
  read : Volume → String → Option FileError
  write : Volume → String → ByteArray → Option WriteFault

/-- Nothing goes wrong. -/
def Faults.none : Faults where
  find _ _ := .none
  read _ _ := .none
  write _ _ _ := .none

namespace Volume

/-- The answer, unless there is a fault. -/
def permit {α : Type} (fault : Option FileError) (answer : Except FileError α) :
    Except FileError α :=
  match fault with
  | some error => .error error
  | none => answer

theorem eq_ok_of_permit {α : Type} {fault : Option FileError} {answer : Except FileError α} {a : α}
    (hpermit : permit fault answer = .ok a) : answer = .ok a := by
  unfold permit at hpermit
  split at hpermit
  next => cases hpermit
  next => exact hpermit

section Faulty

variable (faults : Faults) (v : Volume)

def faultyFind (path : String) : Except FileError String :=
  permit (faults.find v path) (v.canonicalize path)

def faultyRead (path : String) : Except FileError ByteArray :=
  permit (faults.read v path) (v.read path)

/-- What a write answers and leaves. Only one that breaks off changes something when it fails. -/
def faultyWrite (path : String) (content : ByteArray) : Except FileError Unit × Volume :=
  match faults.write v path content with
  | some (.refused error) => (.error error, v)
  | some (.broken error left) =>
    match v.write path left with
    | .error refusal => (.error refusal, v)
    | .ok next => (.error error, next)
  | none =>
    match v.write path content with
    | .error error => (.error error, v)
    | .ok next => (.ok (), next)

/-- The operations on a volume that is kept as state and has faults. -/
def faultyFileSystem : FileSystem (StateM Volume) where
  canonicalize path := return (← get).faultyFind faults path
  read path := return (← get).faultyRead faults path
  write path content := modifyGet fun v => v.faultyWrite faults path content

theorem run_canonicalize (path : String) :
    ((faultyFileSystem faults).canonicalize path).run v = pure (v.faultyFind faults path, v) := rfl

theorem run_read (path : String) :
    ((faultyFileSystem faults).read path).run v = pure (v.faultyRead faults path, v) := rfl

theorem run_write (path : String) (content : ByteArray) :
    ((faultyFileSystem faults).write path content).run v =
      pure (v.faultyWrite faults path content) := rfl

theorem faultyFileSystem_none : faultyFileSystem .none = fileSystem := by
  have hwrite : (faultyFileSystem .none).write = fileSystem.write := by
    funext path content v
    change pure (v.faultyWrite .none path content) = (fileSystem.write path content).run v
    simp only [fileSystem, StateT.run_bind, StateT.run_get, pure_bind, faultyWrite, Faults.none]
    cases v.write path content <;> rfl
  exact congrArg (FileSystem.mk fileSystem.canonicalize fileSystem.read) hwrite

/-- What a write of some content that fails with an error can leave: all as it was, or other content
in the file. -/
inductive FailedWrite (path : String) (content : ByteArray) : FileError → Volume → Prop
  | untouched {error : FileError} : FailedWrite path content error v
  | broken {error : FileError} {left : ByteArray} {place : Place} :
    faults.write v path content = some (.broken error left) → v.placeOf? path = some place →
    FailedWrite path content error (v.put place left)

variable {faults v} {path : String} {content : ByteArray} {after : Volume}

theorem failedWrite_of_faultyWrite {error : FileError}
    (hwrite : v.faultyWrite faults path content = (.error error, after)) :
    v.FailedWrite faults path content error after := by
  unfold faultyWrite at hwrite
  split at hwrite
  next =>
    obtain ⟨-, rfl⟩ := Prod.mk.inj hwrite
    exact .untouched
  next cause left hbroken =>
    split at hwrite
    next =>
      obtain ⟨-, rfl⟩ := Prod.mk.inj hwrite
      exact .untouched
    next cut hleft =>
      obtain ⟨-, place, hplace, rfl⟩ := exists_of_write hleft
      obtain ⟨herror, rfl⟩ := Prod.mk.inj hwrite
      obtain rfl := Except.error.inj herror
      exact .broken hbroken hplace
  next =>
    split at hwrite
    next =>
      obtain ⟨-, rfl⟩ := Prod.mk.inj hwrite
      exact .untouched
    next => cases (Prod.mk.inj hwrite).1

/-- A write only succeeds by putting all of the content where the path leads to. -/
theorem exists_of_faultyWrite (hwrite : v.faultyWrite faults path content = (.ok (), after)) :
    CanBePassed path ∧ ∃ place, v.placeOf? path = some place ∧ after = v.put place content := by
  unfold faultyWrite at hwrite
  split at hwrite
  next => cases (Prod.mk.inj hwrite).1
  next => split at hwrite <;> cases (Prod.mk.inj hwrite).1
  next =>
    split at hwrite
    next => cases (Prod.mk.inj hwrite).1
    next hwritten =>
      obtain ⟨-, rfl⟩ := Prod.mk.inj hwrite
      exact exists_of_write hwritten

/-- Whatever a write comes to, it creates files in directories only. -/
theorem WellFormed.faultyWrite {answer : Except FileError Unit} (hv : v.WellFormed)
    (hwrite : v.faultyWrite faults path content = (answer, after)) : after.WellFormed := by
  cases answer with
  | error error =>
    cases failedWrite_of_faultyWrite hwrite with
    | untouched => exact hv
    | broken _ hplace => exact hv.put hplace _
  | ok =>
    obtain ⟨-, place, hplace, rfl⟩ := exists_of_faultyWrite hwrite
    exact hv.put hplace content

end Faulty

/-! ## Frames -/

/-- Volumes that differ at most in the files at some places. -/
structure SameOutside (changed : Place → Prop) (v after : Volume) : Prop where
  content?_eq : ∀ place, ¬ changed place → after.content? place = v.content? place
  directories_eq : after.directories = v.directories
  working_eq : after.working = v.working

namespace SameOutside

variable {changed : Place → Prop} {v between after : Volume}

protected theorem refl : SameOutside changed v v := ⟨fun _ _ => rfl, rfl, rfl⟩

theorem put {place : Place} (hplace : changed place) (content : ByteArray)
    (hsame : SameOutside changed v between) :
    SameOutside changed v (between.put place content) where
  content?_eq other hother := by
    have hne : other ≠ place := fun heq => hother (heq ▸ hplace)
    rw [content?_put, if_neg hne, hsame.content?_eq other hother]
  directories_eq := hsame.directories_eq
  working_eq := hsame.working_eq

theorem failedWrite {faults : Faults} {path : String} {content : ByteArray} {error : FileError}
    (hpath : ∀ place, between.placeOf? path = some place → changed place)
    (hsame : SameOutside changed v between)
    (hfailed : between.FailedWrite faults path content error after) :
    SameOutside changed v after := by
  cases hfailed with
  | untouched => exact hsame
  | broken _ hplace => exact hsame.put (hpath _ hplace) _

end SameOutside

end Volume

end ShiftReduce
