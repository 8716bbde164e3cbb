import ShiftReduce.Collection.Entries
import ShiftReduce.Volume.FileSystem
import ShiftReduce.Volume.Path

/-!
# Volumes

A tree of directories and files in memory, without links, with a working directory at which relative
paths begin. A place is the list of names on the way from the root.
-/

namespace ShiftReduce

abbrev Place := List String

structure Volume where
  directories : List Place
  files : List (Place × ByteArray)
  working : Place

/-- What a path leads to. -/
inductive Target where
  | directory (place : Place)
  | file (place : Place) (content : ByteArray)
  /-- Nothing yet, in a directory that exists. -/
  | missing (place : Place)

namespace Volume

variable (v : Volume)

/-- The longest name of a file or directory, in bytes. -/
def nameLimit : Nat := 255

def root : Place := []

def isDirectory (place : Place) : Bool :=
  place == root || v.directories.contains place

/-- What has the given name in a directory. -/
def child (place : Place) (name : String) : Except FileError Target :=
  if name.utf8ByteSize > nameLimit then .error .nameTooLong
  else
    let next := place ++ [name]
    if v.isDirectory next then .ok (.directory next)
    else match v.files.lookup next with
      | some content => .ok (.file next content)
      | none => .ok (.missing next)

/-- Goes on from what has been reached by one component of a path. -/
def descend (target : Target) (component : String) : Except FileError Target :=
  match target with
  | .file .. => .error .notDirectory
  | .missing _ => .error .notFound
  | .directory place =>
    if component = "" ∨ component = "." then .ok (.directory place)
    else if component = ".." then .ok (.directory place.dropLast)
    else v.child place component

/-- Follows the components of a path from where the path begins. -/
def follow (path : String) (components : List String) : Except FileError Target :=
  let start := if Path.isAbsolute path then root else v.working
  components.foldlM v.descend (.directory start)

def resolve (path : String) : Except FileError Target :=
  if path = "" then .error .notFound else v.follow path (Path.components path)

/-- What a file is to be written to. A path that ends in a slash can only mean a directory, whatever
its last name leads to. -/
def resolveForWriting (path : String) : Except FileError Target :=
  let components := Path.components path
  let named := (components.reverse.dropWhile (· = "")).reverse
  if path ≠ "" ∧ named.length < components.length then
    match v.follow path named.dropLast with
    | .error error => .error error
    | .ok (.directory _) => .error .isDirectory
    | .ok (.file ..) => .error .notDirectory
    | .ok (.missing _) => .error .notFound
  else v.resolve path

def placeText (place : Place) : String :=
  "/" ++ "/".intercalate place

/-- The path of what a path leads to. It is looked up name by name, so its size does not matter. -/
def canonicalize (path : String) : Except FileError String :=
  if Path.hasZero path then .error .zeroCharacter
  else match v.resolve path with
    | .error error => .error error
    | .ok (.directory place) => .ok (placeText place)
    | .ok (.file place _) => .ok (placeText place)
    | .ok (.missing _) => .error .notFound

def read (path : String) : Except FileError ByteArray :=
  if Path.hasZero path then .error .zeroCharacter
  else if Path.isTooLong path then .error .nameTooLong
  else match v.resolve path with
    | .error error => .error error
    | .ok (.directory _) => .error .isDirectory
    | .ok (.file _ content) => .ok content
    | .ok (.missing _) => .error .notFound

def write (path : String) (content : ByteArray) : Except FileError Volume :=
  if Path.hasZero path then .error .zeroCharacter
  else if Path.isTooLong path then .error .nameTooLong
  else match v.resolveForWriting path with
    | .error error => .error error
    | .ok (.directory _) => .error .isDirectory
    | .ok (.file place _) => .ok { v with files := setEntry place content v.files }
    | .ok (.missing place) => .ok { v with files := setEntry place content v.files }

/-- Puts a file at a place together with the directories on the way to it. -/
def addFile (place : Place) (content : ByteArray) : Volume :=
  { v with
    directories := v.directories ++ (List.range place.length).map place.take
    files := setEntry place content v.files }

/-- The operations on a volume that is kept as state. -/
def fileSystem : FileSystem (StateM Volume) where
  canonicalize path := return (← get).canonicalize path
  read path := return (← get).read path
  write path content := do
    match (← get).write path content with
    | .error error => return .error error
    | .ok next =>
      set next
      return .ok ()

end Volume

end ShiftReduce
