/-!
# Paths

A path is a text whose components are separated by slashes. The extension of a file name is what
follows its last dot, unless the name begins with that dot.
-/

namespace ShiftReduce.Path

/-- Drops slashes and components `.` from the end of a path, which is given in reverse. -/
def dropTrailing : List Char → List Char
  | '/' :: rest => dropTrailing rest
  | '.' :: '/' :: rest => dropTrailing rest
  | path => path

def isFileName (name : List Char) : Bool :=
  name ≠ [] && name ≠ ['.'] && name ≠ ['.', '.']

/-- The extension and the stem of a file name, all in reverse. Without an extension the stem is the
whole name. -/
def splitName (name : List Char) : List Char × List Char :=
  match name.dropWhile (· ≠ '.') with
  | '.' :: c :: rest => (name.takeWhile (· ≠ '.'), c :: rest)
  | _ => ([], name)

/-- The last component of a path that is given in reverse. -/
def lastName (path : List Char) : List Char :=
  (dropTrailing path).takeWhile (· ≠ '/')

/-- Drops as many characters from the end of a path as its extension has. -/
def cutExtension (path : List Char) : List Char :=
  let name := lastName path
  if isFileName name then path.drop (splitName name).1.length else path

/-- Puts an extension behind the stem of the file name, if there is a file name. -/
def setExtension (extension : List Char) (path : List Char) : List Char :=
  let name := lastName path
  if isFileName name then
    extension ++ '.' :: (splitName name).2 ++ (dropTrailing path).dropWhile (· ≠ '/')
  else path

/-- The path with the extension of its file name replaced. First the old extension is cut off, and
what is left takes the new one, unless it has no file name: `..x` becomes `..`. -/
def withExtension (path extension : String) : String :=
  String.ofList (setExtension extension.toList.reverse (cutExtension path.toList.reverse)).reverse

/-- No path that is handed over has as many bytes as this. -/
def sizeLimit : Nat := 4096

def isTooLong (path : String) : Bool :=
  path.utf8ByteSize ≥ sizeLimit

/-- Whether a path has a character of code zero, which ends every path. -/
def hasZero (path : String) : Bool :=
  path.toList.contains '\x00'

/-- The parts between slashes, empty ones included. -/
def components (path : String) : List String :=
  (path.toList.splitOn '/').map String.ofList

def isAbsolute (path : String) : Bool :=
  path.toList.head? == some '/'

end ShiftReduce.Path
