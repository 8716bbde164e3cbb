import ShiftReduce.Volume.FileError

/-!
# File systems

The three operations that the program needs of the files around it.
-/

namespace ShiftReduce

structure FileSystem (m : Type → Type) where
  /-- The absolute path of a file or directory that exists. -/
  canonicalize : String → m (Except FileError String)
  read : String → m (Except FileError ByteArray)
  /-- Creates a file or replaces its content. -/
  write : String → ByteArray → m (Except FileError Unit)

end ShiftReduce
