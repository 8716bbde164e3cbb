import ShiftReduce.CommandLine.Run

/-!
# The program

Runs the command line on the files of the machine.
-/

namespace ShiftReduce

/-- The number by which the machine names the cause of an exception. Some operations negate it. -/
def causeNumber? (e : IO.Error) : Option UInt32 :=
  match e with
  | .noFileOrDirectory _ number _
  | .noSuchThing _ number _
  | .inappropriateType _ number _
  | .invalidArgument _ number _
  | .permissionDenied _ number _ => some (min number (0 - number))
  | _ => none

def FileError.ofException (e : IO.Error) : FileError :=
  match causeNumber? e with
  | some 2 => .notFound
  | some 13 => .permissionDenied
  | some 20 => .notDirectory
  | some 21 => .isDirectory
  | some 36 => .nameTooLong
  | _ => .other (toString e)

/-- The files of the machine. -/
def FileSystem.machine : FileSystem IO where
  canonicalize path := do
    try
      return .ok (← IO.FS.realPath path).toString
    catch _ =>
      -- Opening the path tells what is wrong with it.
      try
        discard (IO.FS.Handle.mk path .read)
        return .error .notFound
      catch e => return .error (.ofException e)
  read path := do
    try
      return .ok (← IO.FS.readBinFile path)
    catch e => return .error (.ofException e)
  write path content := do
    try
      IO.FS.writeBinFile path content
      return .ok ()
    catch e => return .error (.ofException e)

end ShiftReduce

open ShiftReduce in
def main (args : List String) : IO UInt32 := do
  let outcome ← CommandLine.run FileSystem.machine args
  IO.print outcome.output
  if let some failure := outcome.failure then
    IO.eprint failure.message
  return outcome.exitCode
