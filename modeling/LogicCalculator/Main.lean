import LogicCalculator.CommandLine

/-!
# The program

Reads the file that the command line asks for, if any, and prints the outcome.
-/

namespace LogicCalculator.CommandLine

/-- A fault of the system. Its number comes in with either sign. -/
def systemFault (number : UInt32) (description : String) : FileError :=
  let n := number.toNat
  .system description.capitalize (if n < 0x80000000 then n else UInt32.size - n)

def fileError : IO.Error → FileError
  | .noFileOrDirectory _ number description => systemFault number description
  | .inappropriateType _ number description => systemFault number description
  | .permissionDenied _ number description => systemFault number description
  | .invalidArgument _ number description => systemFault number description
  | .resourceExhausted _ number description => systemFault number description
  | .noSuchThing _ number description => systemFault number description
  | .otherError number description => systemFault number description
  | other => .system (toString other) 0

def readFile (path : String) : IO (Except FileError ByteArray) := do
  try
    return .ok (← IO.FS.readBinFile path)
  catch error =>
    return .error (fileError error)

end LogicCalculator.CommandLine

open LogicCalculator.CommandLine

def main (arguments : List String) : IO UInt32 := do
  let file ←
    match fileToRead? arguments with
    | some path => readFile path
    | none => pure (.ok ByteArray.empty)
  let outcome := run (fun _ => file) arguments
  IO.print outcome.output
  IO.eprint outcome.complaint
  return outcome.code.toUInt32
