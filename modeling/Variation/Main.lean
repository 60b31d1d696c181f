import Variation.CommandLine.Run

/-!
# The program

Commands run on the files of the disk.
-/

namespace Variation.Main

open CommandLine

/-- The fault behind an error of the operating system. -/
def fault : IO.Error → FileFault
  | .noFileOrDirectory .. => .missing
  | .permissionDenied .. => .denied
  | .inappropriateType _ 20 _ => .notADirectory
  | .inappropriateType _ 21 _ => .isADirectory
  | .invalidArgument _ 36 _ => .nameTooLong
  | e => .other (toString e)

/-- The files of the disk. -/
def disk : Files IO where
  read path := do
    match ← (IO.FS.readBinFile path).toBaseIO with
    | .ok bytes => return textOf bytes
    | .error e => return .error (fault e)
  write path content := do
    match ← (IO.FS.writeFile path content).toBaseIO with
    | .ok _ => return .ok ()
    | .error e => return .error (fault e)

end Variation.Main

/-- Runs the command that the arguments make up. -/
def main (arguments : List String) : IO UInt32 := do
  match Variation.CommandLine.Command.ofArguments? arguments with
  | none =>
    IO.eprintln "usage: COMMAND [OPTIONS] FILE..."
    return Variation.CommandLine.refusedStatus.toUInt32
  | some command =>
    let ending ← command.run Variation.Main.disk
    IO.print (Variation.CommandLine.Ending.printed ending)
    IO.eprint (Variation.CommandLine.Ending.complaint ending)
    return (Variation.CommandLine.Ending.status ending).toUInt32
