/-!
# Files

Commands read and write files through a record of two operations, so that the same command runs on
the disk and in memory.
-/

namespace Variation.CommandLine

/-- Why a file cannot be read or written. -/
inductive FileFault where
  | missing
  | denied
  | notADirectory
  | isADirectory
  | nameTooLong
  | notText
  | other (message : String)
  deriving DecidableEq, Inhabited

/-- The wording of a fault. -/
def FileFault.message : FileFault → String
  | missing => "No such file or directory (os error 2)"
  | denied => "Permission denied (os error 13)"
  | notADirectory => "Not a directory (os error 20)"
  | isADirectory => "Is a directory (os error 21)"
  | nameTooLong => "File name too long (os error 36)"
  | notText => "stream did not contain valid UTF-8"
  | other message => message

/-- The text of a file with the given bytes. -/
def textOf (bytes : ByteArray) : Except FileFault String :=
  match String.fromUTF8? bytes with
  | some s => .ok s
  | none => .error .notText

/-- The operations on files that commands need. -/
structure Files (m : Type → Type) where
  read : String → m (Except FileFault String)
  write : String → String → m (Except FileFault Unit)

end Variation.CommandLine
