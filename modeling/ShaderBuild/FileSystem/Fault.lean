/-!
# Why a file operation fails
-/

namespace ShaderBuild

/-- The reasons that a file system or a program launch gives for a failure. -/
inductive FileFault where
  | notFound
  | alreadyExists
  | notADirectory
  | isADirectory
  | nameTooLong
  /-- A path holds a NUL character. -/
  | nulInPath
  /-- No directory is left to create a path in. -/
  | noAncestor
  /-- A file that should hold text is not valid UTF-8. -/
  | notText
  /-- Another reason why a program cannot be run, in words and perhaps with a number. -/
  | other (number : Option Nat) (text : String)
  deriving DecidableEq, Repr

/-- What a failure is. -/
def FileFault.text : FileFault → String
  | notFound => "No such file or directory"
  | alreadyExists => "File exists"
  | notADirectory => "Not a directory"
  | isADirectory => "Is a directory"
  | nameTooLong => "File name too long"
  | nulInPath => "file name contained an unexpected NUL byte"
  | noAncestor => "failed to create whole tree"
  | notText => "stream did not contain valid UTF-8"
  | other _ text => text

/-- The number of a failure that the system reports. -/
def FileFault.number? : FileFault → Option Nat
  | notFound => some 2
  | alreadyExists => some 17
  | notADirectory => some 20
  | isADirectory => some 21
  | nameTooLong => some 36
  | other number _ => number
  | _ => none

/-- What a failure is, with its number if there is one. -/
def FileFault.message (f : FileFault) : String :=
  match f.number? with
  | some n => f.text ++ " (os error " ++ n.repr ++ ")"
  | none => f.text

end ShaderBuild
