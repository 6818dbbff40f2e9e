/-!
# Errors of the operating system

Why a file operation was refused. The wording is the one the system prints.
-/

namespace PluginWorkshop

/-- Why the operating system refused a file operation. -/
inductive OsError where
  | notFound
  | permissionDenied
  | alreadyExists
  | notADirectory
  | isADirectory
  | nameTooLong
  | noSpace
  | directoryNotEmpty
  /-- The content is no UTF-8 text. -/
  | invalidText
  /-- The path has a NUL character in it. -/
  | nulInPath
  deriving DecidableEq, Repr, Inhabited

namespace OsError

def message : OsError → String
  | notFound => "No such file or directory (os error 2)"
  | permissionDenied => "Permission denied (os error 13)"
  | alreadyExists => "File exists (os error 17)"
  | notADirectory => "Not a directory (os error 20)"
  | isADirectory => "Is a directory (os error 21)"
  | nameTooLong => "File name too long (os error 36)"
  | noSpace => "No space left on device (os error 28)"
  | directoryNotEmpty => "Directory not empty (os error 39)"
  | invalidText => "stream did not contain valid UTF-8"
  | nulInPath => "file name contained an unexpected NUL byte"

end OsError

end PluginWorkshop
