/-!
# Files -- why a file operation fails

The causes that a path alone can bring about, worded as the operating
system words them.
-/


namespace ClassWeave

/-- Why a file operation failed. -/
inductive Fault where
  /-- Nothing is there. -/
  | missing
  /-- Something is already there. -/
  | present
  /-- A directory is needed, and something else is there. -/
  | notDirectory
  /-- A directory is there, and something else is needed. -/
  | isDirectory
  /-- A name over 255 octets, or a path over 4095. -/
  | nameTooLong
  /-- More than forty links on the way. -/
  | tooManyLinks
  /-- The name stands for a directory in use. -/
  | busy
  /-- The path holds a NUL character. -/
  | holdsNul
  deriving DecidableEq, Repr

/-- The wording of a failure. -/
def Fault.message : Fault → String
  | .missing => "No such file or directory (os error 2)"
  | .present => "File exists (os error 17)"
  | .notDirectory => "Not a directory (os error 20)"
  | .isDirectory => "Is a directory (os error 21)"
  | .nameTooLong => "File name too long (os error 36)"
  | .tooManyLinks => "Too many levels of symbolic links (os error 40)"
  | .busy => "Device or resource busy (os error 16)"
  | .holdsNul => "file name contained an unexpected NUL byte"

end ClassWeave
