import StackMachine.Text.Escape

/-!
# Failures of file operations

The ways in which opening, reading or writing a file can fail, and the text that tells of
each.
-/

namespace StackMachine

/-- The bytes of a file. -/
abbrev Bytes := Array UInt8

/-- Why an operation on a file fails. -/
inductive FileFailure where
  /-- There is no file at a path. -/
  | missing (path : Text)
  /-- A path leads through something that is no directory. -/
  | notDirectory (path : Text)
  /-- A path or a name in it is too long. -/
  | nameTooLong (path : Text)
  /-- A path holds U+0000. -/
  | holdsNull (path : Text)
  /-- A directory is to be opened for writing. -/
  | directoryOpened (path : Text)
  /-- A directory is to be read. -/
  | directoryRead
  /-- There is no room for what is to be written. -/
  | full
  /-- Another reason that the system gives. -/
  | other (message : Text)
deriving DecidableEq, Repr

/-- A reason why a path cannot be opened, with the path. -/
def openFailure (reason path : Text) : Text :=
  Text.concat [reason, ", open '", path.repaired, "'"]

/-- The text that tells of a failure. -/
def FileFailure.message : FileFailure → Text
  | missing path => openFailure "ENOENT: no such file or directory" path
  | notDirectory path => openFailure "ENOTDIR: not a directory" path
  | nameTooLong path => openFailure "ENAMETOOLONG: name too long" path
  | holdsNull path =>
    Text.concat ["The argument 'path' must be a string, Uint8Array, or URL without null bytes.",
      " Received ", path.shown]
  | directoryOpened path => openFailure "EISDIR: illegal operation on a directory" path
  | directoryRead => "EISDIR: illegal operation on a directory, read"
  | full => "ENOSPC: no space left on device, write"
  | other message => message

end StackMachine
