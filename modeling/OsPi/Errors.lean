import Mathlib.Init

/-!
# Error Codes

The file-system error codes of `fs/errors.h`. Every layer of the file system returns `SUCCESS`
or one of these. Two errors are not codes of the source and mark executions after which the
kernel has no next state: `fault`, one that uses a null or dangling pointer or never returns,
and `stackOverflow`, one that nests path resolutions deeper than the kernel stack allows.
-/

namespace OsPi

/-- The error codes of the file system. -/
inductive Err
  | fileWriteError
  | fileOpenError
  | fileReadError
  | fileSeekError
  | fsAlreadyMounted
  | fsNotMounted
  | noFreeBlocks
  | inodeFull
  | invalidArgs
  | fOnlyOneWriter
  | oftFdDoesNotExist
  | fatNoSpaceRemaining
  | fileNotFound
  | illegalBlockNo
  | endDirNotFound
  | invalidPermissions
  | invalidFileName
  | pidNotFound
  | fileNotCreated
  | catSameInputOutput
  | fsInvalid
  | fileAlreadyExists
  | notADirectory
  | isADirectory
  | fault
  | stackOverflow
  deriving DecidableEq, Repr

/-- The errors that no caller sees. -/
def Err.fatal : Err → Bool
  | .fault | .stackOverflow => true
  | _ => false

end OsPi
