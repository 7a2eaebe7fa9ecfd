import ClassLoading.Decoder

/-!
# Load errors

Why a class could not be loaded or defined, and the text of each cause.
-/

namespace ClassLoading

/-- Why a file could not be read. -/
inductive FileError where
  | notFound
  | isDirectory
  | notDirectory
  | invalidInput
  | nameTooLong
  | permissionDenied
  | invalidData
  | unexpectedEnd
deriving DecidableEq, Repr

def FileError.message : FileError → String
  | notFound => "file not found"
  | isDirectory => "is a directory"
  | notDirectory => "not a directory"
  | invalidInput => "invalid path or data"
  | nameTooLong => "name too long"
  | permissionDenied => "permission denied"
  | invalidData => "invalid data"
  | unexpectedEnd => "unexpected end of data"

/-- Why a class could not be had. -/
inductive LoadError where
  /-- No entry of the class path has the class. -/
  | notFound (className : String)
  /-- The file of a class declares another one. -/
  | wrongName (expected found : String)
  /-- A file could not be read. -/
  | file (error : FileError)
  /-- An archive is unreadable, or holds the class in a form that is not supported. -/
  | archive
  /-- An archive says that the file of a class is larger than any memory. -/
  | tooLarge
  /-- The file of a class is not a class file. -/
  | format (className : String) (cause : FormatError)
deriving DecidableEq, Repr

def LoadError.message : LoadError → String
  | notFound className => s!"class {className} not found"
  | wrongName expected found =>
      s!"expected class {expected}, but the class file defines {found}"
  | file error => error.message
  | archive => "unreadable archive"
  | tooLarge => "capacity overflow"
  | format className cause => s!"malformed class {className}: " ++ cause.message

/-- Why a load ended without a class. -/
inductive LoadFailure where
  | error (error : LoadError)
  | fault (fault : Fault)
deriving DecidableEq, Repr

/-- A decoder's failure, as that of loading the class called `label`. -/
def LoadFailure.ofDecoding (label : String) : Failure → LoadFailure
  | .format cause => .error (.format label cause)
  | .fault broken => .fault broken

end ClassLoading
