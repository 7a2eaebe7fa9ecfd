/-!
# Decoder options

What the decoder checks beyond the structure of a class file.
-/

namespace ClassLoading

/-- The checks that can be chosen; the defaults accept the versions from 45 to 69. -/
structure Options where
  /-- The least major version accepted, if versions are checked. -/
  minMajor : UInt16 := 45
  /-- The greatest major version accepted, if versions are checked. -/
  maxMajor : UInt16 := 69
  /-- The major version must be one of those accepted. -/
  enforceVersion : Bool := true
  /-- Descriptors must follow their grammar. -/
  validateDescriptors : Bool := true
  /-- The initial value of a field must be of the kind that its type asks for. -/
  validateConstantValueKinds : Bool := false
deriving DecidableEq, Repr

/-- Whether a major version is accepted. -/
def Options.accepts (options : Options) (major : UInt16) : Bool :=
  !options.enforceVersion || (options.minMajor ≤ major && major ≤ options.maxMajor)

end ClassLoading
