import Lox.Text.Utf8

/-!
# Source files

Source text comes from the bytes of a file, which may be missing or hold something else than text.
-/

namespace Lox

/-- Why a file gives no source text. -/
inductive SourceFault where
  | missing
  | unreadable (reason : String)
  | notText (cause : Text.DecodeFault)
deriving DecidableEq, Repr

namespace SourceFault

def message : SourceFault → String
  | .missing => "No such file or directory (os error 2)"
  | .unreadable reason => reason
  | .notText cause => cause.message

end SourceFault

/-- The source text in the bytes of a file. -/
def readSource (bytes : Except SourceFault ByteArray) : Except SourceFault String := do
  (Text.decode (← bytes)).mapError .notText

end Lox
