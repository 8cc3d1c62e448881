import OpenApi.Text.Quoted

/-!
Why a disk refuses to read or write.
-/
namespace OpenApi

inductive DiskError.Cause where
  | missing
  | alreadyThere
  | notADirectory
  | isADirectory
  | nameTooLong
  | other (code : Nat) (text : String)
deriving DecidableEq, Repr

def DiskError.Cause.code : DiskError.Cause → Nat
  | .missing => 2
  | .alreadyThere => 17
  | .notADirectory => 20
  | .isADirectory => 21
  | .nameTooLong => 36
  | .other code _ => code

def DiskError.Cause.text : DiskError.Cause → String
  | .missing => "No such file or directory"
  | .alreadyThere => "File exists"
  | .notADirectory => "Not a directory"
  | .isADirectory => "Is a directory"
  | .nameTooLong => "File name too long"
  | .other _ text => text

structure DiskError where
  cause : DiskError.Cause
  path : String
deriving DecidableEq, Repr

def DiskError.message (e : DiskError) : String :=
  s!"[Errno {e.cause.code}] {e.cause.text}: {Text.quoted e.path}"

end OpenApi
