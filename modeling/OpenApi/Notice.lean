import OpenApi.Fault

/-!
What a run tells about itself, and computations that tell it. Notices that were given stay given when
a fault ends the computation.
-/
namespace OpenApi

inductive Notice where
  | formData (pointer : String)
  | undeclaredPathParameter (method path name : String)
  | mapping (warning : String)
  | built (operations types warnings : Nat)
deriving DecidableEq, Repr

/-- A notice as a line of the log. -/
def Notice.line : Notice → String
  | .formData pointer =>
    s!"WARNING oasgen.schema_parser: {pointer}: formData parameters are not supported, skipped"
  | .undeclaredPathParameter method path name =>
    s!"WARNING oasgen.schema_parser: {method} {path}: path parameter \x7b{name}\x7d is not declared"
  | .mapping warning => s!"WARNING oasgen.type_mapper: {warning}"
  | .built operations types warnings =>
    s!"INFO oasgen.pipeline: built IR: {operations} operations, {types} named types, "
      ++ s!"{warnings} warnings"

/-- A result with the notices given on the way to it. -/
structure Traced (α : Type) where
  notices : List Notice
  result : Except Fault α

namespace Traced

instance : Monad Traced where
  pure a := { notices := [], result := .ok a }
  bind x f :=
    match x.result with
    | .error fault => { notices := x.notices, result := .error fault }
    | .ok a =>
      let y := f a
      { notices := x.notices ++ y.notices, result := y.result }

instance : MonadLift (Except Fault) Traced where
  monadLift x := { notices := [], result := x }

def note (n : Notice) : Traced Unit := { notices := [n], result := .ok () }

end Traced
end OpenApi
