/-!
File paths with `/` between their parts. Empty parts and `.` are dropped; `..` is kept, since what it
means depends on the disk.
-/
namespace OpenApi

/-- `root` is empty for a relative path; exactly two slashes at the start are kept as such. -/
structure DiskPath where
  root : String
  parts : List String
deriving DecidableEq, Repr

namespace DiskPath

def rootOf (cs : List Char) : String :=
  match cs.takeWhile (· == '/') with
  | [] => ""
  | [_, _] => "//"
  | _ => "/"

def ofText (s : String) : DiskPath :=
  { root := rootOf s.toList
    parts := (s.splitOn "/").filter fun part => part != "" && part != "." }

def text (p : DiskPath) : String :=
  if p.root.isEmpty && p.parts.isEmpty then "." else p.root ++ "/".intercalate p.parts

def isAbsolute (p : DiskPath) : Bool := !p.root.isEmpty

/-- Where `q` leads when read from `p`. -/
def join (p q : DiskPath) : DiskPath :=
  if q.isAbsolute then q else { p with parts := p.parts ++ q.parts }

def parent (p : DiskPath) : DiskPath := { p with parts := p.parts.dropLast }

/-- The ending of the last part from its last point on; a point at either end of the name starts
none. -/
def suffix (p : DiskPath) : String :=
  match p.parts.getLast? with
  | none => ""
  | some name =>
    let cs := name.toList
    let ending := cs.reverse.takeWhile (· != '.')
    if ending.isEmpty || cs.length ≤ ending.length + 1 then ""
    else String.ofList ('.' :: ending.reverse)

end DiskPath
end OpenApi
