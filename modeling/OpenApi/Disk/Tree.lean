import OpenApi.Assoc
import OpenApi.Disk.Host
import OpenApi.Text.Split

/-!
A disk in memory.
-/
namespace OpenApi

/-- The names from the root of a disk down to a folder or file. -/
abbrev DiskPlace := List String

/-- Files and folders, and the folder that relative paths start from. The root is always there. -/
structure DiskTree where
  folders : List DiskPlace := []
  files : List (DiskPlace × String) := []
  start : DiskPlace := []
deriving Repr

namespace DiskTree

def hasFolder (t : DiskTree) (place : DiskPlace) : Bool := place.isEmpty || t.folders.contains place

def hasFile (t : DiskTree) (place : DiskPlace) : Bool := Assoc.has t.files place

/-- The longest name that a disk takes, in octets. -/
def maxName : Nat := 255

/-- The longest path that a disk takes, in octets. -/
def maxPath : Nat := 4095

/-- One step down from a folder, or up by `..`. What is there is not looked at. -/
def step (t : DiskTree) (place : DiskPlace) (part : String) : Except DiskError.Cause DiskPlace :=
  if t.hasFile place then .error .notADirectory
  else if !t.hasFolder place then .error .missing
  else if part == ".." then .ok place.dropLast
  else if part.utf8ByteSize > maxName then .error .nameTooLong
  else .ok (place ++ [part])

/-- The place that a path leads to. -/
def locate (t : DiskTree) (p : DiskPath) : Except DiskError DiskPlace :=
  let found :=
    if p.text.utf8ByteSize > maxPath then .error .nameTooLong
    else p.parts.foldlM t.step (if p.isAbsolute then [] else t.start)
  found.mapError fun cause => { cause, path := p.text }

def read (t : DiskTree) (p : DiskPath) : Except DiskError String := do
  let place ← t.locate p
  match t.files.lookup place with
  | some text => return text
  | none => throw { cause := if t.hasFolder place then .isADirectory else .missing, path := p.text }

def isFolder (t : DiskTree) (p : DiskPath) : Bool :=
  match t.locate p with
  | .ok place => t.hasFolder place
  | .error _ => false

def makeFolder (t : DiskTree) (p : DiskPath) : Except DiskError DiskTree := do
  let place ← t.locate p
  if t.hasFolder place || t.hasFile place then throw { cause := .alreadyThere, path := p.text }
  return { t with folders := t.folders ++ [place] }

def write (t : DiskTree) (p : DiskPath) (text : String) : Except DiskError DiskTree := do
  let place ← t.locate p
  if t.hasFolder place then throw { cause := .isADirectory, path := p.text }
  return { t with files := Assoc.insert t.files place text }

/-- The files below the start that are not in `earlier` as they are, by paths from the start, in
order. -/
def changes (t earlier : DiskTree) : List (String × String) :=
  let changed := t.files.filter fun (place, text) =>
    t.start.isPrefixOf place && earlier.files.lookup place != some text
  (changed.map fun (place, text) =>
    (Text.join "/" (place.drop t.start.length), text)).mergeSort fun a b => decide (a.1 ≤ b.1)

end DiskTree

/-- A disk in memory and what was said. -/
structure DiskSession where
  tree : DiskTree
  said : List String := []

namespace DiskSession

def update (change : DiskTree → Except DiskError DiskTree) :
    StateM DiskSession (Except DiskError Unit) := do
  match change (← get).tree with
  | .ok tree =>
    modify fun s => { s with tree }
    return .ok ()
  | .error e => return .error e

instance : Host (StateM DiskSession) where
  read p := return (← get).tree.read p
  isFolder p := return (← get).tree.isFolder p
  makeFolder p := update (·.makeFolder p)
  write p text := update (·.write p text)
  say line := modify fun s => { s with said := s.said ++ [line] }

end DiskSession
end OpenApi
