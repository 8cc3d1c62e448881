/-!
Splitting and joining text.
-/
namespace OpenApi.Text

/-- Puts a character in front of the first of several pieces. -/
def consFirst (c : Char) : List (List Char) → List (List Char)
  | [] => [[c]]
  | piece :: more => (c :: piece) :: more

/-- The pieces between separators; there is always one more piece than there are separators. -/
def splitList (sep : Char) : List Char → List (List Char)
  | [] => [[]]
  | c :: rest => if c == sep then [] :: splitList sep rest else consFirst c (splitList sep rest)

def split (sep : Char) (s : String) : List String := (splitList sep s.toList).map String.ofList

/-- The pieces between occurrences of `sep`, from left to right; `skip` characters of the last one
are still to be passed over. -/
def splitSeqList (sep : List Char) : Nat → List Char → List (List Char)
  | _, [] => [[]]
  | skip + 1, _ :: rest => splitSeqList sep skip rest
  | 0, c :: rest =>
    if sep.isPrefixOf (c :: rest) then [] :: splitSeqList sep (sep.length - 1) rest
    else consFirst c (splitSeqList sep 0 rest)

def splitSeq (sep s : String) : List String :=
  (splitSeqList sep.toList 0 s.toList).map String.ofList

/-- What stands before the first `sep`, and what stands behind it if there is one. -/
def cutList (sep : Char) : List Char → List Char × Option (List Char)
  | [] => ([], none)
  | c :: rest =>
    if c == sep then ([], some rest)
    else
      let (before, behind) := cutList sep rest
      (c :: before, behind)

def cut (sep : Char) (s : String) : String × Option String :=
  let (before, behind) := cutList sep s.toList
  (String.ofList before, behind.map String.ofList)

/-- Texts with `sep` between them. -/
def join (sep : String) : List String → String
  | [] => ""
  | [s] => s
  | s :: t :: rest => s ++ sep ++ join sep (t :: rest)

end OpenApi.Text
