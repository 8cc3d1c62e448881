/-!
Cutting a text at bracketed parts. A part needs at least one character between its brackets; an
opening bracket that none closes, and an empty pair, are text like any other.
-/
namespace OpenApi.Text

inductive Piece where
  | outside (text : List Char)
  | inside (text : List Char)
deriving DecidableEq, Repr

/-- The text outside, if there is any; it was gathered backwards. -/
def outsidePiece (gathered : List Char) : List Piece :=
  if gathered.isEmpty then [] else [.outside gathered.reverse]

/-- `gathered` is the text since the last part, and `part` the text since an opening bracket, both
backwards. -/
def piecesFrom (opening closing : Char) (gathered : List Char) :
    Option (List Char) → List Char → List Piece
  | none, [] => outsidePiece gathered
  | some part, [] => outsidePiece (part ++ opening :: gathered)
  | none, c :: rest =>
    if c == opening then piecesFrom opening closing gathered (some []) rest
    else piecesFrom opening closing (c :: gathered) none rest
  | some part, c :: rest =>
    if c == closing then
      if part.isEmpty then piecesFrom opening closing (closing :: opening :: gathered) none rest
      else outsidePiece gathered ++ .inside part.reverse :: piecesFrom opening closing [] none rest
    else piecesFrom opening closing gathered (some (c :: part)) rest

def pieces (opening closing : Char) (cs : List Char) : List Piece :=
  piecesFrom opening closing [] none cs

end OpenApi.Text
