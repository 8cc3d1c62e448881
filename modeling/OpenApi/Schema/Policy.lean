/-!
Which of two values wins when several schemas are merged into one.
-/
namespace OpenApi

inductive MergePolicy where
  /-- The value given last. -/
  | lastWins
  /-- Of two bounds the narrower one; otherwise the value given last. -/
  | strictestWins
deriving DecidableEq, Repr

def MergePolicy.text : MergePolicy → String
  | .lastWins => "last-wins"
  | .strictestWins => "strictest-wins"

def MergePolicy.all : List MergePolicy := [.lastWins, .strictestWins]

def MergePolicy.ofText? (s : String) : Option MergePolicy := MergePolicy.all.find? (·.text == s)

end OpenApi
