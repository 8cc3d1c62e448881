/-!
Looking for one text in another.
-/
namespace OpenApi.Text

def containsList (needle : List Char) : List Char → Bool
  | [] => needle.isEmpty
  | c :: rest => needle.isPrefixOf (c :: rest) || containsList needle rest

def contains (s needle : String) : Bool := containsList needle.toList s.toList

/-- Replaces each occurrence of `old`, from left to right. `skip` characters of the last one are
still to be passed over. -/
def replaceList (old new : List Char) : Nat → List Char → List Char
  | _, [] => []
  | skip + 1, _ :: rest => replaceList old new skip rest
  | 0, c :: rest =>
    if old.isPrefixOf (c :: rest) then new ++ replaceList old new (old.length - 1) rest
    else c :: replaceList old new 0 rest

def replace (s old new : String) : String :=
  String.ofList (replaceList old.toList new.toList 0 s.toList)

end OpenApi.Text
