import Mathlib.Data.List.Chain
import OpenApi.Operation.Parse
import OpenApi.TypeScript.Route

/-!
Paths with parameters in braces. A path is cut into text and parameters, of which it can be put together again.
Routes have the same parameters, and a brace that belongs to none is text to both.
-/
namespace OpenApi

open Text (Piece piecesFrom outsidePiece)
open TypeScript (route routeFrom)

variable {gathered cs t : List Char} {part : Option (List Char)} {ps : List Piece}

namespace Segment

def isLiteral : Segment → Bool
  | .literal _ => true
  | .parameter _ => false

/-- The text of a segment, where `write` gives that of a parameter. -/
def text (write : String → String) : Segment → String
  | .literal text => text
  | .parameter name => write name

def ofPiece : Piece → Segment
  | .outside cs => .literal (String.ofList cs)
  | .inside cs => .parameter (String.ofList cs)

def chars (write : String → String) (p : Piece) : List Char := ((ofPiece p).text write).toList

theorem chars_inside (write : String → String) :
    chars write (.inside cs) = (write (String.ofList cs)).toList := rfl

theorem flatMap_outsidePiece (write : String → String) :
    (outsidePiece gathered).flatMap (chars write) = gathered.reverse := by
  unfold outsidePiece
  split
  · next h => rw [List.isEmpty_iff.1 h]; rfl
  · simp [chars, ofPiece, text]

end Segment

open Segment (chars chars_inside flatMap_outsidePiece)

theorem pathSegments_eq (path : String) :
    pathSegments path = (Text.pieces '{' '}' path.toList).map Segment.ofPiece := by
  refine congrArg (List.map · _) (funext fun p => ?_)
  cases p <;> rfl

theorem toList_join_pathSegments (path : String) (write : String → String) :
    (String.join ((pathSegments path).map (Segment.text write))).toList =
      (Text.pieces '{' '}' path.toList).flatMap (chars write) := by
  rw [String.toList_join, pathSegments_eq, List.map_map, List.flatMap_map]
  rfl

/-- Pieces make up the text that they were cut from. -/
theorem flatMap_written : (piecesFrom '{' '}' gathered part cs).flatMap
      (chars fun name => "\x7b" ++ name ++ "\x7d") =
    gathered.reverse ++ (part.elim [] fun part => '{' :: part.reverse) ++ cs := by
  fun_induction piecesFrom '{' '}' gathered part cs with
  | case1 => simp [flatMap_outsidePiece]
  | case2 => simp [flatMap_outsidePiece]
  | case3 gathered c rest h ih => simp [ih, beq_iff_eq.1 h]
  | case4 gathered c rest h ih => simp [ih]
  | case5 gathered part c rest h hempty ih => simp [ih, beq_iff_eq.1 h, List.isEmpty_iff.1 hempty]
  | case6 gathered part c rest h hempty ih => simp [ih, beq_iff_eq.1 h, flatMap_outsidePiece, chars_inside]
  | case7 gathered part c rest h ih => simp [ih]

/-- A route is made of the same pieces. -/
theorem flatMap_routed : (piecesFrom '{' '}' gathered part cs).flatMap (chars (":" ++ ·)) =
    gathered.reverse ++ routeFrom part cs := by
  fun_induction piecesFrom '{' '}' gathered part cs with
  | case1 => simp [flatMap_outsidePiece, routeFrom]
  | case2 => simp [flatMap_outsidePiece, routeFrom]
  | case3 gathered c rest h ih => simp [ih, routeFrom, h]
  | case4 gathered c rest h ih => simp [ih, routeFrom, h]
  | case5 gathered part c rest h hempty ih => simp [ih, routeFrom, h, hempty]
  | case6 gathered part c rest h hempty ih =>
    simp [ih, routeFrom, h, hempty, flatMap_outsidePiece, chars_inside]
  | case7 gathered part c rest h ih => simp [ih, routeFrom, h]

/-- A brace that is not closed is text, and so is what follows it. -/
theorem routeFrom_open (part : List Char) (h : '}' ∉ t) :
    routeFrom (some part) t = '{' :: (part.reverse ++ t) := by
  induction t generalizing part with
  | nil => simp [routeFrom]
  | cons c t ih =>
    rw [List.mem_cons, not_or] at h
    simp [routeFrom, Ne.symm h.1, ih _ h.2]

/-- Text in one piece, which has no parameters, between parameters with names. -/
structure WellCut (ps : List Piece) : Prop where
  outside : ∀ t, .outside t ∈ ps → t ≠ [] ∧ routeFrom none t = t
  inside : ∀ t, .inside t ∈ ps → t ≠ [] ∧ '}' ∉ t
  apart : ps.IsChain fun a b => ¬ ((Segment.ofPiece a).isLiteral = true ∧ (Segment.ofPiece b).isLiteral = true)

theorem WellCut.inside_cons (h : WellCut ps) (ht : t ≠ []) (hclosing : '}' ∉ t) :
    WellCut (.inside t :: ps) where
  outside := by simpa using h.outside
  inside := by simpa [ht, hclosing] using h.inside
  apart := List.isChain_cons.2 ⟨by simp [Segment.ofPiece, Segment.isLiteral], h.apart⟩

theorem WellCut.outside_append (h : WellCut ps)
    (hhead : ∀ p ∈ ps.head?, (Segment.ofPiece p).isLiteral = false)
    (hroute : routeFrom none gathered.reverse = gathered.reverse) : WellCut (outsidePiece gathered ++ ps) := by
  unfold outsidePiece
  split
  · exact h
  · next hne =>
    refine ⟨?_, by simpa using h.inside, List.isChain_cons.2 ⟨?_, h.apart⟩⟩
    · simpa [List.isEmpty_iff.not.1 hne, hroute] using h.outside
    · exact fun p hp hboth => by simp [hhead p hp] at hboth

/-- What was gathered has no parameters, whatever follows it. -/
theorem wellCut_piecesFrom (hpart : ∀ p ∈ part, '}' ∉ p)
    (hgathered : ∀ t, routeFrom none (gathered.reverse ++ t) = gathered.reverse ++ routeFrom none t) :
    WellCut (piecesFrom '{' '}' gathered part cs) := by
  have hnil : WellCut [] := ⟨by simp, by simp, .nil⟩
  fun_induction piecesFrom '{' '}' gathered part cs with
  | case1 gathered =>
    rw [← List.append_nil (outsidePiece _)]
    exact hnil.outside_append (by simp) (by simpa [routeFrom] using hgathered [])
  | case2 gathered part =>
    have hopen : '}' ∉ part.reverse := by simpa using hpart
    rw [← List.append_nil (outsidePiece _)]
    refine hnil.outside_append (by simp) ?_
    simp [hgathered, routeFrom, routeFrom_open [] hopen]
  | case3 gathered c rest h ih => exact ih (by simp) hgathered
  | case4 gathered c rest h ih => exact ih (by simp) fun t => by simp [hgathered, routeFrom, h]
  | case5 gathered part c rest h hempty ih => exact ih (by simp) fun t => by simp [hgathered, routeFrom]
  | case6 gathered part c rest h hempty ih =>
    have hname : part.reverse ≠ [] ∧ '}' ∉ part.reverse := by
      simpa [List.isEmpty_iff.not.1 hempty] using hpart
    refine ((ih (by simp) fun t => rfl).inside_cons hname.1 hname.2).outside_append ?_ ?_
    · simp [Segment.ofPiece, Segment.isLiteral]
    · simpa [routeFrom] using hgathered []
  | case7 gathered part c rest h ih =>
    have hc : '}' ≠ c := fun heq => h (beq_iff_eq.2 heq.symm)
    exact ih (by simpa [hc] using hpart) hgathered

/-- The segments of a path make up the path. Text between parameters is all in one segment, which has no
parameters of its own. A route differs from its path in how parameters are written. -/
theorem pathSegments_faithful (path : String) :
    String.join ((pathSegments path).map (Segment.text fun name => "\x7b" ++ name ++ "\x7d")) = path ∧
    (∀ text, .literal text ∈ pathSegments path → text ≠ "" ∧ route text = text) ∧
    ((pathSegments path).IsChain fun a b => ¬ (a.isLiteral = true ∧ b.isLiteral = true)) ∧
    (∀ name, .parameter name ∈ pathSegments path → name ≠ "" ∧ '}' ∉ name.toList) ∧
    route path = String.join ((pathSegments path).map (Segment.text (":" ++ ·))) := by
  have hcut : WellCut (Text.pieces '{' '}' path.toList) := wellCut_piecesFrom (by simp) fun t => rfl
  rw [pathSegments_eq]
  refine ⟨String.toList_injective ?_, fun text htext => ?_, (List.isChain_map _).2 hcut.apart,
    fun name hname => ?_, String.toList_injective ?_⟩
  · rw [← pathSegments_eq, toList_join_pathSegments]
    exact flatMap_written
  · obtain ⟨cs | cs, hp, ⟨⟩⟩ := List.mem_map.1 htext
    simpa [route, String.ofList_inj] using hcut.outside cs hp
  · obtain ⟨cs | cs, hp, ⟨⟩⟩ := List.mem_map.1 hname
    simpa using hcut.inside cs hp
  · rw [← pathSegments_eq, toList_join_pathSegments, route, String.toList_ofList]
    exact (@flatMap_routed [] _ _).symm

end OpenApi
