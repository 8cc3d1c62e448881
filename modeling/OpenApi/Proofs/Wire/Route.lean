import OpenApi.Proofs.Wire.Legible

/-!
Which reader a wire text goes to. Styles differ in how they cut a text into pieces; then the pieces of a
scalar, an array or an object are read in one way, whatever the style.
-/
namespace OpenApi.Codec

open Percent (Legible)

variable {c : Codec} {raw : String} {whole : Prop}

/-- A shape that is written without brackets. -/
def IsFlat (c : Codec) : Prop := c.shape = .scalar ∨ c.shape = .array ∨ c.shape = .object

theorem IsFlat.object (h : c.IsFlat) (hscalar : c.shape ≠ .scalar) (harray : c.shape ≠ .array) :
    c.shape = .object :=
  (h.resolve_left hscalar).resolve_left harray

theorem IsFlat.array (h : c.IsFlat) (hscalar : c.shape ≠ .scalar) (hobject : c.shape ≠ .object) :
    c.shape = .array :=
  (h.resolve_left hscalar).resolve_right hobject

/-- What becomes of the text of a flat shape: it is refused, or the reader for the shape has it in pieces.
Keys are legible if the text is, for which `whole` stands. -/
inductive Route (c : Codec) (whole : Prop) : Checked Value → Prop
  | absent : Route c whole (.ok .null)
  | refused (name : String) (cause : WireFault) : Route c whole (.error (.wire name cause))
  | scalar (hshape : c.shape = .scalar) (raw : String) : Route c whole (c.read raw c.type)
  | items (hshape : c.shape = .array) (parts : List String) : Route c whole (c.readItems parts)
  | entries (hshape : c.shape = .object) {entries : List Entry}
      (h : ∀ e ∈ entries, whole → Legible e.1.toList) : Route c whole (c.readEntries entries)

theorem readAlternating_route (hshape : c.shape = .object) (name : String) {parts : List String}
    (hparts : ∀ part ∈ parts, whole → Legible part.toList) :
    c.Route whole (c.readAlternating name parts) := by
  unfold readAlternating
  split
  · next entries hentries =>
    exact .entries hshape fun e he => hparts e.1 (mem_of_alternating hentries e he)
  · exact .refused _ _

theorem readEntries_cut_route (hshape : c.shape = .object) {parts : List String}
    (hparts : ∀ part ∈ parts, whole → Legible part.toList) :
    c.Route whole (c.readEntries (parts.map (Text.cut '='))) := by
  refine .entries hshape fun e he hwhole => ?_
  obtain ⟨part, hpart, rfl⟩ := List.mem_map.1 he
  exact legible_cut (hparts part hpart hwhole)

section
variable (hc : c.IsFlat)
include hc

theorem decodeSimple_route (hraw : whole → Legible raw.toList) :
    c.Route whole (c.decodeSimple raw) := by
  have hpieces : ∀ piece ∈ piecesOf "," raw, whole → Legible piece.toList :=
    fun piece hpiece hwhole => legible_piecesOf (hraw hwhole) piece hpiece
  unfold decodeSimple
  split
  · next hshape => exact .scalar hshape _
  · next hshape => exact .items hshape _
  · next hscalar harray =>
    have hshape := hc.object hscalar harray
    split
    · exact readEntries_cut_route hshape hpieces
    · exact readAlternating_route hshape _ hpieces

theorem decodeLabel_route : c.Route (Legible raw.toList) (c.decodeLabel raw) := by
  unfold decodeLabel
  split
  · next rest hraw =>
    have hpieces : ∀ piece ∈ Text.split '.' (String.ofList rest), Legible raw.toList →
        Legible piece.toList := by
      intro piece hpiece hwhole
      rw [hraw] at hwhole
      refine legible_split (by decide) ?_ piece hpiece
      rw [String.toList_ofList]
      exact hwhole.tail (by decide)
    dsimp only
    split
    · next hshape => exact .scalar hshape _
    · next hshape => exact .items hshape _
    · next hscalar harray =>
      have hshape := hc.object hscalar harray
      split
      · exact readEntries_cut_route hshape hpieces
      · exact readAlternating_route hshape _ hpieces
  · exact .refused _ _

theorem decodeMatrix_route : c.Route (Legible raw.toList) (c.decodeMatrix raw) := by
  unfold decodeMatrix
  split
  · next rest hraw =>
    dsimp only
    split
    · next hshape =>
      refine readEntries_cut_route (beq_iff_eq.1 hshape) fun piece hpiece hwhole => ?_
      rw [hraw] at hwhole
      refine legible_split (by decide) ?_ piece hpiece
      rw [String.toList_ofList]
      exact hwhole.tail (by decide)
    · next hobject =>
      split
      · exact .absent
      · split
        · next hshape => exact .scalar (beq_iff_eq.1 hshape) _
        · next hscalar =>
          have hshape := hc.array (fun heq => hscalar (beq_iff_eq.2 heq))
            fun heq => hobject (beq_iff_eq.2 heq)
          split
          · exact .items hshape _
          · exact .items hshape _
  · exact .refused _ _

/-- Path segments and header values. -/
theorem decodeSegment_route : c.Route (Legible raw.toList) (c.decodeSegment raw) := by
  unfold decodeSegment
  split
  · exact decodeLabel_route hc
  · exact decodeMatrix_route hc
  · exact decodeSimple_route hc id

/-- Values of pairs in a query string or cookie header. -/
theorem decodeValue_route (hraw : whole → Legible raw.toList) (all : List String) :
    c.Route whole (c.decodeValue raw all) := by
  unfold decodeValue
  split
  · next hshape => rcases hc with heq | heq | heq <;> cases hshape.symm.trans heq
  · exact decodeSimple_route hc hraw
  · next hshape _ => exact .scalar hshape _
  · next hshape _ _ => exact .items hshape _
  · next hshape _ _ => exact .items hshape _
  · next hscalar _ hexploded hjoined =>
    have harray : c.shape ≠ .array := by
      intro hshape
      cases hexplode : c.parameter.explode with
      | true => exact hexploded hshape hexplode
      | false => exact hjoined hshape hexplode
    exact readAlternating_route (hc.object hscalar harray) _ fun part hpart hwhole =>
      legible_piecesOf (hraw hwhole) part hpart

end

end OpenApi.Codec
