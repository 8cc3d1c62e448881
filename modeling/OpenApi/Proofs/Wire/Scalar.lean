import OpenApi.Proofs.Outcome
import OpenApi.Proofs.Text.Number
import OpenApi.Proofs.Text.Percent
import OpenApi.Proofs.Value
import OpenApi.Wire.Decode
import OpenApi.Wire.Encode

/-!
Scalars on the wire. A scalar of a type that tells its values apart by their texts is read back from
its wire text.
-/
namespace OpenApi

theorem Double.text_ne_empty (x : Double) : x.text ≠ "" := by
  have hlayout : ∀ ds point, layout ds point ≠ "" := by
    intro ds point
    unfold layout exponentText
    dsimp only
    split_ifs <;> simp
  unfold Double.text
  split
  · decide
  · split <;> decide
  · split <;> decide
  · simp [hlayout]

namespace Codec

variable {c : Codec} {d : Descriptor} {v : Value} {w : String}

/-- The scalars of a type that is not nullable: texts, integers, truth values, or the values of an
enumeration whose wire texts are distinct. Null is no value of such a type. -/
inductive HasScalar (c : Codec) (d : Descriptor) : Value → Prop
  | text {p : Primitive} {t : Traits} (hd : c.behind d = .ok (.primitive p t))
      (hnull : t.nullable = false) (hp : p.isString = true) (s : String) : HasScalar c d (.str s)
  | integer {p : Primitive} {t : Traits} (hd : c.behind d = .ok (.primitive p t))
      (hnull : t.nullable = false) (hp : p = .integer ∨ p = .int64) (n : Int) :
      HasScalar c d (.int n)
  | boolean {t : Traits} (hd : c.behind d = .ok (.primitive .boolean t))
      (hnull : t.nullable = false) (b : Bool) : HasScalar c d (.bool b)
  | literal {base : Primitive} {literals : List Value} {t : Traits} {texts : List String}
      {v : Value} (hd : c.behind d = .ok (.enum base literals t)) (hnull : t.nullable = false)
      (htexts : literals.mapM literalText = .ok texts) (hdistinct : texts.Nodup)
      (hv : v ∈ literals) (hsome : v ≠ .null) : HasScalar c d v

theorem HasScalar.ne_null (h : c.HasScalar d v) : v ≠ .null := by
  cases h with
  | literal _ _ _ _ _ hsome => exact hsome
  | _ => simp

/-! ### Texts of scalars -/

/-- What is written for a scalar is what an enumeration compares. -/
theorem literalText_of_scalarText {text : String} (h : c.scalarText v = .ok text) :
    literalText v = .ok text := by
  unfold scalarText at h
  split at h
  · exact h
  · exact h
  · exact h
  · exact h
  · obtain ⟨_, -, h⟩ := Outcome.bind_ok.1 h
    exact (Outcome.throw_ok.1 h).elim

theorem findLiteral?_of_mem {literals : List Value} {texts : List String} {text : String}
    (htexts : literals.mapM literalText = .ok texts) (hdistinct : texts.Nodup)
    (hv : v ∈ literals) (htext : literalText v = .ok text) :
    findLiteral? text literals = .ok (some v) := by
  have hall := Outcome.mapM_ok.1 htexts
  clear htexts
  induction hall with
  | nil => cases hv
  | @cons l s ls ss hl hrest ih =>
    obtain ⟨hs, hss⟩ := List.nodup_cons.1 hdistinct
    unfold findLiteral?
    rw [hl]
    change (if (s == text) = true then _ else _) = _
    rcases List.mem_cons.1 hv with rfl | hv
    · have heq : s = text := Except.ok.inj (hl.symm.trans htext)
      rw [heq, beq_self_eq_true, if_pos rfl]
      rfl
    · -- the text of a later value differs from that of this one
      have hmem : text ∈ ss := by
        obtain ⟨s', hs', hv'⟩ := Outcome.exists_mem_of_forall₂ hrest hv
        rw [htext] at hv'
        rw [Except.ok.inj hv']
        exact hs'
      have hne : (s == text) = false := beq_false_of_ne fun heq => hs (heq ▸ hmem)
      rw [hne]
      exact ih hss hv

theorem scalarText_ne_empty (h : c.scalarText v = .ok "") : v = .str "" := by
  unfold scalarText at h
  split at h
  · next b =>
    have hne : (if b then "true" else "false") ≠ "" := by cases b <;> decide
    exact absurd (Except.ok.inj h) hne
  · next n =>
    unfold writtenInt at h
    have htext := written_ok h
    unfold intText? at htext
    split at htext
    · have hnil := congrArg String.toList (Option.some.inj htext)
      unfold intText at hnil
      split at hnil
      · simp at hnil
      · rw [Nat.toList_repr] at hnil
        exact absurd hnil Nat.toDigits_ne_nil
    · cases htext
  · next x => exact absurd (Except.ok.inj h) x.text_ne_empty
  · next s => rw [Except.ok.inj h]
  · obtain ⟨_, -, h⟩ := Outcome.bind_ok.1 h
    exact (Outcome.throw_ok.1 h).elim

/-! ### Reading back -/

theorem readWith_scalar {d' : Descriptor} {text : String} (named : Descriptor → Checked Value)
    (hv : c.HasScalar d v) (hd : c.behind d = .ok d') (htext : c.scalarText v = .ok text) :
    c.readWith text named d' = .ok v := by
  cases hv with
  | @text p t hp' hnull hp s =>
    cases hd.symm.trans hp'
    cases htext
    have hread : c.readPrimitive text p = .ok (.str text) := by
      cases p <;> first | rfl | cases hp
    simp [readWith, hnull, hread]
  | @integer p t hp' hnull hp n =>
    cases hd.symm.trans hp'
    have hint := written_ok (show written (intText? n) = .ok text from htext)
    unfold intText? at hint
    split at hint
    · next hmax =>
      cases hint
      have hread : c.readPrimitive (intText n) p = .ok (.int n) := by
        rcases hp with rfl | rfl <;> simp [readPrimitive, readInt?_intText hmax]
      simp [readWith, hnull, hread]
    · cases hint
  | boolean hp hnull b =>
    cases hd.symm.trans hp
    cases htext
    cases b <;> simp [readWith, hnull, readPrimitive]
  | literal hp hnull htexts hdistinct hv _ =>
    cases hd.symm.trans hp
    have hfind := findLiteral?_of_mem htexts hdistinct hv (literalText_of_scalarText htext)
    simp [readWith, hnull, hfind, bind, Except.bind, pure, Except.pure]

theorem wireText_ok (h : c.wireText v = .ok w) :
    ∃ text, c.scalarText v = .ok text ∧ w = Percent.encode text (c.parameter.style == .label) := by
  obtain ⟨text, htext, h⟩ := Outcome.bind_ok.1 h
  exact ⟨text, htext, (Outcome.pure_ok.1 h).symm⟩

theorem read_encode {d' : Descriptor} (hd : c.behind d = .ok d') (text : String) (dot : Bool) :
    c.read (Percent.encode text dot) d =
      c.readWith text (c.readScalar text (c.types.length + 1)) d' := by
  rw [read, Percent.decode?_encode]
  exact Outcome.bind_of_ok hd _

theorem read_wireText (hv : c.HasScalar d v) (hw : c.wireText v = .ok w) : c.read w d = .ok v := by
  obtain ⟨text, htext, rfl⟩ := wireText_ok hw
  have ⟨d', hd⟩ : ∃ d', c.behind d = .ok d' := by
    cases hv <;> exact ⟨_, by assumption⟩
  rw [read_encode hd]
  exact readWith_scalar _ hv hd htext

end Codec
end OpenApi
