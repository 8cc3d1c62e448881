import OpenApi.Proofs.Outcome
import OpenApi.Schema.Resolve

/-!
What reading a document can fail with. Access to data, pointers and the keywords of a schema meet faults
that tell what is wrong at one place; what else is being read does not matter to them.
-/
namespace OpenApi

open Outcome (Faults)

/-- Faults that tell what is wrong at the place they name. -/
def Fault.isLocal : Fault → Bool
  | .schema _ .containsItself | .schema _ (.stillComposing ..) | .schema _ .unknownNode => false
  | .schema .. | .parameter .. | .wrongKind => true
  | _ => false

theorem Fault.ne_exhausted (e : Fault) (h : e.isLocal = true) : e ≠ .exhausted := by
  rintro rfl
  cases h

/-- A computation that meets no faults but such. -/
abbrev Local {α : Type} (c : Checked α) : Prop := Faults (·.isLocal = true) c

/-- Faults other than that of an id that has no node. -/
def Fault.knowsNode : Fault → Bool
  | .schema _ .unknownNode => false
  | _ => true

/-- A computation that misses no node. -/
abbrev Known {α : Type} (c : Checked α) : Prop := Faults (·.knowsNode = true) c

theorem Fault.knowsNode_of_isLocal {e : Fault} (h : e.isLocal = true) : e.knowsNode = true := by
  unfold knowsNode
  split
  · cases h
  · rfl

theorem Local.known {α : Type} {c : Checked α} (h : Local c) : Known c :=
  h.mono fun _ => Fault.knowsNode_of_isLocal

/-- Was a computation given up? -/
def gaveUp {α : Type} : Checked α → Bool
  | .error .exhausted => true
  | _ => false

theorem gaveUp_iff {α : Type} {a : Checked α} : gaveUp a = true ↔ a = .error .exhausted := by
  unfold gaveUp
  split
  · simp
  · next h => simpa using h

/-! ### Access to data -/

theorem written_local (text : Option String) : Local (written text) := by
  cases text with
  | some s => exact .ok
  | none => exact .error rfl

theorem Scalar.text_local (s : Scalar) : Local s.text := written_local _

theorem Scalar.inner_local (s : Scalar) : Local s.inner := written_local _

namespace Value

theorem text_local (v : Value) : Local v.text := written_local _

theorem inner_local (v : Value) : Local v.inner := written_local _

theorem entries_local (v : Value) : Local v.entries := by
  unfold Value.entries
  split
  · exact .ok
  · exact .error rfl

theorem getD_local (v : Value) (key : String) (default : Value) : Local (v.getD key default) :=
  v.entries_local.bind fun _ _ => .ok

theorem get_local (v : Value) (key : String) : Local (v.get key) := v.getD_local key .null

theorem has_local (v : Value) (key : String) : Local (v.has key) := by
  unfold Value.has
  split
  · exact .ok
  · exact .ok
  · exact .ok
  · exact .error rfl

theorem elements_local (v : Value) : Local v.elements := by
  unfold Value.elements
  split
  · exact .ok
  · exact .ok
  · exact .ok
  · exact .error rfl

theorem nth_local (items : List Value) (i : Int) : Local (nth items i) := by
  unfold nth
  generalize (if i < 0 then i + items.length else i) = j
  dsimp only
  split
  · exact .error rfl
  · split
    · exact .ok
    · exact .error rfl

theorem item_local (v key : Value) : Local (v.item key) := by
  unfold Value.item
  split
  · split
    · exact .ok
    · exact .error rfl
  · exact nth_local _ _
  · exact nth_local _ _
  · exact .error rfl

theorem scalarBefore_local (a b : Scalar) : Local (scalarBefore a b) := by
  unfold scalarBefore
  split
  · exact .ok
  · exact .ok
  · split
    · exact .ok
    · exact .error rfl

mutual

theorem before_local : (v w : Value) → Local (v.before w)
  | .scalar a, .scalar b => by
    rw [before]
    exact scalarBefore_local a b
  | .list xs, .list ys => by
    rw [before]
    exact beforeItems_local xs ys
  | .scalar _, .list _ | .scalar _, .map _ | .list _, .scalar _ | .list _, .map _
  | .map _, .scalar _ | .map _, .list _ | .map _, .map _ => by
    simp only [before]
    exact .error rfl

theorem beforeItems_local : (xs ys : List Value) → Local (beforeItems xs ys)
  | [], _ => by
    rw [beforeItems]
    exact .ok
  | _ :: _, [] => by
    rw [beforeItems]
    exact .ok
  | x :: xs, y :: ys => by
    rw [beforeItems]
    split
    · exact beforeItems_local xs ys
    · exact before_local x y

end

end Value

/-! ### Pointers -/

/-- Faults of a pointer that leads nowhere. -/
def Fault.isAstray : Fault → Bool
  | .schema _ .notLocal | .schema _ .fragmentWithoutSlash | .schema _ (.noValueAt _) | .wrongKind => true
  | _ => false

/-- A computation that meets no faults but such. -/
abbrev Astray {α : Type} (c : Checked α) : Prop := Faults (·.isAstray = true) c

theorem Astray.isLocal {α : Type} {c : Checked α} (h : Astray c) : Local c := by
  refine h.mono fun e he => ?_
  unfold Fault.isAstray at he
  split at he
  · rfl
  · rfl
  · rfl
  · rfl
  · cases he

namespace Pointer

theorem fragmentTokens_astray (ref : String) (fragment : List Char) :
    Astray (fragmentTokens ref fragment) := by
  unfold fragmentTokens
  split
  · exact .ok
  · exact .ok
  · exact .error rfl

theorem tokens_astray (pointer : String) : Astray (tokens pointer) := by
  unfold tokens
  split
  · exact fragmentTokens_astray _ _
  · exact .error rfl

theorem normalize_astray (ref : String) : Astray (normalize ref) := by
  unfold normalize refTokens
  refine Faults.bind ?_ fun _ _ => .ok
  split
  · exact fragmentTokens_astray _ _
  · exact .error rfl

theorem normalize_local (ref : String) : Local (normalize ref) := (normalize_astray ref).isLocal

end Pointer

namespace Document

theorem tokenNumber_astray (token : String) : Astray (tokenNumber token) := by
  unfold tokenNumber
  dsimp only
  split
  · exact .error rfl
  · refine .foldlM fun c _ n => ?_
    split
    · exact .ok
    · exact .error rfl

theorem step?_astray (node : Value) (token : String) : Astray (step? node token) := by
  unfold step?
  split
  · split
    · exact .ok
    · split
      · exact (tokenNumber_astray token).bind fun _ _ => .ok
      · exact .ok
  · split
    · exact (tokenNumber_astray token).bind fun _ _ => .ok
    · exact .ok
  · exact .ok

theorem walk_astray (pointer : String) (node : Value) (tokens : List String) :
    Astray (walk pointer node tokens) := by
  induction tokens generalizing node with
  | nil => exact .ok
  | cons token rest ih =>
    refine (step?_astray node token).bind fun next _ => ?_
    cases next with
    | none => exact .error rfl
    | some next => exact ih next

theorem resolve_astray (doc : Value) (pointer : String) : Astray (resolve doc pointer) :=
  (Pointer.tokens_astray pointer).bind fun _ _ => walk_astray _ _ _

theorem resolve_local (doc : Value) (pointer : String) : Local (resolve doc pointer) :=
  (resolve_astray doc pointer).isLocal

theorem paths_local (doc : Value) : Local (paths doc) := (doc.get_local _).bind fun _ _ => .ok

theorem schemas_local (doc : Value) : Local (schemas doc) := by
  refine (doc.getD_local _ _).bind fun components _ => (components.get_local _).bind fun found _ => ?_
  dsimp only
  split
  · exact (doc.getD_local _ _).bind fun _ _ => .ok
  · exact .ok

theorem schemasPointer_local (doc : Value) : Local (schemasPointer doc) := by
  refine (doc.getD_local _ _).bind fun components _ => (components.has_local _).bind fun held _ => ?_
  split
  · exact .ok
  · refine (doc.has_local _).bind fun held _ => ?_
    split
    · exact .ok
    · exact .ok

theorem inlineSchema?_local (param : Value) : Local (inlineSchema? param) := by
  refine (param.has_local _).bind fun held _ => ?_
  split
  · exact .ok
  · refine (param.has_local _).bind fun held _ => ?_
    split
    · exact .ok
    · refine (param.has_local _).bind fun held _ => ?_
      split
      · exact .ok
      · exact param.entries_local.bind fun _ _ => .ok

end Document

/-! ### Keywords of a schema -/

namespace Merge

theorem pickLimit_local (policy : MergePolicy) (limit : Limit) (current incoming : Value) :
    Local (pickLimit policy limit current incoming) := by
  unfold pickLimit
  split
  · exact .ok
  · split
    · split
      · exact (current.before_local incoming).bind fun _ _ => .ok
      · split
        · exact (incoming.before_local current).bind fun _ _ => .ok
        · exact .ok
    · exact .ok

theorem pickType_local (policy : MergePolicy) (current incoming : Value) :
    Local (pickType policy current incoming) := by
  unfold pickType
  split
  · exact .ok
  · split
    · split
      · split
        · exact .ok
        · exact .ok
      · exact Faults.bind (.error rfl) fun _ _ => .ok
    · exact .ok

theorem combine_local {pick : Value → Value → Checked Value} (h : ∀ v w, Local (pick v w))
    (values : List Value) : Local (combine pick values) := by
  cases values with
  | nil => exact .ok
  | cons v rest => exact .foldlM fun w _ v => h v w

theorem merge_local (policy : MergePolicy) (pointer : String) (fragments : List Node) :
    Local (merge policy pointer fragments) := by
  refine (combine_local (pickType_local policy) _).bind fun type _ => ?_
  refine Faults.bind ?_ fun constraints _ => .ok
  refine Faults.bind (.mapM fun l _ => ?_) fun _ _ => .ok
  exact (combine_local (pickLimit_local policy l) _).bind fun _ _ => .ok

end Merge

namespace Resolve

theorem mappedRef_local (ref : Value) : Local (mappedRef ref) := by
  unfold mappedRef
  split
  · split
    · exact Pointer.normalize_local _
    · exact .ok
  · exact .error rfl

theorem discriminator_local (raw : Entries) (pointer : String) :
    Local (discriminator raw pointer) := by
  unfold discriminator
  split
  · exact .ok
  · exact .ok
  · split
    · exact .error rfl
    · refine (Value.entries_local _).bind fun mapping _ => ?_
      refine Faults.bind (.mapM fun e _ => ?_) fun _ _ => .ok
      exact (Scalar.text_local _).bind fun _ _ => (mappedRef_local _).bind fun _ _ => .ok
  · exact .error rfl

theorem required_local (raw : Entries) (pointer : String) : Local (required raw pointer) := by
  unfold required
  split
  · split
    · exact .ok
    · exact .error rfl
  · exact .error rfl

theorem enumValues_local (raw : Entries) (pointer : String) : Local (enumValues raw pointer) := by
  unfold enumValues
  split
  · exact .ok
  · exact .ok
  · exact .error rfl
  · exact .ok

theorem componentNames_local (doc : Value) : Local (componentNames doc) := by
  refine (Document.schemasPointer_local doc).bind fun home _ => ?_
  refine (Document.schemas_local doc).bind fun held _ => ?_
  refine held.elements_local.bind fun names _ => .foldlM fun name _ acc => ?_
  exact name.text_local.bind fun _ _ => .ok

end Resolve
end OpenApi
