import OpenApi.Proofs.Navigation
import OpenApi.Proofs.Operation.Places
import OpenApi.Proofs.Schema.Chains
import OpenApi.Proofs.Schema.Sources

/-!
Addresses of schemas. A walk through a document finds schemas and gives each of them a pointer. In a
document whose keys are texts each pointer leads back to what the walk found there.
-/
namespace OpenApi

open Outcome (bind_ok bind_pure_ok pure_ok exists_ok)

variable {doc v w : Value} {pointer : String}

/-- Pointers in a document whose keys are texts are true addresses of what they are put together for. -/
theorem At.descends (hkeyed : doc.Keyed) (hsize : doc.size ≤ 10 ^ Text.maxDigits) :
    Descends doc (At doc) where
  deref h hd := h.deref hd
  entry h he hname := h.entry hkeyed he hname
  element {v w items p i} h hitems hi := by
    -- the elements of a mapping or text are scalars
    unfold Value.elements at hitems
    split at hitems
    · cases hitems
      exact .inl (h.index hsize hi)
    · cases hitems
      obtain ⟨e, -, rfl⟩ := List.mem_map.1 (List.mem_of_getElem? hi)
      exact .inr ⟨_, rfl⟩
    · cases hitems
      obtain ⟨c, -, rfl⟩ := List.mem_map.1 (List.mem_of_getElem? hi)
      exact .inr ⟨_, rfl⟩
    · cases hitems

/-! ### Named schemas -/

/-- What `components` holds as its schemas is a mapping. -/
def Document.SchemasMapped (doc : Value) : Prop :=
  ∀ components schemas, doc.getD "components" (.map []) = .ok components →
    components.has "schemas" = .ok true → components.get "schemas" = .ok schemas →
      schemas.isMap = true

/-- A list in place of `definitions` has no items that are truth values or negative numbers. -/
def Document.DefinitionsListed (doc : Value) : Prop :=
  ∀ items, doc.getD "definitions" (.map []) = .ok (.list items) →
    (∀ b, .bool b ∉ items) ∧ ∀ n : Int, .int n ∈ items → 0 ≤ n

namespace Document

theorem has_of_getD {key : String} {default : Value} (hv : v.getD key default = .ok w)
    (hhas : v.has key = .ok false) : w = default := by
  obtain ⟨entries, hentries, rfl⟩ := bind_pure_ok.1 hv
  obtain rfl := Value.entries_ok hentries
  have hnone : entries.get? key = none := by simpa [Value.has, Entries.has] using hhas
  rw [hnone]
  rfl

/-- The named schemas stand at their pointer: a mapping, or what `definitions` holds. -/
theorem schemas_at {home : String} {held : Value} (hmapped : SchemasMapped doc)
    (hhome : schemasPointer doc = .ok home) (hheld : schemas doc = .ok held) :
    held = .map [] ∨ At doc home held ∧
      (held.isMap = true ∨ doc.getD "definitions" (.map []) = .ok held) := by
  obtain ⟨components, hcomponents, hheld⟩ := bind_ok.1 hheld
  obtain ⟨found, hfound, hheld⟩ := bind_ok.1 hheld
  obtain ⟨components', hcomponents', hhome⟩ := bind_ok.1 hhome
  obtain rfl := Except.ok.inj (hcomponents.symm.trans hcomponents')
  obtain ⟨has, hhas, hhome⟩ := bind_ok.1 hhome
  cases has with
  | true =>
    obtain rfl := pure_ok.1 hhome
    have hmap := hmapped components found hcomponents hhas hfound
    cases found with
    | map entries =>
      obtain rfl := pure_ok.1 hheld
      rw [Value.orEmpty_map]
      refine .inr ⟨?_, .inl rfl⟩
      rcases (At.root doc).getD hcomponents with h | rfl
      · exact (h.getD hfound).resolve_right nofun
      · cases hhas
    | _ => cases hmap
  | false =>
    obtain rfl := has_of_getD hfound hhas
    obtain ⟨definitions, hdefinitions, rfl⟩ := bind_pure_ok.1 hheld
    obtain ⟨has, hhas, hhome⟩ := bind_ok.1 hhome
    cases has with
    | true =>
      obtain rfl := pure_ok.1 hhome
      rcases (At.root doc).getD hdefinitions with h | rfl
      · rcases definitions.orEmpty_cases with heq | heq
        · rw [heq]
          exact .inr ⟨h, .inr hdefinitions⟩
        · exact .inl heq
      · exact .inl rfl
    | false =>
      obtain rfl := has_of_getD hdefinitions hhas
      exact .inl rfl

end Document

theorem Resolve.componentNames_ok {names : List (String × Value)} (h : componentNames doc = .ok names)
    {e : String × Value} (he : e ∈ names) :
    ∃ home held elements text, Document.schemasPointer doc = .ok home ∧ Document.schemas doc = .ok held ∧
      held.elements = .ok elements ∧ e.2 ∈ elements ∧ e.2.text = .ok text ∧
        e.1 = Pointer.child home text := by
  obtain ⟨home, hhome, h⟩ := bind_ok.1 h
  obtain ⟨held, hheld, h⟩ := bind_ok.1 h
  obtain ⟨elements, helements, h⟩ := bind_ok.1 h
  refine ⟨home, held, elements, ?_⟩
  have hall : ∀ e ∈ names, ∃ text, e.2 ∈ elements ∧ e.2.text = .ok text ∧ e.1 = Pointer.child home text := by
    refine Outcome.foldlM_inv (fun acc => ∀ e ∈ acc, ∃ text, e.2 ∈ elements ∧ e.2.text = .ok text ∧
      e.1 = Pointer.child home text) ?_ (List.forall_mem_nil _) h
    intro acc name hname acc' hacc hstep e he
    obtain ⟨text, htext, rfl⟩ := bind_pure_ok.1 hstep
    obtain ⟨k, v⟩ := e
    rcases Assoc.mem_insert he with he | ⟨rfl, rfl⟩
    · exact hacc _ he
    · exact ⟨text, hname, htext, rfl⟩
  obtain ⟨text, hmem, htext, hpointer⟩ := hall e he
  exact ⟨text, hhome, hheld, helements, hmem, htext, hpointer⟩

namespace SchemaPlaces

variable {s : SchemaPlace} {names : List (String × Value)}

theorem name_addressed (hkeyed : doc.Keyed) (hsize : doc.size ≤ 10 ^ Text.maxDigits)
    (hmapped : Document.SchemasMapped doc) (hlisted : Document.DefinitionsListed doc)
    (hnames : Resolve.componentNames doc = .ok names) {e : String × Value} (he : e ∈ names)
    (hschema : (do (← Document.schemas doc).item e.2) = .ok v) : At doc e.1 v := by
  obtain ⟨pointer, name⟩ := e
  obtain ⟨held, hheld, hschema⟩ := bind_ok.1 hschema
  obtain ⟨home, held', elements, text, hhome, hheld', helements, hmem, htext, rfl⟩ :=
    Resolve.componentNames_ok hnames he
  obtain rfl := Except.ok.inj (hheld.symm.trans hheld')
  rcases Document.schemas_at hmapped hhome hheld with rfl | ⟨hat, hkind⟩
  · cases helements
    cases hmem
  · have hitems : held.isMap = false → (∀ b, name ≠ .bool b) ∧ ∀ n : Int, name = .int n → 0 ≤ n := by
      intro hmap
      have hdefinitions := hkind.resolve_left (by simp [hmap])
      cases held with
      | map entries => cases hmap
      | list items =>
        cases helements
        obtain ⟨hbool, hint⟩ := hlisted _ hdefinitions
        exact ⟨fun b heq => hbool b (heq ▸ hmem), fun n heq => hint n (heq ▸ hmem)⟩
      | scalar x => cases hschema
    exact hat.item hkeyed hsize hschema htext (fun hmap => (hitems hmap).1) fun hmap => (hitems hmap).2

/-- Every place that the walk through a document finds is addressed by its pointer. -/
theorem ofDocument_addressed (hkeyed : doc.Keyed) (hsize : doc.size ≤ 10 ^ Text.maxDigits)
    (hmapped : Document.SchemasMapped doc) (hlisted : Document.DefinitionsListed doc)
    (hnames : Resolve.componentNames doc = .ok names) (hs : s ∈ (ofDocument doc names).found) :
    Stands (At doc) s := by
  refine (ofDocument_finds (At.descends hkeyed hsize) (.root doc) ?_).found s hs
  refine .each fun e he => ?_
  refine .after ((Document.schemas_local doc).bind fun v _ => v.item_local _) fun schema hschema => ?_
  exact .one (.inl (name_addressed hkeyed hsize hmapped hlisted hnames he hschema))

open Resolve (rootPlaces Refers)

/-- Keys with slashes, tildes and percent signs, and a reference to one of them. -/
def oddKeys : Value :=
  .record [
    ("components", .record [("schemas", .record [("a/b%25~1", .record [("type", .str "string")])])]),
    ("paths", .record [("/x~y", .record [("get", .record [
      ("parameters", .list [.record [
        ("name", .str "q"), ("in", .str "query"), ("type", .str "string")]]),
      ("responses", .record [("200", .record [("content", .record [("text/plain", .record [
        ("schema", .record [("$ref", .str "#/components/schemas/a~1b%2525~01")])])])])])])])])]

/-- Truth values in place of definitions. -/
def listedFlags : Value :=
  .record [("swagger", .str "2.0"), ("definitions", .list [.bool true, .bool true])]

end SchemaPlaces

end OpenApi
