import OpenApi.Proofs.Assoc
import OpenApi.Proofs.Outcome
import OpenApi.Schema.Merge

/-!
The ids that a node mentions, and what merging takes from its fragments: the merged schema mentions
only what some fragment mentions, and its format and type stand in some fragment.
-/
namespace OpenApi

open Outcome (bind_ok pure_ok)

def Additional.toList {α : Type} : Additional α → List α
  | .schema a => [a]
  | _ => []

namespace Node

/-- The ids of the schemas that a schema holds or refers to. -/
def mentions (n : Node) : List String :=
  n.properties.map (·.node) ++ n.items.toList ++ n.additional.toList ++ n.members ++ n.target.toList

theorem mem_mentions {n : Node} {m : String} :
    m ∈ n.mentions ↔ (∃ p ∈ n.properties, p.node = m) ∨ m ∈ n.items.toList ∨
      m ∈ n.additional.toList ∨ m ∈ n.members ∨ m ∈ n.target.toList := by
  simp [mentions]

variable {n : Node} {m : String}

theorem property_mem_mentions {p : Property} (h : p ∈ n.properties) : p.node ∈ n.mentions :=
  mem_mentions.2 (.inl ⟨p, h, rfl⟩)

theorem items_mem_mentions (h : n.items = some m) : m ∈ n.mentions :=
  mem_mentions.2 (.inr (.inl (Option.mem_toList.2 h)))

theorem additional_mem_mentions (h : m ∈ n.additional.toList) : m ∈ n.mentions :=
  mem_mentions.2 (.inr (.inr (.inl h)))

theorem member_mem_mentions (h : m ∈ n.members) : m ∈ n.mentions :=
  mem_mentions.2 (.inr (.inr (.inr (.inl h))))

theorem target_mem_mentions (h : n.target = some m) : m ∈ n.mentions :=
  mem_mentions.2 (.inr (.inr (.inr (.inr (Option.mem_toList.2 h)))))

end Node

namespace Merge

theorem puts_insertProperty :
    Assoc.Puts (fun a b : Property => a.name.same b.name) (fun _ p => p) insertProperty :=
  ⟨fun _ => rfl, fun _ _ _ => rfl⟩

theorem mem_foldl_insertProperty {props acc : List Property} {q : Property}
    (h : q ∈ props.foldl insertProperty acc) : q ∈ acc ∨ q ∈ props :=
  (puts_insertProperty.mem_foldl (R := Eq) (fun _ => rfl) (fun _ _ _ => rfl) h).imp_right
    fun ⟨_, hp, heq⟩ => heq ▸ hp

theorem exists_of_mem_properties {fragments : List Node} {p : Property}
    (h : p ∈ properties fragments) :
    ∃ f ∈ fragments, ∃ q ∈ f.properties, q.name = p.name ∧ q.node = p.node := by
  obtain ⟨q, hq, rfl⟩ := List.mem_map.1 h
  rcases mem_foldl_insertProperty hq with hq | hq
  · cases hq
  · obtain ⟨f, hf, hq⟩ := List.mem_flatMap.1 hq
    exact ⟨f, hf, q, hq, rfl, rfl⟩

theorem mem_of_lastDeclaring {fragments : List Node} {a : Attribute} {f : Node}
    (h : lastDeclaring? fragments a = some f) : f ∈ fragments :=
  (List.mem_filter.1 (List.mem_of_getLast? h)).1

theorem mem_of_combine {pick : Value → Value → Checked Value} {values : List Value} {v : Value}
    (hpick : ∀ a b c, pick a b = .ok c → c = a ∨ c = b ∨ ∃ s, c = .str s)
    (h : combine pick values = .ok v) : v = .null ∨ (∃ s, v = .str s) ∨ v ∈ values := by
  cases values with
  | nil =>
    cases h
    exact .inl rfl
  | cons w rest =>
    simp only [combine] at h
    right
    induction rest generalizing w with
    | nil =>
      cases pure_ok.1 h
      exact .inr (List.mem_singleton_self _)
    | cons x rest ih =>
      rw [List.foldlM_cons, bind_ok] at h
      obtain ⟨y, hy, h⟩ := h
      rcases ih y h with hs | hm
      · exact .inl hs
      · rcases List.mem_cons.1 hm with rfl | hm
        · rcases hpick _ _ _ hy with rfl | rfl | hs
          · exact .inr (by simp)
          · exact .inr (by simp)
          · exact .inl hs
        · exact .inr (by simp [hm])

theorem pickType_cases {policy : MergePolicy} {a b c : Value} (h : pickType policy a b = .ok c) :
    c = a ∨ c = b ∨ ∃ s, c = .str s := by
  unfold pickType at h
  split at h
  · exact .inr (.inl (pure_ok.1 h).symm)
  · split at h
    · split at h
      · split at h
        · exact .inr (.inr ⟨_, (pure_ok.1 h).symm⟩)
        · exact .inr (.inl (pure_ok.1 h).symm)
      · obtain ⟨_, h, -⟩ := bind_ok.1 h
        exact (Outcome.throw_ok.1 h).elim
    · exact .inr (.inl (pure_ok.1 h).symm)

theorem kind_cases (type : Value) (props : List Property) (items : Option String)
    (additional : Additional String) (enum : List Value) :
    kind type props items additional enum = .primitive ∨
      kind type props items additional enum = .object ∨
      kind type props items additional enum = .array ∨
      kind type props items additional enum = .enum := by
  unfold kind
  split_ifs <;> simp

/-- What is certain of the outcome of merging. -/
structure Merged (pointer : String) (fragments : List Node) (n : Node) : Prop where
  id : n.id = pointer
  kind : n.kind = .primitive ∨ n.kind = .object ∨ n.kind = .array ∨ n.kind = .enum
  target : n.target = none
  mentions : ∀ m ∈ n.mentions, ∃ f ∈ fragments, m ∈ f.mentions
  format : n.format = .null ∨ ∃ f ∈ fragments, n.format = f.format
  type : n.type = .null ∨ (∃ s, n.type = .str s) ∨ ∃ f ∈ fragments, n.type = f.type

theorem merged_of_merge {policy : MergePolicy} {pointer : String} {fragments : List Node} {n : Node}
    (h : merge policy pointer fragments = .ok n) : Merged pointer fragments n := by
  unfold merge at h
  obtain ⟨type, htype, h⟩ := bind_ok.1 h
  obtain ⟨constraints, -, h⟩ := bind_ok.1 h
  cases pure_ok.1 h
  constructor
  case id => rfl
  case kind => exact kind_cases ..
  case target => rfl
  case mentions =>
    intro m hm
    rcases Node.mem_mentions.1 hm with ⟨p, hp, rfl⟩ | hm | hm | hm | hm
    · obtain ⟨f, hf, q, hq, -, hpq⟩ := exists_of_mem_properties hp
      exact ⟨f, hf, hpq ▸ Node.property_mem_mentions hq⟩
    · obtain ⟨f, hf, hm⟩ := Option.bind_eq_some_iff.1 (Option.mem_toList.1 hm)
      exact ⟨f, mem_of_lastDeclaring hf, Node.items_mem_mentions hm⟩
    · cases hf : lastDeclaring? fragments .additional with
      | none => simp [hf, Additional.toList] at hm
      | some f =>
        simp only [hf, Option.map_some, Option.getD_some] at hm
        exact ⟨f, mem_of_lastDeclaring hf, Node.additional_mem_mentions hm⟩
    · cases hm
    · cases hm
  case format =>
    cases hf : lastDeclaring? fragments .format with
    | none => exact .inl (by simp [hf])
    | some f => exact .inr ⟨f, mem_of_lastDeclaring hf, by simp [hf]⟩
  case type =>
    dsimp only
    split
    · exact .inr (.inl ⟨_, rfl⟩)
    · rcases mem_of_combine (fun _ _ _ => pickType_cases) htype with hn | hs | hm
      · exact .inl hn
      · exact .inr (.inl hs)
      · obtain ⟨f, hf, rfl⟩ := List.mem_map.1 hm
        exact .inr (.inr ⟨f, (List.mem_filter.1 hf).1, rfl⟩)

end Merge
end OpenApi
