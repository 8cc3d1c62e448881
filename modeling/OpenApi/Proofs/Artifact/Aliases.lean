import OpenApi.Proofs.Artifact.Declarations

/-!
The types that the routes declare. The helper of a type that refers to itself is named after it without
being registered, and this is the only way in which a type can be declared twice.
-/
namespace OpenApi

open Outcome (bind_ok pure_ok exists_ok mapM_ok)

namespace TypeView

/-- The types that the routes declare for a named type. -/
def aliases (t : TypeView) : List String :=
  (if t.annotated then [t.identifier ++ "Type"] else []) ++ [t.identifier]

theorem mem_aliases {t : TypeView} {x : String} :
    x ∈ t.aliases ↔ (t.annotated = true ∧ x = t.identifier ++ "Type") ∨ x = t.identifier := by
  unfold aliases
  split <;> simp_all

theorem identifier_ne (t : TypeView) : t.identifier ≠ t.identifier ++ "Type" := by
  intro heq
  have hlength := congrArg String.length heq
  simp at hlength

theorem nodup_aliases (t : TypeView) : t.aliases.Nodup := by
  unfold aliases
  split
  · simp [t.identifier_ne.symm]
  · simp

/-- The type of neither is named as the helper of the other. -/
def Independent (t u : TypeView) : Prop :=
  (t.annotated = true → u.identifier ≠ t.identifier ++ "Type") ∧
    (u.annotated = true → t.identifier ≠ u.identifier ++ "Type")

theorem disjoint_aliases_iff {t u : TypeView} (h : t.identifier ≠ u.identifier) :
    List.Disjoint t.aliases u.aliases ↔ Independent t u := by
  constructor
  · intro hdisjoint
    refine ⟨fun ht heq => ?_, fun hu heq => ?_⟩
    · exact hdisjoint (mem_aliases.2 (.inl ⟨ht, heq⟩)) (mem_aliases.2 (.inr rfl))
    · exact hdisjoint (mem_aliases.2 (.inr rfl)) (mem_aliases.2 (.inl ⟨hu, heq⟩))
  · rintro ⟨htu, hut⟩ x hxt hxu
    -- two helpers of one name would be the helpers of types of one name
    rcases mem_aliases.1 hxt with ⟨ht, rfl⟩ | rfl
    · rcases mem_aliases.1 hxu with ⟨-, heq⟩ | heq
      · exact h ((String.append_left_inj _).1 heq)
      · exact htu ht heq.symm
    · rcases mem_aliases.1 hxu with ⟨hu, heq⟩ | heq
      · exact hut hu heq
      · exact h heq

end TypeView

namespace Artifact.Routes

variable {ls : List String} {op : OperationView}

/-- Does a line declare a type? -/
def isAlias (line : String) : Bool :=
  "type ".toList.isPrefixOf line.toList || "export type ".toList.isPrefixOf line.toList

/-- A line that declares a type of a name. -/
def DeclaresType (name line : String) : Prop :=
  ("type " ++ name ++ " = ").toList <+: line.toList ∨
    ("export type " ++ name ++ " = ").toList <+: line.toList

theorem type_declares {t : TypeView} (h : type t = .ok ls) :
    List.Forall₂ DeclaresType t.aliases (ls.filter isAlias) := by
  obtain ⟨name, -, h⟩ := bind_ok.1 h
  rw [← pure_ok.1 h]
  unfold TypeView.aliases
  cases t.annotated with
  | true => simp [isAlias, List.isPrefixOf, toString, DeclaresType]
  | false => simp [isAlias, List.isPrefixOf, toString, DeclaresType]

/-! ### Lines of routes -/

/-- Lines that are set in. -/
def Indented (ls : List String) : Prop := ∀ l ∈ ls, l.toList.head? = some ' '

theorem not_isAlias {line : String} {c : Char} (h : line.toList.head? = some c) (ht : c ≠ 't')
    (he : c ≠ 'e') : isAlias line = false := by
  obtain ⟨rest, hline⟩ := List.head?_eq_some_iff.1 h
  rw [isAlias, hline]
  simp [List.isPrefixOf, ht.symm, he.symm]

namespace Indented

variable {ls more : List String}

theorem filter (h : Indented ls) : ls.filter isAlias = [] := by
  rw [List.filter_eq_nil_iff]
  intro l hl
  simp [not_isAlias (h l hl) (by decide) (by decide)]

theorem append (h : Indented ls) (hmore : Indented more) : Indented (ls ++ more) := by
  intro l hl
  exact (List.mem_append.1 hl).elim (h l) (hmore l)

theorem flatten {blocks : List (List String)} (h : ∀ b ∈ blocks, Indented b) :
    Indented blocks.flatten := by
  intro l hl
  obtain ⟨b, hb, hl⟩ := List.mem_flatten.1 hl
  exact h b hb l hl

end Indented

theorem textLine_indented {name : String} {v : Value} (h : textLine name v = .ok ls) : Indented ls := by
  unfold textLine at h
  split at h
  · rw [← pure_ok.1 h]
    exact nofun
  · obtain ⟨text, -, h⟩ := bind_ok.1 h
    rw [← pure_ok.1 h]
    simp [Indented, toString]

theorem tags_indented {values : List Value} (h : tags values = .ok ls) : Indented ls := by
  unfold tags at h
  split at h
  · rw [← pure_ok.1 h]
    exact nofun
  · obtain ⟨texts, -, h⟩ := bind_ok.1 h
    rw [← pure_ok.1 h]
    simp [Indented]

theorem content_indented {contentType : Option String} {zod line : String}
    (h : content contentType zod = .ok line) : Indented [line] := by
  obtain ⟨mediaType, -, h⟩ := bind_ok.1 h
  rw [← pure_ok.1 h]
  simp [Indented, toString]

theorem body_indented {b : BodyView} (h : body b = .ok ls) : Indented ls := by
  obtain ⟨line, hline, h⟩ := bind_ok.1 h
  rw [← pure_ok.1 h]
  have hline := content_indented hline
  cases b.required <;> simp_all [Indented]

theorem group_indented (g : RequestGroup) : Indented (group g) := by
  have hparameters : Indented (g.parameters.map parameter) := by
    intro l hl
    obtain ⟨p, -, rfl⟩ := List.mem_map.1 hl
    simp [parameter, toString]
  have hends : Indented [s!"    {g.target}: z.object(\x7b"] ∧ Indented ["    \x7d),"] := by
    simp [Indented, toString]
  exact (hends.1.append hparameters).append hends.2

theorem request_indented (h : request op = .ok ls) : Indented ls := by
  have hmake : ∀ {bodyLines : List String}, Indented bodyLines →
      Indented ("  request: \x7b" :: op.requestGroups.flatMap group ++ bodyLines ++ ["  \x7d,"]) := by
    intro bodyLines hbody
    have hgroups : Indented (op.requestGroups.flatMap group) := by
      intro l hl
      obtain ⟨g, -, hl⟩ := List.mem_flatMap.1 hl
      exact group_indented g l hl
    have hends : Indented ["  request: \x7b"] ∧ Indented ["  \x7d,"] := by simp [Indented]
    exact ((hends.1.append hgroups).append hbody).append hends.2
  unfold request at h
  split at h
  · rw [← pure_ok.1 h]
    exact nofun
  · split at h
    · obtain ⟨bodyLines, hbody, h⟩ := bind_ok.1 h
      rw [← pure_ok.1 h]
      exact hmake (body_indented hbody)
    · obtain ⟨bodyLines, hbody, h⟩ := bind_ok.1 h
      rw [← pure_ok.1 h, ← pure_ok.1 hbody]
      exact hmake nofun

theorem response_indented {r : ResponseView} (h : response r = .ok ls) : Indented ls := by
  have hmake : ∀ {contentLines : List String}, Indented contentLines →
      Indented ([s!"    {r.statusKey}: \x7b", s!"      description: {TypeScript.quoted r.description},"]
        ++ contentLines ++ ["    \x7d,"]) := by
    intro contentLines hcontent
    have hends : Indented [s!"    {r.statusKey}: \x7b",
        s!"      description: {TypeScript.quoted r.description},"] ∧ Indented ["    \x7d,"] := by
      simp [Indented, toString]
    exact (hends.1.append hcontent).append hends.2
  unfold response at h
  split at h
  · obtain ⟨line, hline, h⟩ := bind_ok.1 h
    obtain ⟨contentLines, hcontent, h⟩ := bind_ok.1 h
    rw [← pure_ok.1 h, ← pure_ok.1 hcontent]
    exact hmake (content_indented hline)
  · obtain ⟨contentLines, hcontent, h⟩ := bind_ok.1 h
    rw [← pure_ok.1 h, ← pure_ok.1 hcontent]
    exact hmake nofun

/-- A route is a constant, and all else of it is set in. -/
theorem operation_indented (h : operation op = .ok ls) :
    ∃ inner, Indented inner ∧
      ls = s!"export const {op.route} = createRoute(\x7b" :: inner ++ ["\x7d)", ""] := by
  obtain ⟨tagLines, htags, h⟩ := bind_ok.1 h
  obtain ⟨summary, hsummary, h⟩ := bind_ok.1 h
  obtain ⟨description, hdescription, h⟩ := bind_ok.1 h
  obtain ⟨id, hid, h⟩ := bind_ok.1 h
  obtain ⟨requestLines, hrequest, h⟩ := bind_ok.1 h
  obtain ⟨responses, hresponses, h⟩ := bind_ok.1 h
  have hresponses : Indented responses.flatten := .flatten fun b hb => by
    obtain ⟨r, -, hr⟩ := Outcome.exists_mem_of_forall₂ (mapM_ok.1 hresponses).flip hb
    exact response_indented hr
  have hfront : Indented [s!"  method: '{op.method}',", s!"  path: {TypeScript.quoted op.path},"] := by
    simp [Indented, toString]
  have hdeprecated : Indented (if op.deprecated then ["  deprecated: true,"] else []) := by
    split <;> simp [Indented]
  have hsecurity : Indented (op.security.toList.map fun s => s!"  security: {s},") := by
    simp [Indented, toString]
  have hends : Indented ["  responses: \x7b"] ∧ Indented ["  \x7d,"] := by simp [Indented]
  have hinner := ((((((((((hfront.append (tags_indented htags)).append
    (textLine_indented hsummary)).append (textLine_indented hdescription)).append
    (textLine_indented hid)).append hdeprecated).append hsecurity).append
    (request_indented hrequest)).append hends.1).append hresponses).append hends.2)
  refine ⟨_, hinner, ?_⟩
  rw [← pure_ok.1 h]
  simp

theorem operation_filter (h : operation op = .ok ls) : ls.filter isAlias = [] := by
  obtain ⟨inner, hinner, rfl⟩ := operation_indented h
  rw [List.filter_append, List.filter_cons_of_neg (by simp [isAlias, List.isPrefixOf, toString]),
    hinner.filter]
  decide

variable {v : View}

/-- The types that the artifact declares, in order. -/
theorem declares_lines (h : lines v = .ok ls) :
    List.Forall₂ DeclaresType (v.types.flatMap (·.aliases)) (ls.filter isAlias) := by
  obtain ⟨types, htypes, h⟩ := bind_ok.1 h
  obtain ⟨operations, hoperations, h⟩ := bind_ok.1 h
  obtain ⟨first, hfirst, h⟩ := bind_ok.1 h
  have hdeclares : List.Forall₂ DeclaresType (v.types.flatMap (·.aliases))
      (types.flatten.filter isAlias) := by
    rw [List.filter_flatten, ← List.flatMap_def]
    exact List.rel_flatMap ((mapM_ok.1 htypes).imp fun _ _ => type_declares) fun _ _ h => h
  have hroutes : operations.flatten.filter isAlias = [] := by
    rw [List.filter_flatten, List.flatten_eq_nil_iff]
    intro filtered hfiltered
    obtain ⟨block, hblock, rfl⟩ := List.mem_map.1 hfiltered
    obtain ⟨op, -, hop⟩ := Outcome.exists_mem_of_forall₂ (mapM_ok.1 hoperations).flip hblock
    exact operation_filter hop
  have hschemes : (v.securitySchemes.toList.map fun s =>
      s!"export const securitySchemes = {s} as const").filter isAlias = [] := by
    cases v.securitySchemes with
    | none => rfl
    | some s => simp [isAlias, List.isPrefixOf, toString]
  have hheader := not_isAlias (head_header hfirst) (by decide) (by decide)
  have hfront : [first, "", "import \x7b createRoute, z \x7d from '@hono/zod-openapi'", ""].filter
      isAlias = [] := by
    rw [List.filter_cons_of_neg (by simp [hheader])]
    decide
  rw [← pure_ok.1 h, List.filter_append, List.filter_append, List.filter_append, hfront,
    hroutes, hschemes, List.nil_append, List.append_nil, List.append_nil]
  exact hdeclares

/-- The types that the routes declare. No two of them have the same name, if and only if no named type has
the name of another with `Type` behind it, where the other is declared with a helper. -/
theorem aliases_nodup_iff {doc : Value} {config settings : Config} {api : Api}
    (hapi : (Api.build doc config).result = .ok api)
    (hview : View.ofApi api api.names settings = .ok v) :
    (∀ ls, lines v = .ok ls →
        List.Forall₂ DeclaresType (v.types.flatMap (·.aliases)) (ls.filter isAlias)) ∧
      ((v.types.flatMap (·.aliases)).Nodup ↔ ∀ t ∈ v.types, t.annotated = true →
        ∀ u ∈ v.types, u.identifier ≠ t.identifier ++ "Type") := by
  obtain ⟨ops, m, -, hmapped, hassign⟩ := Api.build_ok hapi
  have hnames := NameTable.assign_ok hmapped.type_nodup hassign
  have hidentifiers : v.types.Pairwise fun t u => t.identifier ≠ u.identifier := by
    have hshown := (View.ofApi_ok hview).2.imp fun _ _ h => View.type_identifier h
    refine Outcome.pairwise_of_forall₂ hshown (NamedTypes.dependencyOrder_listed api.types).1 ?_
    intro name name' t u hne ht hu heq
    rw [← heq] at hu
    exact hne (hnames.distinct.get_inj ht hu)
  refine ⟨fun _ => declares_lines, ?_⟩
  rw [List.nodup_flatMap, and_iff_right fun t _ => t.nodup_aliases]
  refine (Outcome.pairwise_iff hidentifiers fun t _ u _ => TypeView.disjoint_aliases_iff).trans ?_
  constructor
  · intro h t ht hannotated u hu
    have hsymm : Std.Symm TypeView.Independent := ⟨fun _ _ h => h.symm⟩
    -- pairs are of different types, and no type has the name of its own helper
    have hself : ∀ t ∈ v.types, t.Independent t :=
      fun t _ => ⟨fun _ => t.identifier_ne, fun _ => t.identifier_ne⟩
    exact (List.Pairwise.forall_of_forall hself h ht hu).1 hannotated
  · intro h
    refine List.pairwise_of_forall_mem_list fun t ht u hu => ?_
    exact ⟨fun hannotated => h t ht hannotated u hu, fun hannotated => h u hu hannotated t ht⟩

/-- A type that refers to itself, and a type of another name. -/
def shelf (name other : String) : Value :=
  .record [("paths", .record []), ("components", .record [("schemas", .record [
    (name, .record [("properties", .record [
      ("next", .record [("$ref", .str ("#/components/schemas/" ++ name))])])]),
    (other, .record [("type", .str "string")])])])]

theorem shelf_aliases_nodup : ∃ api, (Api.build (shelf "Node" "NodeTypes") {}).result = .ok api ∧
    ∃ v, View.ofApi api api.names {} = .ok v ∧
      v.types.map (·.aliases) = [["NodeType", "Node"], ["NodeTypes"]] ∧
      ∃ ls, lines v = .ok ls ∧
        List.Forall₂ DeclaresType (v.types.flatMap (·.aliases)) (ls.filter isAlias) ∧
        (v.types.flatMap (·.aliases)).Nodup ∧ ∀ t ∈ v.types, t.annotated = true →
          ∀ u ∈ v.types, u.identifier ≠ t.identifier ++ "Type" := by
  have hok : ∃ api, (Api.build (shelf "Node" "NodeTypes") {}).result = .ok api ∧
      ∃ v, View.ofApi api api.names {} = .ok v ∧
        v.types.map (·.aliases) = [["NodeType", "Node"], ["NodeTypes"]] ∧
        ∃ ls, lines v = .ok ls ∧ ls ≠ [] := by
    simp only [exists_ok]
    decide +kernel
  obtain ⟨api, hapi, v, hview, haliases, ls, hlines, -⟩ := hok
  obtain ⟨hlisted, hiff⟩ := aliases_nodup_iff hapi hview
  have hall : (v.types.flatMap (·.aliases)).Nodup := by
    rw [List.flatMap_def, haliases]
    decide
  exact ⟨api, hapi, v, hview, haliases, ls, hlines, hlisted ls hlines, hall, hiff.1 hall⟩

/-- The helper of the one type is named as the other type. -/
theorem shelf_declared_twice : ∃ api, (Api.build (shelf "Node" "NodeType") {}).result = .ok api ∧
    ∃ v, View.ofApi api api.names {} = .ok v ∧
      v.types.map (·.aliases) = [["NodeType", "Node"], ["NodeType"]] ∧
      ¬ (v.types.flatMap (·.aliases)).Nodup := by
  simp only [exists_ok]
  decide +kernel

end Artifact.Routes
end OpenApi
