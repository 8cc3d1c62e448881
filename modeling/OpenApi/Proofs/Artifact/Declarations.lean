import OpenApi.Proofs.Api.Resolved

/-!
What artifacts declare. Names of operations are registered scope by scope, and some names are put together
without being registered, so a declaration can be met twice. These are the only ways in which it can.
-/
namespace OpenApi

open Outcome (bind_ok bind_pure_ok pure_ok exists_ok mapM_ok pairwise_of_forall₂)

/-! ### Views of names -/

namespace View

variable {api : Api} {names : NameTable} {config : Config} {v : View}

theorem ofApi_ok (h : ofApi api names config = .ok v) :
    List.Forall₂ (fun e op => operation names e = .ok op) api.endpoints v.operations ∧
      List.Forall₂ (fun name t => type names api.types name = .ok t) api.types.dependencyOrder
        v.types := by
  obtain ⟨operations, hoperations, h⟩ := bind_ok.1 h
  obtain ⟨types, htypes, h⟩ := bind_ok.1 h
  dsimp only at h
  split at h <;>
  · obtain ⟨schemes, -, h⟩ := bind_ok.1 h
    cases h
    exact ⟨mapM_ok.1 hoperations, mapM_ok.1 htypes⟩

/-- The names of an operation are those that were registered for it, and one more that is made of the
function alone. -/
structure Shows (names : NameTable) (key : String) (op : OperationView) : Prop where
  function : names.get .operation (.str key) "" = .ok op.function
  cacheKey : names.get .cacheKey (.str key) "" = .ok op.cacheKey
  hook : names.get .hook (.str key) "" = .ok op.hook
  queryOptions : op.queryOptions = "get" ++ Identifier.pascal op.function ++ "QueryOptions"

theorem operation_ok {e : Endpoint} {op : OperationView} (h : operation names e = .ok op) :
    Shows names e.operation.key op ∧ op.method = e.operation.method := by
  obtain ⟨function, hfunction, h⟩ := bind_ok.1 h
  obtain ⟨parameters, -, h⟩ := bind_ok.1 h
  obtain ⟨body, -, h⟩ := bind_ok.1 h
  obtain ⟨responses, -, h⟩ := bind_ok.1 h
  obtain ⟨cacheKey, hcacheKey, h⟩ := bind_ok.1 h
  obtain ⟨hook, hhook, h⟩ := bind_ok.1 h
  obtain ⟨createHook, -, h⟩ := bind_ok.1 h
  obtain ⟨security, -, h⟩ := bind_ok.1 h
  obtain ⟨securityNames, -, h⟩ := bind_ok.1 h
  cases h
  exact ⟨⟨hfunction, hcacheKey, hhook, rfl⟩, rfl⟩

theorem operation_shows {e : Endpoint} {op : OperationView} (h : operation names e = .ok op) :
    Shows names e.operation.key op := (operation_ok h).1

theorem type_identifier {types : NamedTypes} {name : Scalar} {t : TypeView}
    (h : type names types name = .ok t) : names.get .schemaType name "" = .ok t.identifier := by
  unfold type at h
  split at h
  · cases h
  · obtain ⟨identifier, hidentifier, h⟩ := bind_ok.1 h
    obtain ⟨schema, -, h⟩ := bind_ok.1 h
    obtain ⟨ts, -, h⟩ := bind_ok.1 h
    obtain ⟨zod, -, h⟩ := bind_ok.1 h
    cases h
    exact hidentifier

end View

/-! ### Functions -/

namespace OperationView

/-- The functions that the query client declares for an operation. -/
def declared (op : OperationView) : List String :=
  [op.cacheKey, op.function] ++ (if op.isQuery then [op.queryOptions] else []) ++ [op.hook]

/-- How the names of an operation start, or what they are, given the stem of its function. -/
structure Stemmed (op : OperationView) : Prop where
  cacheKey : ("get" ++ Identifier.pascal op.function ++ "Key").toList <+: op.cacheKey.toList
  hook : ("use" ++ Identifier.pascal op.function).toList <+: op.hook.toList
  queryOptions : op.queryOptions = "get" ++ Identifier.pascal op.function ++ "QueryOptions"

namespace Stemmed

variable {op a b : OperationView}

theorem head_cacheKey (h : op.Stemmed) : op.cacheKey.toList.head? = some 'g' := by
  obtain ⟨rest, hrest⟩ := h.cacheKey
  rw [← hrest]
  simp

theorem head_queryOptions (h : op.Stemmed) : op.queryOptions.toList.head? = some 'g' := by
  rw [h.queryOptions]
  simp

theorem head_hook (h : op.Stemmed) : op.hook.toList.head? = some 'u' := by
  obtain ⟨rest, hrest⟩ := h.hook
  rw [← hrest]
  simp

theorem cacheKey_ne_hook (ha : a.Stemmed) (hb : b.Stemmed) : a.cacheKey ≠ b.hook := by
  intro heq
  have hhead := ha.head_cacheKey
  rw [heq, hb.head_hook] at hhead
  cases hhead

theorem queryOptions_ne_hook (ha : a.Stemmed) (hb : b.Stemmed) : a.queryOptions ≠ b.hook := by
  intro heq
  have hhead := ha.head_queryOptions
  rw [heq, hb.head_hook] at hhead
  cases hhead

theorem queryOptions_eq_iff (ha : a.Stemmed) (hb : b.Stemmed) :
    a.queryOptions = b.queryOptions ↔ Identifier.pascal a.function = Identifier.pascal b.function := by
  rw [ha.queryOptions, hb.queryOptions, String.append_left_inj, String.append_right_inj]

/-- The stem has as many letters as the function, and what stands around it adds to them. -/
theorem function_ne (h : op.Stemmed) :
    op.function ≠ op.cacheKey ∧ op.function ≠ op.hook ∧ op.function ≠ op.queryOptions := by
  have hstem := Identifier.solids_pascal op.function
  have hkey := Identifier.solids_le h.cacheKey
  have hhook := Identifier.solids_le h.hook
  have hoptions := congrArg Identifier.solids h.queryOptions
  have hget : Identifier.solids "get" = 3 := by decide
  have huse : Identifier.solids "use" = 3 := by decide
  rw [Identifier.solids_append] at hhook
  rw [Identifier.solids_append, Identifier.solids_append] at hkey hoptions
  refine ⟨fun heq => ?_, fun heq => ?_, fun heq => ?_⟩
  · rw [← heq] at hkey
    omega
  · rw [← heq] at hhook
    omega
  · rw [← heq] at hoptions
    omega

theorem cacheKey_ne_queryOptions (h : op.Stemmed) : op.cacheKey ≠ op.queryOptions := by
  intro heq
  obtain ⟨rest, hrest⟩ := h.cacheKey
  rw [heq, h.queryOptions] at hrest
  simp at hrest

theorem nodup_declared (h : op.Stemmed) : op.declared.Nodup := by
  obtain ⟨hkey, hhook, hoptions⟩ := h.function_ne
  have hkeyhook := h.cacheKey_ne_hook h
  have hkeyoptions := h.cacheKey_ne_queryOptions
  have hoptionshook := h.queryOptions_ne_hook h
  unfold declared
  split <;> simp [hkey.symm, hhook, hoptions, hkeyhook, hkeyoptions, hoptionshook]

end Stemmed

/-- The functions of two operations differ, no name of one is a name of another kind of the other, and if
both are queries, the stems of their functions differ. -/
def Independent (a b : OperationView) : Prop :=
  a.function ≠ b.function ∧
    (a.function ≠ b.cacheKey ∧ a.function ≠ b.hook ∧
      (b.isQuery = true → a.function ≠ b.queryOptions ∧ a.cacheKey ≠ b.queryOptions)) ∧
    (b.function ≠ a.cacheKey ∧ b.function ≠ a.hook ∧
      (a.isQuery = true → b.function ≠ a.queryOptions ∧ b.cacheKey ≠ a.queryOptions)) ∧
    (a.isQuery = true → b.isQuery = true →
      Identifier.pascal a.function ≠ Identifier.pascal b.function)

theorem mem_declared {op : OperationView} {x : String} : x ∈ op.declared ↔
    x = op.cacheKey ∨ x = op.function ∨ (op.isQuery = true ∧ x = op.queryOptions) ∨ x = op.hook := by
  unfold declared
  split <;> simp_all

/-- Between operations whose keys and hooks were registered apart, these are all the names that can meet. -/
theorem disjoint_declared_iff {a b : OperationView} (ha : a.Stemmed) (hb : b.Stemmed)
    (hapart : a.function ≠ b.function → a.cacheKey ≠ b.cacheKey ∧ a.hook ≠ b.hook) :
    List.Disjoint a.declared b.declared ↔ Independent a b := by
  have hoptions := ha.queryOptions_eq_iff hb
  constructor
  · intro h
    have hne : ∀ x ∈ a.declared, ∀ y ∈ b.declared, x ≠ y := fun x hx y hy heq => h hx (heq ▸ hy)
    have hkey : ∀ op : OperationView, op.cacheKey ∈ op.declared := fun _ => mem_declared.2 (.inl rfl)
    have hfun : ∀ op : OperationView, op.function ∈ op.declared :=
      fun _ => mem_declared.2 (.inr (.inl rfl))
    have hquery : ∀ op : OperationView, op.isQuery = true → op.queryOptions ∈ op.declared :=
      fun _ hq => mem_declared.2 (.inr (.inr (.inl ⟨hq, rfl⟩)))
    have hhook : ∀ op : OperationView, op.hook ∈ op.declared :=
      fun _ => mem_declared.2 (.inr (.inr (.inr rfl)))
    refine ⟨hne _ (hfun a) _ (hfun b), ⟨hne _ (hfun a) _ (hkey b), hne _ (hfun a) _ (hhook b), fun hq => ?_⟩,
      ⟨(hne _ (hkey a) _ (hfun b)).symm, (hne _ (hhook a) _ (hfun b)).symm, fun hq => ?_⟩,
      fun hq hq' heq => hne _ (hquery a hq) _ (hquery b hq') (hoptions.2 heq)⟩
    · exact ⟨hne _ (hfun a) _ (hquery b hq), hne _ (hkey a) _ (hquery b hq)⟩
    · exact ⟨(hne _ (hquery a hq) _ (hfun b)).symm, (hne _ (hquery a hq) _ (hkey b)).symm⟩
  · rintro ⟨hfunction, ⟨hab, hab', habq⟩, ⟨hba, hba', hbaq⟩, hstem⟩ x hxa hxb
    obtain ⟨hkey, hhook⟩ := hapart hfunction
    have hkh := ha.cacheKey_ne_hook hb
    have hhk := hb.cacheKey_ne_hook ha
    have hqh := ha.queryOptions_ne_hook hb
    have hhq := hb.queryOptions_ne_hook ha
    -- a function and a name of another kind, two names of one kind, or names that start differently
    rw [mem_declared] at hxa hxb
    grind

end OperationView

namespace View.Shows

variable {names : NameTable} {naming : Naming} {types : List Scalar} {ops : List Operation}
  {key key' : String} {op a b : OperationView}

theorem stemmed (h : Shows names key op) (hnames : NameTable.Assigned naming types ops names) :
    op.Stemmed := by
  have hstem : ∀ {function}, names.get .operation (.str key) "" = .ok function →
      function = op.function := fun hget => Except.ok.inj (hget.symm.trans h.function)
  constructor
  case cacheKey =>
    obtain ⟨function, hfunction, hstarts⟩ :=
      hnames.toList_derived (a := ("get", "Key")) rfl h.cacheKey
    exact hstem hfunction ▸ hstarts
  case hook =>
    obtain ⟨function, hfunction, hstarts⟩ := hnames.toList_derived (a := ("use", "")) rfl h.hook
    rw [hstem hfunction, String.append_empty] at hstarts
    exact hstarts
  case queryOptions => exact h.queryOptions

/-- Names that were registered for different operations in one scope are different. -/
theorem ne (ha : Shows names key a) (hb : Shows names key' b)
    (hnames : NameTable.Distinct naming names) (hne : key ≠ key') :
    a.function ≠ b.function ∧ a.cacheKey ≠ b.cacheKey ∧ a.hook ≠ b.hook := by
  have hkey : ∀ {scope i j}, names.get scope (.str key) "" = .ok i →
      names.get scope (.str key') "" = .ok j → i ≠ j := by
    intro scope i j hi hj heq
    rw [← heq] at hj
    exact hne (Scalar.str.inj (hnames.get_inj hi hj))
  exact ⟨hkey ha.function hb.function, hkey ha.cacheKey hb.cacheKey, hkey ha.hook hb.hook⟩

theorem key_ne (ha : Shows names key a) (hb : Shows names key' b) (hne : a.function ≠ b.function) :
    key ≠ key' := by
  rintro rfl
  exact hne (Except.ok.inj (ha.function.symm.trans hb.function))

end View.Shows

namespace Artifact

/-! ### Lines that declare -/

/-- Does a line make something of an artifact known outside? -/
def isExport (line : String) : Bool := "export ".toList.isPrefixOf line.toList

/-- A line that declares a function of a name. -/
def Declares (name line : String) : Prop :=
  ("export function " ++ name ++ "(").toList <+: line.toList ∨
    ("export async function " ++ name ++ "(").toList <+: line.toList

theorem mem_commentLines {lines : List String} {line : String} (h : line ∈ commentLines lines) :
    line = " *" ∨ ∃ text, line = " * " ++ commentText text := by
  have hmap : ∀ {l}, l ∈ lines.map (fun line => " * " ++ commentText line) →
      ∃ text, l = " * " ++ commentText text := by
    intro l hl
    obtain ⟨text, -, rfl⟩ := List.mem_map.1 hl
    exact ⟨_, rfl⟩
  unfold commentLines at h
  split at h
  · next first second rest hlines =>
    rw [hlines] at hmap
    rcases List.mem_cons.1 h with rfl | h
    · exact .inr (hmap List.mem_cons_self)
    · exact (List.mem_cons.1 h).imp_right fun h => hmap (List.mem_cons_of_mem _ h)
  · exact .inr (hmap h)

/-- A text that starts with a literal. The literal is matched, not evaluated. -/
inductive Starts (c : Char) : String → Prop
  | append {s : String} (t : String) (h : Starts c s) : Starts c (s ++ t)
  | literal (cs : List Char) : Starts c (String.ofList (c :: cs))

/-- Lines that start with literals, none of which starts with a given character. -/
inductive Avoids (c : Char) : List String → Prop
  | nil : Avoids c []
  | blank {ls : List String} (h : Avoids c ls) : Avoids c ("" :: ls)
  | cons {d : Char} {line : String} {ls : List String} (hline : Starts d line) (hd : (d == c) = false)
      (h : Avoids c ls) : Avoids c (line :: ls)

theorem Starts.head_eq {c : Char} {s : String} (h : Starts c s) : s.toList.head? = some c := by
  induction h with
  | append t _ ih => rw [String.toList_append, List.head?_append, ih, Option.some_or]
  | literal cs => rw [String.toList_ofList, List.head?_cons]

theorem head_header {v : View} {first : String} (h : header v = .ok first) :
    first.toList.head? = some '/' := by
  obtain ⟨title, -, h⟩ := bind_ok.1 h
  obtain ⟨version, -, rfl⟩ := bind_pure_ok.1 h
  exact Starts.head_eq (by repeat' constructor)

theorem Avoids.head_ne {c : Char} {ls : List String} (h : Avoids c ls) :
    ∀ l ∈ ls, l.toList.head? ≠ some c := by
  induction h with
  | nil => exact List.forall_mem_nil _
  | blank _ ih => exact List.forall_mem_cons.2 ⟨by simp, ih⟩
  | cons hline hd _ ih =>
    refine List.forall_mem_cons.2 ⟨fun hc => beq_eq_false_iff_ne.1 hd ?_, ih⟩
    exact Option.some.inj (hline.head_eq.symm.trans hc)

theorem filter_isExport {ls : List String} (h : ∀ l ∈ ls, l.toList.head? ≠ some 'e') :
    ls.filter isExport = [] := by
  rw [List.filter_eq_nil_iff]
  intro line hline hexport
  obtain ⟨rest, hrest⟩ := List.isPrefixOf_iff_prefix.1 hexport
  exact h line hline (by rw [← hrest]; rfl)

theorem filter_comment {values : List Value} {doc : List String} (h : comment values = .ok doc) :
    doc.filter isExport = [] := by
  obtain ⟨lines, -, rfl⟩ := bind_pure_ok.1 h
  have hlines : ∀ l ∈ commentLines lines, l.toList.head? ≠ some 'e' := by
    intro line hline
    rcases mem_commentLines hline with rfl | ⟨text, rfl⟩
    · decide
    · simp
  exact filter_isExport (List.forall_mem_append.2 ⟨List.forall_mem_cons.2 ⟨by decide, hlines⟩, by decide⟩)

theorem declares_filter {name line : String} (front : List String) {back : List String}
    (hfront : front.filter isExport = []) (hline : Declares name line) (hback : Avoids 'e' back) :
    List.Forall₂ Declares [name] ((front ++ line :: back).filter isExport) := by
  have hexport : isExport line = true := by
    rw [isExport, List.isPrefixOf_iff_prefix]
    refine hline.elim (List.IsPrefix.trans ?_) (List.IsPrefix.trans ?_)
    · simp
    · simp
  rw [List.filter_append, hfront, List.nil_append, List.filter_cons_of_pos hexport,
    filter_isExport hback.head_ne]
  exact .cons hline .nil

/-- What is found in the lines for each of several things is found in all lines, in the same order. -/
theorem each_forall₂ {α : Type} {items : List α} {print : α → Checked (List String)}
    {ls : List String} (h : each items print = .ok ls) {p : String → Bool} {R : String → String → Prop}
    {names : α → List String}
    (hprint : ∀ x b, print x = .ok b → List.Forall₂ R (names x) (b.filter p)) :
    List.Forall₂ R (items.flatMap names) (ls.filter p) := by
  obtain ⟨blocks, hblocks, rfl⟩ := bind_pure_ok.1 h
  rw [List.filter_flatten, ← List.flatMap_def]
  exact List.rel_flatMap ((mapM_ok.1 hblocks).imp hprint) fun _ _ h => h

theorem Client.heads_imports {v : View} {c : Char} (hi : 'i' ≠ c) (hblank : ' ' ≠ c) (hclose : '\x7d' ≠ c) :
    ∀ l ∈ imports v, l.toList.head? ≠ some c := by
  have hfirst : ('i' == c) = false := beq_eq_false_iff_ne.2 hi
  refine List.forall_mem_append.2 ⟨Avoids.head_ne (by (repeat' constructor) <;> assumption), ?_⟩
  unfold typeImports
  split
  · simp
  · simp [toString, or_imp, forall_and, hi, hblank, hclose]

namespace TanstackQuery

variable {v : View} {op : OperationView} {doc : List String}

theorem declares_keyFunction : List.Forall₂ Declares [op.cacheKey]
    ((Client.keyFunction "TanStack Query" op).filter isExport) :=
  declares_filter [_, _, _, _] (filter_isExport (Avoids.head_ne (by repeat' constructor)))
    (by simp [toString, Declares]) (by repeat' constructor)

theorem declares_fetcher (hdoc : doc.filter isExport = []) :
    List.Forall₂ Declares [op.function] ((Client.fetcher doc op).filter isExport) :=
  declares_filter doc hdoc (by simp [toString, Declares]) (by repeat' constructor)

theorem declares_query (hdoc : doc.filter isExport = []) :
    List.Forall₂ Declares [op.queryOptions, op.hook] ((query doc op).filter isExport) := by
  unfold query
  rw [List.append_assoc, List.append_assoc, List.append_assoc, List.filter_append]
  exact List.rel_append
    (declares_filter [_, _, _, _, _, _] (filter_isExport (Avoids.head_ne (by repeat' constructor)))
      (by simp [toString, Declares]) (by repeat' constructor))
    (declares_filter doc hdoc (by simp [toString, Declares]) (by repeat' constructor))

theorem declares_mutation :
    List.Forall₂ Declares [op.hook] ((Query.mutation op).filter isExport) :=
  declares_filter [] rfl (by simp [toString, Declares]) (by repeat' constructor)

theorem declares_operation (hdoc : doc.filter isExport = []) : List.Forall₂ Declares op.declared
    ((Query.operation "TanStack Query" query Query.mutation doc op).filter isExport) := by
  have hblank : isExport "" = false := by decide
  have hfront : List.Forall₂ Declares [op.cacheKey, op.function]
      (("" :: Client.keyFunction "TanStack Query" op ++ "" :: Client.fetcher doc op).filter isExport) := by
    rw [List.cons_append, List.filter_cons_of_neg (by simp [hblank]), List.filter_append,
      List.filter_cons_of_neg (by simp [hblank])]
    exact List.rel_append declares_keyFunction (declares_fetcher hdoc)
  unfold Query.operation OperationView.declared
  rw [List.filter_append, List.append_assoc]
  refine List.rel_append hfront ?_
  cases op.isQuery with
  | true => exact declares_query hdoc
  | false =>
    rw [if_neg (by decide), if_neg (by decide), List.cons_append,
      List.filter_cons_of_neg (by simp [hblank]), List.filter_append, hdoc]
    exact declares_mutation

/-- The declarations of the artifact, in order. -/
theorem declares_lines {ls : List String} (h : lines v = .ok ls) :
    List.Forall₂ Declares (v.operations.flatMap (·.declared)) (ls.filter isExport) := by
  obtain ⟨operations, hoperations, h⟩ := bind_ok.1 h
  obtain ⟨first, hfirst, rfl⟩ := bind_pure_ok.1 h
  have hown : Avoids 'e' ("" :: imports) := by repeat' constructor
  have hfront : ([first, ""] ++ imports ++ Client.imports v).filter isExport = [] :=
    filter_isExport (List.forall_mem_append.2 ⟨List.forall_mem_cons.2 ⟨by simp [head_header hfirst],
      hown.head_ne⟩, Client.heads_imports (by decide) (by decide) (by decide)⟩)
  rw [List.filter_append, hfront, List.nil_append]
  refine each_forall₂ hoperations fun op b hb => ?_
  obtain ⟨doc, hdoc, rfl⟩ := bind_pure_ok.1 hb
  exact declares_operation (filter_comment hdoc)

/-- The functions that the client declares. Their lines are all the exports of the artifact. Those of one
operation are always different; those of different operations are, if and only if no function is named as
something that belongs to another operation, and no options are named as the key or the options of
another query. That two functions have the same name takes a mapping with a key twice. -/
theorem declared_nodup_iff {doc : Value} {config settings : Config} {api : Api}
    (hapi : (Api.build doc config).result = .ok api)
    (hview : View.ofApi api api.names settings = .ok v) :
    (∀ ls, lines v = .ok ls →
        List.Forall₂ Declares (v.operations.flatMap (·.declared)) (ls.filter isExport)) ∧
      (∀ op ∈ v.operations, op.declared.Nodup) ∧
      ((v.operations.flatMap (·.declared)).Nodup ↔ v.operations.Pairwise OperationView.Independent) ∧
      (doc.KeysApart → v.operations.Pairwise fun a b => a.function ≠ b.function) := by
  obtain ⟨ops, m, hops, hmapped, hassign⟩ := Api.build_ok hapi
  have hnames := NameTable.assign_ok hmapped.type_nodup hassign
  have hshows := (View.ofApi_ok hview).1.imp fun _ _ h => View.operation_shows h
  have hstemmed : ∀ op ∈ v.operations, op.Stemmed := by
    intro op hop
    obtain ⟨e, -, hshow⟩ := Outcome.exists_mem_of_forall₂ hshows.flip hop
    exact hshow.stemmed hnames
  have hnodup : ∀ op ∈ v.operations, op.declared.Nodup := fun op hop => (hstemmed op hop).nodup_declared
  refine ⟨fun _ => declares_lines, hnodup, ?_, fun hdoc => ?_⟩
  · have hapart : v.operations.Pairwise fun a b =>
        a.function ≠ b.function → a.cacheKey ≠ b.cacheKey ∧ a.hook ≠ b.hook := by
      refine pairwise_of_forall₂ hshows (List.pairwise_of_forall fun _ _ => trivial) ?_
      -- functions that differ were registered for different operations
      intro e f a b _ ha hb hne
      exact (ha.ne hb hnames.distinct (ha.key_ne hb hne)).2
    rw [List.nodup_flatMap, and_iff_right hnodup]
    exact Outcome.pairwise_iff hapart fun a ha b hb =>
      OperationView.disjoint_declared_iff (hstemmed a ha) (hstemmed b hb)
  · have hkeys : api.endpoints.Pairwise fun a b => a.operation.key ≠ b.operation.key := by
      refine pairwise_of_forall₂ hmapped.made (Operation.parseAll_keys hdoc hops) ?_
      intro a b e f hab he hf
      rwa [he.operation_eq, hf.operation_eq]
    exact pairwise_of_forall₂ hshows hkeys fun hne ha hb => (ha.ne hb hnames.distinct hne).1

/-- Queries whose ids make the same identifier, and a mutation. -/
def pets : Value :=
  let operation (method id : String) : Value :=
    .record [(method, .record [("operationId", .str id), ("responses", .record [])])]
  .record [("paths", .record [
    ("/cats", operation "get" "list-pets"), ("/dogs", operation "get" "list_pets"),
    ("/pets", operation "post" "addPet")])]

theorem pets_declared_nodup : pets.KeysApart ∧ ∃ api, (Api.build pets {}).result = .ok api ∧
    ∃ v, View.ofApi api api.names {} = .ok v ∧ v.operations.map (·.declared) =
      [["getListPetsKey", "list_pets", "getListPetsQueryOptions", "useListPets"],
        ["getListPets2Key", "list_pets_2", "getListPets2QueryOptions", "useListPets2"],
        ["getAddPetKey", "addPet", "useAddPet"]] ∧
      ∃ ls, lines v = .ok ls ∧
        List.Forall₂ Declares (v.operations.flatMap (·.declared)) (ls.filter isExport) ∧
        (∀ op ∈ v.operations, op.declared.Nodup) ∧ (v.operations.flatMap (·.declared)).Nodup ∧
        v.operations.Pairwise OperationView.Independent ∧
        v.operations.Pairwise fun a b => a.function ≠ b.function := by
  have hdoc : pets.KeysApart := by decide +kernel
  have hok : ∃ api, (Api.build pets {}).result = .ok api ∧
      ∃ v, View.ofApi api api.names {} = .ok v ∧ v.operations.map (·.declared) =
        [["getListPetsKey", "list_pets", "getListPetsQueryOptions", "useListPets"],
          ["getListPets2Key", "list_pets_2", "getListPets2QueryOptions", "useListPets2"],
          ["getAddPetKey", "addPet", "useAddPet"]] ∧
        ∃ ls, lines v = .ok ls ∧ ls ≠ [] := by
    simp only [exists_ok]
    decide +kernel
  obtain ⟨api, hapi, v, hview, hdeclared, ls, hlines, -⟩ := hok
  obtain ⟨hexports, hnodup, hiff, hfunctions⟩ := declared_nodup_iff hapi hview
  have hall : (v.operations.flatMap (·.declared)).Nodup := by
    rw [List.flatMap_def, hdeclared]
    decide
  exact ⟨hdoc, api, hapi, v, hview, hdeclared, ls, hlines, hexports ls hlines, hnodup, hall,
    hiff.1 hall, hfunctions hdoc⟩

/-- Two queries whose ids differ in a separator and in the case of a letter. -/
def twins : Value :=
  let query (id : String) : Value :=
    .record [("get", .record [("operationId", .str id), ("responses", .record [])])]
  .record [("paths", .record [("/a", query "a_b"), ("/b", query "aB")])]

/-- Keys and hooks are numbered, and the options of both queries have the same name. -/
theorem twins_declared_twice : twins.KeysApart ∧ ∃ api, (Api.build twins {}).result = .ok api ∧
    ∃ v, View.ofApi api api.names {} = .ok v ∧
      v.operations.map (·.declared) = [["getABKey", "a_b", "getABQueryOptions", "useAB"],
        ["getABKey_2", "aB", "getABQueryOptions", "useAB_2"]] ∧
      ¬ (v.operations.flatMap (·.declared)).Nodup := by
  refine ⟨by decide +kernel, ?_⟩
  simp only [exists_ok]
  decide +kernel

end TanstackQuery
end Artifact
end OpenApi
