import OpenApi.Proofs.Name.Registration
import OpenApi.Proofs.TypeScript.Nesting

/-!
The types of items. All that is written for a type closes its brackets and strings. The suffix of an array
applies to the whole type of its items, unless brackets in a string hide an operator.
-/
namespace OpenApi

open Outcome (bind_ok bind_pure_ok pure_ok mapM_ok exists_mem_of_forall₂ exists_bind_pure_ok
  exists_mapM_ok_iff)

/-- The texts in a value, those of its keys among them. -/
def Value.texts (v : Value) : List String :=
  v.subvalues.flatMap fun
    | .scalar (.str s) => [s]
    | .map entries => entries.filterMap (·.1.text?)
    | _ => []

namespace Descriptor

/-- The texts in a type that may have to be quoted, parts left aside. -/
def ownTexts : Descriptor → List String
  | .enum _ literals _ => literals.flatMap Value.texts
  | .object fields _ _ => fields.filterMap (·.name.text?)
  | _ => []

/-- The literals and the names of fields in a type. -/
def texts (d : Descriptor) : List String := d.walk.flatMap ownTexts

theorem mem_texts_of_own {d : Descriptor} {s : String} (h : s ∈ d.ownTexts) : s ∈ d.texts :=
  List.mem_flatMap.2 ⟨d, mem_walk_iff.2 (.inl rfl), h⟩

theorem mem_texts_of_part {d part : Descriptor} (hpart : part ∈ d.parts) {s : String}
    (h : s ∈ part.texts) : s ∈ d.texts := by
  obtain ⟨e, he, hs⟩ := List.mem_flatMap.1 h
  exact List.mem_flatMap.2 ⟨e, mem_walk_of_part hpart he, hs⟩

end Descriptor

theorem Value.mem_texts_of_mem {u v : Value} (hu : u ∈ v.subvalues) {s : String} (h : s ∈ u.texts) :
    s ∈ v.texts := by
  obtain ⟨w, hw, hs⟩ := List.mem_flatMap.1 h
  exact List.mem_flatMap.2 ⟨w, Value.subvalues_trans hu hw, hs⟩

namespace TypeScript
variable {names : NameTable} {text : String} {t : Traits} {d : Descriptor} {c : Char}

/-! ### What each kind of type is written as -/

theorem type_ok : type names d = .ok text ↔ ∃ b, base names d = .ok b ∧ withNull d b = text := by
  simp only [type, bind_ok, pure_ok]

theorem types_eq (ds : List Descriptor) : types names ds = ds.mapM (type names) := by
  induction ds with
  | nil => rfl
  | cons d ds ih =>
    rw [types, List.mapM_cons, ih]
    simp only [type, bind_assoc, pure_bind]

theorem objectFields_eq (fields : List Field) : objectFields names fields = fields.mapM (field names) := by
  induction fields with
  | nil => rfl
  | cons f fields ih => rw [objectFields, List.mapM_cons, ih]

theorem field_ok {f : Field} : field names f = .ok text ↔
    ∃ b name, base names f.type = .ok b ∧ f.name = .str name ∧ fieldText f (key name) b = text := by
  obtain ⟨name, type, optionality, required, description, readOnly, writeOnly⟩ := f
  cases name with
  | str name =>
    simp only [field, keyOf, bind_ok, pure_ok, Except.ok.injEq, Scalar.str.injEq,
      exists_eq_left', exists_and_left]
  | _ => simp [field, keyOf, bind_ok]

theorem base_enum_ok {p : Primitive} {literals : List Value} : base names (.enum p literals t) = .ok text ↔
    ∃ texts, List.Forall₂ (fun v t => literal v = .ok t) literals texts ∧
      (if texts.isEmpty then "never" else Text.join " | " texts) = text := by
  refine bind_pure_ok.trans ?_
  simp only [itemLiterals_eq, mapM_ok]

theorem base_array_ok : base names (.array d t) = .ok text ↔
    ∃ item, type names d = .ok item ∧ wrap operators item ++ "[]" = text := by
  refine bind_pure_ok.trans ?_
  simp only [type, bind_ok, pure_ok, exists_exists_and_eq_and]

theorem base_union_ok {members : List Descriptor} : base names (.union members t) = .ok text ↔
    ∃ texts, List.Forall₂ (fun d t => type names d = .ok t) members texts ∧
      Text.join " | " (texts.map (wrap ['&'])) = text := by
  refine bind_pure_ok.trans ?_
  simp only [types_eq, mapM_ok]

theorem base_intersection_ok {members : List Descriptor} :
    base names (.intersection members t) = .ok text ↔
      ∃ texts, List.Forall₂ (fun d t => type names d = .ok t) members texts ∧
        Text.join " & " (texts.map (wrap operators)) = text := by
  refine bind_pure_ok.trans ?_
  simp only [types_eq, mapM_ok]

/-- Does an object that declares nothing take everything? -/
def takesAll : Additional Descriptor → Bool
  | .schema _ | .flag false => false
  | _ => true

/-- The members for keys that are not declared, of which there is at most one. -/
def indexMembers (names : NameTable) (additional : Additional Descriptor) : Checked (List String) :=
  additional.toList.mapM fun d => return "[key: string]: " ++ (← type names d)

theorem base_object_eq {fields : List Field} {additional : Additional Descriptor} :
    base names (.object fields additional t) = do
      let members ← fields.mapM (field names)
      let more ← indexMembers names additional
      return object (members ++ more) (takesAll additional) := by
  rw [← objectFields_eq]
  cases additional with
  | schema d =>
    simp only [base, indexMembers, takesAll, Additional.toList, List.mapM_cons, List.mapM_nil, type,
      bind_assoc, pure_bind]
  | flag allowed =>
    cases allowed with
    | true => simp [base, indexMembers, takesAll, Additional.toList]
    | false => simp [base, indexMembers, takesAll, Additional.toList]
  | unspecified => simp [base, indexMembers, takesAll, Additional.toList]

/-! ### All that is written closes what it opens -/

variable {P : String → Prop}

/-- The brackets, and the quote. -/
def marks : List Char := ['\x7b', '[', '(', '<', '\x7d', ']', ')', '>', '\'']

theorem isPlain_of_not_mem (h : c ∉ marks) : isPlain c = true := by
  simp only [marks, List.mem_cons, List.not_mem_nil, or_false, not_or] at h
  simp [isPlain, isOpening, isClosing, h]

/-- Characters of a kind that no mark belongs to. -/
theorem isPlain_of {p : Char → Bool} (hp : marks.all (fun c => !p c) = true) (h : p c = true) :
    isPlain c = true := by
  refine isPlain_of_not_mem fun hc => ?_
  have hmark := List.all_eq_true.1 hp c hc
  rw [h] at hmark
  cases hmark

theorem isPlain_of_isPart (h : Identifier.isPart c = true) : isPlain c = true :=
  isPlain_of (by decide) h

theorem isPlain_of_isDigit (h : c.isDigit = true) : isPlain c = true :=
  isPlain_of (by decide) h

namespace Written

theorem of_plain {cs : List Char} (h : cs.all isPlain = true) : Written P cs := by
  induction cs with
  | nil => exact .nil
  | cons c cs ih =>
    obtain ⟨hc, hcs⟩ := Bool.and_eq_true_iff.1 (List.all_cons ▸ h)
    exact .append (.plain hc) (ih hcs)

theorem text_append {a b : String} (ha : Written P a.toList) (hb : Written P b.toList) :
    Written P (a ++ b).toList := by
  rw [String.toList_append]
  exact ha.append hb

theorem join {sep : String} (hsep : Written P sep.toList) {texts : List String}
    (h : ∀ text ∈ texts, Written P text.toList) : Written P (Text.join sep texts).toList := by
  induction texts with
  | nil => exact .nil
  | cons text texts ih =>
    obtain ⟨htext, htexts⟩ := List.forall_mem_cons.1 h
    cases texts with
    | nil => exact htext
    | cons other texts =>
      rw [Text.toList_join_cons]
      exact (htext.append hsep).append (ih htexts)

theorem wrap (ops : List Char) (h : Written P text.toList) : Written P (wrap ops text).toList := by
  unfold TypeScript.wrap
  split
  · have hlist : ("(" ++ text ++ ")").toList = '(' :: (text.toList ++ [')']) := by simp
    rw [hlist]
    exact .bracketed (by decide) (by decide) h
  · exact h

theorem orNull (h : Written P text.toList) : Written P (orNull text).toList :=
  (h.wrap operators).text_append (of_plain (by decide))

theorem withNull (d : Descriptor) (h : Written P text.toList) : Written P (withNull d text).toList := by
  unfold TypeScript.withNull
  split
  · exact h.orNull
  · exact h

theorem identifier {word : String} (h : Identifier.isIdentifier word = true) : Written P word.toList :=
  of_plain (List.all_eq_true.2 fun c hc => isPlain_of_isPart (Identifier.isPart_of_mem_isIdentifier h c hc))

theorem key {name : String} (h : P name) : Written P (key name).toList := by
  obtain ⟨hname, hkey, -⟩ | ⟨word, hword, hkey, -⟩ | ⟨hkey, -⟩ := Expression.key_cases name
  · rw [hkey]
    exact identifier hname
  · rw [hkey]
    exact (identifier hword).text_append (of_plain (by decide))
  · rw [hkey]
    exact .quoted h

theorem braced (h : Written P text.toList) : Written P ("\x7b " ++ text ++ " \x7d").toList := by
  have hlist : ("\x7b " ++ text ++ " \x7d").toList =
      '\x7b' :: (([' '] ++ text.toList ++ [' ']) ++ ['\x7d']) := by simp
  have hblank : Written P [' '] := .plain (by decide)
  rw [hlist]
  exact .bracketed (by decide) (by decide) ((hblank.append h).append hblank)

theorem object {members : List String} (h : ∀ m ∈ members, Written P m.toList) (all : Bool) :
    Written P (object members all).toList := by
  unfold TypeScript.object
  split
  · exact braced (join (of_plain (by decide)) h)
  split
  · have hindex : Written P ('[' :: ("key: string".toList ++ [']'])) :=
      .bracketed (by decide) (by decide) (of_plain (by decide))
    have hblank : Written P [' '] := .plain (by decide)
    have htype : Written P ": unknown ".toList := of_plain (by decide)
    exact .bracketed (o := '\x7b') (c := '\x7d') (by decide) (by decide) ((hblank.append hindex).append htype)
  · have hname : Written P "Record".toList := of_plain (by decide)
    have hparams : Written P "string, never".toList := of_plain (by decide)
    exact hname.append (.bracketed (o := '<') (c := '>') (by decide) (by decide) hparams)

theorem fieldText (f : Field) {name : String} (hname : P name) (h : Written P text.toList) :
    Written P (fieldText f (TypeScript.key name) text).toList := by
  unfold TypeScript.fieldText
  refine (((key hname).text_append ?_).text_append (of_plain (by decide))).text_append ?_
  · split
    · exact .nil
    · exact of_plain (by decide)
  · split
    · exact h.orNull
    · exact h

theorem digits {ds : List Char} (h : ∀ c ∈ ds, c.isDigit = true) : Written P (String.ofList ds).toList := by
  rw [String.toList_ofList]
  exact of_plain (List.all_eq_true.2 fun c hc => isPlain_of_isDigit (h c hc))

theorem toDigits (n : Nat) : Written P (Nat.toDigits 10 n) :=
  of_plain (List.all_eq_true.2 fun _ hc => isPlain_of_isDigit (isDigit_of_mem_toDigits hc))

theorem intText (n : Int) : Written P (intText n).toList := by
  have hrepr : Written P (Nat.repr n.natAbs).toList := by
    rw [Nat.toList_repr]
    exact toDigits n.natAbs
  unfold OpenApi.intText
  split
  · exact text_append (of_plain (by decide)) hrepr
  · exact hrepr

theorem exponentText (e : Int) : Written P (Double.exponentText e).toList := by
  unfold Double.exponentText
  refine text_append ?_ ?_
  · split
    · exact of_plain (by decide)
    · exact of_plain (by decide)
  · rw [String.toList_ofList]
    split
    · exact append (.plain (by decide)) (toDigits e.natAbs)
    · exact toDigits e.natAbs

theorem layout {ds : List Char} (h : ∀ c ∈ ds, c.isDigit = true) (point : Int) :
    Written P (Double.layout ds point).toList := by
  have htake : ∀ n, Written P (String.ofList (ds.take n)).toList :=
    fun n => digits fun c hc => h c (List.mem_of_mem_take hc)
  have hdrop : ∀ n, Written P (String.ofList (ds.drop n)).toList :=
    fun n => digits fun c hc => h c (List.mem_of_mem_drop hc)
  have hzero : ∀ n, ∀ c ∈ List.replicate n '0', c.isDigit = true := by
    intro n c hc
    rw [List.eq_of_mem_replicate hc]
    rfl
  have hdot : Written P ".".toList := of_plain (by decide)
  unfold Double.layout
  dsimp only
  split
  · refine ((htake 1).text_append ?_).text_append (exponentText _)
    split
    · exact .nil
    · exact hdot.text_append (hdrop 1)
  split
  · refine text_append (of_plain (by decide)) (digits fun c hc => ?_)
    exact (List.mem_append.1 hc).elim (hzero _ c) (h c)
  split
  · refine text_append (digits fun c hc => ?_) (of_plain (by decide))
    exact (List.mem_append.1 hc).elim (h c) (hzero _ c)
  · exact ((htake _).text_append hdot).text_append (hdrop _)

theorem isDigit_of_mem_digitsAndPoint {n d : Nat} {c : Char} (h : c ∈ (Double.digitsAndPoint n d).1) :
    c.isDigit = true := by
  simp only [Double.digitsAndPoint, List.mem_reverse] at h
  exact isDigit_of_mem_toDigits (List.mem_reverse.1 ((List.dropWhile_subset _) h))

theorem double (x : Double) : Written P x.text.toList := by
  unfold Double.text
  split
  · exact of_plain (by decide)
  · split
    · exact of_plain (by decide)
    · exact of_plain (by decide)
  · split
    · exact of_plain (by decide)
    · exact of_plain (by decide)
  · refine text_append ?_ (layout (fun c hc => isDigit_of_mem_digitsAndPoint hc) _)
    split
    · exact of_plain (by decide)
    · exact .nil

end Written

theorem memberLiteral_elim {e : Scalar × Value} (h : memberLiteral e = .ok text) :
    ∃ name t, e.1.text? = some name ∧ literal e.2 = .ok t ∧ key name ++ ": " ++ t = text := by
  obtain ⟨name, hname, h⟩ := bind_ok.1 h
  obtain ⟨t, ht, h⟩ := bind_ok.1 h
  exact ⟨name, t, written_ok hname, ht, pure_ok.1 h⟩

theorem written_literal (v : Value) (hv : ∀ s ∈ v.texts, P s) {text : String} (h : literal v = .ok text) :
    Written P text.toList := by
  cases v with
  | scalar s =>
    cases s with
    | str s =>
      obtain rfl := Except.ok.inj h
      exact .quoted (hv s (by simp [Value.texts, Value.subvalues]))
    | bool b =>
      obtain rfl := Except.ok.inj h
      cases b with
      | true => exact .of_plain (by decide)
      | false => exact .of_plain (by decide)
    | null =>
      obtain rfl := Except.ok.inj h
      exact .of_plain (by decide)
    | int n =>
      obtain ⟨-, rfl⟩ := literal_int_ok.1 h
      exact .intText n
    | float x =>
      obtain rfl := Except.ok.inj h
      exact .double x
    | date d => cases h
  | list items =>
    obtain ⟨texts, hall, rfl⟩ := literal_list_ok.1 h
    have htexts : ∀ text ∈ texts, Written P text.toList := by
      intro text htext
      obtain ⟨v, hmem, hliteral⟩ := exists_mem_of_forall₂ hall.flip htext
      have hlt := Value.size_lt_of_item hmem
      have hin := Value.mem_subvalues_of_item hmem
      exact written_literal v (fun s hs => hv s (Value.mem_texts_of_mem hin hs)) hliteral
    have hlist : ("[" ++ Text.join ", " texts ++ "]").toList =
        '[' :: ((Text.join ", " texts).toList ++ [']']) := by simp
    rw [hlist]
    exact .bracketed (by decide) (by decide) (.join (.of_plain (by decide)) htexts)
  | map entries =>
    obtain ⟨texts, hall, rfl⟩ := literal_map_ok.1 h
    have htexts : ∀ text ∈ texts, Written P text.toList := by
      intro text htext
      obtain ⟨e, hmem, he⟩ := exists_mem_of_forall₂ hall.flip htext
      obtain ⟨name, t, hname, ht, rfl⟩ := memberLiteral_elim he
      have hlt := Value.size_lt_of_entry hmem
      have hkey : name ∈ (Value.map entries).texts :=
        List.mem_flatMap.2 ⟨_, Value.mem_subvalues_self _, List.mem_filterMap.2 ⟨e, hmem, hname⟩⟩
      have hvalue := written_literal e.2
        (fun s hs => hv s (Value.mem_texts_of_mem (Value.mem_subvalues_of_entry hmem) hs)) ht
      exact ((Written.key (hv name hkey)).text_append (.of_plain (by decide))).text_append hvalue
    exact .braced (.join (.of_plain (by decide)) htexts)
termination_by v.size

/-- There are no brackets and quotes in names. -/
def BareNames (names : NameTable) : Prop := ∀ e ∈ names, e.identifier.toList.all isPlain = true

/-- Names that were handed out have brackets or quotes only if the suffix or the separator does. -/
theorem bareNames_run {naming : Naming} (hsuffix : naming.suffix.toList.all isPlain = true)
    (hseparator : naming.separator.toList.all isPlain = true) (requests : List NameRequest) :
    BareNames (NameTable.run naming [] requests).2 := by
  have hunreserve : ∀ {name : String}, name.toList.all isPlain = true →
      (naming.unreserve name).toList.all isPlain = true := by
    intro name hname
    unfold Naming.unreserve
    split
    · rw [String.toList_append, List.all_append, hname, hsuffix]
      rfl
    · exact hname
  refine NameTable.run_identifiers (Q := fun name => name.toList.all isPlain = true) (fun raw n => ?_) requests
  have hword := Identifier.isPart_of_mem_isIdentifier (Identifier.isIdentifier_ofText raw)
  have hbase : (NameTable.base naming raw).toList.all isPlain = true :=
    hunreserve (List.all_eq_true.2 fun c hc => isPlain_of_isPart (hword c hc))
  have hdigits : (Nat.repr n).toList.all isPlain = true := by
    rw [Nat.toList_repr]
    exact List.all_eq_true.2 fun c hc => isPlain_of_isDigit (isDigit_of_mem_toDigits hc)
  unfold NameTable.candidate
  split
  · exact hbase
  · refine hunreserve ?_
    rw [String.toList_append, String.toList_append, List.all_append, List.all_append, hbase, hseparator,
      hdigits]
    rfl

theorem written_base (hnames : BareNames names) (d : Descriptor) (hd : ∀ s ∈ d.texts, P s) {text : String}
    (h : base names d = .ok text) : Written P text.toList := by
  -- by induction on the size of the type, so that fields, members and items are parts alike
  have hbase : ∀ part ∈ d.parts, ∀ {b : String}, base names part = .ok b → Written P b.toList := by
    intro part hpart b hb
    have hlt := Descriptor.sizeOf_part_lt hpart
    exact written_base hnames part (fun s hs => hd s (Descriptor.mem_texts_of_part hpart hs)) hb
  have htype : ∀ part ∈ d.parts, ∀ {item : String}, type names part = .ok item → Written P item.toList := by
    intro part hpart item hitem
    obtain ⟨b, hb, rfl⟩ := type_ok.1 hitem
    exact (hbase part hpart hb).withNull part
  have hmembers : ∀ {ops : List Char} {texts : List String},
      List.Forall₂ (fun part t => type names part = .ok t) d.parts texts →
        ∀ t ∈ texts.map (wrap ops), Written P t.toList := by
    intro ops texts hall
    rw [List.forall_mem_map]
    intro t ht
    obtain ⟨part, hpart, ht⟩ := exists_mem_of_forall₂ hall.flip ht
    exact (htype part hpart ht).wrap ops
  cases d with
  | primitive p t =>
    obtain rfl := Except.ok.inj h
    cases p <;> exact .of_plain (by decide)
  | enum p literals t =>
    obtain ⟨texts, hall, rfl⟩ := base_enum_ok.1 h
    split
    · exact .of_plain (by decide)
    · refine .join (.of_plain (by decide)) fun text htext => ?_
      obtain ⟨v, hmem, hv⟩ := exists_mem_of_forall₂ hall.flip htext
      exact written_literal v
        (fun s hs => hd s (Descriptor.mem_texts_of_own (List.mem_flatMap.2 ⟨v, hmem, hs⟩))) hv
  | array items t =>
    obtain ⟨item, hitem, rfl⟩ := base_array_ok.1 h
    have hsuffix : Written P "[]".toList := .bracketed (o := '[') (c := ']') (by decide) (by decide) .nil
    exact ((htype items (List.mem_singleton_self items) hitem).wrap operators).text_append hsuffix
  | object fields additional t =>
    rw [base_object_eq] at h
    obtain ⟨members, hall, h⟩ := bind_ok.1 h
    obtain ⟨more, hmore, rfl⟩ := bind_pure_ok.1 h
    refine .object (List.forall_mem_append.2 ⟨fun m hm => ?_, fun m hm => ?_⟩) _
    · obtain ⟨f, hf, hm⟩ := exists_mem_of_forall₂ (mapM_ok.1 hall).flip hm
      obtain ⟨b, name, hb, hname, rfl⟩ := field_ok.1 hm
      have hpart : f.type ∈ (Descriptor.object fields additional t).parts :=
        List.mem_append_left _ (List.mem_map_of_mem hf)
      have hP : P name := by
        refine hd name (Descriptor.mem_texts_of_own (List.mem_filterMap.2 ⟨f, hf, ?_⟩))
        rw [hname]
        rfl
      exact (hbase f.type hpart hb).fieldText f hP
    · obtain ⟨part, hpart, hm⟩ := exists_mem_of_forall₂ (mapM_ok.1 hmore).flip hm
      obtain ⟨item, hitem, rfl⟩ := bind_pure_ok.1 hm
      have hkey : Written P "[key: string]: ".toList := by
        have hindex : Written P "key: string".toList := .of_plain (by decide)
        have hcolon : Written P ": ".toList := .of_plain (by decide)
        exact (Written.bracketed (o := '[') (c := ']') (by decide) (by decide) hindex).append hcolon
      exact hkey.text_append (htype part (List.mem_append_right _ hpart) hitem)
  | union members t =>
    obtain ⟨texts, hall, rfl⟩ := base_union_ok.1 h
    exact .join (.of_plain (by decide)) (hmembers hall)
  | intersection members t =>
    obtain ⟨texts, hall, rfl⟩ := base_intersection_ok.1 h
    exact .join (.of_plain (by decide)) (hmembers hall)
  | reference name t =>
    obtain ⟨s, e, -, hfind, rfl⟩ := NameTable.get_ok h
    exact .of_plain (hnames e (List.mem_of_find?_eq_some hfind))
termination_by sizeOf d

theorem written_type (hnames : BareNames names) (hd : ∀ s ∈ d.texts, P s) {text : String}
    (h : type names d = .ok text) : Written P text.toList := by
  obtain ⟨b, hb, rfl⟩ := type_ok.1 h
  exact (written_base hnames d hd hb).withNull d

/-! ### Which types are written -/

/-- What has to be there for a type to be written, parts left aside. -/
def Expressible (names : NameTable) : Descriptor → Prop
  | .reference name _ => ∃ identifier, typeName names name = .ok identifier
  | .enum _ literals _ => ∀ v ∈ literals, ∃ text, literal v = .ok text
  | .object fields _ _ => ∀ f ∈ fields, ∃ name, f.name = .str name
  | _ => True

theorem exists_type_iff_base : (∃ text, type names d = .ok text) ↔ ∃ text, base names d = .ok text :=
  exists_bind_pure_ok

theorem exists_field_iff {f : Field} : (∃ text, field names f = .ok text) ↔
    (∃ text, base names f.type = .ok text) ∧ ∃ name, f.name = .str name := by
  simp only [field_ok]
  constructor
  · rintro ⟨_, b, name, hb, hname, -⟩
    exact ⟨⟨b, hb⟩, name, hname⟩
  · rintro ⟨⟨b, hb⟩, name, hname⟩
    exact ⟨_, b, name, hb, hname, rfl⟩

theorem exists_base_iff_parts : (∃ text, base names d = .ok text) ↔
    Expressible names d ∧ ∀ part ∈ d.parts, ∃ text, base names part = .ok text := by
  cases d with
  | primitive p t => exact ⟨fun _ => ⟨trivial, nofun⟩, fun _ => ⟨_, rfl⟩⟩
  | reference name t => exact ⟨fun h => ⟨h, nofun⟩, fun h => h.1⟩
  | enum p literals t =>
    rw [base, itemLiterals_eq, exists_bind_pure_ok, exists_mapM_ok_iff]
    exact ⟨fun h => ⟨h, nofun⟩, fun h => h.1⟩
  | array items t =>
    rw [base, exists_bind_pure_ok]
    simp [Expressible, Descriptor.parts]
  | union members t =>
    rw [base, types_eq, exists_bind_pure_ok, exists_mapM_ok_iff]
    simp [Expressible, Descriptor.parts, exists_type_iff_base]
  | intersection members t =>
    rw [base, types_eq, exists_bind_pure_ok, exists_mapM_ok_iff]
    simp [Expressible, Descriptor.parts, exists_type_iff_base]
  | object fields additional t =>
    have hsplit : (∃ text, base names (.object fields additional t) = .ok text) ↔
        (∃ members, fields.mapM (field names) = .ok members) ∧
          ∃ more, indexMembers names additional = .ok more := by
      rw [base_object_eq]
      simp only [bind_ok, pure_ok]
      constructor
      · rintro ⟨_, members, hmembers, more, hmore, -⟩
        exact ⟨⟨members, hmembers⟩, more, hmore⟩
      · rintro ⟨⟨members, hmembers⟩, more, hmore⟩
        exact ⟨_, members, hmembers, more, hmore, rfl⟩
    rw [hsplit, indexMembers, exists_mapM_ok_iff, exists_mapM_ok_iff]
    simp only [exists_field_iff, exists_bind_pure_ok, exists_type_iff_base, Expressible,
      Descriptor.parts, List.forall_mem_append, List.forall_mem_map]
    constructor
    · rintro ⟨hfields, hmore⟩
      exact ⟨fun f hf => (hfields f hf).2, fun f hf => (hfields f hf).1, hmore⟩
    · rintro ⟨hnames, hfields, hmore⟩
      exact ⟨fun f hf => ⟨hfields f hf, hnames f hf⟩, hmore⟩

/-- A type is written if all that it names is there. -/
theorem exists_base_iff (d : Descriptor) :
    (∃ text, base names d = .ok text) ↔ ∀ e ∈ d.walk, Expressible names e := by
  rw [exists_base_iff_parts]
  constructor
  · rintro ⟨hd, hparts⟩ e he
    rcases Descriptor.mem_walk_iff.1 he with rfl | ⟨part, hpart, he⟩
    · exact hd
    · have hlt := Descriptor.sizeOf_part_lt hpart
      exact (exists_base_iff part).1 (hparts part hpart) e he
  · intro h
    refine ⟨h d (Descriptor.mem_walk_iff.2 (.inl rfl)), fun part hpart => ?_⟩
    have hlt := Descriptor.sizeOf_part_lt hpart
    exact (exists_base_iff part).2 fun e he => h e (Descriptor.mem_walk_of_part hpart he)
termination_by sizeOf d

/-! ### Arrays -/

/-- An array type ends in a bracket, so it is not the type of null. -/
theorem type_array_ok {item : String} (h : type names d = .ok item) :
    type names (.array d t) = .ok (if t.nullable then orNull (wrap operators item ++ "[]")
      else wrap operators item ++ "[]") := by
  have hbase : base names (.array d t) = .ok (wrap operators item ++ "[]") := base_array_ok.2 ⟨item, h, rfl⟩
  have hne : wrap operators item ++ "[]" ≠ "null" := by
    intro heq
    have hlast := congrArg (fun s : String => s.toList.getLast?) heq
    simp at hlast
  refine type_ok.2 ⟨_, hbase, ?_⟩
  simp [withNull, Descriptor.traits, hne]

/-- An array is written if all that the type of its items names is there, and then it is that type with a
suffix. The suffix applies to the whole of the type just if, wherever an operator stands outside of strings
and brackets, some operator is seen by counting brackets. It does if the brackets in each text of the type
match in number. -/
theorem array_items_whole (names : NameTable) (d : Descriptor) (t : Traits) :
    ((∃ text, type names (.array d t) = .ok text) ↔ ∀ e ∈ d.walk, Expressible names e) ∧
      ∀ item, type names d = .ok item →
        type names (.array d t) = .ok (if t.nullable then orNull (wrap operators item ++ "[]")
          else wrap operators item ++ "[]") ∧
        (BareNames names →
          (Whole (wrap operators item) ↔ (TopLevel item → Seen item)) ∧
          ((∀ s ∈ d.texts, level s.toList = 0) → Whole (wrap operators item))) := by
  refine ⟨?_, fun item hitem => ⟨type_array_ok hitem, fun hnames => ?_⟩⟩
  · rw [exists_type_iff_base, exists_base_iff_parts, ← exists_base_iff]
    simp [Expressible, Descriptor.parts]
  · -- with just its own texts for strings, so that both halves speak of the same ones
    have hwritten : Written (fun s => s ∈ d.texts) item.toList := written_type hnames (fun _ hs => hs) hitem
    have hiff := whole_wrap_iff hwritten.enclosed
    exact ⟨hiff, fun htexts => hiff.2 (hwritten.counted htexts).seen_of_topLevel⟩

/-- The table that has a type `Pet` in it. -/
def petNames : NameTable := (NameTable.run {} [] [.name "Pet" .schemaType "" ""]).2

def noteField : Field where
  name := .str "x-<y>"
  type := .primitive .integer { nullable := true }
  optionality := .optional
  required := false

/-- Strings with operators and brackets in a union with an intersection, or null. -/
def taggedPet : Descriptor :=
  .union [.enum .string [.str "a | (b)", .str "it's"] {},
    .intersection [.reference (.str "Pet") {},
      .object [noteField] (.flag false) {}] {}] { nullable := true }

def taggedPetText : String :=
  "('a | (b)' | 'it\\'s' | (Pet & \x7b 'x-<y>'?: number | null \x7d)) | null"

theorem tagged_pets_whole :
    type petNames taggedPet = .ok taggedPetText ∧
      type petNames (.array taggedPet {}) = .ok (wrap operators taggedPetText ++ "[]") ∧
      wrap operators taggedPetText = "(" ++ taggedPetText ++ ")" ∧ Whole (wrap operators taggedPetText) := by
  have hitem : ∃ text, type petNames taggedPet = .ok text ∧ text = taggedPetText :=
    Outcome.exists_ok.2 (by decide +kernel)
  obtain ⟨_, hitem, rfl⟩ := hitem
  obtain ⟨htype, hwhole⟩ := (array_items_whole petNames taggedPet {}).2 taggedPetText hitem
  have hnames : BareNames petNames := bareNames_run (by decide) (by decide) _
  exact ⟨hitem, htype, by decide +kernel, (hwhole hnames).2 (by decide +kernel)⟩

/-- A bracket in a string hides the operator behind it: the suffix applies to the last string only. -/
theorem bracket_literal_not_whole :
    type [] (.array (.enum .string [.str "a)", .str "b"] {}) {}) = .ok ("'a)' | 'b'" ++ "[]") ∧
      TopLevel "'a)' | 'b'" ∧ ¬ Whole "'a)' | 'b'" := by
  have htop : TopLevel "'a)' | 'b'" := ⟨"'a)' ".toList, '|', " 'b'".toList, by decide, by decide, by decide⟩
  exact ⟨rfl, htop, fun h => h.not_topLevel htop⟩

end TypeScript

end OpenApi
