import OpenApi.Proofs.Wire.Deep
import OpenApi.Proofs.Wire.RoundTrip

/-!
Keys in brackets. A key spells a path: the name of a parameter, and behind it the parts in brackets. Names
and parts are percent-encoded, so that a bracket in them is told from one around them, and a reader that
makes all brackets plain before it looks for parts cannot tell them any more. A path is read back just if
no name or part in it has a bracket.
-/
namespace OpenApi

open Outcome (bind_ok pure_ok mapM_ok bind_of_ok)

/-- Objects in brackets stand in query strings, and their types are objects. -/
theorem Parameter.deep_of_codec {p : Parameter} {m : Mapper} {st st' : MapState} {c : Codec}
    (hcodec : (p.codec m).run.run st = (.ok c, st')) (hshape : c.shape = .deepObject) :
    c.parameter.location = .query ∧
      ∃ fields additional t, c.behind c.type = .ok (.object fields additional t) := by
  cases Parameter.typed_of_codec hcodec with
  | deep _ hlocation hd _ => exact ⟨hlocation, _, _, _, hd⟩
  | content h | scalar h _ _ | array h _ _ | object h _ _ => cases hshape.symm.trans h

namespace Codec

/-! ### Encoded text with plain brackets -/

/-- A character of encoded text once brackets are plain. -/
def plainChar (ch : Char) : List Char :=
  if ch = '[' ∨ ch = ']' then [ch] else Percent.encodeChar false ch

/-- An encoded text once its brackets are plain. -/
def plainText (s : String) : List Char := s.toList.flatMap plainChar

theorem plainBrackets_triple {octet : Nat} (h : octet < 256) (hopen : octet ≠ 0x5b)
    (hclose : octet ≠ 0x5d) (rest : List Char) :
    plainBrackets (Percent.triple octet ++ rest) = Percent.triple octet ++ plainBrackets rest := by
  have hdigit : ∀ n < 16, Percent.hexDigit n ≠ '%' := by decide
  have hhigh : ∀ n < 16, Percent.hexDigit n = '5' → n = 5 := by decide
  have hlow : ∀ n < 16, Percent.hexDigit n ∈ ['B', 'b', 'D', 'd'] → n = 11 ∨ n = 13 := by decide
  simp only [Percent.triple, List.cons_append, List.nil_append]
  rw [plainBrackets_percent, plainBrackets_cons (hdigit _ (by omega)),
    plainBrackets_cons (hdigit _ (by omega))]
  intro c more heq hc
  simp only [List.cons.injEq] at heq
  obtain ⟨hfive, rfl, -⟩ := heq
  have hfirst := hhigh _ (by omega) hfive
  have hsecond := hlow _ (by omega) hc
  omega

theorem plainBrackets_triples {octets : List Nat}
    (h : ∀ o ∈ octets, o < 256 ∧ o ≠ 0x5b ∧ o ≠ 0x5d) (rest : List Char) :
    plainBrackets (octets.flatMap Percent.triple ++ rest) =
      octets.flatMap Percent.triple ++ plainBrackets rest := by
  induction octets with
  | nil => rfl
  | cons o octets ih =>
    obtain ⟨⟨hlt, hopen, hclose⟩, hrest⟩ := List.forall_mem_cons.1 h
    rw [List.flatMap_cons, List.append_assoc, plainBrackets_triple hlt hopen hclose, ih hrest,
      List.append_assoc]

/-- The octet of a bracket stands for nothing but the bracket. -/
theorem octet_ne_bracket {ch : Char} (hopen : ch ≠ '[') (hclose : ch ≠ ']') :
    ∀ o ∈ Utf8.octets ch, o ≠ 0x5b ∧ o ≠ 0x5d := by
  have hne : ∀ d : Char, ch ≠ d → ch.toNat ≠ d.toNat := fun d h heq => h (Char.toNat_inj.1 heq)
  have hopen := hne _ hopen
  have hclose := hne _ hclose
  intro o ho
  unfold Utf8.octets at ho
  dsimp only at ho
  split at ho
  · rw [List.mem_singleton.1 ho]
    exact ⟨hopen, hclose⟩
  · split at ho
    · simp only [List.mem_cons, List.not_mem_nil, or_false] at ho
      omega
    · split at ho <;> simp only [List.mem_cons, List.not_mem_nil, or_false] at ho <;> omega

theorem plainBrackets_encodeChar (ch : Char) (rest : List Char) :
    plainBrackets (Percent.encodeChar false ch ++ rest) = plainChar ch ++ plainBrackets rest := by
  unfold plainChar
  split
  · next hbracket =>
    rcases hbracket with rfl | rfl <;> rfl
  · next hbracket =>
    obtain ⟨hopen, hclose⟩ := not_or.1 hbracket
    unfold Percent.encodeChar
    split
    · next hplain =>
      have hpercent : ch ≠ '%' := by
        rintro rfl
        revert hplain
        decide
      exact plainBrackets_cons hpercent rest
    · exact plainBrackets_triples
        (fun o ho => ⟨Utf8.octets_lt ho, octet_ne_bracket hopen hclose o ho⟩) rest

theorem plainBrackets_encode (s : String) (rest : List Char) :
    plainBrackets ((Percent.encode s false).toList ++ rest) = plainText s ++ plainBrackets rest := by
  rw [Percent.encode, String.toList_ofList, plainText]
  induction s.toList with
  | nil => rfl
  | cons ch cs ih =>
    rw [List.flatMap_cons, List.flatMap_cons, List.append_assoc, plainBrackets_encodeChar, ih,
      List.append_assoc]

theorem plainText_eq {s : String} (h : BracketFree s.toList) :
    plainText s = (Percent.encode s false).toList := by
  rw [plainText, Percent.encode, String.toList_ofList]
  apply List.flatMap_congr
  intro ch hch
  rw [plainChar, if_neg]
  rintro (rfl | rfl)
  · exact h.1 hch
  · exact h.2 hch

/-- Brackets of a text are seen once they are plain. -/
theorem bracketFree_plainText {s : String} (h : BracketFree (plainText s)) : BracketFree s.toList := by
  have hmem : ∀ ch ∈ s.toList, ch = '[' ∨ ch = ']' → ch ∈ plainText s := by
    intro ch hch hbracket
    refine List.mem_flatMap.2 ⟨ch, hch, ?_⟩
    rw [plainChar, if_pos hbracket]
    exact List.mem_singleton_self ch
  exact ⟨fun hopen => h.1 (hmem _ hopen (.inl rfl)), fun hclose => h.2 (hmem _ hclose (.inr rfl))⟩

theorem bracketFree_encode (s : String) (dot : Bool) :
    BracketFree (Percent.encode s dot).toList :=
  ⟨not_mem_encode (by cases dot <;> decide), not_mem_encode (by cases dot <;> decide)⟩

/-! ### Parts in brackets -/

theorem bracketParts?_part {part cs : List Char} (h : BracketFree part) (before : List Char) :
    bracketParts? (some before) (part ++ ']' :: cs) =
      (bracketParts? none cs).map ((before.reverse ++ part) :: ·) := by
  induction part generalizing before with
  | nil => simp [bracketParts?]
  | cons ch part ih =>
    obtain ⟨hopen, hclose⟩ := h
    simp only [List.mem_cons, not_or] at hopen hclose
    have hne : ch ≠ '[' ∧ ch ≠ ']' := ⟨Ne.symm hopen.1, Ne.symm hclose.1⟩
    rw [List.cons_append, bracketParts?, if_neg (by simpa using hne.2), if_neg (by simpa using hne.1),
      ih ⟨hopen.2, hclose.2⟩]
    simp

theorem bracketParts?_flatMap {parts : List (List Char)} (h : ∀ part ∈ parts, BracketFree part) :
    bracketParts? none (parts.flatMap bracket) = some parts := by
  induction parts with
  | nil => rfl
  | cons part parts ih =>
    obtain ⟨hpart, hparts⟩ := List.forall_mem_cons.1 h
    rw [flatMap_bracket_cons, bracketParts?, if_pos (by decide), bracketParts?_part hpart, ih hparts]
    rfl

/-! ### Keys -/

variable {c : Codec}

/-- A key with the parts of a path in brackets behind it. -/
def keyAt (key : String) (path : List String) : String :=
  path.foldl (fun key part => key ++ "[" ++ Percent.encode part false ++ "]") key

theorem toList_keyAt (key : String) (path : List String) : (keyAt key path).toList =
    key.toList ++ path.flatMap fun part => bracket (Percent.encode part false).toList := by
  induction path generalizing key with
  | nil => simp [keyAt]
  | cons part path ih =>
    have hstep : keyAt key (part :: path) =
        keyAt (key ++ "[" ++ Percent.encode part false ++ "]") path := rfl
    rw [hstep, ih]
    simp [bracket]

theorem isKeyText_keyAt {key : String} (h : IsKeyText key) (path : List String) :
    IsKeyText (keyAt key path) := by
  intro ch hch
  rw [toList_keyAt, List.mem_append] at hch
  rcases hch with hch | hch
  · exact h ch hch
  · obtain ⟨part, -, hch⟩ := List.mem_flatMap.1 hch
    rw [bracket, List.mem_append, List.mem_cons, List.mem_singleton] at hch
    rcases hch with (rfl | hch) | rfl
    · exact .inr (.inl rfl)
    · exact isKeyText_encode part ch hch
    · exact .inr (.inr rfl)

theorem plainBrackets_keyAt (name : String) (path : List String) :
    plainBrackets (keyAt (Percent.encode name false) path).toList =
      plainText name ++ path.flatMap fun part => bracket (plainText part) := by
  have hparts : plainBrackets (path.flatMap fun part => bracket (Percent.encode part false).toList) =
      path.flatMap fun part => bracket (plainText part) := by
    induction path with
    | nil => rfl
    | cons part path ih =>
      rw [List.flatMap_cons, List.flatMap_cons, bracket, bracket, List.append_assoc, List.cons_append,
        plainBrackets_cons (by decide), plainBrackets_encode, List.singleton_append,
        plainBrackets_cons (by decide), ih]
      simp
  rw [toList_keyAt, plainBrackets_encode, hparts]

/-- The path that a key spells is read back. -/
theorem bracketPath?_keyAt (hname : BracketFree c.name.toList) {path : List String}
    (hpath : ∀ part ∈ path, BracketFree part.toList) (hne : path ≠ []) :
    c.bracketPath? (plainBrackets (keyAt c.wireName path).toList) = .ok (some path) := by
  have hkey : plainBrackets (keyAt c.wireName path).toList = c.wireName.toList ++
      (path.map fun part => (Percent.encode part false).toList).flatMap bracket := by
    rw [wireName, plainBrackets_keyAt, plainText_eq hname, List.flatMap_map, List.append_cancel_left_eq]
    apply List.flatMap_congr
    intro part hpart
    rw [plainText_eq (hpath part hpart)]
  have hparts : bracketParts? none ((path.map fun part => (Percent.encode part false).toList).flatMap
      bracket) = some (path.map fun part => (Percent.encode part false).toList) := by
    apply bracketParts?_flatMap
    intro part hpart
    obtain ⟨s, -, rfl⟩ := List.mem_map.1 hpart
    exact bracketFree_encode s false
  have hdecode : (path.map fun part => (Percent.encode part false).toList).mapM
      (fun part => percentDecode (String.ofList part)) = .ok path := by
    rw [mapM_ok, List.forall₂_map_left_iff, List.forall₂_same]
    intro part _
    simp [percentDecode, Percent.decode?_encode]
  have hown : (c.wireName.toList ++ ['[']).isPrefixOf (c.wireName.toList ++
      (path.map fun part => (Percent.encode part false).toList).flatMap bracket) = true := by
    obtain ⟨part, rest, rfl⟩ := List.exists_cons_of_ne_nil hne
    rw [List.isPrefixOf_iff_prefix, List.prefix_append_right_inj, List.map_cons, List.flatMap_cons,
      bracket, List.cons_append, List.cons_append]
    exact List.cons_prefix_cons.2 ⟨rfl, List.nil_prefix⟩
  rw [hkey, bracketPath?, if_pos hown, List.drop_left, hparts]
  exact bind_ok.2 ⟨path, hdecode, rfl⟩

/-- Once brackets are plain, a text is not what was written from the first bracket on. -/
theorem bracketFree_of_append_eq {cs rest rest' : List Char}
    (h : cs.flatMap plainChar ++ rest = cs.flatMap (Percent.encodeChar false) ++ rest') :
    BracketFree cs := by
  induction cs with
  | nil => simp [BracketFree]
  | cons ch cs ih =>
    have hch : ¬ (ch = '[' ∨ ch = ']') := by
      rintro (rfl | rfl) <;> cases (List.cons.inj h).1
    have hplain : plainChar ch = Percent.encodeChar false ch := if_neg hch
    rw [List.flatMap_cons, List.flatMap_cons, hplain, List.append_assoc, List.append_assoc,
      List.append_cancel_left_eq] at h
    obtain ⟨hopen, hclose⟩ := ih h
    rw [not_or] at hch
    simp only [BracketFree, List.mem_cons, not_or]
    exact ⟨⟨Ne.symm hch.1, hopen⟩, Ne.symm hch.2, hclose⟩

/-- A name with a bracket is not found. -/
theorem bracketPath?_of_name (hname : ¬ BracketFree c.name.toList) (path : List String) :
    c.bracketPath? (plainBrackets (keyAt c.wireName path).toList) = .ok none := by
  rcases c.bracketPath?_cases (plainBrackets (keyAt c.wireName path).toList) with hnone | ⟨more, hkey, -⟩
  · exact hnone
  · rw [wireName, plainBrackets_keyAt, plainText, Percent.encode, String.toList_ofList] at hkey
    exact absurd (bracketFree_of_append_eq hkey) hname

/-- A part with a bracket is refused or falls apart. -/
theorem exists_of_part (hname : BracketFree c.name.toList) {part : String}
    (hpart : ¬ BracketFree part.toList) {path : List String}
    (h : c.bracketPath? (plainBrackets (keyAt c.wireName [part]).toList) = .ok (some path)) :
    ∃ first second rest, path = first :: second :: rest := by
  rcases c.bracketPath?_cases (plainBrackets (keyAt c.wireName [part]).toList) with
    hnone | ⟨more, hkey, heq⟩
  · cases hnone.symm.trans h
  · rw [heq] at h
    have hmore : '[' :: more = bracket (plainText part) := by
      rw [wireName, plainBrackets_keyAt, plainText_eq hname, List.append_cancel_left_eq] at hkey
      simpa using hkey.symm
    cases hparts : bracketParts? (some []) more with
    | none =>
      rw [hparts] at h
      cases h
    | some parts =>
      rw [hparts] at h
      obtain ⟨texts, htexts, h⟩ := bind_ok.1 h
      obtain rfl := Option.some.inj (pure_ok.1 h)
      obtain ⟨hflat, hfree⟩ := flatMap_of_bracketParts? hparts (by simp [BracketFree])
      have hwhole : bracket (plainText part) = parts.flatMap bracket := hmore.symm.trans hflat
      cases mapM_ok.1 htexts with
      | nil => simp [bracket] at hwhole
      | @cons one first _ _ _ hrest =>
        cases hrest with
        | nil =>
          have hone : plainText part = one := by simpa [bracket] using hwhole
          exact absurd (bracketFree_plainText (hone ▸ hfree one (List.mem_singleton_self one))) hpart
        | @cons _ second _ rest _ _ => exact ⟨first, second, rest, rfl⟩

/-! ### Writing and reading pairs -/

variable {d : Descriptor} {v : Value} {s w : String}

theorem decode_deep (hshape : c.shape = .deepObject) (hlocation : c.parameter.location = .query)
    (raw : String) : c.decode (some raw) = c.decodeDeep none (pairsOf '&' raw) := by
  rw [decode, hlocation]
  dsimp only
  rw [decodePairs, hshape]
  rfl

/-- The pairs of an object in brackets, alone in a query string. -/
theorem decode_join_pairs (hshape : c.shape = .deepObject) (hlocation : c.parameter.location = .query)
    {pairs : List (String × String)} (hne : pairs ≠ []) (hkey : ∀ p ∈ pairs, IsKeyText p.1)
    (hvalue : ∀ p ∈ pairs, IsPairText p.2) :
    c.decode (some (Text.join "&" (pairs.map fun p => pair p.1 p.2))) = c.decodeDeep none pairs := by
  have hpairs := pairsOf_join_keys pairs (.inl rfl) hne hkey hvalue
  rw [decode_deep hshape hlocation, show ("&" : String) = String.singleton '&' from rfl, hpairs]

theorem encode_deep (hshape : c.shape = .deepObject) (hnull : v ≠ .null) :
    c.encode v = c.encodeDeep v := by
  unfold encode
  split
  · exact absurd rfl hnull
  · rw [hshape]

theorem encode_of_deepPairs (hshape : c.shape = .deepObject) (hnull : v ≠ .null)
    {pairs : List (String × String)} (h : c.deepPairs c.wireName c.type v = .ok pairs) :
    c.encode v = .ok (Text.join "&" (pairs.map fun p => pair p.1 p.2)) := by
  rw [encode_deep hshape hnull, encodeDeep, h]
  rfl

/-- A scalar is one of the type that names stand for, which is no array. -/
theorem HasScalar.behind (h : c.HasScalar d v) : ∃ e, c.behind d = .ok e ∧
    (∀ items t, e ≠ .array items t) ∧ c.HasScalar e v := by
  have hself : ∀ e : Descriptor, (∀ name t, e ≠ .reference name t) → c.behind e = .ok e :=
    fun e => NamedTypes.behind_self
  cases h with
  | @text p t hd hnull hp s =>
    exact ⟨.primitive p t, hd, by simp, .text (hself _ (by simp)) hnull hp s⟩
  | @integer p t hd hnull hp n =>
    exact ⟨.primitive p t, hd, by simp, .integer (hself _ (by simp)) hnull hp n⟩
  | @boolean t hd hnull b =>
    exact ⟨.primitive .boolean t, hd, by simp, .boolean (hself _ (by simp)) hnull b⟩
  | @literal base literals t _ _ hd hnull htexts hdistinct hv hsome =>
    exact ⟨.enum base literals t, hd, by simp,
      .literal (hself _ (by simp)) hnull htexts hdistinct hv hsome⟩

/-- Where no array is to stand, what is read is put. -/
theorem assign_last {d' e : Descriptor} {key raw : String} (hd : c.behind d = .ok d')
    (he : c.behind (member d' (.str key)) = .ok e) (harray : ∀ items t, e ≠ .array items t)
    (target : Entries) : c.assign raw [key] d target = do
      return target.insert (.str key) (← c.read raw e) := by
  rw [assign, bind_of_ok hd, bind_of_ok he]
  cases e with
  | array items t => exact absurd rfl (harray items t)
  | _ => rfl

/-- A scalar is put where its path ends. -/
theorem assign_scalar {d' : Descriptor} {key : String} (hd : c.behind d = .ok d')
    (hv : c.HasScalar (member d' (.str key)) v) (hw : c.wireText v = .ok w) (target : Entries) :
    c.assign w [key] d target = .ok (target.insert (.str key) v) := by
  obtain ⟨e, he, harray, hscalar⟩ := hv.behind
  rw [assign_last hd he harray, read_wireText hscalar hw]
  rfl

theorem decodeDeep_pair (key raw : String) : c.decodeDeep none [(key, raw)] = do
    match ← c.bracketPath? (plainBrackets key.toList) with
    | none => return .null
    | some path => return .map (← c.assign raw path c.type []) := by
  rw [decodeDeep]
  rfl

/-- One member that is a scalar is one pair. -/
theorem deepPairs_single {fields : List Field} {additional : Additional Descriptor} {t : Traits}
    (hd : c.behind c.type = .ok (.object fields additional t)) {key : String}
    (hv : c.HasScalar (member (.object fields additional t) (.str key)) (.str s))
    (hw : c.wireText (.str s) = .ok w) :
    c.deepPairs c.wireName c.type (.map [(.str key, .str s)]) = .ok [(keyAt c.wireName [key], w)] := by
  obtain ⟨e, he, -⟩ := hv.behind
  rw [deepPairs]
  refine bind_ok.2 ⟨_, hd, ?_⟩
  rw [deepEntries]
  refine bind_ok.2 ⟨key, rfl, bind_ok.2 ⟨[(keyAt c.wireName [key], w)], ?_,
    bind_ok.2 ⟨[], rfl, rfl⟩⟩⟩
  rw [deepPairs]
  exact bind_ok.2 ⟨e, he, bind_ok.2 ⟨w, hw, rfl⟩⟩

/-- A text that is read under its key had no bracket there. -/
theorem bracketFree_of_decodeDeep {key : String}
    (h : c.decodeDeep none [(keyAt c.wireName [key], w)] = .ok (.map [(.str key, .str s)])) :
    BracketFree c.name.toList ∧ BracketFree key.toList := by
  rw [decodeDeep_pair] at h
  obtain ⟨path?, hpath, h⟩ := bind_ok.1 h
  have hname : BracketFree c.name.toList := by
    by_contra hname
    rw [bracketPath?_of_name hname] at hpath
    cases hpath
    cases h
  refine ⟨hname, ?_⟩
  by_contra hkey
  cases path? with
  | none => cases h
  | some path =>
    obtain ⟨first, second, rest, rfl⟩ := exists_of_part hname hkey hpath
    obtain ⟨target, htarget, h⟩ := bind_ok.1 h
    obtain ⟨_, _, value, -, -, rfl, ⟨hnil, -⟩ | ⟨-, child, child', -, -, rfl⟩⟩ := assign_ok htarget
    · cases hnil
    · -- an object stands where a text was written
      have heq := Value.map.inj (pure_ok.1 h)
      simp [Entries.insert] at heq

/-- Keys of any text. An object with one member is read back just if no bracket stands in the name of
the parameter or in the key: a name with a bracket is not found, and a key with one is refused or spells
another path. -/
theorem decode_encode_key_iff {p : Parameter} {m : Mapper} {st st' : MapState}
    (hcodec : (p.codec m).run.run st = (.ok c, st')) (hshape : c.shape = .deepObject)
    {fields : List Field} {additional : Additional Descriptor} {t : Traits}
    (hd : c.behind c.type = .ok (.object fields additional t)) {key : String} {f : Field}
    (hf : fields.find? (fun f => f.name.same (.str key)) = some f) {q : Primitive} {u : Traits}
    (hq : c.behind f.type = .ok (.primitive q u)) (hstring : q.isString = true)
    (hnull : u.nullable = false) (s : String) :
    ∃ w, c.encode (.map [(.str key, .str s)]) = .ok w ∧
      (c.decode (some w) = .ok (.map [(.str key, .str s)]) ↔
        BracketFree c.name.toList ∧ BracketFree key.toList) := by
  obtain ⟨hlocation, -⟩ := Parameter.deep_of_codec hcodec hshape
  have hmember : member (.object fields additional t) (.str key) = f.type := by simp [member, hf]
  have hv : c.HasScalar (member (.object fields additional t) (.str key)) (.str s) :=
    hmember ▸ .text hq hnull hstring s
  obtain ⟨w, hw⟩ : ∃ w, c.wireText (.str s) = .ok w := ⟨_, rfl⟩
  have hpairs := deepPairs_single hd hv hw
  have hone : c.decode (some (Text.join "&" ([(keyAt c.wireName [key], w)].map fun p => pair p.1 p.2))) =
      c.decodeDeep none [(keyAt c.wireName [key], w)] := by
    apply decode_join_pairs hshape hlocation (by simp)
    · exact List.forall_mem_singleton.2 (isKeyText_keyAt (isKeyText_encode c.name) [key])
    · exact List.forall_mem_singleton.2 (isPairText_wireText hw)
  refine ⟨_, encode_of_deepPairs hshape (by simp) hpairs, ?_⟩
  rw [hone]
  constructor
  · exact bracketFree_of_decodeDeep
  · rintro ⟨hname, hkey⟩
    rw [decodeDeep_pair, bracketPath?_keyAt hname (by simpa using hkey) (by simp)]
    exact bind_ok.2 ⟨some [key], rfl, bind_ok.2 ⟨_, assign_scalar hd hv hw [], rfl⟩⟩

/-- A parameter with two members of text; brackets stand in the key of one. -/
def sales : Parameter :=
  { name := "sold at", location := .query, style := .deepObject, explode := true, required := false,
    schema := some "#/sales" }

def salesMapper : Mapper :=
  { table := { nodes := [
      ("#/sales/0", { id := "#/sales/0", kind := .primitive, type := .str "string" }),
      ("#/sales/1", { id := "#/sales/1", kind := .primitive, type := .str "string" }),
      ("#/sales", { id := "#/sales", kind := .object, properties := [
        { name := .str "price=", node := "#/sales/0", required := false },
        { name := .str "a][b", node := "#/sales/1", required := false }] })] }
    recursive := []
    names := [] }

def salesCodec : Codec :=
  { parameter := sales
    shape := .deepObject
    type := .object [
      { name := .str "price=", type := .primitive .string { source := some "#/sales/0" },
        optionality := .optional, required := false },
      { name := .str "a][b", type := .primitive .string { source := some "#/sales/1" },
        optionality := .optional, required := false }] .unspecified { source := some "#/sales" }
    types := [] }

theorem sales_decode_encode_key :
    (∃ st, (sales.codec salesMapper).run.run {} = (.ok salesCodec, st)) ∧
    salesCodec.encode (.map [(.str "price=", .str "[1&2]")]) =
      .ok "sold%20at[price%3D]=%5B1%262%5D" ∧
    salesCodec.decode (some "sold%20at[price%3D]=%5B1%262%5D") =
      .ok (.map [(.str "price=", .str "[1&2]")]) := by
  have hcodec : (sales.codec salesMapper).run.run {} = (.ok salesCodec, _) := rfl
  have hencode : salesCodec.encode (.map [(.str "price=", .str "[1&2]")]) =
      .ok "sold%20at[price%3D]=%5B1%262%5D" := by rfl
  obtain ⟨w, hw, hiff⟩ : ∃ w, salesCodec.encode (.map [(.str "price=", .str "[1&2]")]) = .ok w ∧ _ :=
    decode_encode_key_iff hcodec rfl rfl rfl rfl rfl rfl "[1&2]"
  obtain rfl := Except.ok.inj (hw.symm.trans hencode)
  exact ⟨⟨_, hcodec⟩, hencode, hiff.2 (by decide)⟩

/-- A member is read as an object in an object. -/
theorem sales_key_falls_apart :
    (∃ st, (sales.codec salesMapper).run.run {} = (.ok salesCodec, st)) ∧
    salesCodec.encode (.map [(.str "a][b", .str "s")]) = .ok "sold%20at[a%5D%5Bb]=s" ∧
    ∃ v, salesCodec.decode (some "sold%20at[a%5D%5Bb]=s") = .ok v ∧
      v = .map [(.str "a", .map [(.str "b", .str "s")])] :=
  ⟨⟨_, rfl⟩, rfl, Outcome.exists_ok.2 (by decide +kernel)⟩

end Codec
end OpenApi
