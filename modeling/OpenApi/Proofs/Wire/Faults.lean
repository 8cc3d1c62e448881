import OpenApi.Proofs.Wire.Deep
import OpenApi.Proofs.Wire.Request
import OpenApi.Proofs.Wire.Route

/-!
What reading a wire text can fail with. Text comes from whoever sends a request, so whatever it holds
should be refused with a fault that names the parameter. It is, but for a few causes that are told apart
here: octets that make no text, numerals of too many digits, types that were not looked at when the
parameter was accepted, and an array among brackets that comes after its own members.
-/
namespace OpenApi

open Outcome (Faults)
open Percent (Legible)

namespace Codec

variable {c : Codec} {raw : String} {whole : Prop} {t : Traits} {additional : Additional Descriptor}

/-! ### Flat shapes -/

/-- A fault of the type of further properties, which nothing has checked. -/
def AdditionalFault (c : Codec) (f : Fault) : Prop :=
  ∃ fields a t, c.behind c.type = .ok (.object fields (.schema a) t) ∧ c.types.isScalar a = .error f

/-- What the entries of an object can be refused for, apart from their values: a key that makes no text,
which takes a text that is not `whole`, or a further property. -/
def FlatFault (c : Codec) (whole : Prop) (f : Fault) : Prop :=
  c.Refuses f ∨ c.shape = .object ∧ (f = .notUtf8 ∧ ¬ whole ∨ c.AdditionalFault f)

/-- What the readers of a flat shape can fail with. -/
structure Flat (c : Codec) : Prop where
  shape : c.IsFlat
  read : c.shape = .scalar → ∀ raw, Faults c.Refuses (c.read raw c.type)
  readItems : c.shape = .array → ∀ parts, Faults c.Refuses (c.readItems parts)
  readEntries : c.shape = .object → ∀ (whole : Prop) entries,
    (∀ e ∈ entries, whole → Legible e.1.toList) → Faults (c.FlatFault whole) (c.readEntries entries)

theorem readItems_faults {items : Descriptor} (hd : c.behind c.type = .ok (.array items t))
    (h : c.types.isScalar items = .ok true) (parts : List String) :
    Faults c.Refuses (c.readItems parts) := by
  unfold Codec.readItems
  rw [hd]
  refine .bind .ok fun d hd' => ?_
  obtain rfl := Except.ok.inj hd'
  refine .bind (.mapM fun part _ => ?_) fun _ _ => .ok
  exact read_faults_of_isScalar part (fun hc => (hc.behind hc.1 hd).part List.mem_cons_self) h

theorem readEntry_faults {fields : List Field} (hshape : c.shape = .object)
    (hd : c.behind c.type = .ok (.object fields additional t))
    (h : ∀ f ∈ fields, c.types.isScalar f.type = .ok true) {e : Entry}
    (hkey : whole → Legible e.1.toList) :
    Faults (c.FlatFault whole) (c.readEntry (.object fields additional t) e) := by
  obtain ⟨key, value⟩ := e
  cases value with
  | none => exact .error (.inl (refuses_wire _ _))
  | some value =>
    have hread : ∀ key, Faults (c.FlatFault whole)
        (c.read value (member (.object fields additional t) key)) := by
      intro key
      refine (read_faults value fun hc => Printable.member (hc.behind hc.1 hd) key).mono fun f hf => ?_
      refine hf.imp_right fun herror => ⟨hshape, .inr ?_⟩
      simp only [member] at herror
      split at herror
      · next f hf =>
        rw [h f (List.mem_of_find?_eq_some hf)] at herror
        cases herror
      · split at herror
        · exact ⟨fields, _, t, hd, herror⟩
        · cases herror
    refine ((percentDecode_faults hkey).mono fun f hf => .inr ⟨hshape, .inl hf⟩).bind fun text _ => ?_
    exact (hread _).bind fun _ _ => .ok

theorem readEntries_faults {fields : List Field} (hshape : c.shape = .object)
    (hd : c.behind c.type = .ok (.object fields additional t))
    (h : ∀ f ∈ fields, c.types.isScalar f.type = .ok true) {entries : List Entry}
    (hkeys : ∀ e ∈ entries, whole → Legible e.1.toList) :
    Faults (c.FlatFault whole) (c.readEntries entries) := by
  unfold Codec.readEntries
  rw [hd]
  refine .bind .ok fun d hd' => ?_
  obtain rfl := Except.ok.inj hd'
  exact .bind (.mapM fun e he => readEntry_faults hshape hd h (hkeys e he)) fun _ _ => .ok

/-- The shape of a type that was checked. -/
theorem Typed.flat_or (h : c.Typed) : c.Flat ∨ c.shape = .content ∨ c.shape = .deepObject := by
  cases h with
  | content hshape => exact .inr (.inl hshape)
  | scalar hshape hd h =>
    have hscalar := NamedTypes.isScalar_of_behind hd h
    refine .inl ⟨.inl hshape, fun _ raw => read_faults_of_isScalar raw (·.1) hscalar, ?_, ?_⟩
    · exact fun heq => by cases hshape.symm.trans heq
    · exact fun heq => by cases hshape.symm.trans heq
  | array hshape hd h =>
    refine .inl ⟨.inr (.inl hshape), ?_, fun _ => readItems_faults hd h, ?_⟩
    · exact fun heq => by cases hshape.symm.trans heq
    · exact fun heq => by cases hshape.symm.trans heq
  | object hshape hd h =>
    refine .inl ⟨.inr (.inr hshape), ?_, ?_, fun _ _ _ => readEntries_faults hshape hd h⟩
    · exact fun heq => by cases hshape.symm.trans heq
    · exact fun heq => by cases hshape.symm.trans heq
  | deep hshape => exact .inr (.inr hshape)

theorem Route.faults {x : Checked Value} (hc : c.Flat) (h : c.Route whole x) :
    Faults (c.FlatFault whole) x := by
  cases h with
  | absent => exact .ok
  | refused name cause => exact .error (.inl (refuses_wire name cause))
  | scalar hshape raw => exact (hc.read hshape raw).mono fun f hf => .inl hf
  | items hshape parts => exact (hc.readItems hshape parts).mono fun f hf => .inl hf
  | entries hshape h => exact hc.readEntries hshape whole _ h

/-! ### Exploded objects -/

theorem legible_encode (s : String) (dot : Bool) : Legible (Percent.encode s dot).toList := by
  rw [Percent.legible_toList_iff, Percent.decode?_encode]
  exact nofun

theorem wireNames_faults (names : List Scalar) :
    Faults (fun f => f = .wrongKind ∧ ∃ name ∈ names, ∀ s, name ≠ .str s) (wireNames names) := by
  refine .mapM fun name hname => ?_
  split
  · exact .ok
  · next hne => exact .error ⟨rfl, name, hname, hne⟩

theorem exists_encode_of_wireNames {names : List Scalar} {declared : List String}
    (h : wireNames names = .ok declared) : ∀ key ∈ declared, ∃ s, key = Percent.encode s false := by
  apply Outcome.forall_mem_of_forall₂
  refine (Outcome.mapM_ok.1 h).imp fun name key hkey => ?_
  split at hkey
  · exact ⟨_, (Except.ok.inj hkey).symm⟩
  · cases hkey

/-- A field whose name is no text. -/
def Misnames (c : Codec) : Prop :=
  ∃ d f, c.behind c.type = .ok d ∧ f ∈ d.fields ∧ ∀ s, f.name ≠ .str s

/-- The keys of an exploded object are names of its fields, so all of them make a text. -/
theorem decodeExploded_faults (hc : c.Flat) (hshape : c.shape = .object) (htyped : c.Typed)
    (pairs : List (String × String)) :
    Faults (fun f => c.FlatFault True f ∨ f = .wrongKind ∧ c.Misnames) (c.decodeExploded pairs) := by
  obtain ⟨d, hd⟩ := htyped.exists_behind (by simp [hshape])
  unfold decodeExploded
  refine .bind (by rw [fieldNames, hd]; exact .ok) fun names hnames => ?_
  obtain ⟨d', hd', rfl⟩ := Outcome.bind_pure_ok.1 hnames
  refine ((wireNames_faults _).mono fun f hf => ?_).bind fun declared hdeclared => ?_
  · obtain ⟨hwrong, name, hname, hne⟩ := hf
    obtain ⟨field, hfield, rfl⟩ := List.mem_map.1 hname
    exact .inr ⟨hwrong, d', field, hd', hfield, hne⟩
  · split
    · exact .ok
    · refine (hc.readEntries hshape True _ fun e he _ => ?_).mono fun f hf => .inl hf
      obtain ⟨pair, hpair, rfl⟩ := List.mem_map.1 he
      have hown : declared.contains pair.1 = true := (List.mem_filter.1 hpair).2
      obtain ⟨s, hs⟩ := exists_encode_of_wireNames hdeclared pair.1 (List.contains_iff_mem.1 hown)
      rw [hs]
      exact legible_encode s false

/-! ### Content -/

theorem decodeJson_faults (text : String) : Faults (fun f => (∃ name cause, f = .wire name cause) ∨
    f = .wrongKind ∧ ∃ e, Json.parse text = .error e ∧ e.reason = .tooManyDigits)
      (c.decodeJson text) := by
  unfold decodeJson
  split
  · exact .ok
  · next e he =>
    split
    · next hreason => exact .error (.inr ⟨rfl, e, he, hreason⟩)
    · exact .error (.inl ⟨_, _, rfl⟩)

/-- The JSON text that a wire text carries for a parameter that is described by a media type. -/
def jsonText? (c : Codec) (raw : String) : Option String :=
  match c.parameter.location with
  | .header => some raw
  | .path => Percent.decode? raw
  | location => (ownValues c.wireName (pairsOf location.separator raw)).head?.bind Percent.decode?

/-! ### All parameters -/

/-- The fields of an object stand in a query string or cookie header as parameters of their own. -/
def IsSpread (c : Codec) : Prop :=
  (c.parameter.location = .query ∨ c.parameter.location = .cookie) ∧ c.shape = .object ∧
    c.parameter.style ≠ .simple ∧ c.parameter.explode = true

/-- Faults other than a refusal of the wire text that reading it can meet, each with its cause. -/
inductive Escape (c : Codec) (raw : String) : Fault → Prop
  /-- Octets that make no text, where keys or JSON are read. -/
  | octets (h : Percent.decode? raw = none) (hscalar : c.shape ≠ .scalar) (harray : c.shape ≠ .array)
      (hspread : ¬ c.IsSpread) (hheader : c.shape = .content → c.parameter.location ≠ .header) :
      Escape c raw .notUtf8
  /-- An integer in JSON that has too many digits. -/
  | digits {text : String} {e : Json.Error} (hshape : c.shape = .content)
      (htext : c.jsonText? raw = some text) (hparse : Json.parse text = .error e)
      (hreason : e.reason = .tooManyDigits) : Escape c raw .wrongKind
  /-- An enumeration with a literal that has no text. -/
  | literal (hshape : c.shape ≠ .content) (h : ¬ c.Printable) : Escape c raw .wrongKind
  /-- A field whose name is no text, where the names of fields are names of parameters. -/
  | fieldName (hspread : c.IsSpread) (h : c.Misnames) : Escape c raw .wrongKind
  /-- Further properties of a type that cannot be told to be a scalar. -/
  | additional {f : Fault} (hshape : c.shape = .object) (h : c.AdditionalFault f) : Escape c raw f
  /-- An array in brackets that comes after a member of it. -/
  | gathers (hshape : c.shape = .deepObject) (h : c.Gathers (pairsOf '&' raw)) :
      Escape c raw .wrongKind

/-- A refusal of the wire text, or another fault with its cause. -/
def Explained (c : Codec) (raw : String) (f : Fault) : Prop :=
  (∃ name cause, f = .wire name cause) ∨ c.Escape raw f

theorem Refuses.explained {f : Fault} (hshape : c.shape ≠ .content) (h : c.Refuses f) :
    c.Explained raw f := by
  rcases h with hwire | ⟨rfl, hliteral⟩
  · exact .inl hwire
  · exact .inr (.literal hshape hliteral)

theorem FlatFault.explained {f : Fault} (hc : c.Flat)
    (hwhole : ¬ whole → Percent.decode? raw = none ∧ ¬ c.IsSpread) (h : c.FlatFault whole f) :
    c.Explained raw f := by
  have hcontent : c.shape ≠ .content := by
    rcases hc.shape with heq | heq | heq <;> simp [heq]
  rcases h with hrefuses | ⟨hshape, ⟨rfl, hnot⟩ | hadditional⟩
  · exact hrefuses.explained hcontent
  · obtain ⟨hnone, hspread⟩ := hwhole hnot
    exact .inr (.octets hnone (by simp [hshape]) (by simp [hshape]) hspread
      fun heq => absurd heq hcontent)
  · exact .inr (.additional hshape hadditional)

theorem decode?_eq_none_of_not_legible (h : ¬ Legible raw.toList) : Percent.decode? raw = none := by
  by_contra hne
  exact h (Percent.legible_toList_iff.2 hne)

/-- Content is percent-decoded as a whole and read as JSON. -/
theorem percentDecode_json_faults (hshape : c.shape = .content)
    (hheader : c.parameter.location ≠ .header) {piece : String}
    (hlegible : Legible raw.toList → Legible piece.toList)
    (htext : c.jsonText? raw = Percent.decode? piece) :
    Faults (c.Explained raw) (do c.decodeJson (← percentDecode piece)) := by
  have hspread : ¬ c.IsSpread := fun h => by cases hshape.symm.trans h.2.1
  refine ((percentDecode_faults hlegible).mono fun f hf => ?_).bind fun text hdecode => ?_
  · obtain ⟨rfl, hnot⟩ := hf
    exact .inr (.octets (decode?_eq_none_of_not_legible hnot) (by simp [hshape]) (by simp [hshape])
      hspread fun _ => hheader)
  · refine (decodeJson_faults text).mono fun f hf => hf.imp_right ?_
    rintro ⟨rfl, e, hparse, hreason⟩
    unfold percentDecode at hdecode
    split at hdecode
    · next text' hsome =>
      cases hdecode
      exact .digits hshape (htext.trans hsome) hparse hreason
    · cases hdecode

theorem decodeDeep_explained (hshape : c.shape = .deepObject) {fields : List Field} {pointer : String}
    (hd : c.behind c.type = .ok (.object fields additional t))
    (h : c.types.checkDeep pointer (.object fields additional t) = .ok ()) :
    Faults (c.Explained raw) (c.decodeDeep none (pairsOf '&' raw)) := by
  obtain ⟨entered, hclosed, hpassed⟩ := NamedTypes.checkDeep_ok h
  have hleads : c.Leads entered c.type := ⟨⟨_, hd, hpassed.member⟩, (·.1)⟩
  have hempty : c.Gathered [] [] := by
    intro path items t' v htype hv
    cases path with
    | nil =>
      -- the parameter itself is no array
      rw [Except.ok.inj htype] at hd
      cases hd
    | cons key rest => cases hv
  have hkeys : ∀ pair ∈ pairsOf '&' raw, Legible raw.toList → Legible pair.1.toList :=
    fun pair hpair hraw => (legible_pairsOf (by decide) hraw pair hpair).1
  refine (decodeDeep_faults hclosed hleads hkeys hempty).mono fun f hf => ?_
  rcases hf with (hrefuses | ⟨rfl, hnot⟩) | ⟨rfl, hgathers⟩
  · exact hrefuses.explained (by simp [hshape])
  · exact .inr (.octets (decode?_eq_none_of_not_legible hnot) (by simp [hshape]) (by simp [hshape])
      (fun hspread => by cases hshape.symm.trans hspread.2.1) fun heq => by cases hshape.symm.trans heq)
  · exact .inr (.gathers hshape hgathers)

theorem decodePairs_faults (raw : String) (hc : c.Typed)
    (hloc : c.parameter.location = .query ∨ c.parameter.location = .cookie) :
    Faults (c.Explained raw) (c.decodePairs (pairsOf c.parameter.location.separator raw)) := by
  have hcut : Percent.isCut c.parameter.location.separator = true := by
    rcases c.parameter.location.separator_eq with heq | heq <;> rw [heq] <;> decide
  have hpairs : ∀ pair ∈ pairsOf c.parameter.location.separator raw, Legible raw.toList →
      Legible pair.2.toList :=
    fun pair hpair hraw => (legible_pairsOf hcut hraw pair hpair).2
  have hown : ∀ value ∈ ownValues c.wireName (pairsOf c.parameter.location.separator raw),
      Legible raw.toList → Legible value.toList := by
    intro value hvalue
    obtain ⟨pair, hpair, hvalue⟩ := List.mem_filterMap.1 hvalue
    split at hvalue
    · cases hvalue
      exact hpairs pair hpair
    · cases hvalue
  by_cases hdeep : c.shape = .deepObject
  · rw [decodePairs, if_pos (by simp [hdeep])]
    cases hc with
    | deep hshape hlocation hd h =>
      rw [hlocation]
      exact decodeDeep_explained hshape hd h
    | content hshape | scalar hshape | array hshape | object hshape => cases hshape.symm.trans hdeep
  · by_cases hobject : (c.shape == .object && c.parameter.style != .simple && c.parameter.explode) = true
    · rw [decodePairs, if_neg (by simpa using hdeep), if_pos hobject]
      simp only [Bool.and_eq_true, beq_iff_eq, bne_iff_ne] at hobject
      have hspread : c.IsSpread := ⟨hloc, hobject.1.1, hobject.1.2, hobject.2⟩
      rcases hc.flat_or with hflat | heq | heq
      · refine (decodeExploded_faults hflat hobject.1.1 hc _).mono fun f hf => ?_
        rcases hf with hf | ⟨rfl, hname⟩
        · exact hf.explained hflat fun hnot => absurd trivial hnot
        · exact .inr (.fieldName hspread hname)
      · cases heq.symm.trans hobject.1.1
      · exact absurd heq hdeep
    · have hspread : ¬ c.IsSpread := by
        rintro ⟨-, hshape, hstyle, hexplode⟩
        exact hobject (by simp [hshape, hstyle, hexplode])
      rw [decodePairs_eq_own hdeep (by simpa using hobject)]
      cases hvalues : ownValues c.wireName (pairsOf c.parameter.location.separator raw) with
      | nil => exact .ok
      | cons first more =>
        rw [decodeOwn]
        have hfirst := hown first (by rw [hvalues]; exact List.mem_cons_self)
        rcases hc.flat_or with hflat | hshape | heq
        · exact ((decodeValue_route hflat.shape hfirst _).faults hflat).mono fun f hf =>
            hf.explained hflat fun hnot => ⟨decode?_eq_none_of_not_legible hnot, hspread⟩
        · have htext : c.jsonText? raw = Percent.decode? first := by
            unfold jsonText?
            rcases hloc with heq | heq <;>
            · rw [heq] at hvalues ⊢
              dsimp only
              rw [hvalues]
              rfl
          have hheader : c.parameter.location ≠ .header := by
            rcases hloc with heq | heq <;> simp [heq]
          have hjson := percentDecode_json_faults hshape hheader hfirst htext
          unfold decodeValue
          rw [hshape]
          exact hjson
        · exact absurd heq hdeep

/-- Path segments and header values. -/
theorem decodeSegment_explained (hc : c.Typed)
    (hloc : ¬ (c.parameter.location = .query ∨ c.parameter.location = .cookie))
    (hshape : c.shape ≠ .content) : Faults (c.Explained raw) (c.decodeSegment raw) := by
  have hflat : c.Flat := by
    rcases hc.flat_or with hflat | heq | heq
    · exact hflat
    · exact absurd heq hshape
    · exact absurd (.inl (hc.location_of_deep heq)) hloc
  exact ((decodeSegment_route hflat.shape).faults hflat).mono fun f hf =>
    hf.explained hflat fun hnot => ⟨decode?_eq_none_of_not_legible hnot, fun hspread => hloc hspread.1⟩

theorem decode_faults (hc : c.Typed) (raw : String) :
    Faults (c.Explained raw) (c.decode (some raw)) := by
  unfold decode
  cases hloc : c.parameter.location with
  | query =>
    have hpairs := decodePairs_faults raw hc (.inl hloc)
    rwa [hloc] at hpairs
  | cookie =>
    have hpairs := decodePairs_faults raw hc (.inr hloc)
    rwa [hloc] at hpairs
  | path =>
    dsimp only
    split
    · next hshape =>
      rw [if_neg (by decide)]
      exact percentDecode_json_faults (beq_iff_eq.1 hshape) (by simp [hloc]) id (by rw [jsonText?, hloc])
    · next hshape =>
      exact decodeSegment_explained hc (by simp [hloc]) fun heq => hshape (beq_iff_eq.2 heq)
  | header =>
    dsimp only
    split
    · next hshape =>
      rw [if_pos (by decide)]
      refine (decodeJson_faults raw).mono fun f hf => hf.imp_right ?_
      rintro ⟨rfl, e, hparse, hreason⟩
      exact .digits (beq_iff_eq.1 hshape) (by rw [jsonText?, hloc]) hparse hreason
    · next hshape =>
      exact decodeSegment_explained hc (by simp [hloc]) fun heq => hshape (beq_iff_eq.2 heq)

/-- Whatever the text, a parameter that was accepted gives a value or refuses it, unless it meets one of
the faults that have other causes. -/
theorem decode_outcome {p : Parameter} {m : Mapper} {st st' : MapState}
    (hcodec : (p.codec m).run.run st = (.ok c, st')) (raw : String) :
    (∃ v, c.decode (some raw) = .ok v) ∨
      (∃ name cause, c.decode (some raw) = .error (.wire name cause)) ∨
      ∃ f, c.decode (some raw) = .error f ∧ c.Escape raw f := by
  have hfaults := decode_faults (Parameter.typed_of_codec hcodec) raw
  cases hdecode : c.decode (some raw) with
  | ok v => exact .inl ⟨v, rfl⟩
  | error f =>
    rcases hfaults f hdecode with ⟨name, cause, rfl⟩ | hescape
    · exact .inr (.inl ⟨name, cause, rfl⟩)
    · exact .inr (.inr ⟨f, rfl, hescape⟩)

/-- A header that holds an object. -/
def flags : Parameter :=
  { name := "f", location := .header, style := .simple, explode := false, required := false,
    schema := some "#/f" }

def flagsMapper : Mapper :=
  { table := { nodes := [
      ("#/f/a", { id := "#/f/a", kind := .primitive, type := .str "string" }),
      ("#/f", { id := "#/f", kind := .object, properties := [{ name := .str "a", node := "#/f/a" }] })] }
    recursive := []
    names := [] }

def flagsCodec : Codec :=
  { parameter := flags
    shape := .object
    type := .object
      [⟨.str "a", .primitive .string { source := some "#/f/a" }, .optional, false, .null, false, false⟩]
      .unspecified { source := some "#/f" }
    types := [] }

theorem flags_decode_key : flagsCodec.decode (some "%FF,1") = .error .notUtf8 := by
  have hpieces : piecesOf "," "%FF,1" = ["%FF", "1"] := rfl
  have hkey : percentDecode "%FF" = .error .notUtf8 := by
    rw [percentDecode, show Percent.decode? "%FF" = none from rfl]
  change flagsCodec.readAlternating "f" (piecesOf "," "%FF,1") = _
  rw [hpieces]
  change (do return Value.map (Entries.ofList [← flagsCodec.readEntry flagsCodec.type ("%FF", some "1")])) = _
  rw [readEntry, hkey]
  rfl

theorem flags_decode_outcome :
    (∃ st, (flags.codec flagsMapper).run.run {} = (.ok flagsCodec, st)) ∧
    flagsCodec.decode (some "%FF,1") = .error .notUtf8 ∧ flagsCodec.Escape "%FF,1" .notUtf8 := by
  have hcodec : (flags.codec flagsMapper).run.run {} = (.ok flagsCodec, _) := rfl
  refine ⟨⟨_, hcodec⟩, flags_decode_key, ?_⟩
  rcases decode_outcome hcodec "%FF,1" with ⟨v, hv⟩ | ⟨name, cause, hwire⟩ | ⟨f, hf, hescape⟩
  · cases flags_decode_key.symm.trans hv
  · cases flags_decode_key.symm.trans hwire
  · cases flags_decode_key.symm.trans hf
    exact hescape

/-- A key of octets that make no text is neither read nor refused. -/
theorem flags_undecodable_key :
    (∃ st, (flags.codec flagsMapper).run.run {} = (.ok flagsCodec, st)) ∧
    ¬ ((∃ v, flagsCodec.decode (some "%FF,1") = .ok v) ∨
      ∃ name cause, flagsCodec.decode (some "%FF,1") = .error (.wire name cause)) := by
  refine ⟨⟨_, rfl⟩, ?_⟩
  rw [flags_decode_key]
  rintro (⟨v, hv⟩ | ⟨name, cause, hwire⟩)
  · cases hv
  · cases hwire

end Codec
end OpenApi
