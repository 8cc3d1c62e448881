import OpenApi.Proofs.Wire.Faults

/-!
Nothing on the wire. An exploded array or object with nothing in it leaves no text, whatever its style.
What an empty text is read as depends on where it stands: a query string without pairs means that the
parameter is absent, an empty path segment or header of the simple style is the empty array or object
itself, and the styles that begin with a mark refuse a text without it.
-/
namespace OpenApi.Codec

variable {c : Codec} {v : Value}

/-- An array without items, or an object without entries. -/
inductive Vacant (c : Codec) : Value → Prop
  | array (hshape : c.shape = .array) : Vacant c (.list [])
  | object (hshape : c.shape = .object) : Vacant c (.map [])
  | deep (hshape : c.shape = .deepObject) : Vacant c (.map [])

/-! ### Writing -/

theorem nameCookie_eq (hcookie : c.parameter.location ≠ .cookie) (text : String) :
    c.nameCookie text = text := by
  simp [nameCookie, hcookie]

theorem encodeArray_nil (hexplode : c.parameter.explode = true)
    (hcookie : c.parameter.location ≠ .cookie) : c.encodeArray (.list []) = .ok "" := by
  unfold encodeArray
  rw [hexplode]
  cases c.parameter.style with
  | simple => exact congrArg Except.ok (nameCookie_eq hcookie "")
  | _ => rfl

theorem encodeObject_nil (hexplode : c.parameter.explode = true)
    (hcookie : c.parameter.location ≠ .cookie) : c.encodeObject (.map []) = .ok "" := by
  unfold encodeObject
  rw [hexplode]
  cases c.parameter.style with
  | simple => exact congrArg Except.ok (nameCookie_eq hcookie "")
  | _ => rfl

theorem encodeDeep_nil {d : Descriptor} (hd : c.behind c.type = .ok d) :
    c.encodeDeep (.map []) = .ok "" := by
  have hpairs : c.deepPairs c.wireName c.type (.map []) = .ok [] := by
    rw [deepPairs, hd]
    rfl
  rw [encodeDeep, hpairs]
  rfl

theorem encode_vacant (hc : c.Typed) (hexplode : c.parameter.explode = true)
    (hcookie : c.parameter.location ≠ .cookie) (hv : c.Vacant v) : c.encode v = .ok "" := by
  cases hv with
  | array hshape =>
    rw [encode, hshape]
    · exact encodeArray_nil hexplode hcookie
    · rintro ⟨⟩
  | object hshape =>
    rw [encode, hshape]
    · exact encodeObject_nil hexplode hcookie
    · rintro ⟨⟩
  | deep hshape =>
    obtain ⟨d, hd⟩ := hc.exists_behind (by simp [hshape])
    rw [encode, hshape]
    · exact encodeDeep_nil hd
    · rintro ⟨⟩

/-! ### Reading -/

theorem readItems_nil {d : Descriptor} (hd : c.behind c.type = .ok d) :
    c.readItems [] = .ok (.list []) := by
  rw [readItems, hd]
  rfl

theorem readEntries_nil {d : Descriptor} (hd : c.behind c.type = .ok d) :
    c.readEntries [] = .ok (.map []) := by
  rw [readEntries, hd]
  rfl

theorem decodeSimple_empty (hc : c.Typed) (hexplode : c.parameter.explode = true)
    (hdeep : c.shape ≠ .deepObject) (hv : c.Vacant v) : c.decodeSimple "" = .ok v := by
  cases hv with
  | array hshape =>
    obtain ⟨d, hd⟩ := hc.exists_behind (by simp [hshape])
    rw [decodeSimple, hshape]
    exact readItems_nil hd
  | object hshape =>
    obtain ⟨d, hd⟩ := hc.exists_behind (by simp [hshape])
    rw [decodeSimple, hshape, hexplode]
    exact readEntries_nil hd
  | deep hshape => exact absurd hshape hdeep

/-- A text that begins with no mark is refused by the styles that begin with one. -/
theorem decodeSegment_empty_faults (hstyle : c.parameter.style = .label ∨ c.parameter.style = .matrix) :
    ∃ cause, c.decodeSegment "" = .error (.wire c.name cause) := by
  rcases hstyle with hstyle | hstyle
  · exact ⟨.noLabelDot, by rw [decodeSegment, hstyle]; rfl⟩
  · exact ⟨.noMatrixSemicolon, by rw [decodeSegment, hstyle]; rfl⟩

theorem exists_wireNames_iff {names : List Scalar} :
    (∃ declared, wireNames names = .ok declared) ↔ ∀ name ∈ names, ∃ s, name = .str s := by
  constructor
  · rintro ⟨declared, h⟩ name hname
    obtain ⟨key, -, hkey⟩ := Outcome.exists_mem_of_forall₂ (Outcome.mapM_ok.1 h) hname
    split at hkey
    · exact ⟨_, rfl⟩
    · cases hkey
  · intro h
    refine Outcome.exists_mapM_ok fun name hname => ?_
    obtain ⟨s, rfl⟩ := h name hname
    exact ⟨_, rfl⟩

/-- The names of the fields are written before the pairs are looked at. -/
theorem decodeExploded_nil_iff (hc : c.Typed) (hshape : c.shape = .object) :
    c.decodeExploded [] = .ok .null ↔ ¬ c.Misnames := by
  obtain ⟨d, hd⟩ := hc.exists_behind (by simp [hshape])
  have hfields : c.fieldNames = .ok (d.fields.map (·.name)) := by
    rw [fieldNames, hd]
    rfl
  have hnames : c.decodeExploded [] = .ok .null ↔
      ∃ declared, wireNames (d.fields.map (·.name)) = .ok declared := by
    unfold decodeExploded
    rw [Outcome.bind_of_ok hfields]
    exact Outcome.bind_ok.trans (exists_congr fun declared => and_iff_left rfl)
  rw [hnames, exists_wireNames_iff, List.forall_mem_map]
  constructor
  · rintro h ⟨d', f, hd', hf, hname⟩
    cases hd.symm.trans hd'
    obtain ⟨s, hs⟩ := h f hf
    exact hname s hs
  · intro h f hf
    by_contra hname
    exact h ⟨d, f, hd, hf, fun s hs => hname ⟨s, hs⟩⟩

/-- No pair, no parameter. -/
theorem decodePairs_nil_iff (hc : c.Typed) (hexplode : c.parameter.explode = true)
    (hstyle : c.parameter.style ≠ .simple) :
    c.decodePairs [] = .ok .null ↔ ¬ (c.shape = .object ∧ c.Misnames) := by
  by_cases hshape : c.shape = .object
  · rw [decodePairs, if_neg (by simp [hshape]), if_pos (by simp [hshape, hstyle, hexplode]),
      decodeExploded_nil_iff hc hshape]
    simp [hshape]
  · have hnull : c.decodePairs [] = .ok .null := by
      unfold decodePairs
      split
      · rfl
      · rw [if_neg (by simp [hshape])]
        rfl
    simp [hnull, hshape]

theorem Vacant.ne_null (hv : c.Vacant v) : v ≠ .null := by
  cases hv <;> exact nofun

theorem Vacant.shape_ne (hv : c.Vacant v) : c.shape ≠ .content ∧ c.shape ≠ .scalar := by
  cases hv <;> simp [*]

/-- Where an exploded array or object can stand. -/
theorem Vacant.place {p : Parameter} {m : Mapper} {st st' : MapState} (hv : c.Vacant v)
    (hcodec : (p.codec m).run.run st = (.ok c, st')) (hexplode : c.parameter.explode = true) :
    (c.parameter.location = .query ∧
        ¬ (c.parameter.style = .simple ∨ c.parameter.style = .label ∨ c.parameter.style = .matrix)) ∨
      ((c.parameter.location = .path ∨ c.parameter.location = .header) ∧ c.shape ≠ .deepObject ∧
        (c.parameter.style = .simple ∨ c.parameter.style = .label ∨ c.parameter.style = .matrix)) := by
  have hquery := (Parameter.typed_of_codec hcodec).location_of_deep
  have hcookie : c.parameter.location ≠ .cookie := by
    by_cases hdeep : c.shape = .deepObject
    · simp [hquery hdeep]
    · exact (Parameter.accepted_of_codec hcodec hv.shape_ne.1 hdeep).location_ne_cookie hv.shape_ne.2
        hexplode
  have hdeep : c.parameter.location = .path ∨ c.parameter.location = .header →
      c.shape ≠ .deepObject := by
    rintro (hloc | hloc) hshape
    · cases (hquery hshape).symm.trans hloc
    · cases (hquery hshape).symm.trans hloc
  rcases Style.allows_cases (Parameter.allows_of_codec hcodec hv.shape_ne.1) with ⟨hstyle, hloc⟩ |
    ⟨hstyle, hloc⟩ | ⟨hstyle, hloc⟩ | ⟨hstyle, hloc⟩ | ⟨hstyle, hloc⟩ | ⟨hstyle, hloc⟩
  · exact .inr ⟨hloc, hdeep hloc, .inl hstyle⟩
  · exact absurd hloc hcookie
  · exact .inr ⟨.inl hloc, hdeep (.inl hloc), .inr (.inl hstyle)⟩
  · exact .inr ⟨.inl hloc, hdeep (.inl hloc), .inr (.inr hstyle)⟩
  · exact .inl ⟨hloc.resolve_right hcookie, by simp [hstyle]⟩
  · exact .inl ⟨hloc, by rcases hstyle with heq | heq | heq <;> simp [heq]⟩

/-- An exploded array or object with nothing in it leaves no text. That text is read as an absent
parameter in a query string, where the names of its fields are texts, and nowhere else. -/
theorem decode_encode_vacant {p : Parameter} {m : Mapper} {st st' : MapState}
    (hcodec : (p.codec m).run.run st = (.ok c, st')) (hexplode : c.parameter.explode = true)
    (hv : c.Vacant v) :
    c.encode v = .ok "" ∧
      (c.decode (some "") = .ok .null ↔
        c.parameter.location = .query ∧ ¬ (c.shape = .object ∧ c.Misnames)) ∧
      (c.parameter.style = .simple → c.decode (some "") = .ok v) ∧
      (c.parameter.style = .label ∨ c.parameter.style = .matrix →
        ∃ cause, c.decode (some "") = .error (.wire c.name cause)) := by
  have hc := Parameter.typed_of_codec hcodec
  rcases hv.place hcodec hexplode with ⟨hquery, hstyle⟩ | ⟨hloc, hdeep, hstyle⟩
  · have hdecode : c.decode (some "") = c.decodePairs [] := by
      rw [decode, hquery]
      rfl
    refine ⟨encode_vacant hc hexplode (by simp [hquery]) hv, ?_, fun h => absurd (.inl h) hstyle,
      fun h => absurd (.inr h) hstyle⟩
    rw [hdecode, decodePairs_nil_iff hc hexplode fun h => hstyle (.inl h)]
    simp [hquery]
  · have hdecode : c.decode (some "") = c.decodeSegment "" := decode_segment hloc hv.shape_ne.1
    have hcookie : c.parameter.location ≠ .cookie := by rcases hloc with hloc | hloc <;> simp [hloc]
    have hquery : c.parameter.location ≠ .query := by rcases hloc with hloc | hloc <;> simp [hloc]
    refine ⟨encode_vacant hc hexplode hcookie hv, ?_⟩
    have hsimple : c.parameter.style = .simple → c.decode (some "") = .ok v := by
      intro hstyle
      rw [hdecode, decodeSegment, hstyle]
      exact decodeSimple_empty hc hexplode hdeep hv
    have hmarked : c.parameter.style = .label ∨ c.parameter.style = .matrix →
        ∃ cause, c.decode (some "") = .error (.wire c.name cause) := by
      rw [hdecode]
      exact decodeSegment_empty_faults
    refine ⟨⟨fun hnull => ?_, fun h => absurd h.1 hquery⟩, hsimple, hmarked⟩
    rcases hstyle with hstyle | hstyle
    · exact absurd (Except.ok.inj ((hsimple hstyle).symm.trans hnull)) hv.ne_null
    · obtain ⟨cause, hcause⟩ := hmarked hstyle
      cases hcause.symm.trans hnull

/-- The texts of `labels`, exploded and at another place. -/
def spread (location : Location) (style : Style) : Parameter :=
  { labels with location, style, explode := true }

def spreadCodec (location : Location) (style : Style) : Codec :=
  { labelsCodec with parameter := spread location style }

theorem spread_decode_encode_vacant :
    (∃ st, ((spread .query .pipeDelimited).codec labelsMapper).run.run {} =
      (.ok (spreadCodec .query .pipeDelimited), st)) ∧
    (spreadCodec .query .pipeDelimited).Vacant (.list []) ∧
    (spreadCodec .query .pipeDelimited).encode (.list []) = .ok "" ∧
    (spreadCodec .query .pipeDelimited).decode (some "") = .ok .null := by
  have hcodec : ((spread .query .pipeDelimited).codec labelsMapper).run.run {} =
      (.ok (spreadCodec .query .pipeDelimited), _) := rfl
  have hv : (spreadCodec .query .pipeDelimited).Vacant (.list []) := .array rfl
  obtain ⟨hencode, hdecode, -⟩ := decode_encode_vacant hcodec rfl hv
  exact ⟨⟨_, hcodec⟩, hv, hencode, hdecode.2 ⟨rfl, nofun⟩⟩

/-- The empty text of a header is the empty array, not its absence. -/
theorem spread_empty_header :
    (∃ st, ((spread .header .simple).codec labelsMapper).run.run {} =
      (.ok (spreadCodec .header .simple), st)) ∧
    (spreadCodec .header .simple).encode (.list []) = .ok "" ∧
    (spreadCodec .header .simple).decode (some "") = .ok (.list []) :=
  ⟨⟨_, rfl⟩, rfl, rfl⟩

end OpenApi.Codec
