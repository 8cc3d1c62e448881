import OpenApi.Proofs.Wire.RoundTrip

/-!
Parameters of one request. A query string or cookie header carries the texts of many parameters, and
every parameter is read out of the whole. It takes the pairs under its own name alone; names that differ
are written differently, and nothing that is written can be mistaken for what parts the pairs. So no
parameter disturbs another one.
-/
namespace OpenApi

namespace Text

/-- Blanks before a text are not seen once its pieces are trimmed. -/
theorem map_trimList_splitList {p : Char → Bool} {sep : Char} (hsep : p sep = false)
    {blanks : List Char} (hblanks : ∀ ch ∈ blanks, p ch = true) (cs : List Char) :
    (splitList sep (blanks ++ cs)).map (trimList p) = (splitList sep cs).map (trimList p) := by
  induction blanks with
  | nil => rfl
  | cons ch blanks ih =>
    obtain ⟨hch, hblanks⟩ := List.forall_mem_cons.1 hblanks
    have hne : (ch == sep) = false := by
      rw [beq_eq_false_iff_ne]
      rintro rfl
      rw [hch] at hsep
      cases hsep
    have htrim : ∀ piece, trimList p (ch :: piece) = trimList p piece := by
      intro piece
      rw [trimList, trimList, List.dropWhile_cons_of_pos hch]
    rw [List.cons_append, splitList_cons, hne, if_neg (by simp), ← ih hblanks]
    cases hpieces : splitList sep (blanks ++ cs) with
    | nil => exact absurd hpieces (splitList_ne_nil sep _)
    | cons piece more => simp [consFirst, htrim]

end Text

/-- The character that ends a pair. -/
def Location.separator : Location → Char
  | .cookie => ';'
  | _ => '&'

/-- What stands between the texts of two parameters. -/
def Location.gap : Location → String
  | .cookie => "; "
  | _ => "&"

theorem Location.separator_eq (location : Location) :
    location.separator = '&' ∨ location.separator = ';' := by
  cases location <;> simp [separator]

/-- A gap is a separator with blanks behind it. -/
theorem Location.toList_gap (location : Location) :
    ∃ blanks, location.gap.toList = location.separator :: blanks ∧
      ∀ ch ∈ blanks, Text.isBlank ch = true := by
  cases location with
  | cookie =>
    refine ⟨[' '], rfl, fun ch hch => ?_⟩
    rw [List.mem_singleton.1 hch]
    rfl
  | _ => exact ⟨[], rfl, nofun⟩

namespace Codec

variable {c : Codec} {v : Value} {w : String} {location : Location}

/-! ### Pairs of several texts -/

theorem pairsOf_eq {sep : Char} {raw : String} (h : '?' ∉ raw.toList) :
    pairsOf sep raw = ((((Text.splitList sep raw.toList).map (Text.trimList Text.isBlank)).filter
      (!·.isEmpty)).map fun chunk => (String.ofList (Text.cutList '=' chunk).1,
        String.ofList ((Text.cutList '=' chunk).2.getD []))) := by
  unfold pairsOf
  rw [Text.dropWhile_of_not_mem h]

theorem pairsOf_append_gap {before behind : String} (hbefore : '?' ∉ before.toList)
    (hbehind : '?' ∉ behind.toList) :
    pairsOf location.separator (before ++ location.gap ++ behind) =
      pairsOf location.separator before ++ pairsOf location.separator behind := by
  obtain ⟨blanks, hgap, hblanks⟩ := location.toList_gap
  have hsep : Text.isBlank location.separator = false := by
    cases location <;> decide
  have hmark : '?' ∉ (before ++ location.gap ++ behind).toList := by
    have hgap : '?' ∉ location.gap.toList := by cases location <;> decide
    simp [hbefore, hbehind, hgap]
  have htext : (before ++ location.gap ++ behind).toList =
      before.toList ++ location.separator :: (blanks ++ behind.toList) := by
    simp [hgap]
  rw [pairsOf_eq hmark, pairsOf_eq hbefore, pairsOf_eq hbehind, htext, Text.splitList_append,
    List.map_append, Text.map_trimList_splitList hsep hblanks, List.filter_append, List.map_append]

/-- The pairs of texts that are joined are those of all the texts. -/
theorem pairsOf_join_gap {texts : List String} (h : ∀ text ∈ texts, '?' ∉ text.toList) :
    pairsOf location.separator (Text.join location.gap texts) =
      texts.flatMap (pairsOf location.separator) := by
  induction texts with
  | nil => cases location <;> rfl
  | cons text rest ih =>
    obtain ⟨htext, hrest⟩ := List.forall_mem_cons.1 h
    cases rest with
    | nil => simp [Text.join]
    | cons next rest =>
      have hjoin : '?' ∉ (Text.join location.gap (next :: rest)).toList := by
        intro hmem
        rcases Text.mem_toList_join hmem with hmem | ⟨s, hs, hmem⟩
        · cases location <;> simp [Location.gap] at hmem
        · exact hrest s hs hmem
      rw [Text.join, pairsOf_append_gap htext hjoin, ih hrest]
      rfl

/-! ### What a parameter writes -/

/-- The text of some values in pairs under the name of a parameter. -/
def PairsText (c : Codec) (values : List String) (w : String) : Prop :=
  (∀ value ∈ values, IsPairText value) ∧
    w = Text.join (String.singleton c.parameter.location.separator) (values.map (pair c.wireName))

theorem PairsText.none : c.PairsText [] "" := ⟨nofun, rfl⟩

theorem PairsText.one {value : String} (hw : pair c.wireName value = w) (h : IsPairText value) :
    c.PairsText [value] w :=
  ⟨by simpa using h, hw.symm⟩

theorem PairsText.not_mem {values : List String} (h : c.PairsText values w) : '?' ∉ w.toList := by
  obtain ⟨hvalues, rfl⟩ := h
  intro hmem
  rcases Text.mem_toList_join hmem with hmem | ⟨s, hs, hmem⟩
  · rcases c.parameter.location.separator_eq with hsep | hsep <;> simp [hsep] at hmem
  · obtain ⟨value, hvalue, rfl⟩ := List.mem_map.1 hs
    exact (isPairText_pair isPairText_wireName (hvalues value hvalue)).not_mem (by decide) hmem

theorem PairsText.pairsOf_eq {values : List String} (h : c.PairsText values w) :
    pairsOf c.parameter.location.separator w = values.map fun value => (c.wireName, value) := by
  obtain ⟨hvalues, rfl⟩ := h
  by_cases hne : values = []
  · subst hne
    rcases c.parameter.location.separator_eq with hsep | hsep <;> rw [hsep] <;> rfl
  · have hpairs := pairsOf_join (values.map fun value => (c.wireName, value))
      c.parameter.location.separator_eq (by simpa using hne)
      (fun p hp => by obtain ⟨value, -, rfl⟩ := List.mem_map.1 hp; exact ⟨c.name, rfl⟩)
      (fun p hp => by obtain ⟨value, hvalue, rfl⟩ := List.mem_map.1 hp; exact hvalues value hvalue)
    simpa [Function.comp_def] using hpairs

/-- The styles of parameters that travel in pairs. -/
theorem Accepted.pair_styles (hc : c.Accepted)
    (hloc : c.parameter.location = .query ∨ c.parameter.location = .cookie) :
    (c.parameter.style = .simple ∧ c.parameter.location = .cookie) ∨ c.parameter.style = .form ∨
      c.parameter.style = .spaceDelimited ∨ c.parameter.style = .pipeDelimited := by
  have hne := hc.style_ne
  rcases Style.allows_cases hc.allows with ⟨-, hpath⟩ | hsimple | ⟨-, hpath⟩ | ⟨-, hpath⟩ |
    ⟨hstyle, -⟩ | ⟨hstyle, -⟩
  · rcases hloc with hloc | hloc <;> simp [hloc] at hpath
  · exact .inl hsimple
  · rcases hloc with hloc | hloc <;> simp [hloc] at hpath
  · rcases hloc with hloc | hloc <;> simp [hloc] at hpath
  · exact .inr (.inl hstyle)
  · tauto

theorem encodeScalar_pairsText (hc : c.Accepted) (hshape : c.shape = .scalar)
    (hloc : c.parameter.location = .query ∨ c.parameter.location = .cookie)
    (hw : c.encodeScalar v = .ok w) : ∃ values, c.PairsText values w := by
  obtain ⟨text, htext, hw⟩ := Outcome.bind_ok.1 hw
  have hw := Outcome.pure_ok.1 hw
  have hpair : pair c.wireName text = w := by
    rcases hc.pair_styles hloc with ⟨hstyle, hcookie⟩ | hstyle | hstyle
    · simpa [hstyle, hcookie] using hw
    · simpa [hstyle] using hw
    · exact (hc.not_delimited (by simp [hshape]) (by tauto)).elim
  exact ⟨_, .one hpair (isPairText_wireText htext)⟩

/-- Whatever has items is written as the list of them. -/
theorem encodeArray_elements {vs : List Value} (h : v.elements = .ok vs) :
    c.encodeArray v = c.encodeArray (.list vs) := by
  unfold encodeArray
  rw [h]
  rfl

theorem encodeArray_pairsText (hc : c.Accepted) (hshape : c.shape = .array)
    (hloc : c.parameter.location = .query ∨ c.parameter.location = .cookie)
    (hw : c.encodeArray v = .ok w) : ∃ values, c.PairsText values w := by
  obtain ⟨vs, hvs, hrest⟩ := Outcome.bind_ok.1 hw
  rw [encodeArray_elements hvs] at hw
  obtain ⟨ws, hws, hrest⟩ := Outcome.bind_ok.1 hrest
  have hplain : ∀ t ∈ ws, IsPairText t := (encoded_of_forall₂ (Outcome.mapM_ok.1 hws)).isPairText
  -- the styles of queries: each item in a pair of its own, or all of them in one
  have hquery : (c.parameter.style = .form ∨ c.parameter.style = .spaceDelimited ∨
      c.parameter.style = .pipeDelimited) → ∃ values, c.PairsText values w := by
    intro hstyle
    rcases encodeArray_query hstyle hws hw with ⟨hexplode, rfl⟩ | ⟨-, -, rfl⟩
    · have hlocation : c.parameter.location = .query :=
        hloc.resolve_right (hc.location_ne_cookie (by simp [hshape]) hexplode)
      exact ⟨ws, hplain, by rw [hlocation]; rfl⟩
    · exact ⟨_, .one rfl (isPairText_join isPairText_delimiter hplain)⟩
  rcases hc.pair_styles hloc with ⟨hstyle, hcookie⟩ | hstyle
  · rw [hstyle] at hrest
    have hw : pair c.wireName (Text.join "," ws) = w := by
      simpa [nameCookie, hcookie, pure, Except.pure] using hrest
    exact ⟨_, .one hw (isPairText_join (by decide) hplain)⟩
  · exact hquery hstyle

theorem encodeObject_pairsText (hc : c.Accepted) (hshape : c.shape = .object)
    (hexplode : c.parameter.explode = false)
    (hloc : c.parameter.location = .query ∨ c.parameter.location = .cookie)
    (hw : c.encodeObject v = .ok w) : ∃ values, c.PairsText values w := by
  obtain ⟨entries, -, hw⟩ := Outcome.bind_ok.1 hw
  obtain ⟨pairs, hpairs, hw⟩ := Outcome.bind_ok.1 hw
  have hpairs : c.EntryTexts entries pairs := entryTexts_of_mapM hpairs
  have hplain := isPairText_commas hpairs.encoded
  dsimp only at hw
  rw [hexplode] at hw
  have hpair : pair c.wireName (Text.join "," (pairs.map fun p => p.1 ++ "," ++ p.2)) = w := by
    rcases hc.pair_styles hloc with ⟨hstyle, hcookie⟩ | hstyle | hstyle
    · rw [hstyle] at hw
      simpa [nameCookie, hcookie] using Outcome.pure_ok.1 hw
    · rw [hstyle] at hw
      exact Outcome.pure_ok.1 hw
    · exact (hc.not_delimited (by simp [hshape]) (by tauto)).elim
  exact ⟨_, .one hpair hplain⟩

theorem encodeContent_pairsText
    (hloc : c.parameter.location = .query ∨ c.parameter.location = .cookie)
    (hw : c.encodeContent v = .ok w) : ∃ values, c.PairsText values w := by
  unfold encodeContent at hw
  split at hw
  · cases hw
  · next text _ =>
    have hpair : pair c.wireName (Percent.encode text false) = w := by
      rcases hloc with hloc | hloc <;> rw [hloc] at hw <;> exact Except.ok.inj hw
    exact ⟨_, .one hpair (isPairText_encode text false)⟩

/-! ### Requests -/

/-- A parameter of a request: its wire format, a value, and the text that the value is written as. What
is written as members or fields on their own carries other names than that of the parameter and is left
out here. -/
structure Sent (location : Location) where
  codec : Codec
  value : Value
  text : String
  made : ∃ (p : Parameter) (m : Mapper) (st st' : MapState),
    (p.codec m).run.run st = (.ok codec, st')
  location_eq : codec.parameter.location = location
  shape_ne : codec.shape ≠ .deepObject
  whole : codec.shape = .object → codec.parameter.explode = false
  encode_eq : codec.encode value = .ok text

/-- A parameter writes nothing but pairs under its name. -/
theorem Sent.exists_pairsText (hloc : location = .query ∨ location = .cookie)
    (s : Sent location) : ∃ values, s.codec.PairsText values s.text := by
  have hloc : s.codec.parameter.location = .query ∨ s.codec.parameter.location = .cookie := by
    rw [s.location_eq]
    exact hloc
  have hencode := s.encode_eq
  have haccepted : s.codec.shape ≠ .content → s.codec.Accepted := by
    intro hcontent
    obtain ⟨p, m, st, st', hcodec⟩ := s.made
    exact Parameter.accepted_of_codec hcodec hcontent s.shape_ne
  unfold encode at hencode
  split at hencode
  · exact ⟨[], Except.ok.inj hencode ▸ .none⟩
  · cases hshape : s.codec.shape with
    | content =>
      rw [hshape] at hencode
      exact encodeContent_pairsText hloc hencode
    | deepObject => exact absurd hshape s.shape_ne
    | scalar =>
      rw [hshape] at hencode
      exact encodeScalar_pairsText (haccepted (by simp [hshape])) hshape hloc hencode
    | array =>
      rw [hshape] at hencode
      exact encodeArray_pairsText (haccepted (by simp [hshape])) hshape hloc hencode
    | object =>
      rw [hshape] at hencode
      exact encodeObject_pairsText (haccepted (by simp [hshape])) hshape (s.whole hshape) hloc
        hencode

/-- The values of the pairs under a name. -/
def ownValues (name : String) (pairs : List (String × String)) : List String :=
  pairs.filterMap fun p => if p.1 == name then some p.2 else none

/-- What is read from the values of the pairs under the own name. -/
def decodeOwn (c : Codec) : List String → Checked Value
  | [] => .ok .null
  | first :: more => c.decodeValue first (first :: more)

theorem decodePairs_eq_own (hdeep : c.shape ≠ .deepObject)
    (hobject : (c.shape == .object && c.parameter.style != .simple && c.parameter.explode) = false)
    (pairs : List (String × String)) :
    c.decodePairs pairs = c.decodeOwn (ownValues c.wireName pairs) := by
  rw [decodePairs, if_neg (by simpa using hdeep), hobject, if_neg (by simp)]
  rfl

/-- A parameter is read from the pairs under its own name. -/
theorem Sent.decode_eq (hloc : location = .query ∨ location = .cookie) (s : Sent location)
    {raw raw' : String}
    (h : ownValues s.codec.wireName (pairsOf location.separator raw) =
      ownValues s.codec.wireName (pairsOf location.separator raw')) :
    s.codec.decode (some raw) = s.codec.decode (some raw') := by
  have hobject : (s.codec.shape == .object && s.codec.parameter.style != .simple &&
      s.codec.parameter.explode) = false := by
    by_cases hshape : s.codec.shape = .object
    · simp [s.whole hshape]
    · simp [hshape]
  have hpairs : s.codec.decodePairs (pairsOf location.separator raw) =
      s.codec.decodePairs (pairsOf location.separator raw') := by
    rw [decodePairs_eq_own s.shape_ne hobject, h, ← decodePairs_eq_own s.shape_ne hobject]
  have hlocation := s.location_eq
  rcases hloc with rfl | rfl
  · rw [decode, decode, hlocation]
    exact hpairs
  · rw [decode, decode, hlocation]
    exact hpairs

/-- Among the texts of a request, the pairs under the name of a parameter are its own. -/
theorem ownValues_join_gap (hloc : location = .query ∨ location = .cookie)
    {sent : List (Sent location)} (hnames : (sent.map (·.codec.name)).Nodup) {s : Sent location}
    (hs : s ∈ sent) :
    ownValues s.codec.wireName
      (pairsOf location.separator (Text.join location.gap (sent.map (·.text)))) =
        ownValues s.codec.wireName (pairsOf location.separator s.text) := by
  have hmark : ∀ text ∈ sent.map (·.text), '?' ∉ text.toList := by
    intro text htext
    obtain ⟨r, -, rfl⟩ := List.mem_map.1 htext
    obtain ⟨values, hvalues⟩ := r.exists_pairsText hloc
    exact hvalues.not_mem
  -- another parameter has another name, and so none of its pairs counts
  have hother : ∀ r : Sent location, r.codec.name ≠ s.codec.name →
      ownValues s.codec.wireName (pairsOf location.separator r.text) = [] := by
    intro r hne
    obtain ⟨values, hvalues⟩ := r.exists_pairsText hloc
    have hpairs := hvalues.pairsOf_eq
    rw [r.location_eq] at hpairs
    have hname : r.codec.wireName ≠ s.codec.wireName := fun heq => hne (Percent.encode_inj heq)
    simp [ownValues, hpairs, hname]
  have hothers : ∀ rs : List (Sent location), (∀ r ∈ rs, r.codec.name ≠ s.codec.name) →
      ownValues s.codec.wireName
        ((rs.map (·.text)).flatMap (pairsOf location.separator)) = [] := by
    intro rs hrs
    induction rs with
    | nil => rfl
    | cons r rs ih =>
      obtain ⟨hr, hrs⟩ := List.forall_mem_cons.1 hrs
      rw [List.map_cons, List.flatMap_cons, ownValues, List.filterMap_append]
      change ownValues _ _ ++ ownValues _ _ = []
      rw [hother r hr, ih hrs, List.append_nil]
  obtain ⟨before, behind, rfl⟩ := List.append_of_mem hs
  rw [List.map_append, List.map_cons, List.nodup_append] at hnames
  obtain ⟨-, hbehind, hbefore⟩ := hnames
  rw [List.nodup_cons] at hbehind
  have hfirst := hothers before fun r hr =>
    hbefore _ (List.mem_map_of_mem hr) _ List.mem_cons_self
  have hlast := hothers behind fun r hr heq => hbehind.1 (heq ▸ List.mem_map_of_mem hr)
  rw [pairsOf_join_gap hmark, List.map_append, List.map_cons, List.flatMap_append,
    List.flatMap_cons, ownValues, List.filterMap_append, List.filterMap_append]
  change ownValues _ _ ++ (ownValues _ _ ++ ownValues _ _) = _
  rw [hfirst, hlast, List.nil_append, List.append_nil]

/-- In a query string or cookie header with the texts of other parameters, in whatever order, every
parameter is read as from its own text. -/
theorem decode_request (hloc : location = .query ∨ location = .cookie)
    {request sent : List (Sent location)} (hnames : (request.map (·.codec.name)).Nodup)
    (horder : sent.Perm request) :
    ∀ s ∈ request, s.codec.decode (some (Text.join location.gap (sent.map (·.text)))) =
      s.codec.decode (some s.text) := by
  intro s hs
  apply s.decode_eq hloc
  apply ownValues_join_gap hloc
  · exact (horder.map _).nodup_iff.2 hnames
  · exact horder.mem_iff.2 hs

/-- A query parameter whose name is a part of the name of `labels`, described by a media type. -/
def filter : Parameter :=
  { name := "a b", location := .query, style := .form, explode := true, required := false,
    contentType := some (.str "application/json") }

def filterCodec : Codec := { parameter := filter, shape := .content, type := .any, types := [] }

def labelsSent : Sent .query where
  codec := labelsCodec
  value := .list [.str "x,y", .str "é=50%"]
  text := "a%20b%26c=x%2Cy%20%C3%A9%3D50%25"
  made := ⟨labels, labelsMapper, {}, _, rfl⟩
  location_eq := rfl
  shape_ne := by decide
  whole := nofun
  encode_eq := by rfl

def filterSent : Sent .query where
  codec := filterCodec
  value := .map [(.str "a b&c", .str "=;&?")]
  text := "a%20b=%7B%22a%20b%26c%22%3A%22%3D%3B%26%3F%22%7D"
  made := ⟨filter, labelsMapper, {}, _, rfl⟩
  location_eq := rfl
  shape_ne := by decide
  whole := nofun
  encode_eq := by rfl

theorem labels_decode_request :
    ([labelsSent, filterSent].map (·.codec.name)).Nodup ∧
    labelsCodec.decode (some ("a%20b=%7B%22a%20b%26c%22%3A%22%3D%3B%26%3F%22%7D&" ++
      "a%20b%26c=x%2Cy%20%C3%A9%3D50%25")) =
        labelsCodec.decode (some "a%20b%26c=x%2Cy%20%C3%A9%3D50%25") := by
  have hnames : ([labelsSent, filterSent].map (·.codec.name)).Nodup := by
    change ["a b&c", "a b"].Nodup
    decide
  have hdecode := decode_request (.inl rfl) hnames (.swap labelsSent filterSent [])
    labelsSent List.mem_cons_self
  exact ⟨hnames, hdecode⟩

end Codec
end OpenApi
