import OpenApi.Proofs.Wire.Accepted
import OpenApi.Proofs.Wire.Pieces

/-!
Values of flat shapes pass the wire unharmed. Writing and reading take separate ways for each style,
location and shape; a parameter has a codec only where both are defined, and then reading undoes
writing.
-/
namespace OpenApi.Codec

open Outcome (bind_ok bind_pure_ok pure_ok mapM_ok)
open Text (join cut split split_join join_map_append join_pairs)

variable {c : Codec} {v : Value} {w : String}
  {pairs : List (String × String)} {vs : List Value} {ws : List String} {t : Traits}
  {entries : List (Scalar × Value)} {fields : List Field}

/-- The values of a flat shape. An array that is empty or holds one empty text cannot be told from
its absence, and neither can an empty object. -/
inductive Carries (c : Codec) : Value → Prop
  | scalar {v : Value} (hshape : c.shape = .scalar) (hv : c.HasScalar c.type v) : Carries c v
  | array {d : Descriptor} {t : Traits} {vs : List Value} (hshape : c.shape = .array)
      (hd : c.behind c.type = .ok (.array d t)) (hvs : ∀ v ∈ vs, c.HasScalar d v)
      (hne : vs ≠ []) (hblank : vs ≠ [.str ""]) : Carries c (.list vs)
  | object {fields : List Field} {additional : Additional Descriptor} {t : Traits}
      {entries : List (Scalar × Value)} (hshape : c.shape = .object)
      (hd : c.behind c.type = .ok (.object fields additional t))
      (hnames : ∀ f ∈ fields, ∃ name, f.name = .str name)
      (hentries : c.HasEntries fields entries) (hkeys : (entries.map Prod.fst).Nodup)
      (hne : entries ≠ []) : Carries c (.map entries)

/-! ### Ways to the readers -/

theorem decode_segment (hloc : c.parameter.location = .path ∨ c.parameter.location = .header)
    (hshape : c.shape ≠ .content) : c.decode (some w) = c.decodeSegment w := by
  rcases hloc with hloc | hloc <;> simp [decode, hloc, hshape]

/-- A pair alone in a query string or cookie header. -/
theorem decode_pair {value : String}
    (hloc : c.parameter.location = .query ∨ c.parameter.location = .cookie)
    (hshape : c.shape ≠ .deepObject)
    (hobject : (c.shape == .object && c.parameter.style != .simple && c.parameter.explode) = false)
    (hvalue : IsPairText value) :
    c.decode (some (pair c.wireName value)) = c.decodeValue value [value] := by
  have hpairs : ∀ sep, sep = '&' ∨ sep = ';' →
      pairsOf sep (pair c.wireName value) = [(c.wireName, value)] := by
    intro sep hsep
    have hone : pairsOf sep (join (String.singleton sep)
        ([(c.wireName, value)].map fun p => pair p.1 p.2)) = [(c.wireName, value)] :=
      pairsOf_join _ hsep (by simp) (by simpa using ⟨c.name, rfl⟩) (by simpa using hvalue)
    exact hone
  have hdecode : c.decodePairs [(c.wireName, value)] = c.decodeValue value [value] := by
    simp [decodePairs, hshape, hobject]
  rcases hloc with hloc | hloc
  · simp [decode, hloc, hpairs, hdecode]
  · simp [decode, hloc, hpairs, hdecode]

theorem isPairText_wireText (hw : c.wireText v = .ok w) : IsPairText w := by
  obtain ⟨text, -, rfl⟩ := wireText_ok hw
  exact isPairText_encode text _

theorem isPairText_wireName : IsPairText c.wireName := isPairText_encode c.name false

/-- Pairs that were joined by a character that is in none of them. -/
theorem map_cut_pair (hkey : ∀ p ∈ pairs, ∃ s dot, p.1 = Percent.encode s dot) :
    (pairs.map fun p => pair p.1 p.2).map (cut '=') = pairs.map fun p => (p.1, some p.2) := by
  rw [List.map_map]
  apply List.map_congr_left
  intro p hp
  obtain ⟨s, dot, hs⟩ := hkey p hp
  have hequal : '=' ∉ p.1.toList := by
    rw [hs]
    exact not_mem_encode (isWire_delimiter '=' (by simp) dot)
  exact Text.cut_pair hequal

theorem split_pairs {sep : Char} (hne : pairs ≠ [])
    (hkey : ∀ p ∈ pairs, ∃ s dot, p.1 = Percent.encode s dot)
    (hclear : ∀ s ∈ pairs.map fun p => pair p.1 p.2, sep ∉ s.toList) :
    (split sep (join (String.singleton sep) (pairs.map fun p => pair p.1 p.2))).map
      (cut '=') = pairs.map fun p => (p.1, some p.2) := by
  rw [split_join (by simpa using hne) hclear, map_cut_pair hkey]

theorem decodeMatrix_semicolon (s : String) : c.decodeMatrix (";" ++ s) =
    if c.shape == .object then c.readEntries ((split ';' s).map (cut '='))
    else match valuesOf c.wireName ((split ';' s).map (cut '=')) with
      | [] => .ok .null
      | first :: more =>
        if c.shape == .scalar then c.read first c.type
        else if c.parameter.explode then c.readItems (first :: more)
        else c.readItems (piecesOf "," first) := by
  obtain ⟨cs, rfl⟩ : ∃ cs, s = String.ofList cs := ⟨s.toList, String.ofList_toList.symm⟩
  have htext : (";" ++ String.ofList cs).toList = ';' :: cs := by simp
  unfold decodeMatrix
  rw [htext]
  rfl

/-- The values of a parameter behind semicolons. -/
theorem decodeMatrix_values (first : String) (more : List String) (hshape : c.shape ≠ .object)
    (h : ∀ t ∈ first :: more, IsPairText t) :
    c.decodeMatrix (";" ++ join ";" ((first :: more).map (pair c.wireName))) =
      if c.shape == .scalar then c.read first c.type
      else if c.parameter.explode then c.readItems (first :: more)
      else c.readItems (piecesOf "," first) := by
  have hpairs : (split ';' (join ";" ((first :: more).map (pair c.wireName)))).map
      (cut '=') = (first :: more).map fun t => (c.wireName, some t) := by
    have hclear : ∀ s ∈ (first :: more).map (pair c.wireName), ';' ∉ s.toList := by
      intro s hs
      obtain ⟨t, ht, rfl⟩ := List.mem_map.1 hs
      exact (isPairText_pair isPairText_wireName (h t ht)).not_mem (by decide)
    have hsplit : split ';' (join ";" ((first :: more).map (pair c.wireName))) = _ :=
      split_join (by simp) hclear
    rw [hsplit, List.map_map]
    apply List.map_congr_left
    intro t _
    exact Text.cut_pair (not_mem_encode (by decide))
  have hvalues : valuesOf c.wireName ((first :: more).map fun t => (c.wireName, some t)) =
      first :: more := by
    simp [valuesOf, List.filterMap_map]
  rw [decodeMatrix_semicolon, hpairs, if_neg (by simpa using hshape), hvalues]

/-- A scalar is read from its own text, whatever stands around it. -/
theorem decode_encodeScalar_eq (hc : c.Accepted) (hshape : c.shape = .scalar)
    (hw : c.encodeScalar v = .ok w) :
    ∃ text, c.wireText v = .ok text ∧ c.decode (some w) = c.read text c.type := by
  obtain ⟨text, htext, hw⟩ := bind_ok.1 hw
  refine ⟨text, htext, ?_⟩
  have hplain := isPairText_wireText htext
  have hw := pure_ok.1 hw
  have hcontent : c.shape ≠ .content := by simp [hshape]
  have hdeep : c.shape ≠ .deepObject := by simp [hshape]
  rcases Style.allows_cases hc.allows with ⟨hstyle, hloc⟩ | ⟨hstyle, hloc⟩ | ⟨hstyle, hloc⟩ |
    ⟨hstyle, hloc⟩ | ⟨hstyle, hloc⟩ | ⟨hstyle, hloc⟩
  · -- simple, in a path or a header
    have hw : text = w := by rcases hloc with hloc | hloc <;> simpa [hstyle, hloc] using hw
    rw [decode_segment hloc hcontent, ← hw]
    simp [decodeSegment, hstyle, decodeSimple, hshape]
  · -- simple, in a cookie
    have hw : pair c.wireName text = w := by simpa [hstyle, hloc] using hw
    rw [← hw, decode_pair (.inr hloc) hdeep (by simp [hshape]) hplain]
    simp [decodeValue, hshape, hstyle, decodeSimple]
  · -- label
    have hw : "." ++ text = w := by simpa [hstyle, hloc] using hw
    rw [decode_segment (.inl hloc) hcontent, ← hw, decodeSegment, hstyle]
    simp [decodeLabel, hshape]
  · -- matrix
    have hw : ";" ++ pair c.wireName text = w := by simpa [hstyle, hloc] using hw
    have hvalues : c.decodeMatrix (";" ++ pair c.wireName text) = _ :=
      decodeMatrix_values text [] (by simp [hshape]) (by simpa using hplain)
    rw [decode_segment (.inl hloc) hcontent, ← hw, decodeSegment, hstyle]
    simpa [hshape] using hvalues
  · -- form
    have hw : pair c.wireName text = w := by
      rcases hloc with hloc | hloc <;> simpa [hstyle, hloc] using hw
    rw [← hw, decode_pair hloc hdeep (by simp [hshape]) hplain]
    simp [decodeValue, hshape, hstyle]
  · -- the delimited styles are refused for scalars
    exact (hc.not_delimited (by simp [hshape]) hstyle).elim

theorem decode_encodeScalar (hc : c.Accepted) (hshape : c.shape = .scalar)
    (hv : c.HasScalar c.type v) (hw : c.encodeScalar v = .ok w) : c.decode (some w) = .ok v := by
  obtain ⟨text, htext, hdecode⟩ := decode_encodeScalar_eq hc hshape hw
  exact hdecode.trans (read_wireText hv htext)

/-! ### Arrays -/

/-- Encoded texts of this parameter. -/
def Encoded (c : Codec) (ws : List String) : Prop :=
  ∀ w ∈ ws, ∃ text, w = Percent.encode text (c.parameter.style == .label)

theorem encoded_of_forall₂ (h : List.Forall₂ (fun v w => c.wireText v = .ok w) vs ws) : c.Encoded ws := by
  refine Outcome.forall_mem_of_forall₂ (h.imp fun v w hw => ?_)
  obtain ⟨text, -, hw⟩ := wireText_ok hw
  exact ⟨text, hw⟩

theorem Encoded.isPairText (h : c.Encoded ws) : ∀ w ∈ ws, IsPairText w := by
  intro w hw
  obtain ⟨text, rfl⟩ := h w hw
  exact isPairText_encode text _

theorem Encoded.not_mem (h : c.Encoded ws) {ch : Char}
    (hch : Percent.isWire (c.parameter.style == .label) ch = false) : ∀ w ∈ ws, ch ∉ w.toList := by
  intro w hw
  obtain ⟨text, rfl⟩ := h w hw
  exact not_mem_encode hch

theorem Encoded.clear_comma (h : c.Encoded ws) : ∀ w ∈ ws, Text.Clear ",".toList w.toList := by
  intro w hw
  exact Text.clear_of_not_mem (h.not_mem (isWire_delimiter ',' (by simp) _) w hw)

/-- Items between the delimiters of a query parameter. -/
theorem Encoded.clear_delimiter (h : c.Encoded ws)
    (hcontains : (ws.any fun t => Text.contains t c.delimiter) = false) :
    ∀ w ∈ ws, Text.Clear c.delimiter.toList w.toList := by
  intro w hw
  obtain ⟨text, rfl⟩ := h w hw
  have hclear := Bool.eq_false_iff.2 (List.any_eq_false.1 hcontains _ hw)
  unfold delimiter at hclear ⊢
  cases hstyle : c.parameter.style with
  | spaceDelimited =>
    rw [hstyle] at hclear
    exact clear_space hclear
  | pipeDelimited => exact Text.clear_of_not_mem (not_mem_encode (isWire_delimiter '|' (by simp) _))
  | _ => exact Text.clear_of_not_mem (not_mem_encode (isWire_delimiter ',' (by simp) _))

theorem isPairText_delimiter : IsPairText c.delimiter := by
  unfold delimiter
  cases c.parameter.style <;> decide

theorem delimiter_ne_empty : c.delimiter ≠ "" := by
  unfold delimiter
  cases c.parameter.style <;> decide

theorem decodeValue_array {raw : String} {all : List String} (hshape : c.shape = .array)
    (hstyle : c.parameter.style ≠ .simple) : c.decodeValue raw all =
      if c.parameter.explode then c.readItems all else c.readItems (piecesOf c.delimiter raw) := by
  unfold decodeValue
  rw [hshape]
  cases hs : c.parameter.style with
  | simple => exact absurd hs hstyle
  | _ => cases c.parameter.explode <;> rfl

/-- Values of a query parameter, each in a pair of its own. -/
theorem decode_exploded_values (hloc : c.parameter.location = .query) (hshape : c.shape = .array)
    (hstyle : c.parameter.style ≠ .simple) (hexplode : c.parameter.explode = true) (hne : ws ≠ [])
    (h : ∀ w ∈ ws, IsPairText w) :
    c.decode (some (join "&" (ws.map (pair c.wireName)))) = c.readItems ws := by
  have hpairs : pairsOf '&' (join "&" (ws.map (pair c.wireName))) =
      ws.map fun t => (c.wireName, t) := by
    have hjoin := pairsOf_join (ws.map fun t => (c.wireName, t)) (.inl rfl) (by simpa using hne)
      (fun p hp => by obtain ⟨t, -, rfl⟩ := List.mem_map.1 hp; exact ⟨c.name, rfl⟩)
      (fun p hp => by obtain ⟨t, ht, rfl⟩ := List.mem_map.1 hp; exact h t ht)
    simpa [Function.comp_def] using hjoin
  have hvalues : (ws.map fun t => (c.wireName, t)).filterMap
      (fun p => if p.1 == c.wireName then some p.2 else none) = ws := by
    simp [List.filterMap_map]
  obtain ⟨first, more, rfl⟩ := List.exists_cons_of_ne_nil hne
  unfold decode
  rw [hloc]
  dsimp only
  rw [hpairs, decodePairs, if_neg (by simp [hshape]), if_neg (by simp [hshape]), hvalues]
  dsimp only
  rw [decodeValue_array hshape hstyle, if_pos hexplode]

/-- Values of a parameter in one pair. -/
theorem decode_joined_values (hloc : c.parameter.location = .query ∨ c.parameter.location = .cookie)
    (hshape : c.shape = .array) (hstyle : c.parameter.style ≠ .simple)
    (hexplode : c.parameter.explode = false) (hne : ws ≠ []) (hblank : ws ≠ [""])
    (hencoded : c.Encoded ws) (hcontains : (ws.any fun t => Text.contains t c.delimiter) = false) :
    c.decode (some (pair c.wireName (join c.delimiter ws))) = c.readItems ws := by
  rw [decode_pair hloc (by simp [hshape]) (by simp [hshape])
    (isPairText_join isPairText_delimiter hencoded.isPairText), decodeValue_array hshape hstyle,
    hexplode, if_neg (by decide),
    piecesOf_join delimiter_ne_empty (hencoded.clear_delimiter hcontains) hne hblank]

/-- How the items of a query parameter are written. -/
theorem encodeArray_query
    (hstyle : c.parameter.style = .form ∨ c.parameter.style = .spaceDelimited ∨
      c.parameter.style = .pipeDelimited) (hws : vs.mapM c.wireText = .ok ws)
    (hw : c.encodeArray (.list vs) = .ok w) :
    (c.parameter.explode = true ∧ w = join "&" (ws.map (pair c.wireName))) ∨
      (c.parameter.explode = false ∧ (ws.any fun t => Text.contains t c.delimiter) = false ∧
        w = pair c.wireName (join c.delimiter ws)) := by
  obtain ⟨elements, helements, hw⟩ := bind_ok.1 hw
  cases helements
  obtain ⟨ws', hws', hw⟩ := bind_ok.1 hw
  cases hws.symm.trans hws'
  have hw : (if c.parameter.explode then pure (join "&" (ws.map (pair c.wireName)))
      else if ws.any fun t => Text.contains t c.delimiter then throw (.delimiterInItem c.name)
      else pure (pair c.wireName (join c.delimiter ws)) : Checked String) = .ok w := by
    rcases hstyle with hstyle | hstyle | hstyle <;> rw [hstyle] at hw <;>
      cases hexplode : c.parameter.explode <;> rw [hexplode] at hw <;> exact hw
  split at hw
  · next hexplode => exact .inl ⟨hexplode, (pure_ok.1 hw).symm⟩
  · next hexplode =>
    split at hw
    · exact (Outcome.throw_ok.1 hw).elim
    · next hany =>
      exact .inr ⟨Bool.eq_false_iff.2 hexplode, Bool.eq_false_iff.2 hany,
        (pure_ok.1 hw).symm⟩

/-- The texts of the items of an array, from which the array is read. -/
structure Items (c : Codec) (vs : List Value) (ws : List String) : Prop where
  shape : c.shape = .array
  encoded : c.Encoded ws
  ne_nil : ws ≠ []
  ne_blank : ws ≠ [""]
  read : c.readItems ws = .ok (.list vs)

namespace Items
variable {vs : List Value} {ws : List String}

theorem piecesOf_join_comma (h : c.Items vs ws) : piecesOf "," (join "," ws) = ws :=
  piecesOf_join (by decide) h.encoded.clear_comma h.ne_nil h.ne_blank

theorem isPairText_join_comma (h : c.Items vs ws) : IsPairText (join "," ws) :=
  isPairText_join (by decide) h.encoded.isPairText

theorem decodeSimple_join (h : c.Items vs ws) :
    c.decodeSimple (join "," ws) = .ok (.list vs) := by
  simp [decodeSimple, h.shape, h.piecesOf_join_comma, h.read]

/-- Dots are escaped in this style, so they part the items. -/
theorem decodeLabel_join (h : c.Items vs ws) (hstyle : c.parameter.style = .label) :
    c.decodeLabel ("." ++ join "." ws) = .ok (.list vs) := by
  have hsplit : split '.' (join "." ws) = ws :=
    split_join h.ne_nil (h.encoded.not_mem (by rw [hstyle]; decide))
  simp [decodeLabel, h.shape, hsplit, h.read]

theorem decodeMatrix_exploded (h : c.Items vs ws) (hexplode : c.parameter.explode = true) :
    c.decodeMatrix (";" ++ join ";" (ws.map (pair c.wireName))) = .ok (.list vs) := by
  obtain ⟨first, more, rfl⟩ := List.exists_cons_of_ne_nil h.ne_nil
  rw [decodeMatrix_values first more (by simp [h.shape]) h.encoded.isPairText]
  simp [h.shape, hexplode, h.read]

theorem decodeMatrix_joined (h : c.Items vs ws) (hexplode : c.parameter.explode = false) :
    c.decodeMatrix (";" ++ pair c.wireName (join "," ws)) = .ok (.list vs) := by
  have hvalues : c.decodeMatrix (";" ++ pair c.wireName (join "," ws)) = _ :=
    decodeMatrix_values (join "," ws) [] (by simp [h.shape])
      (by simpa using h.isPairText_join_comma)
  rw [hvalues]
  simp [h.shape, hexplode, h.piecesOf_join_comma, h.read]

/-- Reading undoes the writing of a query parameter, whichever of its delimiters is used. -/
theorem decode_encodeArray_query (h : c.Items vs ws) (hc : c.Accepted)
    (hloc : c.parameter.location = .query ∨ c.parameter.location = .cookie)
    (hstyle : c.parameter.style = .form ∨ c.parameter.style = .spaceDelimited ∨
      c.parameter.style = .pipeDelimited) (hws : vs.mapM c.wireText = .ok ws)
    (hw : c.encodeArray (.list vs) = .ok w) : c.decode (some w) = .ok (.list vs) := by
  have hsimple : c.parameter.style ≠ .simple := by
    rcases hstyle with hstyle | hstyle | hstyle <;> simp [hstyle]
  rcases encodeArray_query hstyle hws hw with ⟨hexplode, rfl⟩ | ⟨hexplode, hany, rfl⟩
  · have hquery : c.parameter.location = .query :=
      hloc.resolve_right (hc.location_ne_cookie (by simp [h.shape]) hexplode)
    rw [decode_exploded_values hquery h.shape hsimple hexplode h.ne_nil h.encoded.isPairText, h.read]
  · rw [decode_joined_values hloc h.shape hsimple hexplode h.ne_nil h.ne_blank h.encoded hany, h.read]

end Items

theorem decode_encodeArray {d : Descriptor} (hc : c.Accepted) (hshape : c.shape = .array)
    (hd : c.behind c.type = .ok (.array d t)) (hvs : ∀ v ∈ vs, c.HasScalar d v) (hne : vs ≠ [])
    (hblank : vs ≠ [.str ""]) (hw : c.encodeArray (.list vs) = .ok w) :
    c.decode (some w) = .ok (.list vs) := by
  have hwhole := hw
  obtain ⟨elements, helements, hw⟩ := bind_ok.1 hw
  cases helements
  obtain ⟨ws, hws, hw⟩ := bind_ok.1 hw
  have htexts := mapM_ok.1 hws
  have hwsne : ws ≠ [] := by
    rintro rfl
    cases htexts
    exact hne rfl
  have h : c.Items vs ws :=
    ⟨hshape, encoded_of_forall₂ htexts, hwsne, wireTexts_ne_blank htexts hblank,
      readItems_wireText hd hvs htexts⟩
  have hcontent : c.shape ≠ .content := by simp [hshape]
  rcases Style.allows_cases hc.allows with ⟨hstyle, hloc⟩ | ⟨hstyle, hloc⟩ | ⟨hstyle, hloc⟩ |
    ⟨hstyle, hloc⟩ | ⟨hstyle, hloc⟩ | ⟨hstyle, hloc⟩
  · -- simple, in a path or a header
    rw [hstyle] at hw
    have hw : join "," ws = w := by
      rcases hloc with hloc | hloc <;>
        simpa [nameCookie, hloc, pure, Except.pure] using hw
    rw [decode_segment hloc hcontent, decodeSegment, hstyle, ← hw]
    exact h.decodeSimple_join
  · -- simple, in a cookie
    rw [hstyle] at hw
    have hw : pair c.wireName (join "," ws) = w := by
      simpa [nameCookie, hloc, pure, Except.pure] using hw
    rw [← hw, decode_pair (.inr hloc) (by simp [hshape]) (by simp [hshape]) h.isPairText_join_comma]
    simp [decodeValue, hshape, hstyle, h.decodeSimple_join]
  · -- label
    rw [hstyle] at hw
    have hw : "." ++ join "." ws = w := by
      rw [← join_map_append hwsne]
      exact pure_ok.1 hw
    rw [decode_segment (.inl hloc) hcontent, decodeSegment, hstyle, ← hw]
    exact h.decodeLabel_join hstyle
  · -- matrix
    rw [hstyle] at hw
    rw [decode_segment (.inl hloc) hcontent, decodeSegment, hstyle]
    cases hexplode : c.parameter.explode with
    | true =>
      rw [hexplode] at hw
      have hw : ";" ++ join ";" (ws.map (pair c.wireName)) = w := by
        rw [← join_map_append (by simpa using hwsne), List.map_map]
        exact pure_ok.1 hw
      rw [← hw]
      exact h.decodeMatrix_exploded hexplode
    | false =>
      rw [hexplode] at hw
      have hw : ";" ++ pair c.wireName (join "," ws) = w := pure_ok.1 hw
      rw [← hw]
      exact h.decodeMatrix_joined hexplode
  · -- form
    exact h.decode_encodeArray_query hc hloc (.inl hstyle) hws hwhole
  · -- the delimited styles
    have hstyle : c.parameter.style = .spaceDelimited ∨ c.parameter.style = .pipeDelimited := by
      have hne := hc.style_ne
      tauto
    exact h.decode_encodeArray_query hc (.inl hloc) (.inr hstyle) hws hwhole

/-! ### Objects -/

theorem entryTexts_of_mapM
    (h : (entries.mapM fun (k, v) => do
      return (← c.wireText (.scalar k), ← c.wireText v)) = .ok pairs) :
    c.EntryTexts entries pairs := by
  refine (mapM_ok.1 h).imp fun e p hp => ?_
  obtain ⟨key, hkey, hp⟩ := bind_ok.1 hp
  obtain ⟨value, hvalue, rfl⟩ := bind_pure_ok.1 hp
  exact ⟨hkey, hvalue⟩

theorem EntryTexts.encoded (h : c.EntryTexts entries pairs) :
    c.Encoded (pairs.flatMap fun p => [p.1, p.2]) := by
  induction h with
  | nil => exact List.forall_mem_nil _
  | cons hp _ ih =>
    obtain ⟨key, -, hkey⟩ := wireText_ok hp.1
    obtain ⟨value, -, hvalue⟩ := wireText_ok hp.2
    rw [List.flatMap_cons]
    exact List.forall_mem_cons.2 ⟨⟨key, hkey⟩, List.forall_mem_cons.2 ⟨⟨value, hvalue⟩, ih⟩⟩

theorem Encoded.of_mem {p : String × String} (h : c.Encoded (pairs.flatMap fun p => [p.1, p.2]))
    (hp : p ∈ pairs) :
    (∃ key, p.1 = Percent.encode key (c.parameter.style == .label)) ∧
      ∃ value, p.2 = Percent.encode value (c.parameter.style == .label) :=
  ⟨h p.1 (List.mem_flatMap.2 ⟨p, hp, by simp⟩), h p.2 (List.mem_flatMap.2 ⟨p, hp, by simp⟩)⟩

/-- A character between pairs is in none of them. -/
theorem Encoded.not_mem_pair {ch : Char} (h : c.Encoded (pairs.flatMap fun p => [p.1, p.2]))
    (hch : Percent.isWire (c.parameter.style == .label) ch = false) (hne : ch ≠ '=') :
    ∀ s ∈ pairs.map fun p => pair p.1 p.2, ch ∉ s.toList := by
  intro s hs
  obtain ⟨p, hp, rfl⟩ := List.mem_map.1 hs
  obtain ⟨⟨key, hkey⟩, ⟨value, hvalue⟩⟩ := h.of_mem hp
  rw [toList_pair, hkey, hvalue, List.mem_append, List.mem_cons]
  rintro (hmem | rfl | hmem)
  · exact not_mem_encode hch hmem
  · exact hne rfl
  · exact not_mem_encode hch hmem

/-- Keys and values that alternate. -/
theorem piecesOf_join_commas (hne : pairs ≠ []) (h : c.Encoded (pairs.flatMap fun p => [p.1, p.2])) :
    piecesOf "," (join "," (pairs.map fun p => p.1 ++ "," ++ p.2)) =
      pairs.flatMap fun p => [p.1, p.2] := by
  obtain ⟨p, rest, rfl⟩ := List.exists_cons_of_ne_nil hne
  have hjoin : join "," ((p :: rest).map fun p => p.1 ++ "," ++ p.2) =
      join "," ((p :: rest).flatMap fun p => [p.1, p.2]) := join_pairs "," (p :: rest)
  rw [hjoin, piecesOf_join (by decide) h.clear_comma (by simp) (by simp)]

theorem isPairText_commas (h : c.Encoded (pairs.flatMap fun p => [p.1, p.2])) :
    IsPairText (join "," (pairs.map fun p => p.1 ++ "," ++ p.2)) := by
  have hjoin : join "," (pairs.map fun p => p.1 ++ "," ++ p.2) =
      join "," (pairs.flatMap fun p => [p.1, p.2]) := join_pairs "," pairs
  rw [hjoin]
  exact isPairText_join (by decide) h.isPairText

theorem map_cut_piecesOf (hne : pairs ≠ []) (h : c.Encoded (pairs.flatMap fun p => [p.1, p.2])) :
    (piecesOf "," (join "," (pairs.map fun p => pair p.1 p.2))).map (cut '=') =
      pairs.map fun p => (p.1, some p.2) := by
  have hclear : ∀ s ∈ pairs.map fun p => pair p.1 p.2, Text.Clear ",".toList s.toList := fun s hs =>
    Text.clear_of_not_mem (h.not_mem_pair (isWire_delimiter ',' (by simp) _) (by decide) s hs)
  have hblank : (pairs.map fun p => pair p.1 p.2) ≠ [""] := by
    intro hblank
    have hmem : "" ∈ pairs.map fun p => pair p.1 p.2 := by simp [hblank]
    obtain ⟨p, -, hp⟩ := List.mem_map.1 hmem
    simp [pair] at hp
  rw [piecesOf_join (by decide) hclear (by simpa using hne) hblank,
    map_cut_pair fun p hp => (h.of_mem hp).1.imp fun key hkey => ⟨_, hkey⟩]

theorem wireNames_ok (hnames : ∀ f ∈ fields, ∃ name, f.name = .str name) :
    ∃ declared, wireNames (fields.map (·.name)) = .ok declared ∧
      ∀ f ∈ fields, ∀ name, f.name = .str name → Percent.encode name false ∈ declared := by
  induction fields with
  | nil => exact ⟨[], rfl, List.forall_mem_nil _⟩
  | cons f rest ih =>
    obtain ⟨⟨name, hname⟩, hrest⟩ := List.forall_mem_cons.1 hnames
    obtain ⟨declared, hdeclared, hmem⟩ := ih hrest
    refine ⟨Percent.encode name false :: declared, ?_, ?_⟩
    · rw [wireNames, mapM_ok] at hdeclared ⊢
      rw [List.map_cons, hname]
      exact .cons rfl hdeclared
    · refine List.forall_mem_cons.2 ⟨fun name' hname' => ?_, fun g hg name' hname' => ?_⟩
      · rw [hname] at hname'
        cases hname'
        exact List.mem_cons_self
      · exact List.mem_cons_of_mem _ (hmem g hg name' hname')

/-- Pairs of a query string, each under the name of a field. -/
theorem decode_exploded_entries {additional : Additional Descriptor}
    (hloc : c.parameter.location = .query) (hshape : c.shape = .object)
    (hstyle : c.parameter.style = .form) (hexplode : c.parameter.explode = true)
    (hd : c.behind c.type = .ok (.object fields additional t))
    (hnames : ∀ f ∈ fields, ∃ name, f.name = .str name) (hentries : c.HasEntries fields entries)
    (hpairs : c.EntryTexts entries pairs) (hne : pairs ≠ []) :
    c.decode (some (join "&" (pairs.map fun p => pair p.1 p.2))) =
      c.readEntries (pairs.map fun p => (p.1, some p.2)) := by
  have hkeys : ∀ p ∈ pairs, ∃ s, p.1 = Percent.encode s false := by
    intro p hp
    obtain ⟨key, hkey⟩ := (hpairs.encoded.of_mem hp).1
    rw [hstyle] at hkey
    exact ⟨key, hkey⟩
  have hsplit : pairsOf '&' (join "&" (pairs.map fun p => pair p.1 p.2)) = pairs :=
    pairsOf_join pairs (.inl rfl) hne hkeys fun p hp =>
      hpairs.encoded.isPairText p.2 (List.mem_flatMap.2 ⟨p, hp, by simp⟩)
  obtain ⟨declared, hdeclared, hmem⟩ := wireNames_ok hnames
  -- every key is the name of a field, so none of the pairs is dropped
  have hown : ∀ p ∈ pairs, p.1 ∈ declared := by
    intro p hp
    obtain ⟨e, he, hep⟩ := Outcome.exists_mem_of_forall₂ hpairs.flip hp
    obtain ⟨key, f, hkey, hf, -⟩ := hentries e he
    obtain ⟨text, htext, hp⟩ := wireText_ok hep.1
    obtain ⟨name, hname⟩ := hnames f (List.mem_of_find?_eq_some hf)
    have hsame : f.name.same e.1 = true := by simpa using List.find?_some hf
    rw [hkey] at htext hsame
    rw [hname] at hsame
    have htext : key = text := Except.ok.inj htext
    have heq : name = key := by simpa [Scalar.same] using hsame
    rw [hstyle] at hp
    rw [hp, ← htext, ← heq]
    exact hmem f (List.mem_of_find?_eq_some hf) name hname
  have hfilter : (pairs.filter fun p => declared.contains p.1) = pairs := by
    rw [List.filter_eq_self]
    intro p hp
    simpa using hown p hp
  have hexploded : c.decodeExploded pairs = c.readEntries (pairs.map fun p => (p.1, some p.2)) := by
    have hfields : c.fieldNames = .ok (fields.map (·.name)) := by
      rw [fieldNames, hd]
      rfl
    unfold decodeExploded
    simp only [hfields, hdeclared, hfilter, bind, Except.bind]
  unfold decode
  rw [hloc]
  dsimp only
  rw [hsplit, decodePairs, if_neg (by simp [hshape]), if_pos (by simp [hshape, hstyle, hexplode]),
    hexploded]

/-- The texts of the entries of an object, from which the object is read. -/
structure ObjectTexts (c : Codec) (entries : List (Scalar × Value))
    (pairs : List (String × String)) : Prop where
  shape : c.shape = .object
  encoded : c.Encoded (pairs.flatMap fun p => [p.1, p.2])
  ne_nil : pairs ≠ []
  read : c.readEntries (pairs.map fun p => (p.1, some p.2)) = .ok (.map entries)

namespace ObjectTexts
variable {entries : List (Scalar × Value)} {pairs : List (String × String)}

theorem key (h : c.ObjectTexts entries pairs) :
    ∀ p ∈ pairs, ∃ s dot, p.1 = Percent.encode s dot :=
  fun _ hp => (h.encoded.of_mem hp).1.imp fun _ hkey => ⟨_, hkey⟩

theorem readAlternating_eq (h : c.ObjectTexts entries pairs) (name : String) :
    c.readAlternating name (pairs.flatMap fun p => [p.1, p.2]) = .ok (.map entries) := by
  rw [readAlternating, alternating_flatMap]
  exact h.read

theorem decodeSimple_pairs (h : c.ObjectTexts entries pairs) (hexplode : c.parameter.explode = true) :
    c.decodeSimple (join "," (pairs.map fun p => pair p.1 p.2)) = .ok (.map entries) := by
  simp [decodeSimple, h.shape, hexplode, map_cut_piecesOf h.ne_nil h.encoded, h.read]

theorem decodeSimple_commas (h : c.ObjectTexts entries pairs)
    (hexplode : c.parameter.explode = false) :
    c.decodeSimple (join "," (pairs.map fun p => p.1 ++ "," ++ p.2)) = .ok (.map entries) := by
  simp [decodeSimple, h.shape, hexplode, piecesOf_join_commas h.ne_nil h.encoded,
    h.readAlternating_eq]

theorem decodeLabel_pairs (h : c.ObjectTexts entries pairs) (hstyle : c.parameter.style = .label)
    (hexplode : c.parameter.explode = true) :
    c.decodeLabel ("." ++ join "." (pairs.map fun p => pair p.1 p.2)) =
      .ok (.map entries) := by
  have hsplit : (split '.' (join "." (pairs.map fun p => pair p.1 p.2))).map
      (cut '=') = _ := split_pairs h.ne_nil h.key
    (h.encoded.not_mem_pair (by rw [hstyle]; decide) (by decide))
  simp [decodeLabel, h.shape, hexplode, hsplit, h.read]

theorem decodeLabel_dots (h : c.ObjectTexts entries pairs) (hstyle : c.parameter.style = .label)
    (hexplode : c.parameter.explode = false) :
    c.decodeLabel ("." ++ join "." (pairs.flatMap fun p => [p.1, p.2])) =
      .ok (.map entries) := by
  have hflat : (pairs.flatMap fun p => [p.1, p.2]) ≠ [] := by
    obtain ⟨p, rest, rfl⟩ := List.exists_cons_of_ne_nil h.ne_nil
    simp
  have hsplit : split '.' (join "." (pairs.flatMap fun p => [p.1, p.2])) = _ :=
    split_join hflat (h.encoded.not_mem (by rw [hstyle]; decide))
  simp [decodeLabel, h.shape, hexplode, hsplit, h.readAlternating_eq]

theorem decodeMatrix_pairs (h : c.ObjectTexts entries pairs) :
    c.decodeMatrix (";" ++ join ";" (pairs.map fun p => pair p.1 p.2)) = .ok (.map entries) := by
  have hsplit : (split ';' (join ";" (pairs.map fun p => pair p.1 p.2))).map
      (cut '=') = _ := split_pairs h.ne_nil h.key
    (h.encoded.not_mem_pair (isWire_delimiter ';' (by simp) _) (by decide))
  rw [decodeMatrix_semicolon, if_pos (by simp [h.shape]), hsplit, h.read]

/-- The entries of a parameter in one pair. -/
theorem decode_commas (h : c.ObjectTexts entries pairs)
    (hloc : c.parameter.location = .query ∨ c.parameter.location = .cookie)
    (hexplode : c.parameter.explode = false)
    (hstyle : c.parameter.style = .simple ∨ c.parameter.style = .form) :
    c.decode (some (pair c.wireName (join "," (pairs.map fun p => p.1 ++ "," ++ p.2)))) =
      .ok (.map entries) := by
  rw [decode_pair hloc (by simp [h.shape]) (by simp [hexplode]) (isPairText_commas h.encoded)]
  rcases hstyle with hstyle | hstyle
  · simp [decodeValue, h.shape, hstyle, h.decodeSimple_commas hexplode]
  · simp [decodeValue, h.shape, hstyle, hexplode, piecesOf_join_commas h.ne_nil h.encoded,
      h.readAlternating_eq]

end ObjectTexts

theorem decode_encodeObject {additional : Additional Descriptor} (hc : c.Accepted)
    (hshape : c.shape = .object) (hd : c.behind c.type = .ok (.object fields additional t))
    (hnames : ∀ f ∈ fields, ∃ name, f.name = .str name) (hentries : c.HasEntries fields entries)
    (hkeys : (entries.map Prod.fst).Nodup) (hne : entries ≠ [])
    (hw : c.encodeObject (.map entries) = .ok w) : c.decode (some w) = .ok (.map entries) := by
  obtain ⟨entries', hentries', hw⟩ := bind_ok.1 hw
  cases hentries'
  obtain ⟨pairs, hpairs, hw⟩ := bind_ok.1 hw
  have hpairs : c.EntryTexts entries pairs := entryTexts_of_mapM hpairs
  have hpne : pairs ≠ [] := by
    rintro rfl
    cases hpairs
    exact hne rfl
  have h : c.ObjectTexts entries pairs :=
    ⟨hshape, hpairs.encoded, hpne, readEntries_wireText hd hentries hkeys hpairs⟩
  have hcontent : c.shape ≠ .content := by simp [hshape]
  have hcookie := hc.location_ne_cookie (by simp [hshape])
  dsimp only at hw
  rcases Style.allows_cases hc.allows with ⟨hstyle, hloc⟩ | ⟨hstyle, hloc⟩ | ⟨hstyle, hloc⟩ |
    ⟨hstyle, hloc⟩ | ⟨hstyle, hloc⟩ | ⟨hstyle, hloc⟩
  · -- simple, in a path or a header
    have hname : ∀ text, c.nameCookie text = text := by
      intro text
      rcases hloc with hloc | hloc <;> simp [nameCookie, hloc]
    rw [decode_segment hloc hcontent, decodeSegment, hstyle]
    rw [hstyle] at hw
    cases hexplode : c.parameter.explode with
    | true =>
      rw [hexplode] at hw
      rw [← pure_ok.1 hw, hname]
      exact h.decodeSimple_pairs hexplode
    | false =>
      rw [hexplode] at hw
      rw [← pure_ok.1 hw, hname]
      exact h.decodeSimple_commas hexplode
  · -- simple, in a cookie
    have hexplode : c.parameter.explode = false :=
      Bool.eq_false_iff.2 fun hexplode => hcookie hexplode hloc
    have hname : ∀ text, c.nameCookie text = pair c.wireName text := by simp [nameCookie, hloc]
    rw [hstyle, hexplode] at hw
    rw [← pure_ok.1 hw, hname]
    exact h.decode_commas (.inr hloc) hexplode (.inl hstyle)
  · -- label
    rw [decode_segment (.inl hloc) hcontent, decodeSegment, hstyle]
    rw [hstyle] at hw
    cases hexplode : c.parameter.explode with
    | true =>
      rw [hexplode] at hw
      have hw : "." ++ join "." (pairs.map fun p => pair p.1 p.2) = w := by
        rw [← join_map_append (by simpa using hpne)]
        exact pure_ok.1 hw
      rw [← hw]
      exact h.decodeLabel_pairs hstyle hexplode
    | false =>
      rw [hexplode] at hw
      have hjoin : join "." (pairs.map fun p => p.1 ++ "." ++ p.2) =
          join "." (pairs.flatMap fun p => [p.1, p.2]) := join_pairs "." pairs
      have hw : "." ++ join "." (pairs.flatMap fun p => [p.1, p.2]) = w := by
        rw [← hjoin, ← join_map_append (by simpa using hpne), List.map_map]
        simpa [Function.comp_def, String.append_assoc] using pure_ok.1 hw
      rw [← hw]
      exact h.decodeLabel_dots hstyle hexplode
  · -- matrix: pairs behind semicolons, exploded or not
    rw [decode_segment (.inl hloc) hcontent, decodeSegment, hstyle]
    rw [hstyle] at hw
    have hw : ";" ++ join ";" (pairs.map fun p => pair p.1 p.2) = w := by
      rw [← join_map_append (by simpa using hpne)]
      exact pure_ok.1 hw
    rw [← hw]
    exact h.decodeMatrix_pairs
  · -- form
    rw [hstyle] at hw
    cases hexplode : c.parameter.explode with
    | true =>
      rw [hexplode] at hw
      have hquery : c.parameter.location = .query := hloc.resolve_right (hcookie hexplode)
      have hdecode := decode_exploded_entries hquery hshape hstyle hexplode hd hnames hentries
        hpairs hpne
      rw [← pure_ok.1 hw]
      exact hdecode.trans h.read
    | false =>
      rw [hexplode] at hw
      rw [← pure_ok.1 hw]
      exact h.decode_commas hloc hexplode (.inr hstyle)
  · -- the delimited styles are refused for objects
    exact (hc.not_delimited (by simp [hshape]) hstyle).elim

/-! ### All flat shapes -/

theorem Carries.shape_ne (h : c.Carries v) : c.shape ≠ .content ∧ c.shape ≠ .deepObject := by
  cases h <;> simp [*]

/-- Whatever its style and location, a parameter of a flat shape is read as it was written. -/
theorem decode_encode {p : Parameter} {m : Mapper} {st st' : MapState}
    (hcodec : (p.codec m).run.run st = (.ok c, st')) (hv : c.Carries v)
    (hw : c.encode v = .ok w) : c.decode (some w) = .ok v := by
  have hc : c.Accepted := Parameter.accepted_of_codec hcodec hv.shape_ne.1 hv.shape_ne.2
  cases hv with
  | scalar hshape hv =>
    have hencode : c.encode v = c.encodeScalar v := by
      have hnull := hv.ne_null
      unfold encode
      split
      · exact absurd rfl hnull
      · rw [hshape]
    exact decode_encodeScalar hc hshape hv (hencode.symm.trans hw)
  | array hshape hd hvs hne hblank =>
    rw [encode, hshape] at hw
    · exact decode_encodeArray hc hshape hd hvs hne hblank hw
    · simp
  | object hshape hd hnames hentries hkeys hne =>
    rw [encode, hshape] at hw
    · exact decode_encodeObject hc hshape hd hnames hentries hkeys hne hw
    · simp

/-- A query parameter whose name holds delimiters. -/
def labels : Parameter :=
  { name := "a b&c", location := .query, style := .spaceDelimited, explode := false,
    required := false, schema := some "#/labels" }

def labelsMapper : Mapper :=
  { table := { nodes := [
      ("#/labels/items", { id := "#/labels/items", kind := .primitive, type := .str "string" }),
      ("#/labels", { id := "#/labels", kind := .array, items := some "#/labels/items" })] }
    recursive := []
    names := [] }

def labelsCodec : Codec :=
  { parameter := labels
    shape := .array
    type := .array (.primitive .string { source := some "#/labels/items" })
      { source := some "#/labels" }
    types := [] }

theorem labels_decode_encode :
    (∃ st, (labels.codec labelsMapper).run.run {} = (.ok labelsCodec, st)) ∧
    labelsCodec.Carries (.list [.str "x,y", .str "é=50%"]) ∧
    labelsCodec.encode (.list [.str "x,y", .str "é=50%"]) =
      .ok "a%20b%26c=x%2Cy%20%C3%A9%3D50%25" ∧
    labelsCodec.decode (some "a%20b%26c=x%2Cy%20%C3%A9%3D50%25") =
      .ok (.list [.str "x,y", .str "é=50%"]) := by
  have hcodec : (labels.codec labelsMapper).run.run {} = (.ok labelsCodec, _) := rfl
  have hcarries : labelsCodec.Carries (.list [.str "x,y", .str "é=50%"]) := by
    refine .array rfl rfl (fun v hv => ?_) (by simp) (by simp)
    have hitems : v = .str "x,y" ∨ v = .str "é=50%" := by simpa using hv
    rcases hitems with rfl | rfl
    · exact .text rfl rfl rfl _
    · exact .text rfl rfl rfl _
  have hencode : labelsCodec.encode (.list [.str "x,y", .str "é=50%"]) =
      .ok "a%20b%26c=x%2Cy%20%C3%A9%3D50%25" := by rfl
  exact ⟨⟨_, hcodec⟩, hcarries, hencode, decode_encode hcodec hcarries hencode⟩

end OpenApi.Codec
