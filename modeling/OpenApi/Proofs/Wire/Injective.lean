import OpenApi.Proofs.Wire.RoundTrip

/-!
Which arrays share a wire text. The items of an array that is not exploded are joined by a delimiter that
none of them holds, so they come apart again; what is lost is the number of items where all of them come
to nothing, as no item and one empty item are joined to the same text.
-/
namespace OpenApi.Codec

variable {c : Codec} {w : String} {vs : List Value} {ws : List String}

/-- What stands around the items of an array that is not exploded. -/
def frame (c : Codec) (text : String) : String :=
  match c.parameter.style with
  | .simple => c.nameCookie text
  | .matrix => ";" ++ pair c.wireName text
  | _ => pair c.wireName text

theorem pair_inj {key value value' : String} (h : pair key value = pair key value') : value = value' := by
  simpa [pair] using h

theorem frame_inj : Function.Injective c.frame := by
  intro text text' h
  unfold frame nameCookie at h
  split at h
  · split at h
    · exact pair_inj h
    · exact h
  · exact pair_inj (by simpa using h)
  · exact pair_inj h

/-- How the items of an array that is not exploded are written. -/
theorem encodeArray_joined (hc : c.Accepted) (hexplode : c.parameter.explode = false)
    (hws : vs.mapM c.wireText = .ok ws) (hw : c.encodeArray (.list vs) = .ok w) :
    (c.parameter.style = .label ∧ w = String.join (ws.map ("." ++ ·)) ∧
        ∀ t ∈ ws, Text.Clear ".".toList t.toList) ∨
      (c.parameter.style ≠ .label ∧ w = c.frame (Text.join c.delimiter ws) ∧
        ∀ t ∈ ws, Text.Clear c.delimiter.toList t.toList) := by
  have hencoded : c.Encoded ws := encoded_of_forall₂ (Outcome.mapM_ok.1 hws)
  have hquery : c.parameter.style = .form ∨ c.parameter.style = .spaceDelimited ∨
      c.parameter.style = .pipeDelimited → w = pair c.wireName (Text.join c.delimiter ws) ∧
        ∀ t ∈ ws, Text.Clear c.delimiter.toList t.toList := by
    intro hstyle
    rcases encodeArray_query hstyle hws hw with ⟨htrue, -⟩ | ⟨-, hany, rfl⟩
    · cases hexplode.symm.trans htrue
    · exact ⟨rfl, hencoded.clear_delimiter hany⟩
  obtain ⟨elements, helements, hw⟩ := Outcome.bind_ok.1 hw
  cases helements
  obtain ⟨ws', hws', hw⟩ := Outcome.bind_ok.1 hw
  cases hws.symm.trans hws'
  rw [hexplode] at hw
  unfold frame
  cases hstyle : c.parameter.style with
  | label =>
    rw [hstyle] at hw
    exact .inl ⟨rfl, (Outcome.pure_ok.1 hw).symm, fun t ht =>
      Text.clear_of_not_mem (hencoded.not_mem (by rw [hstyle]; decide) t ht)⟩
  | simple | matrix =>
    rw [hstyle] at hw
    have hcomma : c.delimiter = "," := by rw [delimiter, hstyle]; rfl
    rw [hcomma]
    exact .inr ⟨nofun, (Outcome.pure_ok.1 hw).symm, hencoded.clear_comma⟩
  | form => exact .inr ⟨nofun, hquery (.inl hstyle)⟩
  | spaceDelimited => exact .inr ⟨nofun, hquery (.inr (.inl hstyle))⟩
  | pipeDelimited => exact .inr ⟨nofun, hquery (.inr (.inr hstyle))⟩
  | deepObject => exact absurd hstyle hc.style_ne

theorem mapM_wireText_texts (as : List String) : (as.map Value.str).mapM c.wireText =
    .ok (as.map fun s => Percent.encode s (c.parameter.style == .label)) := by
  rw [Outcome.mapM_ok, List.forall₂_map_left_iff, List.forall₂_map_right_iff]
  exact List.forall₂_same.2 fun _ _ => rfl

theorem map_encode_inj {as bs : List String} {dot : Bool} :
    (as.map fun s => Percent.encode s dot) = (bs.map fun s => Percent.encode s dot) ↔ as = bs :=
  List.map_inj_right fun _ _ => Percent.encode_inj

theorem map_encode_blank {as : List String} {dot : Bool} :
    (as.map fun s => Percent.encode s dot) = [] ∨ (as.map fun s => Percent.encode s dot) = [""] ↔
      as = [] ∨ as = [""] := by
  have hblank : ([""].map fun s => Percent.encode s dot) = [""] := by
    simpa using Percent.encode_eq_empty_iff.2 rfl
  have hinj : (as.map fun s => Percent.encode s dot) = ([""].map fun s => Percent.encode s dot) ↔
      as = [""] := map_encode_inj
  rw [hblank] at hinj
  rw [List.map_eq_nil_iff, hinj]

/-- Two lists of texts share a wire text only if both of them come to nothing, and not even then where
each text is marked. -/
theorem encode_texts_eq_iff {p : Parameter} {m : Mapper} {st st' : MapState} {as bs : List String}
    {v w : String} (hcodec : (p.codec m).run.run st = (.ok c, st')) (hshape : c.shape = .array)
    (hexplode : c.parameter.explode = false) (ha : c.encode (.list (as.map .str)) = .ok v)
    (hb : c.encode (.list (bs.map .str)) = .ok w) :
    v = w ↔ as = bs ∨ c.parameter.style ≠ .label ∧ (as = [] ∨ as = [""]) ∧ (bs = [] ∨ bs = [""]) := by
  have hc : c.Accepted := Parameter.accepted_of_codec hcodec (by simp [hshape]) (by simp [hshape])
  have hencode : ∀ us, c.encode (.list us) = c.encodeArray (.list us) := by
    intro us
    rw [encode, hshape]
    rintro ⟨⟩
  rw [hencode] at ha hb
  rcases encodeArray_joined hc hexplode (mapM_wireText_texts as) ha with
    ⟨hlabel, rfl, hclear⟩ | ⟨hlabel, rfl, hclear⟩
  · obtain ⟨-, rfl, hclear'⟩ | ⟨hne, -⟩ := encodeArray_joined hc hexplode (mapM_wireText_texts bs) hb
    · rw [Text.join_map_append_inj (by decide) hclear hclear', map_encode_inj]
      simp [hlabel]
    · exact absurd hlabel hne
  · obtain ⟨heq, -⟩ | ⟨-, rfl, hclear'⟩ := encodeArray_joined hc hexplode (mapM_wireText_texts bs) hb
    · exact absurd heq hlabel
    · rw [frame_inj.eq_iff, Text.join_eq_join_iff delimiter_ne_empty hclear hclear', map_encode_inj,
        map_encode_blank, map_encode_blank, and_iff_right hlabel]

/-- An empty item leaves a delimiter, before the other item or behind it. -/
theorem labels_encode_texts :
    (∃ st, (labels.codec labelsMapper).run.run {} = (.ok labelsCodec, st)) ∧
    labelsCodec.encode (.list (["", ","].map .str)) = .ok "a%20b%26c=%20%2C" ∧
    labelsCodec.encode (.list ([",", ""].map .str)) = .ok "a%20b%26c=%2C%20" ∧
    ("a%20b%26c=%20%2C" = "a%20b%26c=%2C%20" ↔ ["", ","] = [",", ""] ∨
      labelsCodec.parameter.style ≠ .label ∧ (["", ","] = [] ∨ ["", ","] = [""]) ∧
        ([",", ""] = [] ∨ [",", ""] = [""])) := by
  have hcodec : (labels.codec labelsMapper).run.run {} = (.ok labelsCodec, _) := rfl
  have ha : labelsCodec.encode (.list (["", ","].map .str)) = .ok "a%20b%26c=%20%2C" := rfl
  have hb : labelsCodec.encode (.list ([",", ""].map .str)) = .ok "a%20b%26c=%2C%20" := rfl
  exact ⟨⟨_, hcodec⟩, ha, hb, encode_texts_eq_iff hcodec rfl rfl ha hb⟩

/-- No item and one empty item leave the same text. -/
theorem labels_encode_collision :
    (∃ st, (labels.codec labelsMapper).run.run {} = (.ok labelsCodec, st)) ∧
    labelsCodec.encode (.list []) = .ok "a%20b%26c=" ∧
    labelsCodec.encode (.list [.str ""]) = .ok "a%20b%26c=" :=
  ⟨⟨_, rfl⟩, rfl, rfl⟩

end OpenApi.Codec
