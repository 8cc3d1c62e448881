import OpenApi.Proofs.Wire.Scalar

/-!
Items and entries on the wire: the pieces that a reader cuts a text into are those that a writer put
together, and reading the pieces gives back the items or entries.
-/
namespace OpenApi

namespace Codec

variable {c : Codec} {w : String} {s : String} {ch sep : Char} {t : Traits} {ws : List String}

/-! ### Delimiters -/

/-- No delimiter stands in encoded text. -/
theorem isWire_delimiter : ∀ ch ∈ [',', ';', '=', '&', '|', '?'], ∀ dot,
    Percent.isWire dot ch = false := by
  intro ch hch dot
  simp only [List.mem_cons, List.not_mem_nil, or_false] at hch
  rcases hch with rfl | rfl | rfl | rfl | rfl | rfl <;> cases dot <;> decide

theorem not_mem_encode {dot : Bool} (h : Percent.isWire dot ch = false) :
    ch ∉ (Percent.encode s dot).toList := by
  intro hmem
  rw [Percent.isWire_of_mem_encode hmem] at h
  cases h

/-- Encoded text without an encoded blank is clear of it: every `%` opens a triple of its own. -/
theorem clear_space {dot : Bool} (h : Text.contains (Percent.encode s dot) "%20" = false) :
    Text.Clear "%20".toList (Percent.encode s dot).toList := by
  intro before behind hcs hne rest hpre
  cases behind with
  | nil => exact hne rfl
  | cons ch behind =>
    change ['%', '2', '0'] <+: ch :: behind ++ rest at hpre
    rw [List.cons_append, List.cons_prefix_cons] at hpre
    obtain ⟨rfl, hpre⟩ := hpre
    have hlen := Percent.whole_encode s dot before behind hcs
    have hwhole : ['2', '0'] <+: behind :=
      List.prefix_of_prefix_length_le hpre (List.prefix_append behind rest) hlen
    have hcontains : Text.containsList "%20".toList (Percent.encode s dot).toList = true := by
      rw [hcs]
      exact Text.containsList_append (List.cons_prefix_cons.2 ⟨rfl, hwhole⟩)
    rw [Text.contains, hcontains] at h
    cases h

/-- The characters of encoded text, of what delimits lists, and of what joins keys and values. -/
def isPairChar (ch : Char) : Bool :=
  Percent.isWire false ch || ch == ',' || ch == '|' || ch == '='

theorem isPairChar_cases (h : isPairChar ch = true) :
    Percent.isWire false ch = true ∨ ch = ',' ∨ ch = '|' ∨ ch = '=' := by
  simpa [isPairChar, or_assoc] using h

theorem isBlank_of_isPairChar (h : isPairChar ch = true) : Text.isBlank ch = false := by
  have hrange : 0x21 ≤ ch.toNat ∧ ch.toNat ≤ 0x7e := by
    rcases isPairChar_cases h with hwire | rfl | rfl | rfl
    · exact Percent.toNat_of_isWire hwire
    all_goals decide
  simp [Text.isBlank, Text.blankRanges, Text.Ranges.has]
  omega

/-- Text that can be a pair of a query string or cookie header, or a part of one. -/
def IsPairText (s : String) : Prop := ∀ ch ∈ s.toList, isPairChar ch = true

instance : DecidablePred IsPairText := fun s => List.decidableBAll _ s.toList

theorem IsPairText.not_mem (h : IsPairText s) (hch : isPairChar ch = false) : ch ∉ s.toList := by
  intro hmem
  rw [h ch hmem] at hch
  cases hch

theorem isPairText_encode (s : String) (dot : Bool) : IsPairText (Percent.encode s dot) := by
  intro ch hch
  have hwire : Percent.isWire false ch = true := by
    have hdot := Percent.isWire_of_mem_encode hch
    cases dot with
    | false => exact hdot
    | true => exact Percent.isWire_true hdot
  simp [isPairChar, hwire]

theorem isPairText_join {sep : String} {ss : List String} (hsep : IsPairText sep)
    (h : ∀ s ∈ ss, IsPairText s) : IsPairText (Text.join sep ss) := by
  intro ch hch
  rcases Text.mem_toList_join hch with hch | ⟨s, hs, hch⟩
  · exact hsep ch hch
  · exact h s hs ch hch

theorem toList_pair (key value : String) :
    (pair key value).toList = key.toList ++ '=' :: value.toList := by
  simp [pair]

theorem isPairText_pair {key value : String} (hkey : IsPairText key) (hvalue : IsPairText value) :
    IsPairText (pair key value) := by
  intro ch hch
  rw [toList_pair, List.mem_append, List.mem_cons] at hch
  rcases hch with hch | rfl | hch
  · exact hkey ch hch
  · rfl
  · exact hvalue ch hch

/-- The pair that a chunk of a query string or cookie header is cut into. -/
def pairIn (chunk : String) : String × String :=
  ((Text.cut '=' chunk).1, (Text.cut '=' chunk).2.getD "")

theorem pairIn_pair {key value : String} (h : '=' ∉ key.toList) :
    pairIn (pair key value) = (key, value) := by
  rw [pairIn, pair, Text.cut_pair h]
  rfl

/-- The pairs of a query string or cookie header are those of its chunks. -/
theorem pairsOf_eq_map (sep : Char) (raw : String) : pairsOf sep raw =
    (((Text.split sep (String.ofList (raw.toList.dropWhile (· == '?')))).map Text.trim).filter
      (!·.isEmpty)).map pairIn := by
  have htrim : (Text.split sep (String.ofList (raw.toList.dropWhile (· == '?')))).map Text.trim =
      ((Text.splitList sep (raw.toList.dropWhile (· == '?'))).map
        (Text.trimList Text.isBlank)).map String.ofList := by
    simp [Text.split, Text.trim, Function.comp_def]
  have hempty : (fun s : String => !s.isEmpty) ∘ String.ofList = fun cs : List Char => !cs.isEmpty := by
    funext cs
    rw [Bool.eq_iff_iff]
    simp
  rw [htrim, List.filter_map, hempty, List.map_map]
  unfold pairsOf
  apply List.map_congr_left
  intro cs _
  rw [Function.comp_apply, pairIn, Text.cut, String.toList_ofList]
  cases h : (Text.cutList '=' cs).2 <;> simp [h]

/-- Chunks that are joined come apart again if they are free of the separator. Those that are blank are
dropped, and so are question marks at the start. -/
theorem pairsOf_join_chunks {chunks : List String} (hne : chunks ≠ [])
    (hclear : ∀ s ∈ chunks, sep ∉ s.toList)
    (hstart : ∀ rest, (Text.join (String.singleton sep) chunks).toList ≠ '?' :: rest) :
    pairsOf sep (Text.join (String.singleton sep) chunks) =
      ((chunks.map Text.trim).filter (!·.isEmpty)).map pairIn := by
  have hquestion : (Text.join (String.singleton sep) chunks).toList.dropWhile (· == '?') =
      (Text.join (String.singleton sep) chunks).toList := by
    cases htext : (Text.join (String.singleton sep) chunks).toList with
    | nil => rfl
    | cons ch rest =>
      have hch : ch ≠ '?' := by
        rintro rfl
        exact hstart rest htext
      rw [List.dropWhile_cons_of_neg (by simpa using hch)]
  rw [pairsOf_eq_map, hquestion, String.ofList_toList, Text.split_join hne hclear]

/-- The characters of keys: those of encoded text and brackets. -/
def IsKeyText (s : String) : Prop :=
  ∀ ch ∈ s.toList, Percent.isWire false ch = true ∨ ch = '[' ∨ ch = ']'

theorem IsKeyText.not_mem (h : IsKeyText s) (hwire : Percent.isWire false ch = false) (hopen : ch ≠ '[')
    (hclose : ch ≠ ']') :
    ch ∉ s.toList := by
  intro hmem
  rcases h ch hmem with h | h | h
  · rw [h] at hwire
    cases hwire
  · exact hopen h
  · exact hclose h

theorem isKeyText_encode (s : String) : IsKeyText (Percent.encode s false) :=
  fun _ hch => .inl (Percent.isWire_of_mem_encode hch)

section
variable {key value : String} (hkey : IsKeyText key) (hvalue : IsPairText value)
include hkey hvalue

theorem mem_toList_pair (h : ch ∈ (pair key value).toList) :
    isPairChar ch = true ∨ ch = '[' ∨ ch = ']' := by
  rw [toList_pair, List.mem_append, List.mem_cons] at h
  rcases h with h | rfl | h
  · exact (hkey ch h).imp_left fun hwire => by simp [isPairChar, hwire]
  · exact .inl rfl
  · exact .inl (hvalue ch h)

/-- What parts and opens query strings and cookie headers stands in no pair. -/
theorem not_mem_pair (h : ch ∈ ['&', ';', '?']) : ch ∉ (pair key value).toList := by
  intro hmem
  simp only [List.mem_cons, List.not_mem_nil, or_false] at h
  rcases h with rfl | rfl | rfl <;>
    rcases mem_toList_pair hkey hvalue hmem with h | h | h <;> revert h <;> decide

theorem trim_pair : Text.trim (pair key value) = pair key value := by
  rw [Text.trim, Text.trimList_of_all, String.ofList_toList]
  intro ch hch
  rcases mem_toList_pair hkey hvalue hch with h | rfl | rfl
  · exact isBlank_of_isPairChar h
  · decide
  · decide

end

/-- The pairs of a query string or cookie header whose keys are of encoded text and brackets. -/
theorem pairsOf_join_keys (pairs : List (String × String)) (hsep : sep = '&' ∨ sep = ';')
    (hne : pairs ≠ []) (hkey : ∀ p ∈ pairs, IsKeyText p.1) (hvalue : ∀ p ∈ pairs, IsPairText p.2) :
    pairsOf sep (Text.join (String.singleton sep) (pairs.map fun p => pair p.1 p.2)) = pairs := by
  have htexts : ∀ s ∈ pairs.map fun p => pair p.1 p.2, ∃ p ∈ pairs, pair p.1 p.2 = s :=
    fun s hs => List.mem_map.1 hs
  have htrim : (pairs.map fun p => pair p.1 p.2).map Text.trim = pairs.map fun p => pair p.1 p.2 := by
    rw [List.map_map]
    exact List.map_congr_left fun p hp => trim_pair (hkey p hp) (hvalue p hp)
  have hpairs : pairsOf sep (Text.join (String.singleton sep) (pairs.map fun p => pair p.1 p.2)) =
      (((pairs.map fun p => pair p.1 p.2).map Text.trim).filter (!·.isEmpty)).map pairIn :=
    pairsOf_join_chunks (by simpa using hne) ?_ ?_
  · rw [hpairs, htrim, List.filter_eq_self.2, List.map_map]
    · conv_rhs => rw [← List.map_id pairs]
      apply List.map_congr_left
      intro p hp
      exact pairIn_pair ((hkey p hp).not_mem (by decide) (by decide) (by decide))
    · intro s hs
      obtain ⟨p, -, rfl⟩ := htexts s hs
      simp [pair]
  · intro s hs
    obtain ⟨p, hp, rfl⟩ := htexts s hs
    exact not_mem_pair (hkey p hp) (hvalue p hp) (by rcases hsep with rfl | rfl <;> simp)
  · intro rest htext
    have hmem : '?' ∈ (Text.join (String.singleton sep) (pairs.map fun p => pair p.1 p.2)).toList := by
      rw [htext]
      exact List.mem_cons_self ..
    rcases Text.mem_toList_join hmem with hmem | ⟨s, hs, hmem⟩
    · rcases hsep with rfl | rfl <;> simp at hmem
    · obtain ⟨p, hp, rfl⟩ := htexts s hs
      exact not_mem_pair (hkey p hp) (hvalue p hp) (by simp) hmem

theorem pairsOf_join (pairs : List (String × String)) (hsep : sep = '&' ∨ sep = ';') (hne : pairs ≠ [])
    (hkey : ∀ p ∈ pairs, ∃ s, p.1 = Percent.encode s false) (hvalue : ∀ p ∈ pairs, IsPairText p.2) :
    pairsOf sep (Text.join (String.singleton sep) (pairs.map fun p => pair p.1 p.2)) = pairs := by
  refine pairsOf_join_keys pairs hsep hne (fun p hp => ?_) hvalue
  obtain ⟨s, hs⟩ := hkey p hp
  exact hs ▸ isKeyText_encode s

/-! ### Items -/

theorem readItems_wireText {d : Descriptor} {vs : List Value} (hd : c.behind c.type = .ok (.array d t))
    (hvs : ∀ v ∈ vs, c.HasScalar d v) (hws : List.Forall₂ (fun v w => c.wireText v = .ok w) vs ws) :
    c.readItems ws = .ok (.list vs) := by
  have hread : ws.mapM (fun w => c.read w d) = .ok vs := by
    rw [Outcome.mapM_ok]
    induction hws with
    | nil => exact .nil
    | cons hw _ ih =>
      obtain ⟨hv, hvs⟩ := List.forall_mem_cons.1 hvs
      exact .cons (read_wireText hv hw) (ih hvs)
  unfold readItems
  rw [hd]
  change (do return Value.list (← ws.mapM fun w => c.read w d)) = _
  rw [hread]
  rfl

/-- Items that are joined come apart again, unless there is nothing to see of them. -/
theorem piecesOf_join {sep : String} (hsep : sep ≠ "")
    (hclear : ∀ w ∈ ws, Text.Clear sep.toList w.toList) (hne : ws ≠ []) (hblank : ws ≠ [""]) :
    piecesOf sep (Text.join sep ws) = ws := by
  have htext : Text.join sep ws ≠ "" := by
    rw [Ne, Text.join_eq_empty_iff hsep]
    exact not_or.2 ⟨hne, hblank⟩
  rw [piecesOf, if_neg (by simpa using htext), Text.splitSeq_join hsep hne hclear]

/-- Only an empty text is written as one. -/
theorem wireTexts_ne_blank {vs : List Value}
    (hws : List.Forall₂ (fun v w => c.wireText v = .ok w) vs ws) (hblank : vs ≠ [.str ""]) :
    ws ≠ [""] := by
  rintro rfl
  cases hws with
  | cons hw hrest =>
    cases hrest
    obtain ⟨text, htext, hempty⟩ := wireText_ok hw
    rw [Percent.encode_eq_empty_iff.1 hempty.symm] at htext
    exact hblank (by rw [scalarText_ne_empty htext])

/-! ### Entries -/

/-- The texts of the keys and values of some entries. -/
def EntryTexts (c : Codec) (entries : List (Scalar × Value)) (pairs : List (String × String)) :
    Prop :=
  List.Forall₂ (fun e p => c.wireText (.scalar e.1) = .ok p.1 ∧ c.wireText e.2 = .ok p.2)
    entries pairs

/-- Entries under names of fields, with values of their types. -/
def HasEntries (c : Codec) (fields : List Field) (entries : List (Scalar × Value)) : Prop :=
  ∀ e ∈ entries, ∃ key f, e.1 = .str key ∧ fields.find? (fun f => f.name.same e.1) = some f ∧
    c.HasScalar f.type e.2

theorem readEntry_wireText {fields : List Field} {additional : Additional Descriptor} {key : String}
    {f : Field} {v : Value} {p : String × String}
    (hf : fields.find? (fun f => f.name.same (.str key)) = some f) (hv : c.HasScalar f.type v)
    (hkey : c.wireText (.str key) = .ok p.1) (hw : c.wireText v = .ok p.2) :
    c.readEntry (.object fields additional t) (p.1, some p.2) = .ok (.str key, v) := by
  obtain ⟨text, htext, hp⟩ := wireText_ok hkey
  cases htext
  have hmember : member (.object fields additional t) (.str key) = f.type := by
    simp [member, hf]
  unfold readEntry
  rw [hp]
  simp only [percentDecode, Percent.decode?_encode]
  change (do return (Scalar.str key, ← c.read p.2 (member _ (.str key)))) = _
  rw [hmember, read_wireText hv hw]
  rfl

theorem readEntries_wireText {fields : List Field} {additional : Additional Descriptor}
    {entries : List (Scalar × Value)} {pairs : List (String × String)}
    (hd : c.behind c.type = .ok (.object fields additional t)) (hentries : c.HasEntries fields entries)
    (hkeys : (entries.map Prod.fst).Nodup) (hpairs : c.EntryTexts entries pairs) :
    c.readEntries (pairs.map fun p => (p.1, some p.2)) = .ok (.map entries) := by
  have hread : (pairs.map fun p => (p.1, some p.2)).mapM
      (c.readEntry (.object fields additional t)) = .ok entries := by
    rw [Outcome.mapM_ok]
    clear hkeys
    induction hpairs with
    | nil => exact .nil
    | @cons e p es ps hep _ ih =>
      obtain ⟨⟨key, f, hkey, hf, hv⟩, hrest⟩ := List.forall_mem_cons.1 hentries
      obtain ⟨k, v⟩ := e
      cases hkey
      exact .cons (readEntry_wireText hf hv hep.1 hep.2) (ih hrest)
  have htext : ∀ e ∈ entries, ∃ key, e.1 = .str key := by
    intro e he
    obtain ⟨key, -, hkey, -⟩ := hentries e he
    exact ⟨key, hkey⟩
  unfold readEntries
  rw [hd]
  change (do return Value.map (Entries.ofList (← List.mapM (c.readEntry _) _))) = _
  rw [hread]
  change Except.ok (Value.map (Entries.ofList entries)) = _
  rw [Entries.ofList_of_nodup htext hkeys]

theorem alternating_flatMap (pairs : List (String × String)) :
    alternating (pairs.flatMap fun p => [p.1, p.2]) = some (pairs.map fun p => (p.1, some p.2)) := by
  induction pairs with
  | nil => rfl
  | cons p rest ih =>
    rw [List.flatMap_cons]
    simp [alternating, ih]

end Codec
end OpenApi
