import OpenApi.Proofs.Wire.Alone
import OpenApi.Proofs.Wire.Nested
import OpenApi.Proofs.Wire.Request

/-!
The order of pairs. If no path leads through the end of another, the order of pairs is only that of keys.
A value and an object at one place are told apart just if the value comes first, so that pairs for both are
refused in one order and read in another.
-/
namespace OpenApi

theorem Text.not_mem_splitList {sep : Char} {cs piece : List Char} (h : piece ∈ splitList sep cs) :
    sep ∉ piece := by
  induction cs generalizing piece with
  | nil =>
    rw [splitList, List.mem_singleton] at h
    simp [h]
  | cons ch cs ih =>
    rw [splitList] at h
    by_cases hch : ch = sep
    · rw [if_pos (by simpa using hch), List.mem_cons] at h
      rcases h with rfl | h
      · simp
      · exact ih h
    · rw [if_neg (by simpa using hch)] at h
      cases hsplit : splitList sep cs with
      | nil => exact absurd hsplit (splitList_ne_nil sep cs)
      | cons first more =>
        rw [hsplit, consFirst, List.mem_cons] at h
        rcases h with rfl | h
        · have hfirst := ih (by rw [hsplit]; exact List.mem_cons_self)
          simpa using ⟨Ne.symm hch, hfirst⟩
        · exact ih (by rw [hsplit]; exact List.mem_cons_of_mem _ h)

namespace Codec

variable {c : Codec} {pair : String × String} {path : List String} {pairs : List (String × String)}

/-! ### Orders of pairs -/

theorem decodeDeep_first (htypes : c.HasTypes) {v : Value} (h : c.leafOf pair = .ok (some (path, v)))
    (rest : List (String × String)) :
    c.decodeDeep none (pair :: rest) =
      c.decodeDeep (some ((Value.map []).put path v).members) rest := by
  obtain ⟨e, he⟩ := htypes path
  have howns := (spells_of_leafOf htypes h).owns he
  obtain ⟨hclear, hnone⟩ := free_empty howns.ne_nil
  rw [howns.leafOf_eq] at h
  obtain ⟨w, hw, h⟩ := Outcome.bind_ok.1 h
  cases h
  rw [howns.clear none rest hclear, Option.getD_none, hnone, hw]
  rfl

theorem decodeDeep_first_error (htypes : c.HasTypes) {f : Fault} (h : c.leafOf pair = .error f)
    (rest : List (String × String)) :
    c.decodeDeep none (pair :: rest) = .error f := by
  cases c.meaning htypes pair with
  | malformed hleaf hrun =>
    rw [hrun]
    exact congrArg Except.error (Except.error.inj (hleaf.symm.trans h))
  | other hleaf => cases hleaf.symm.trans h
  | @own path e howns =>
    obtain ⟨hclear, hnone⟩ := free_empty howns.ne_nil
    rw [howns.clear none rest hclear, Option.getD_none, hnone]
    rw [howns.leafOf_eq] at h
    cases hv : c.leaf pair.2 e none with
    | error g =>
      rw [hv] at h
      cases h
      rfl
    | ok v =>
      rw [hv] at h
      cases h

/-- A value, then an object where it stands. -/
theorem refused_of_through (htypes : c.HasTypes) {a b : String × String} {p more : List String}
    {v : Value} (ha : c.leafOf a = .ok (some (p, v)))
    (hv : ∀ entries, v ≠ .map entries) (hb : c.Spells b (p ++ more)) (hmore : more ≠ [])
    (rest : List (String × String)) : Refused (c.decodeDeep none (a :: b :: rest)) := by
  obtain ⟨e, he⟩ := htypes (p ++ more)
  rw [decodeDeep_first htypes ha]
  apply (hb.owns he).blocked
  have hp : p ≠ [] := bracketPath?_ne_nil (spells_of_leafOf htypes ha)
  rw [Option.getD_some, Value.map_members_put _ _ hp]
  exact ⟨p, more, v, rfl, hmore, Value.at?_put_self (.map []) v p, hv⟩

/-- An object, then an array where it stands. -/
theorem wrongKind_of_through (htypes : c.HasTypes) {a b : String × String} {p more : List String}
    {w : Value} {items : Descriptor} {t : Traits}
    (ha : c.Spells a p) (hmore : more ≠ []) (hb : c.leafOf b = .ok (some (p ++ more, w)))
    (htype : c.typeAt c.type p = .ok (.array items t)) (rest : List (String × String)) :
    c.decodeDeep none (b :: a :: rest) = .error .wrongKind := by
  have howns := ha.owns htype
  have hne : p ++ more ≠ [] := bracketPath?_ne_nil (spells_of_leafOf htypes hb)
  obtain ⟨entries, hentries⟩ := Value.at?_put_above (.map []) w p hmore
  have hclear : ¬ ((Value.map []).put (p ++ more) w).Blocked p := by
    intro hblocked
    refine (free_empty howns.ne_nil).1 (hblocked.of_put ?_)
    rintro ⟨hpre, -⟩
    have hle := hpre.length_le
    rw [List.length_append] at hle
    exact hmore (List.length_eq_zero_iff.1 (by omega))
  have hbuilt : Value.map ((some ((Value.map []).put (p ++ more) w).members).getD []) =
      (Value.map []).put (p ++ more) w := Value.map_members_put _ _ hne
  rw [decodeDeep_first htypes hb, howns.clear _ _ (hbuilt ▸ hclear), hbuilt, hentries]
  rfl

theorem exists_perm_cons_cons {a b : String × String} (ha : a ∈ pairs) (hb : b ∈ pairs) (hne : a ≠ b) :
    ∃ rest, (a :: b :: rest).Perm pairs := by
  have hmem : b ∈ pairs.erase a := (List.mem_erase_of_ne hne.symm).2 hb
  exact ⟨(pairs.erase a).erase b,
    ((List.perm_cons_erase hmem).symm.cons a).trans (List.perm_cons_erase ha).symm⟩

/-- The length of the path of a pair. -/
def depth (c : Codec) (pair : String × String) : Nat := ((c.path? pair).getD []).length

theorem Spells.depth_eq (h : c.Spells pair path) : c.depth pair = path.length := by
  rw [depth, Option.mem_def.1 (mem_path?_iff.2 h), Option.getD_some]

/-- With longer paths first, no path leads through the end of an earlier one. -/
theorem exists_longest_first (c : Codec) (pairs : List (String × String)) :
    ∃ pairs' : List (String × String), pairs'.Perm pairs ∧
      pairs'.Pairwise fun a b => ¬ c.Through a b := by
  refine ⟨pairs.mergeSort fun a b => decide (c.depth b ≤ c.depth a), List.mergeSort_perm _ _, ?_⟩
  have hsorted : (pairs.mergeSort fun a b => decide (c.depth b ≤ c.depth a)).Pairwise
      fun a b => decide (c.depth b ≤ c.depth a) = true := by
    apply List.pairwise_mergeSort
    · intro x y z hxy hyz
      simp only [decide_eq_true_eq] at *
      omega
    · intro x y
      simp only [Bool.or_eq_true, decide_eq_true_eq]
      omega
  refine hsorted.imp fun {a b} hab => ?_
  rintro ⟨path, more, hmore, ha, hb⟩
  have hle : c.depth b ≤ c.depth a := of_decide_eq_true hab
  rw [ha.depth_eq, hb.depth_eq, List.length_append] at hle
  exact hmore (List.length_eq_zero_iff.1 (by omega))

/-- The pairs of a query string stand in any order in some query string. -/
theorem exists_pairsOf {raw : String} (hperm : pairs.Perm (pairsOf '&' raw)) :
    ∃ raw', pairsOf '&' raw' = pairs := by
  rw [pairsOf_eq_map, List.filter_map, List.map_map] at hperm
  -- the chunks that are not blank, in the order of the pairs
  have hmap := List.eq_map_comp_perm (pairIn ∘ Text.trim)
  obtain ⟨chunks, rfl, hchunks⟩ := (congrFun (congrFun hmap pairs) _).mpr hperm
  have hkept : ∀ s ∈ chunks, s ∈ Text.split '&' (String.ofList (raw.toList.dropWhile (· == '?'))) ∧
      (!(Text.trim s).isEmpty) = true := by
    intro s hs
    have hmem := hchunks.mem_iff.1 hs
    rw [List.mem_filter] at hmem
    exact hmem
  refine ⟨Text.join (String.singleton '&') ("" :: chunks), ?_⟩
  rw [pairsOf_join_chunks (List.cons_ne_nil _ _) ?_ ?_, List.map_cons]
  · rw [List.filter_cons_of_neg (by decide), List.filter_eq_self.2, List.map_map]
    intro s hs
    obtain ⟨chunk, hchunk, rfl⟩ := List.mem_map.1 hs
    exact (hkept chunk hchunk).2
  · rw [List.forall_mem_cons]
    refine ⟨by simp, fun s hs => ?_⟩
    obtain ⟨piece, hpiece, rfl⟩ := List.mem_map.1 (hkept s hs).1
    rw [String.toList_ofList]
    exact Text.not_mem_splitList hpiece
  · -- the first chunk is empty
    intro rest
    cases chunks with
    | nil => simp [Text.join]
    | cons s chunks => simp [Text.join]

/-- Each pair alone is read or refused. Moreover no path leads through the end of another; or else a pair
is refused, and so is every pair that leads through an array. -/
structure Orderly (c : Codec) (pairs : List (String × String)) : Prop where
  decided : ∀ pair ∈ pairs, Decided (c.decodeDeep none [pair])
  clear : (∀ a ∈ pairs, ∀ b ∈ pairs, ¬ c.Through a b) ∨
    (∃ pair ∈ pairs, Refused (c.decodeDeep none [pair])) ∧
      ∀ a ∈ pairs, ∀ b ∈ pairs, c.Through a b → c.ForArray a → Refused (c.decodeDeep none [b])

/-- A mapping is put at the end of the path of a pair. -/
def PutsMap (c : Codec) (pair : String × String) : Prop :=
  ∃ path v entries, c.Spells pair path ∧ c.decodeDeep none [pair] = .ok v ∧
    v.at? path = some (.map entries)

section
variable (htypes : c.HasTypes)
include htypes

theorem decided_single_iff : Decided (c.decodeDeep none [pair]) ↔ Decided (c.leafOf pair) := by
  rw [decodeDeep_single htypes, decided_map_iff]

theorem refused_single_iff : Refused (c.decodeDeep none [pair]) ↔ Refused (c.leafOf pair) := by
  rw [decodeDeep_single htypes, refused_map_iff]

theorem Orderly.agrees {pairs' : List (String × String)} (h : c.Orderly pairs)
    (hdistinct : pairs.Pairwise fun a b => ¬ c.SamePath a b) (hperm : pairs'.Perm pairs) :
    Agrees (c.decodeDeep none pairs) (c.decodeDeep none pairs') := by
  have hdecided : ∀ pair ∈ pairs, Decided (c.leafOf pair) :=
    fun pair hpair => (decided_single_iff htypes).1 (h.decided pair hpair)
  rcases h.clear with hclear | ⟨⟨r, hr, hrefused⟩, harrays⟩
  · refine agrees_of_apart htypes hperm hdecided (hdistinct.imp_of_mem ?_)
    intro a b ha hb hab p q hp hq
    have hnot : ∀ {x y p q}, x ∈ pairs → y ∈ pairs → c.Spells x p → c.Spells y q → p ≠ q → ¬ p <+: q :=
      fun hx hy hp hq hne hpre => hclear _ hx _ hy
        (through_iff.2 ⟨_, mem_path?_iff.2 hp, _, mem_path?_iff.2 hq, hpre, hne⟩)
    have hne : p ≠ q := fun heq => hab ⟨p, hp, heq ▸ hq⟩
    exact ⟨hnot ha hb hp hq hne, hnot hb ha hq hp hne.symm⟩
  · have hall : ∀ l : List (String × String), l.Perm pairs → Refused (c.decodeDeep none l) := by
      intro l hl
      refine refused_decodeDeep htypes (fun pair hpair => hdecided pair (hl.mem_iff.1 hpair))
        ⟨r, hl.mem_iff.2 hr, (refused_single_iff htypes).1 hrefused⟩ (fun a ha b hb hab harray => ?_) ?_
      · exact (refused_single_iff htypes).1 (harrays a (hl.mem_iff.1 ha) b (hl.mem_iff.1 hb) hab harray)
      · intro a _ path items t v hspells _ hv
        cases (free_empty (bracketPath?_ne_nil hspells)).2.symm.trans hv
    exact .inr ⟨hall pairs (.refl _), hall pairs' hperm⟩

theorem Spells.exists_leaf {leaf? : Option (List String × Value)} (h : c.Spells pair path)
    (hleaf : c.leafOf pair = .ok leaf?) :
    ∃ v, c.leafOf pair = .ok (some (path, v)) := by
  obtain ⟨e, he⟩ := htypes path
  have heq := (h.owns he).leafOf_eq
  obtain ⟨v, -, hv⟩ := Outcome.bind_ok.1 (heq.symm.trans hleaf)
  cases hv
  exact ⟨v, hleaf⟩

/-- What fails alone fails where it comes first. -/
theorem decided_leafOf (h : ∀ l : List (String × String), l.Perm pairs → Decided (c.decodeDeep none l))
    (hpair : pair ∈ pairs) : Decided (c.leafOf pair) := by
  cases hleaf : c.leafOf pair with
  | ok leaf? => exact .inl ⟨leaf?, rfl⟩
  | error f =>
    have hrun := decodeDeep_first_error htypes hleaf (pairs.erase pair)
    exact .inr ((h _ (List.perm_cons_erase hpair).symm).refused hrun)

/-- A pair that leads through an array and is not refused makes the array fail. -/
theorem refused_leafOf_of_array
    (h : ∀ l : List (String × String), l.Perm pairs → Decided (c.decodeDeep none l))
    {a b : String × String} (ha : a ∈ pairs) (hb : b ∈ pairs) (hab : c.Through a b)
    (harray : c.ForArray a) : Refused (c.leafOf b) := by
  refine (decided_leafOf htypes h hb).resolve_left ?_
  rintro ⟨leaf?, hleaf⟩
  obtain ⟨rest, hrest⟩ := exists_perm_cons_cons hb ha hab.ne.symm
  obtain ⟨path, more, hmore, hspells, hlong⟩ := hab
  obtain ⟨_, items, t, hspells', htype⟩ := harray
  obtain rfl := hspells.unique hspells'
  obtain ⟨w, hleaf⟩ := hlong.exists_leaf htypes hleaf
  have hrun := wrongKind_of_through htypes hspells hmore hleaf htype rest
  obtain ⟨name, cause, hwire⟩ : Refused (.error .wrongKind : Checked Value) := (h _ hrest).refused hrun
  cases hwire

/-- Pairs that can all be read are refused in one order and not in another if one leads through the end
of another. -/
theorem exists_refused_of_through (hread : ∀ pair ∈ pairs, ∃ leaf?, c.leafOf pair = .ok leaf?)
    {a b : String × String} (ha : a ∈ pairs) (hb : b ∈ pairs) (hab : c.Through a b)
    (hmap : ¬ c.PutsMap a) :
    ∃ l l' : List (String × String), l.Perm pairs ∧ l'.Perm pairs ∧ Refused (c.decodeDeep none l) ∧
      ¬ Refused (c.decodeDeep none l') := by
  obtain ⟨rest, hrest⟩ := exists_perm_cons_cons ha hb hab.ne
  obtain ⟨longest, hperm, horder⟩ := c.exists_longest_first pairs
  obtain ⟨path, more, hmore, hspells, hlong⟩ := hab
  obtain ⟨leaf?, hleaf⟩ := hread a ha
  obtain ⟨v, hleaf⟩ := hspells.exists_leaf htypes hleaf
  refine ⟨a :: b :: rest, longest, hrest, hperm, ?_, ?_⟩
  · refine refused_of_through htypes hleaf ?_ hlong hmore rest
    rintro entries rfl
    refine hmap ⟨path, _, entries, hspells, decodeDeep_first htypes hleaf [], ?_⟩
    rw [Value.map_members_put _ _ (bracketPath?_ne_nil hspells), Value.at?_put_self]
  · exact not_refused_decodeDeep htypes (fun pair hpair => hread pair (hperm.mem_iff.1 hpair)) horder
      fun pair _ path hspells => (free_empty (bracketPath?_ne_nil hspells)).1

theorem orderly_of_agrees (hmap : ∀ pair ∈ pairs, ¬ c.PutsMap pair)
    (h : ∀ l : List (String × String), l.Perm pairs →
      Agrees (c.decodeDeep none pairs) (c.decodeDeep none l)) : c.Orderly pairs := by
  have hwhole : ∀ l : List (String × String), l.Perm pairs → Decided (c.decodeDeep none l) :=
    fun l hl => (h l hl).decided
  refine ⟨fun pair hpair => (decided_single_iff htypes).2 (decided_leafOf htypes hwhole hpair), ?_⟩
  by_cases hrefused : ∃ pair ∈ pairs, Refused (c.leafOf pair)
  · obtain ⟨r, hr, hrefused⟩ := hrefused
    refine .inr ⟨⟨r, hr, (refused_single_iff htypes).2 hrefused⟩, fun a ha b hb hab harray => ?_⟩
    exact (refused_single_iff htypes).2 (refused_leafOf_of_array htypes hwhole ha hb hab harray)
  · refine .inl fun a ha b hb hab => ?_
    have hread : ∀ pair ∈ pairs, ∃ leaf?, c.leafOf pair = .ok leaf? := fun pair hpair =>
      (decided_leafOf htypes hwhole hpair).resolve_right fun h => hrefused ⟨pair, hpair, h⟩
    obtain ⟨l, l', hl, hl', hfirst, hlast⟩ :=
      exists_refused_of_through htypes hread ha hb hab (hmap a ha)
    exact hlast ((h l' hl').refused_iff.1 ((h l hl).refused_iff.2 hfirst))

end

theorem Leads.exists_typeAt {entered : List Scalar} {d : Descriptor} (hclosed : c.types.Closed entered)
    (h : c.Leads entered d) (path : List String) : ∃ e, c.typeAt d path = .ok e := by
  induction path generalizing d with
  | nil => exact ⟨d, rfl⟩
  | cons key rest ih =>
    obtain ⟨d', e, hd, he, -, hleads⟩ := h.step hclosed key
    obtain ⟨f, hf⟩ := ih hleads
    refine ⟨f, ?_⟩
    rw [typeAt, Outcome.bind_of_ok hd, Outcome.bind_of_ok he, hf]

/-- Whatever path a key spells, it leads through types that were checked. -/
theorem hasTypes_of_codec {p : Parameter} {m : Mapper} {st st' : MapState}
    (hcodec : (p.codec m).run.run st = (.ok c, st')) (hshape : c.shape = .deepObject) :
    c.HasTypes := by
  cases Parameter.typed_of_codec hcodec with
  | deep _ _ hd h =>
    obtain ⟨entered, hclosed, hpassed⟩ := NamedTypes.checkDeep_ok h
    exact Leads.exists_typeAt hclosed ⟨⟨_, hd, hpassed.member⟩, (·.1)⟩
  | content h | scalar h _ _ | array h _ _ | object h _ _ => cases hshape.symm.trans h

/-- Pairs of an object in brackets, none of them for the same path as another. If they are orderly, they
are read alike in every order; and if they are read alike in every order, they are orderly, unless one of
them puts a mapping at the end of its path. -/
theorem decode_perm {p : Parameter} {m : Mapper} {st st' : MapState}
    (hcodec : (p.codec m).run.run st = (.ok c, st')) (hshape : c.shape = .deepObject) {raw : String}
    (hdistinct : (pairsOf '&' raw).Pairwise fun a b => ¬ c.SamePath a b) :
    (c.Orderly (pairsOf '&' raw) → ∀ raw', (pairsOf '&' raw').Perm (pairsOf '&' raw) →
      Agrees (c.decode (some raw)) (c.decode (some raw'))) ∧
    ((∀ pair ∈ pairsOf '&' raw, ¬ c.PutsMap pair) →
      (∀ raw', (pairsOf '&' raw').Perm (pairsOf '&' raw) →
        Agrees (c.decode (some raw)) (c.decode (some raw'))) → c.Orderly (pairsOf '&' raw)) := by
  have htypes := hasTypes_of_codec hcodec hshape
  obtain ⟨hlocation, -⟩ := Parameter.deep_of_codec hcodec hshape
  simp only [decode_deep hshape hlocation]
  refine ⟨fun h raw' hperm => h.agrees htypes hdistinct hperm, fun hmap h => ?_⟩
  refine orderly_of_agrees htypes hmap fun pairs hperm => ?_
  obtain ⟨raw', rfl⟩ := exists_pairsOf hperm
  exact h raw' hperm

/-- The pairs of an outline, and one of another parameter. -/
def outlinePairs : List (String × String) :=
  [("in%20outline[label]", "a"), ("in%20outline[below][size]", "7"), ("page", "2"),
    ("in%20outline[below][label]", "b")]

/-- The same pairs in another order. -/
def outlinePairsMoved : List (String × String) :=
  [("in%20outline[below][label]", "b"), ("in%20outline[label]", "a"), ("in%20outline[below][size]", "7"),
    ("page", "2")]

theorem outline_decode_perm :
    (∃ st, (outline.codec outlineMapper).run.run {} = (.ok outlineCodec, st)) ∧
    (∃ v, outlineCodec.decodeDeep none outlinePairs = .ok v ∧ v = .map [(.str "label", .str "a"),
      (.str "below", .map [(.str "size", .int 7), (.str "label", .str "b")])]) ∧
    (∃ v, outlineCodec.decodeDeep none outlinePairsMoved = .ok v ∧ v = .map [(.str "below",
      .map [(.str "label", .str "b"), (.str "size", .int 7)]), (.str "label", .str "a")]) ∧
    Agrees
      (outlineCodec.decode (some ("in%20outline[label]=a&in%20outline[below][size]=7&page=2&" ++
        "in%20outline[below][label]=b")))
      (outlineCodec.decode (some ("in%20outline[below][label]=b&in%20outline[label]=a&" ++
        "in%20outline[below][size]=7&page=2"))) := by
  have hcodec : (outline.codec outlineMapper).run.run {} = (.ok outlineCodec, _) := rfl
  have hpairs : pairsOf '&' ("in%20outline[label]=a&in%20outline[below][size]=7&page=2&" ++
    "in%20outline[below][label]=b") = outlinePairs := by decide +kernel
  have hmoved : pairsOf '&' ("in%20outline[below][label]=b&in%20outline[label]=a&" ++
    "in%20outline[below][size]=7&page=2") = outlinePairsMoved := by decide +kernel
  have hdistinct : outlinePairs.Pairwise fun a b => ¬ outlineCodec.SamePath a b := by decide +kernel
  have horderly : outlineCodec.Orderly outlinePairs := ⟨by decide +kernel, .inl (by decide +kernel)⟩
  have hperm : outlinePairsMoved.Perm outlinePairs := by decide +kernel
  refine ⟨⟨_, hcodec⟩, Outcome.exists_ok.2 (by decide +kernel), Outcome.exists_ok.2 (by decide +kernel),
    (decode_perm hcodec rfl ?_).1 ?_ _ ?_⟩
  · rwa [hpairs]
  · rwa [hpairs]
  · rwa [hpairs, hmoved]

/-- A value and an object at one place: which comes first matters. -/
theorem outline_value_and_object :
    (∃ st, (outline.codec outlineMapper).run.run {} = (.ok outlineCodec, st)) ∧
    (pairsOf '&' "in%20outline[below]=2&in%20outline[below][label]=1").Pairwise
      (fun a b => ¬ outlineCodec.SamePath a b) ∧
    (pairsOf '&' "in%20outline[below][label]=1&in%20outline[below]=2").Perm
      (pairsOf '&' "in%20outline[below]=2&in%20outline[below][label]=1") ∧
    Refused (outlineCodec.decode (some "in%20outline[below]=2&in%20outline[below][label]=1")) ∧
    ∃ v, outlineCodec.decode (some "in%20outline[below][label]=1&in%20outline[below]=2") = .ok v ∧
      v = .map [(.str "below", .str "2")] := by
  have hfirst : pairsOf '&' "in%20outline[below]=2&in%20outline[below][label]=1" =
    [("in%20outline[below]", "2"), ("in%20outline[below][label]", "1")] := by decide +kernel
  have hlast : pairsOf '&' "in%20outline[below][label]=1&in%20outline[below]=2" =
    [("in%20outline[below][label]", "1"), ("in%20outline[below]", "2")] := by decide +kernel
  rw [decode_deep rfl rfl, decode_deep rfl rfl, hfirst, hlast]
  exact ⟨⟨_, rfl⟩, by decide +kernel, by decide +kernel, by decide +kernel,
    Outcome.exists_ok.2 (by decide +kernel)⟩

end Codec
end OpenApi
