import OpenApi.Proofs.Outcome
import OpenApi.Proofs.Text.Legible
import OpenApi.Wire.Decode

/-!
The pieces that wire texts are cut into. Every reader cuts at delimiters, none of which can be a part of
an encoded octet, so the pieces of a text with well-formed octets have well-formed octets.
-/
namespace OpenApi

open Percent (Legible isCut marks octets hexValue? isAscii)

theorem Percent.legible_toList_iff {s : String} : Legible s.toList ↔ decode? s ≠ none := by
  rw [legible_iff, String.ofList_toList]

namespace Codec

variable {text : String} {c : Char} {cs : List Char}

theorem percentDecode_faults {piece : String} {whole : Prop} (h : whole → Legible piece.toList) :
    Outcome.Faults (fun f => f = .notUtf8 ∧ ¬ whole) (percentDecode piece) := by
  unfold percentDecode
  split
  · exact .ok
  · next hnone => exact .error ⟨rfl, fun hwhole => Percent.legible_toList_iff.1 (h hwhole) hnone⟩

/-! ### Entries and pairs -/

theorem legible_split {sep : Char} (hsep : isCut sep = true) (h : Legible text.toList) :
    ∀ piece ∈ Text.split sep text, Legible piece.toList := by
  intro piece hpiece
  obtain ⟨cs, hcs, rfl⟩ := List.mem_map.1 hpiece
  rw [String.toList_ofList]
  exact h.splitList hsep cs hcs

theorem legible_piecesOf (h : Legible text.toList) :
    ∀ piece ∈ piecesOf "," text, Legible piece.toList := by
  have hsplit : Text.splitSeq "," text = Text.split ',' text := by
    rw [Text.splitSeq, Text.split, Text.splitList_eq]
    rfl
  unfold piecesOf
  split
  · exact List.forall_mem_nil _
  · rw [hsplit]
    exact legible_split (by decide) h

/-- The key of an entry. -/
theorem legible_cut (h : Legible text.toList) : Legible (Text.cut '=' text).1.toList := by
  rw [Text.cut, String.toList_ofList]
  exact (h.cutList (by decide)).1

theorem legible_pairsOf {sep : Char} (hsep : isCut sep = true) {raw : String}
    (h : Legible raw.toList) :
    ∀ p ∈ pairsOf sep raw, Legible p.1.toList ∧ Legible p.2.toList := by
  intro p hp
  unfold pairsOf at hp
  obtain ⟨chunk, hchunk, rfl⟩ := List.mem_map.1 hp
  obtain ⟨piece, hpiece, rfl⟩ := List.mem_map.1 (List.mem_filter.1 hchunk).1
  have hquestion : ∀ c : Char, (c == '?') = true → isCut c = true := by
    intro c hc
    rw [beq_iff_eq.1 hc]
    decide
  have hcut := (((h.dropWhile hquestion).splitList hsep piece hpiece).trimList
    fun c hc => Percent.isCut_of_isBlank hc).cutList (show isCut '=' = true by decide)
  rw [String.toList_ofList, String.toList_ofList]
  refine ⟨hcut.1, ?_⟩
  cases hvalue : (Text.cutList '=' (Text.trimList Text.isBlank piece)).2 with
  | none => exact nofun
  | some value => exact hcut.2 value hvalue

theorem mem_of_alternating {parts : List String} {entries : List Entry}
    (h : alternating parts = some entries) : ∀ e ∈ entries, e.1 ∈ parts := by
  induction parts using alternating.induct generalizing entries with
  | case1 =>
    cases h
    exact nofun
  | case2 => cases h
  | case3 k v rest ih =>
    obtain ⟨more, hmore, rfl⟩ := Option.map_eq_some_iff.1 h
    intro e he
    rcases List.mem_cons.1 he with rfl | he
    · exact List.mem_cons_self
    · exact List.mem_cons_of_mem _ (List.mem_cons_of_mem _ (ih hmore e he))

/-! ### Parts in brackets -/

theorem plainBrackets_five (c : Char) (rest : List Char) : plainBrackets ('%' :: '5' :: c :: rest) =
    if c == 'B' || c == 'b' then '[' :: plainBrackets rest
    else if c == 'D' || c == 'd' then ']' :: plainBrackets rest
    else '%' :: plainBrackets ('5' :: c :: rest) := rfl

theorem plainBrackets_kept {rest : List Char} (h : ∀ d more, c = '%' → rest = '5' :: d :: more → False) :
    plainBrackets (c :: rest) = c :: plainBrackets rest := by
  rw [plainBrackets]
  exact h

theorem plainBrackets_cons (h : c ≠ '%') (rest : List Char) :
    plainBrackets (c :: rest) = c :: plainBrackets rest :=
  plainBrackets_kept fun _ _ hc _ => h hc

theorem plainBrackets_percent {rest : List Char}
    (h : ∀ c more, rest = '5' :: c :: more → c ∉ ['B', 'b', 'D', 'd']) :
    plainBrackets ('%' :: rest) = '%' :: plainBrackets rest := by
  by_cases hfive : ∃ c more, rest = '5' :: c :: more
  · obtain ⟨c, more, rfl⟩ := hfive
    have hc := h c more rfl
    simp only [List.mem_cons, List.not_mem_nil, or_false, not_or] at hc
    rw [plainBrackets_five, if_neg (by simp [hc]), if_neg (by simp [hc])]
  · exact plainBrackets_kept fun c more _ heq => hfive ⟨c, more, heq⟩

/-- Plain brackets put no hexadecimal digit where none stood. -/
theorem head_plainBrackets {d : Char} {rest more : List Char} (hc : hexValue? c = none)
    (h : plainBrackets (c :: rest) = d :: more) : hexValue? d = none := by
  by_cases hpercent : c = '%'
  · subst hpercent
    by_cases hplain : ∀ c more, rest = '5' :: c :: more → c ∉ ['B', 'b', 'D', 'd']
    · rw [plainBrackets_percent hplain, List.cons.injEq] at h
      rw [← h.1]
      exact hc
    · push Not at hplain
      obtain ⟨c, behind, rfl, hmem⟩ := hplain
      simp only [List.mem_cons, List.not_mem_nil, or_false] at hmem
      rw [plainBrackets_five] at h
      rcases hmem with rfl | rfl | rfl | rfl <;>
      · obtain ⟨rfl, -⟩ := List.cons.inj h
        rfl
  · rw [plainBrackets_cons hpercent, List.cons.injEq] at h
    rw [← h.1]
    exact hc

theorem ne_percent_of_hexValue? {n : Nat} (h : hexValue? c = some n) : c ≠ '%' := by
  rintro rfl
  cases h

/-- An encoded bracket and a plain one are the same octet. -/
theorem octets_plainBrackets (cs : List Char) : octets (plainBrackets cs) = octets cs := by
  induction cs using Percent.octets.induct with
  | case1 a b rest x y hb ha ih =>
    by_cases hplain : ∀ c more, a :: b :: rest = '5' :: c :: more → c ∉ ['B', 'b', 'D', 'd']
    · rw [plainBrackets_percent hplain, plainBrackets_cons (ne_percent_of_hexValue? ha),
        plainBrackets_cons (ne_percent_of_hexValue? hb)]
      simp only [octets, ha, hb, ih]
    · push Not at hplain
      obtain ⟨c, more, heq, hmem⟩ := hplain
      simp only [List.cons.injEq] at heq
      obtain ⟨rfl, rfl, -⟩ := heq
      simp only [List.mem_cons, List.not_mem_nil, or_false] at hmem
      rcases hmem with rfl | rfl | rfl | rfl <;>
      · rw [plainBrackets_five]
        simp [Percent.octets_cons, ih, octets, hexValue?]
  | case2 a b rest hnot ih =>
    have hplain : ∀ c more, a :: b :: rest = '5' :: c :: more → c ∉ ['B', 'b', 'D', 'd'] := by
      intro c more heq hmem
      simp only [List.cons.injEq] at heq
      obtain ⟨rfl, rfl, -⟩ := heq
      simp only [List.mem_cons, List.not_mem_nil, or_false] at hmem
      rcases hmem with rfl | rfl | rfl | rfl <;> exact hnot _ _ rfl rfl
    have hpercent : ∀ a' b' more, plainBrackets (a :: b :: rest) = a' :: b' :: more →
        hexValue? a' = none ∨ hexValue? b' = none := by
      intro a' b' more heq
      cases ha : hexValue? a with
      | none => exact .inl (head_plainBrackets ha heq)
      | some x =>
        rw [plainBrackets_cons (ne_percent_of_hexValue? ha), List.cons.injEq] at heq
        refine .inr (head_plainBrackets ?_ heq.2)
        rw [Option.eq_none_iff_forall_ne_some]
        exact fun y hb => hnot x y ha hb
    have hstays : octets ('%' :: a :: b :: rest) = 0x25 :: octets (a :: b :: rest) := by
      apply Percent.octets_percent
      intro a' b' more heq
      simp only [List.cons.injEq] at heq
      obtain ⟨rfl, rfl, -⟩ := heq
      by_contra hboth
      rw [not_or, ← ne_eq, ← ne_eq, Option.ne_none_iff_exists', Option.ne_none_iff_exists'] at hboth
      obtain ⟨⟨x, hx⟩, y, hy⟩ := hboth
      exact hnot x y hx hy
    rw [plainBrackets_percent hplain, Percent.octets_percent hpercent, ih, hstays]
  | case3 c rest hnot ih =>
    by_cases hc : c = '%'
    · -- at most one character follows
      subst hc
      rcases rest with _ | ⟨a, _ | ⟨_, _⟩⟩
      · rfl
      · rw [plainBrackets_percent fun _ _ heq => by cases (List.cons.inj heq).2]
        by_cases ha : a = '%'
        · rw [ha]
          rfl
        · rw [plainBrackets_cons ha]
          rfl
      · exact (hnot _ _ _ rfl rfl).elim
    · rw [plainBrackets_cons hc, Percent.octets_cons hc, Percent.octets_cons hc, ih]
  | case4 => rfl

theorem plainBrackets_append_cut {d : Char} (hd : isCut d = true) (cs ds : List Char) :
    plainBrackets (cs ++ d :: ds) = plainBrackets cs ++ d :: plainBrackets ds := by
  obtain ⟨hpercent, hhex⟩ := Percent.isCut_iff.1 hd
  induction cs using plainBrackets.induct with
  | case1 c rest hc ih =>
    rw [List.cons_append, List.cons_append, List.cons_append, plainBrackets_five, plainBrackets_five,
      if_pos hc, if_pos hc, ih, List.cons_append]
  | case2 c rest hc hc' ih =>
    rw [List.cons_append, List.cons_append, List.cons_append, plainBrackets_five, plainBrackets_five,
      if_neg hc, if_neg hc, if_pos hc', if_pos hc', ih, List.cons_append]
  | case3 c rest hc hc' ih =>
    simp only [List.cons_append] at ih ⊢
    rw [plainBrackets_five, plainBrackets_five, if_neg hc, if_neg hc, if_neg hc', if_neg hc', ih,
      List.cons_append]
  | case4 c rest hnot ih =>
    by_cases hc : c = '%'
    · subst hc
      have hrest : ∀ b more, rest = '5' :: b :: more → b ∉ ['B', 'b', 'D', 'd'] :=
        fun b more heq => (hnot b more rfl heq).elim
      have hlong : ∀ b more, rest ++ d :: ds = '5' :: b :: more → b ∉ ['B', 'b', 'D', 'd'] := by
        intro b more heq hmem
        match rest with
        | [] =>
          rw [(List.cons.inj heq).1] at hhex
          cases hhex
        | [_] =>
          rw [(List.cons.inj (List.cons.inj heq).2).1] at hhex
          simp only [List.mem_cons, List.not_mem_nil, or_false] at hmem
          rcases hmem with rfl | rfl | rfl | rfl <;> cases hhex
        | a :: b' :: rest =>
          rw [List.cons_append, List.cons.injEq] at heq
          exact hnot b' rest rfl (by rw [heq.1])
      rw [List.cons_append, plainBrackets_percent hlong, plainBrackets_percent hrest, ih,
        List.cons_append]
    · rw [List.cons_append, plainBrackets_cons hc, plainBrackets_cons hc, ih, List.cons_append]
  | case5 => exact plainBrackets_cons hpercent ds

theorem isAscii_plainBrackets (h : ∀ c ∈ cs, isAscii c = true) :
    ∀ c ∈ plainBrackets cs, isAscii c = true := by
  induction cs using plainBrackets.induct with
  | case1 c rest hc ih =>
    rw [plainBrackets_five, if_pos hc]
    exact List.forall_mem_cons.2 ⟨rfl, ih fun d hd => h d (by simp [hd])⟩
  | case2 c rest hc hc' ih =>
    rw [plainBrackets_five, if_neg hc, if_pos hc']
    exact List.forall_mem_cons.2 ⟨rfl, ih fun d hd => h d (by simp [hd])⟩
  | case3 c rest hc hc' ih =>
    rw [plainBrackets_five, if_neg hc, if_neg hc']
    exact List.forall_mem_cons.2 ⟨rfl, ih fun d hd => h d (List.mem_cons_of_mem _ hd)⟩
  | case4 c rest hnot ih =>
    obtain ⟨hc, hrest⟩ := List.forall_mem_cons.1 h
    rw [plainBrackets_kept hnot]
    exact List.forall_mem_cons.2 ⟨hc, ih hrest⟩
  | case5 => exact nofun

theorem marks_plainBrackets (cs : List Char) : marks (plainBrackets cs) = marks cs := by
  induction hn : cs.length using Nat.strongRecOn generalizing cs with
  | ind n ih =>
    obtain ⟨run, rest, rfl, hrun, hrest⟩ := Percent.exists_run cs
    have hascii : marks (plainBrackets run) = Utf8.scan (octets run) := by
      rw [Percent.marks_of_ascii (isAscii_plainBrackets hrun), octets_plainBrackets]
    cases rest with
    | nil => rw [List.append_nil, hascii, Percent.marks_of_ascii hrun]
    | cons c rest =>
      have hc : isAscii c = false := hrest c rfl
      have hcut : isCut c = true := by
        apply Percent.isCut_of_toNat
        simp only [isAscii, decide_eq_false_iff_not] at hc
        omega
      have hlength : rest.length < n := by
        rw [← hn, List.length_append, List.length_cons]
        omega
      rw [plainBrackets_append_cut hcut, Percent.marks_append_cut hcut, Percent.marks_append_cut hcut,
        hascii, ih rest.length hlength rest rfl, Percent.marks_of_ascii hrun]

theorem legible_plainBrackets : Legible (plainBrackets cs) ↔ Legible cs := by
  rw [Legible, marks_plainBrackets]
  rfl

/-! ### Parts in brackets -/

/-- No square bracket stands in a text. -/
def BracketFree (cs : List Char) : Prop := '[' ∉ cs ∧ ']' ∉ cs

instance : DecidablePred BracketFree := fun cs => inferInstanceAs (Decidable ('[' ∉ cs ∧ ']' ∉ cs))

/-- A part with its brackets. -/
def bracket (part : List Char) : List Char := '[' :: part ++ [']']

theorem flatMap_bracket_cons (part : List Char) (parts : List (List Char)) :
    (part :: parts).flatMap bracket = '[' :: (part ++ ']' :: parts.flatMap bracket) := by
  simp [bracket]

/-- The parts of a text make it up, with the part that was open at the start. -/
theorem flatMap_of_bracketParts? {part? : Option (List Char)} {cs : List Char}
    {parts : List (List Char)} (h : bracketParts? part? cs = some parts)
    (hpart : ∀ part ∈ part?, BracketFree part) :
    (part?.elim [] fun part => '[' :: part.reverse) ++ cs = parts.flatMap bracket ∧
      ∀ part ∈ parts, BracketFree part := by
  induction part?, cs using bracketParts?.induct generalizing parts with
  | case1 =>
    cases h
    exact ⟨rfl, nofun⟩
  | case2 => cases h
  | case3 c rest hc ih =>
    rw [bracketParts?, if_pos hc] at h
    rw [beq_iff_eq] at hc
    subst hc
    exact ih h (by simp [BracketFree])
  | case4 c rest hc =>
    rw [bracketParts?, if_neg hc] at h
    cases h
  | case5 part c rest hc ih =>
    rw [bracketParts?, if_pos hc] at h
    rw [beq_iff_eq] at hc
    subst hc
    obtain ⟨more, hmore, rfl⟩ := Option.map_eq_some_iff.1 h
    obtain ⟨hrest, hfree⟩ := ih hmore nofun
    have hpart := hpart part rfl
    refine ⟨?_, List.forall_mem_cons.2 ⟨?_, hfree⟩⟩
    · simp only [Option.elim_none, List.nil_append] at hrest
      simp [bracket, hrest]
    · simpa [BracketFree] using hpart
  | case6 part c rest hc hopen =>
    rw [bracketParts?, if_neg hc, if_pos hopen] at h
    cases h
  | case7 part c rest hc hopen ih =>
    rw [bracketParts?, if_neg hc, if_neg hopen] at h
    have hpart := hpart part rfl
    rw [beq_iff_eq] at hc hopen
    have hfree : BracketFree (c :: part) := by
      simp only [BracketFree, List.mem_cons, not_or]
      exact ⟨⟨Ne.symm hopen, hpart.1⟩, Ne.symm hc, hpart.2⟩
    simpa using ih h (by simpa using hfree)

theorem legible_bracketParts? {parts : List (List Char)} (h : bracketParts? (some []) cs = some parts)
    (hlegible : Legible cs) : ∀ part ∈ parts, Legible part := by
  have hall : Legible ([] ++ '[' :: cs) :=
    (Percent.legible_append_cut (by decide)).2 ⟨List.not_mem_nil, hlegible⟩
  rw [show [] ++ '[' :: cs = parts.flatMap bracket from
    (flatMap_of_bracketParts? h (by simp [BracketFree])).1] at hall
  clear h
  induction parts with
  | nil => exact nofun
  | cons part parts ih =>
    rw [flatMap_bracket_cons] at hall
    obtain ⟨hpart, hrest⟩ := (Percent.legible_append_cut (by decide)).1 (hall.tail (by decide))
    exact List.forall_mem_cons.2 ⟨hpart, ih hrest⟩

end Codec
end OpenApi
