import Mathlib.Data.List.TakeWhile
import OpenApi.Proofs.Text.Percent
import OpenApi.Proofs.Text.Split

/-!
Pieces of percent-encoded text. A character that belongs to no octet written as `%XX` parts a text into
two that are read on their own, so a text whose octets are well-formed has well-formed pieces wherever it
is cut at such characters.
-/
namespace OpenApi

namespace Utf8

variable {n : Nat}

theorem not_isTail (hn : n < 0x80) : isTail n = false := by
  rw [Bool.eq_false_iff, ne_eq, isTail_iff]
  omega

theorem not_secondOfThree {a : Nat} (hn : n < 0x80) : secondOfThree a n = false := by
  unfold secondOfThree
  split
  · simp only [Bool.and_eq_false_iff, decide_eq_false_iff_not]
    omega
  · split
    · simp only [Bool.and_eq_false_iff, decide_eq_false_iff_not]
      omega
    · exact not_isTail hn

theorem not_secondOfFour {a : Nat} (hn : n < 0x80) : secondOfFour a n = false := by
  unfold secondOfFour
  split
  · simp only [Bool.and_eq_false_iff, decide_eq_false_iff_not]
    omega
  · split
    · simp only [Bool.and_eq_false_iff, decide_eq_false_iff_not]
      omega
    · exact not_isTail hn

theorem scan_cons_ascii (hn : n < 0x80) (ys : List Nat) :
    scan (n :: ys) = some (Char.ofNat n) :: scan ys := by
  rw [scan.eq_def]
  exact if_pos hn

section
variable {a : Nat} (ha : ¬ a < 0x80)
include ha

theorem scan_two (htwo : (decide (0xc2 ≤ a) && decide (a ≤ 0xdf)) = true) (b : Nat)
    (rest : List Nat) : scan (a :: b :: rest) =
      if isTail b then some (Char.ofNat ((a - 0xc0) * 0x40 + (b - 0x80))) :: scan rest
      else none :: scan (b :: rest) := by
  rw [scan, if_neg ha, if_pos htwo]

variable (htwo : ¬ (decide (0xc2 ≤ a) && decide (a ≤ 0xdf)) = true)
include htwo

theorem scan_three (hthree : (decide (0xe0 ≤ a) && decide (a ≤ 0xef)) = true) (rest : List Nat) :
    scan (a :: rest) = match rest with
      | b :: c :: rest =>
        if secondOfThree a b then
          if isTail c then
            some (Char.ofNat ((a - 0xe0) * 0x1000 + (b - 0x80) * 0x40 + (c - 0x80))) :: scan rest
          else none :: scan (c :: rest)
        else none :: scan (b :: c :: rest)
      | [b] => if secondOfThree a b then [none] else none :: scan [b]
      | [] => [none] := by
  rw [scan.eq_def]
  exact (if_neg ha).trans ((if_neg htwo).trans (if_pos hthree))

variable (hthree : ¬ (decide (0xe0 ≤ a) && decide (a ≤ 0xef)) = true)
include hthree

theorem scan_four (hfour : (decide (0xf0 ≤ a) && decide (a ≤ 0xf4)) = true) (rest : List Nat) :
    scan (a :: rest) = match rest with
      | b :: c :: d :: rest =>
        if secondOfFour a b then
          if isTail c then
            if isTail d then
              some (Char.ofNat ((a - 0xf0) * 0x40000 + (b - 0x80) * 0x1000 + (c - 0x80) * 0x40
                + (d - 0x80))) :: scan rest
            else none :: scan (d :: rest)
          else none :: scan (c :: d :: rest)
        else none :: scan (b :: c :: d :: rest)
      | [b, c] =>
        if secondOfFour a b then
          if isTail c then [none] else none :: scan [c]
        else none :: scan [b, c]
      | [b] => if secondOfFour a b then [none] else none :: scan [b]
      | [] => [none] := by
  rw [scan.eq_def]
  exact (if_neg ha).trans ((if_neg htwo).trans ((if_neg hthree).trans (if_pos hfour)))

end

/-- An octet of ASCII belongs to no longer sequence: what stands before it and behind it is read as if it
stood alone. -/
theorem scan_append_ascii (hn : n < 0x80) (xs ys : List Nat) :
    scan (xs ++ n :: ys) = scan xs ++ some (Char.ofNat n) :: scan ys := by
  have hrest := scan_cons_ascii hn ys
  have htail : ¬ isTail n = true := by simp [not_isTail hn]
  have hsecond : ∀ a, ¬ secondOfThree a n = true := by simp [not_secondOfThree hn]
  have hsecond' : ∀ a, ¬ secondOfFour a n = true := by simp [not_secondOfFour hn]
  fun_induction scan xs with
  | case1 => exact hrest
  | case2 a rest ha ih => simp only [List.cons_append, scan_cons_ascii ha, ih]
  | case3 a ha htwo b rest hb ih => simp only [List.cons_append, scan_two ha htwo, if_pos hb, ih]
  | case4 a ha htwo b rest hb ih =>
    simp only [List.cons_append] at ih ⊢
    rw [scan_two ha htwo, if_neg hb, ih]
  | case5 a ha htwo =>
    simp only [List.cons_append, List.nil_append, scan_two ha htwo, if_neg htail, hrest]
  | case6 a ha htwo hthree b c rest hb hc ih =>
    simp only [List.cons_append, scan_three ha htwo hthree, if_pos hb, if_pos hc, ih]
  | case7 a ha htwo hthree b c rest hb hc ih =>
    simp only [List.cons_append] at ih ⊢
    simp only [scan_three ha htwo hthree, if_pos hb, if_neg hc, ih]
  | case8 a ha htwo hthree b c rest hb ih =>
    simp only [List.cons_append] at ih ⊢
    simp only [scan_three ha htwo hthree, if_neg hb, ih]
  | case9 a ha htwo hthree b hb =>
    simp only [List.cons_append, List.nil_append, scan_three ha htwo hthree, if_pos hb,
      if_neg htail, hrest]
  | case10 a ha htwo hthree b hb ih =>
    simp only [List.cons_append, List.nil_append] at ih ⊢
    simp only [scan_three ha htwo hthree, if_neg hb, ih]
  | case11 a ha htwo hthree =>
    cases ys <;> simp only [List.cons_append, List.nil_append, scan_three ha htwo hthree,
      if_neg (hsecond a), hrest]
  | case12 a ha htwo hthree hfour b c d rest hb hc hd ih =>
    simp only [List.cons_append, scan_four ha htwo hthree hfour, if_pos hb, if_pos hc, if_pos hd,
      ih]
  | case13 a ha htwo hthree hfour b c d rest hb hc hd ih =>
    simp only [List.cons_append] at ih ⊢
    simp only [scan_four ha htwo hthree hfour, if_pos hb, if_pos hc, if_neg hd, ih]
  | case14 a ha htwo hthree hfour b c d rest hb hc ih =>
    simp only [List.cons_append] at ih ⊢
    simp only [scan_four ha htwo hthree hfour, if_pos hb, if_neg hc, ih]
  | case15 a ha htwo hthree hfour b c d rest hb ih =>
    simp only [List.cons_append] at ih ⊢
    simp only [scan_four ha htwo hthree hfour, if_neg hb, ih]
  | case16 a ha htwo hthree hfour b c hb hc =>
    simp only [List.cons_append, List.nil_append, scan_four ha htwo hthree hfour, if_pos hb,
      if_pos hc, if_neg htail, hrest]
  | case17 a ha htwo hthree hfour b c hb hc ih =>
    simp only [List.cons_append, List.nil_append] at ih ⊢
    simp only [scan_four ha htwo hthree hfour, if_pos hb, if_neg hc, ih]
  | case18 a ha htwo hthree hfour b c hb ih =>
    simp only [List.cons_append, List.nil_append] at ih ⊢
    simp only [scan_four ha htwo hthree hfour, if_neg hb, ih]
  | case19 a ha htwo hthree hfour b hb =>
    cases ys <;> simp only [List.cons_append, List.nil_append, scan_four ha htwo hthree hfour,
      if_pos hb, if_neg htail, hrest]
  | case20 a ha htwo hthree hfour b hb ih =>
    simp only [List.cons_append, List.nil_append] at ih ⊢
    cases ys <;> simp only [scan_four ha htwo hthree hfour, if_neg hb, ih]
  | case21 a ha htwo hthree hfour =>
    rcases ys with _ | ⟨y, _ | ⟨z, ys⟩⟩ <;>
      simp only [List.cons_append, List.nil_append, scan_four ha htwo hthree hfour,
        if_neg (hsecond' a), hrest]
  | case22 a rest ha htwo hthree hfour ih =>
    simp only [List.cons_append]
    rw [scan.eq_def]
    simp only [if_neg ha, if_neg htwo, if_neg hthree, if_neg hfour, ih]

theorem collect?_eq_none_iff {marks : List (Option Char)} :
    collect? marks = none ↔ none ∈ marks := by
  induction marks with
  | nil => simp [collect?]
  | cons m marks ih =>
    cases m with
    | none => simp [collect?]
    | some c => simp [collect?, ih]

end Utf8

namespace Percent

variable {c d sep : Char} {cs : List Char}

/-! ### Characters between pieces -/

/-- A character that has no part in an octet written as `%XX`. -/
def isCut (c : Char) : Bool := c != '%' && (hexValue? c).isNone

theorem isCut_iff : isCut c = true ↔ c ≠ '%' ∧ hexValue? c = none := by
  simp [isCut]

/-- `%` and the hexadecimal digits stand close together. -/
theorem isCut_of_toNat (h : ¬ (0x25 ≤ c.toNat ∧ c.toNat ≤ 0x66)) : isCut c = true := by
  rw [isCut_iff]
  constructor
  · rintro rfl
    exact h (by decide)
  · unfold hexValue?
    dsimp only
    rw [if_neg, if_neg, if_neg]
    all_goals
      simp only [Bool.and_eq_true, decide_eq_true_eq]
      omega

theorem isCut_of_isBlank (h : Text.isBlank c = true) : isCut c = true := by
  apply isCut_of_toNat
  simp [Text.isBlank, Text.blankRanges, Text.Ranges.has] at h
  omega

/-- A `%` that no two hexadecimal digits follow stands for itself. -/
theorem octets_percent {rest : List Char}
    (h : ∀ a b more, rest = a :: b :: more → hexValue? a = none ∨ hexValue? b = none) :
    octets ('%' :: rest) = 0x25 :: octets rest := by
  match rest with
  | [] => rfl
  | [a] => rfl
  | a :: b :: more =>
    rw [octets]
    split
    · next hx hy =>
      rcases h a b more rfl with hnone | hnone
      · rw [hnone] at hx
        cases hx
      · rw [hnone] at hy
        cases hy
    · rfl

theorem octets_append_cut (hd : isCut d = true) (cs ds : List Char) :
    octets (cs ++ d :: ds) = octets cs ++ d.toNat :: octets ds := by
  obtain ⟨hpercent, hhex⟩ := isCut_iff.1 hd
  fun_induction octets cs with
  | case1 a b rest x y hx hy ih =>
    rw [List.cons_append, List.cons_append, List.cons_append, octets, hx, hy]
    simp only [ih, List.cons_append]
  | case2 a b rest hnot ih =>
    have hstays : octets ('%' :: (a :: b :: rest ++ d :: ds)) =
        0x25 :: octets (a :: b :: rest ++ d :: ds) := by
      apply octets_percent
      intro a' b' more heq
      simp only [List.cons_append, List.cons.injEq] at heq
      obtain ⟨rfl, rfl, -⟩ := heq
      rcases ha : hexValue? a with _ | x
      · exact .inl rfl
      · rcases hb : hexValue? b with _ | y
        · exact .inr rfl
        · exact (hnot x y ha hb).elim
    rw [List.cons_append, hstays, ih, List.cons_append]
  | case3 c rest hnot ih =>
    by_cases hc : c = '%'
    · -- at most one character follows, so the next ones are cut off by `d`
      subst hc
      have hstays : octets ('%' :: (rest ++ d :: ds)) = 0x25 :: octets (rest ++ d :: ds) := by
        apply octets_percent
        intro a b more heq
        rcases rest with _ | ⟨_, _ | ⟨_, _⟩⟩
        · exact .inl (by rw [← (List.cons.inj heq).1]; exact hhex)
        · exact .inr (by rw [← (List.cons.inj (List.cons.inj heq).2).1]; exact hhex)
        · exact (hnot _ _ _ rfl rfl).elim
      rw [List.cons_append, hstays, ih]
      rfl
    · rw [List.cons_append, octets_cons hc, ih, List.cons_append]
  | case4 => exact octets_cons hpercent ds

/-! ### Reading in pieces -/

/-- What is read from characters, with `none` for each ill-formed part. -/
def marks (cs : List Char) : List (Option Char) :=
  (cs.splitBy fun a b => isAscii a == isAscii b).flatMap scanRun

theorem scan_eq_marks (s : String) : scan s = marks s.toList := rfl

/-- Neighbours of which one is ASCII and the other is not are read apart. -/
theorem marks_append {ds : List Char}
    (h : ∀ a ∈ cs.getLast?, ∀ b ∈ ds.head?, (isAscii a == isAscii b) = false) :
    marks (cs ++ ds) = marks cs ++ marks ds := by
  rw [marks, List.splitBy_append h, List.flatMap_append]
  rfl

theorem marks_of_ascii (h : ∀ c ∈ cs, isAscii c = true) : marks cs = Utf8.scan (octets cs) := by
  have hscan := scan_of_ascii (s := String.ofList cs) (by simpa using h)
  simpa [scan_eq_marks] using hscan

theorem marks_of_not_ascii (h : ∀ c ∈ cs, isAscii c = false) : marks cs = cs.map some := by
  cases cs with
  | nil => rfl
  | cons c cs =>
    have hchain : (c :: cs).IsChain fun a b => (isAscii a == isAscii b) = true := by
      apply List.Pairwise.isChain
      apply List.pairwise_of_forall_mem_list
      intro a ha b hb
      rw [h a ha, h b hb, beq_self_eq_true]
    rw [marks, List.splitBy_of_isChain (List.cons_ne_nil c cs) hchain, List.flatMap_singleton, scanRun,
      if_neg (by simp [h c List.mem_cons_self])]

/-- The ASCII at the start of a text. -/
theorem exists_run (cs : List Char) : ∃ run rest, cs = run ++ rest ∧
    (∀ c ∈ run, isAscii c = true) ∧ ∀ c ∈ rest.head?, isAscii c = false := by
  refine ⟨cs.takeWhile isAscii, cs.dropWhile isAscii, List.takeWhile_append_dropWhile.symm,
    fun c hc => List.mem_takeWhile_imp hc, fun c hc => ?_⟩
  have hhead := List.head?_dropWhile_not isAscii cs
  rw [hc] at hhead
  simpa using hhead

theorem marks_run {run rest : List Char} (hrun : ∀ c ∈ run, isAscii c = true)
    (hrest : ∀ c ∈ rest.head?, isAscii c = false) :
    marks (run ++ rest) = Utf8.scan (octets run) ++ marks rest := by
  rw [marks_append, marks_of_ascii hrun]
  intro a ha b hb
  rw [hrun a (List.mem_of_getLast? ha), hrest b hb]
  rfl

/-- A character beyond ASCII is read on its own. -/
theorem marks_cons_of_not_ascii (hc : isAscii c = false) (cs : List Char) :
    marks (c :: cs) = some c :: marks cs := by
  have hsplit : cs.takeWhile (!isAscii ·) ++ cs.dropWhile (!isAscii ·) = cs :=
    List.takeWhile_append_dropWhile
  have hrun : ∀ d ∈ cs.takeWhile (!isAscii ·), isAscii d = false := by
    intro d hd
    simpa using List.mem_takeWhile_imp hd
  have hrest : ∀ d ∈ (cs.dropWhile (!isAscii ·)).head?, isAscii d = true := by
    intro d hd
    have hhead := List.head?_dropWhile_not (!isAscii ·) cs
    rw [hd] at hhead
    simpa using hhead
  have happend : ∀ run : List Char, (∀ d ∈ run, isAscii d = false) →
      marks (run ++ cs.dropWhile (!isAscii ·)) =
        run.map some ++ marks (cs.dropWhile (!isAscii ·)) := by
    intro run hrun
    rw [marks_append, marks_of_not_ascii hrun]
    intro a ha b hb
    rw [hrun a (List.mem_of_getLast? ha), hrest b hb]
    rfl
  have hlong := happend (c :: cs.takeWhile (!isAscii ·)) (List.forall_mem_cons.2 ⟨hc, hrun⟩)
  have hshort := happend (cs.takeWhile (!isAscii ·)) hrun
  rw [List.cons_append, hsplit] at hlong
  rw [hsplit] at hshort
  rw [hlong, hshort]
  rfl

theorem marks_append_cut (hd : isCut d = true) (cs ds : List Char) :
    marks (cs ++ d :: ds) = marks cs ++ some d :: marks ds := by
  induction hn : cs.length using Nat.strongRecOn generalizing cs with
  | ind n ih =>
    obtain ⟨run, rest, rfl, hrun, hrest⟩ := exists_run cs
    cases rest with
    | nil =>
      rw [List.append_nil, marks_of_ascii hrun]
      by_cases hascii : isAscii d = true
      · -- the run goes on behind `d`
        obtain ⟨run', rest', rfl, hrun', hrest'⟩ := exists_run ds
        have hwhole : ∀ c ∈ run ++ d :: run', isAscii c = true := by
          intro c hc
          rcases List.mem_append.1 hc with hc | hc
          · exact hrun c hc
          · rcases List.mem_cons.1 hc with rfl | hc
            · exact hascii
            · exact hrun' c hc
        have hlow : d.toNat < 0x80 := by simpa [isAscii] using hascii
        have hsplit : run ++ d :: (run' ++ rest') = (run ++ d :: run') ++ rest' := by simp
        rw [hsplit, marks_run hwhole hrest', marks_run hrun' hrest', octets_append_cut hd,
          Utf8.scan_append_ascii hlow, Char.ofNat_toNat, List.append_assoc, List.cons_append]
      · have hd' := Bool.eq_false_iff.2 hascii
        rw [marks_run hrun (by simpa using hd'), marks_cons_of_not_ascii hd']
    | cons c rest =>
      have hc : isAscii c = false := hrest c rfl
      have hlength : rest.length < n := by
        rw [← hn, List.length_append, List.length_cons]
        omega
      rw [List.append_assoc, marks_run hrun (by simpa using hc), marks_run hrun hrest,
        List.cons_append, marks_cons_of_not_ascii hc, marks_cons_of_not_ascii hc,
        ih rest.length hlength rest rfl, List.append_assoc, List.cons_append]

/-! ### Legible text -/

/-- The octets of a text are well-formed. -/
def Legible (cs : List Char) : Prop := none ∉ marks cs

theorem legible_iff : Legible cs ↔ decode? (String.ofList cs) ≠ none := by
  rw [decode?, scan_eq_marks, String.toList_ofList, ne_eq, Option.map_eq_none_iff,
    Utf8.collect?_eq_none_iff]
  rfl

theorem legible_append_cut (hd : isCut d = true) {ds : List Char} :
    Legible (cs ++ d :: ds) ↔ Legible cs ∧ Legible ds := by
  simp [Legible, marks_append_cut hd]

theorem Legible.tail (hc : isCut c = true) (h : Legible (c :: cs)) : Legible cs :=
  ((legible_append_cut hc).1 (show Legible ([] ++ c :: cs) from h)).2

/-- A piece that is open at its start goes on with what was read before. -/
theorem Legible.splitList_append (hsep : isCut sep = true) {before : List Char}
    (h : Legible (before ++ cs)) : ∃ first more, Text.splitList sep cs = first :: more ∧
      Legible (before ++ first) ∧ ∀ piece ∈ more, Legible piece := by
  induction cs generalizing before with
  | nil => exact ⟨[], [], rfl, h, nofun⟩
  | cons c cs ih =>
    rw [Text.splitList_cons]
    by_cases hc : c = sep
    · subst hc
      obtain ⟨hbefore, hcs⟩ := (legible_append_cut hsep).1 h
      obtain ⟨first, more, hsplit, hfirst, hmore⟩ := ih (show Legible ([] ++ cs) from hcs)
      refine ⟨[], first :: more, by rw [if_pos (by simp), hsplit], by simpa using hbefore, ?_⟩
      exact List.forall_mem_cons.2 ⟨hfirst, hmore⟩
    · obtain ⟨first, more, hsplit, hfirst, hmore⟩ :=
        ih (show Legible (before ++ [c] ++ cs) by simpa using h)
      refine ⟨c :: first, more, by rw [if_neg (by simpa using hc), hsplit]; rfl, ?_, hmore⟩
      simpa using hfirst

theorem Legible.splitList (hsep : isCut sep = true) (h : Legible cs) :
    ∀ piece ∈ Text.splitList sep cs, Legible piece := by
  obtain ⟨first, more, hsplit, hfirst, hmore⟩ :=
    Legible.splitList_append hsep (show Legible ([] ++ cs) from h)
  rw [hsplit]
  exact List.forall_mem_cons.2 ⟨hfirst, hmore⟩

theorem Legible.cutList (hsep : isCut sep = true) (h : Legible cs) :
    Legible (Text.cutList sep cs).1 ∧ ∀ value ∈ (Text.cutList sep cs).2, Legible value := by
  have hcut : ((Text.cutList sep cs).1 = cs ∧ (Text.cutList sep cs).2 = none) ∨
      ∃ value, (Text.cutList sep cs).2 = some value ∧
        cs = (Text.cutList sep cs).1 ++ sep :: value := by
    clear h
    induction cs with
    | nil => exact .inl ⟨rfl, rfl⟩
    | cons c cs ih =>
      rw [Text.cutList]
      by_cases hc : c = sep
      · rw [if_pos (by simpa using hc)]
        exact .inr ⟨cs, rfl, by rw [hc]; rfl⟩
      · rw [if_neg (by simpa using hc)]
        rcases ih with ⟨hkey, hvalue⟩ | ⟨value, hvalue, hcs⟩
        · exact .inl ⟨congrArg (c :: ·) hkey, hvalue⟩
        · exact .inr ⟨value, hvalue, congrArg (c :: ·) hcs⟩
  rcases hcut with ⟨hkey, hvalue⟩ | ⟨value, hvalue, hcs⟩
  · rw [hkey, hvalue]
    exact ⟨h, by simp⟩
  · rw [hcs, legible_append_cut hsep] at h
    rw [hvalue]
    exact ⟨h.1, fun _ heq => Option.some.inj heq ▸ h.2⟩

theorem Legible.dropWhile {p : Char → Bool} (hp : ∀ c, p c = true → isCut c = true) (h : Legible cs) :
    Legible (cs.dropWhile p) := by
  induction cs with
  | nil => exact h
  | cons c cs ih =>
    rw [List.dropWhile_cons]
    split
    · next hc => exact ih (h.tail (hp c hc))
    · exact h

theorem Legible.trimList {p : Char → Bool} (hp : ∀ c, p c = true → isCut c = true) (h : Legible cs) :
    Legible (Text.trimList p cs) := by
  have hend : ∀ ds, Legible ds → Legible (ds.reverse.dropWhile p).reverse := by
    intro ds hds
    induction ds using List.reverseRecOn with
    | nil => exact hds
    | append_singleton ds c ih =>
      rw [List.reverse_concat, List.dropWhile_cons]
      split
      · next hc => exact ih ((legible_append_cut (hp c hc)).1 hds).1
      · rw [List.reverse_cons, List.reverse_reverse]
        exact hds
  exact hend _ (h.dropWhile hp)

end Percent
end OpenApi
