import Mathlib.Data.List.Basic
import OpenApi.Text.Blank
import OpenApi.Text.Search
import OpenApi.Text.Split

/-!
Splitting undoes joining. The texts that are joined must be clear of the separator: no occurrence of
it may begin inside of one of them, whatever follows.
-/
namespace OpenApi.Text

variable {c : Char} {sep cs : List Char} {ss : List String}

/-- No occurrence of `sep` begins inside of `cs`, whatever follows. -/
def Clear (sep cs : List Char) : Prop :=
  ∀ before behind, cs = before ++ behind → behind ≠ [] → ∀ rest, ¬ sep <+: behind ++ rest

theorem clear_of_not_mem (h : c ∉ cs) : Clear (c :: sep) cs := by
  intro before behind hcs hne rest hpre
  cases behind with
  | nil => exact hne rfl
  | cons d behind =>
    rw [List.cons_append, List.cons_prefix_cons] at hpre
    apply h
    rw [hcs, hpre.1]
    simp

theorem containsList_append {needle before behind : List Char} (h : needle <+: behind) :
    containsList needle (before ++ behind) = true := by
  induction before with
  | nil =>
    cases behind with
    | nil => simpa [containsList] using h
    | cons c behind =>
      rw [List.nil_append, containsList, List.isPrefixOf_iff_prefix.2 h, Bool.true_or]
  | cons c before ih => rw [List.cons_append, containsList, ih, Bool.or_true]

theorem Clear.tail (h : Clear sep (c :: cs)) : Clear sep cs := by
  intro before behind hcs
  exact h (c :: before) behind (by rw [hcs, List.cons_append])

theorem Clear.head (h : Clear sep (c :: cs)) (rest : List Char) :
    sep.isPrefixOf (c :: cs ++ rest) = false := by
  have hpre := h [] (c :: cs) rfl (List.cons_ne_nil c cs) rest
  rw [← List.isPrefixOf_iff_prefix] at hpre
  exact Bool.eq_false_iff.2 hpre

theorem exists_of_containsList {needle : List Char} (h : containsList needle cs = true) :
    ∃ before behind, cs = before ++ behind ∧ needle <+: behind := by
  induction cs with
  | nil => exact ⟨[], [], rfl, by simpa [containsList] using h⟩
  | cons c cs ih =>
    rw [containsList, Bool.or_eq_true, List.isPrefixOf_iff_prefix] at h
    rcases h with h | h
    · exact ⟨[], c :: cs, rfl, h⟩
    · obtain ⟨before, behind, rfl, hpre⟩ := ih h
      exact ⟨c :: before, behind, rfl, hpre⟩

theorem Clear.cons (h : Clear sep cs) (hc : ∀ rest, ¬ sep <+: c :: cs ++ rest) : Clear sep (c :: cs) := by
  intro before behind hcs hne rest
  cases before with
  | nil =>
    rw [← List.nil_append behind, ← hcs]
    exact hc rest
  | cons d before => exact h before behind (List.cons.inj hcs).2 hne rest

theorem Clear.append {ds : List Char} (h : Clear sep cs) (h' : Clear sep ds) : Clear sep (cs ++ ds) := by
  induction cs with
  | nil => exact h'
  | cons c cs ih =>
    refine (ih h.tail).cons fun rest hpre => ?_
    rw [← List.cons_append, List.append_assoc] at hpre
    exact h [] (c :: cs) rfl (List.cons_ne_nil c cs) _ hpre

theorem Clear.containsList {more : List Char} (h : Clear sep (cs ++ more)) (hsep : sep ≠ []) :
    containsList sep cs = false := by
  refine Bool.eq_false_iff.2 fun htrue => ?_
  obtain ⟨before, behind, rfl, hpre⟩ := exists_of_containsList htrue
  have hne : behind ≠ [] := by
    rintro rfl
    exact hsep (List.prefix_nil.1 hpre)
  refine h before (behind ++ more) (List.append_assoc ..) (by simp [hne]) [] ?_
  rw [List.append_assoc]
  exact hpre.trans (List.prefix_append _ _)

/-! ### Splitting -/

theorem splitList_cons (sep c : Char) (cs : List Char) : splitList sep (c :: cs) =
    if c == sep then [] :: splitList sep cs else consFirst c (splitList sep cs) := rfl

theorem splitSeqList_cons (sep : List Char) (c : Char) (cs : List Char) : splitSeqList sep 0 (c :: cs) =
    if sep.isPrefixOf (c :: cs) then [] :: splitSeqList sep (sep.length - 1) cs
    else consFirst c (splitSeqList sep 0 cs) := rfl

theorem splitSeqList_skip (sep pre rest : List Char) :
    splitSeqList sep pre.length (pre ++ rest) = splitSeqList sep 0 rest := by
  induction pre with
  | nil => rfl
  | cons c pre ih =>
    rw [List.length_cons, List.cons_append]
    exact ih

theorem splitSeqList_clear (h : Clear sep cs) : splitSeqList sep 0 cs = [cs] := by
  induction cs with
  | nil => rfl
  | cons c cs ih =>
    have hhead := h.head []
    rw [List.append_nil] at hhead
    rw [splitSeqList_cons, hhead, ih h.tail]
    rfl

theorem splitSeqList_append (hsep : sep ≠ []) (h : Clear sep cs) (rest : List Char) :
    splitSeqList sep 0 (cs ++ sep ++ rest) = cs :: splitSeqList sep 0 rest := by
  induction cs with
  | nil =>
    obtain ⟨s, sep', rfl⟩ := List.exists_cons_of_ne_nil hsep
    have hpre : (s :: sep').isPrefixOf (s :: (sep' ++ rest)) = true :=
      List.isPrefixOf_iff_prefix.2 ⟨rest, rfl⟩
    rw [List.nil_append, List.cons_append, splitSeqList_cons, hpre, if_pos rfl]
    exact congrArg _ (splitSeqList_skip (s :: sep') sep' rest)
  | cons c cs ih =>
    have hhead := h.head (sep ++ rest)
    rw [← List.append_assoc] at hhead
    rw [List.cons_append, List.cons_append] at hhead ⊢
    rw [splitSeqList_cons, hhead, ih h.tail]
    rfl

/-- Splitting at a character. -/
theorem splitList_eq (c : Char) (cs : List Char) : splitList c cs = splitSeqList [c] 0 cs := by
  induction cs with
  | nil => rfl
  | cons d cs ih =>
    have hpre : [c].isPrefixOf (d :: cs) = (d == c) := by
      simp [List.isPrefixOf, eq_comm]
    rw [splitList_cons, splitSeqList_cons, hpre, ih]
    rfl

theorem splitList_ne_nil (sep : Char) (cs : List Char) : splitList sep cs ≠ [] := by
  cases cs with
  | nil => exact List.cons_ne_nil _ _
  | cons ch cs =>
    rw [splitList_cons]
    split
    · simp
    · cases splitList sep cs <;> simp [consFirst]

theorem consFirst_append (ch : Char) {pieces : List (List Char)} (h : pieces ≠ [])
    (more : List (List Char)) : consFirst ch (pieces ++ more) = consFirst ch pieces ++ more := by
  cases pieces with
  | nil => exact absurd rfl h
  | cons piece rest => rfl

/-- A separator parts the pieces before it from those behind it. -/
theorem splitList_append (sep : Char) (cs ds : List Char) :
    splitList sep (cs ++ sep :: ds) = splitList sep cs ++ splitList sep ds := by
  induction cs with
  | nil =>
    rw [List.nil_append, splitList_cons, if_pos (beq_self_eq_true sep)]
    rfl
  | cons ch cs ih =>
    rw [List.cons_append, splitList_cons, splitList_cons, ih]
    split
    · rfl
    · exact consFirst_append ch (splitList_ne_nil sep cs) _

/-! ### Joining -/

theorem toList_join_cons (sep s t : String) (rest : List String) :
    (join sep (s :: t :: rest)).toList = s.toList ++ sep.toList ++ (join sep (t :: rest)).toList := by
  rw [join, String.toList_append, String.toList_append]

theorem mem_toList_join {sep : String} (h : c ∈ (join sep ss).toList) :
    c ∈ sep.toList ∨ ∃ s ∈ ss, c ∈ s.toList := by
  induction ss with
  | nil => cases h
  | cons s rest ih =>
    cases rest with
    | nil => exact .inr ⟨s, List.mem_singleton_self s, h⟩
    | cons t rest =>
      rw [toList_join_cons, List.mem_append, List.mem_append] at h
      rcases h with (h | h) | h
      · exact .inr ⟨s, List.mem_cons_self .., h⟩
      · exact .inl h
      · exact (ih h).imp_right fun ⟨u, hu, hc⟩ => ⟨u, List.mem_cons_of_mem _ hu, hc⟩

theorem splitSeq_join {sep : String} (hsep : sep ≠ "") (hss : ss ≠ [])
    (h : ∀ s ∈ ss, Clear sep.toList s.toList) : splitSeq sep (join sep ss) = ss := by
  have hsep' : sep.toList ≠ [] := by simpa using hsep
  unfold splitSeq
  induction ss with
  | nil => exact absurd rfl hss
  | cons s rest ih =>
    obtain ⟨hs, hrest⟩ := List.forall_mem_cons.1 h
    cases rest with
    | nil =>
      rw [join, splitSeqList_clear hs, List.map_singleton, String.ofList_toList]
    | cons t rest =>
      rw [toList_join_cons, splitSeqList_append hsep' hs, List.map_cons, String.ofList_toList,
        ih (List.cons_ne_nil t rest) hrest]

theorem split_join (hss : ss ≠ []) (h : ∀ s ∈ ss, c ∉ s.toList) :
    split c (join (String.singleton c) ss) = ss := by
  have hsep : String.singleton c ≠ "" := by simp
  have hclear : ∀ s ∈ ss, Clear (String.singleton c).toList s.toList := by
    intro s hs
    rw [String.toList_singleton]
    exact clear_of_not_mem (h s hs)
  rw [split, splitList_eq, ← String.toList_singleton]
  exact splitSeq_join hsep hss hclear

/-- A delimiter in front of each text is one in front of them all and one between any two. -/
theorem join_map_append {sep : String} (hss : ss ≠ []) :
    String.join (ss.map (sep ++ ·)) = sep ++ join sep ss := by
  induction ss with
  | nil => exact absurd rfl hss
  | cons s rest ih =>
    cases rest with
    | nil => simp [join]
    | cons t rest =>
      rw [List.map_cons, String.join_cons, ih (List.cons_ne_nil t rest), join, String.append_assoc,
        String.append_assoc]

/-- Pairs of texts that are joined twice by the same separator. -/
theorem join_pairs (sep : String) (pairs : List (String × String)) :
    join sep (pairs.map fun (k, v) => k ++ sep ++ v) =
      join sep (pairs.flatMap fun (k, v) => [k, v]) := by
  induction pairs with
  | nil => rfl
  | cons p rest ih =>
    cases rest with
    | nil => simp [join]
    | cons q rest =>
      simp only [List.map_cons, List.flatMap_cons, List.cons_append, List.nil_append, join] at ih ⊢
      rw [ih]
      simp only [String.append_assoc]

theorem join_eq_empty_iff {sep : String} (hsep : sep ≠ "") : join sep ss = "" ↔ ss = [] ∨ ss = [""] := by
  cases ss with
  | nil => simp [join]
  | cons s rest =>
    cases rest with
    | nil => simp [join]
    | cons t rest => simp [join, hsep]

/-- Texts that are free of the separator are told apart when they are joined, but no text from one
empty text. -/
theorem join_eq_join_iff {sep : String} {ts : List String} (hsep : sep ≠ "")
    (hss : ∀ s ∈ ss, Clear sep.toList s.toList) (hts : ∀ t ∈ ts, Clear sep.toList t.toList) :
    join sep ss = join sep ts ↔ ss = ts ∨ (ss = [] ∨ ss = [""]) ∧ (ts = [] ∨ ts = [""]) := by
  rw [← join_eq_empty_iff hsep, ← join_eq_empty_iff hsep]
  constructor
  · intro h
    by_cases hempty : join sep ss = ""
    · exact .inr ⟨hempty, h ▸ hempty⟩
    · have hne : ∀ us, join sep us ≠ "" → us ≠ [] := fun us hus hnil => hus (by rw [hnil]; rfl)
      have hsplit := congrArg (splitSeq sep) h
      rw [splitSeq_join hsep (hne ss hempty) hss, splitSeq_join hsep (hne ts (h ▸ hempty)) hts] at hsplit
      exact .inl hsplit
  · rintro (rfl | ⟨hs, ht⟩)
    · rfl
    · rw [hs, ht]

/-- A separator before each text tells even no text from one empty text. -/
theorem join_map_append_inj {sep : String} {ts : List String} (hsep : sep ≠ "")
    (hss : ∀ s ∈ ss, Clear sep.toList s.toList) (hts : ∀ t ∈ ts, Clear sep.toList t.toList) :
    String.join (ss.map (sep ++ ·)) = String.join (ts.map (sep ++ ·)) ↔ ss = ts := by
  -- an empty text in front makes a separator before each text one between any two
  have hfront : ∀ us, String.join (us.map (sep ++ ·)) = join sep ("" :: us) := by
    intro us
    cases us with
    | nil => rfl
    | cons u rest =>
      rw [join_map_append (List.cons_ne_nil u rest), join, String.empty_append]
  have hclear : Clear sep.toList "".toList := fun before behind h hne =>
    absurd (List.append_eq_nil_iff.1 h.symm).2 hne
  rw [hfront, hfront, join_eq_join_iff hsep (List.forall_mem_cons.2 ⟨hclear, hss⟩)
    (List.forall_mem_cons.2 ⟨hclear, hts⟩)]
  simp only [List.cons.injEq, true_and, List.cons_ne_nil, false_or]
  exact or_iff_left_of_imp fun h => h.1.trans h.2.symm

theorem toList_join (sep : String) (ss : List String) :
    (join sep ss).toList = sep.toList.intercalate (ss.map String.toList) := by
  induction ss with
  | nil => rfl
  | cons s rest ih =>
    cases rest with
    | nil => rw [join, List.map_singleton, List.intercalate_singleton]
    | cons t rest =>
      rw [toList_join_cons, ih]
      exact List.intercalate_cons_cons.symm

theorem exists_intercalate_cons (sep cs : List Char) (css : List (List Char)) :
    ∃ rest, sep.intercalate (cs :: css) = cs ++ rest := by
  cases css with
  | nil => exact ⟨[], by rw [List.intercalate_singleton, List.append_nil]⟩
  | cons ds css => exact ⟨_, by rw [List.intercalate_cons_cons, List.append_assoc]⟩

/-! ### Reading lists -/

/-- A reader of lists with at least one more element: it reads an element, up to what closes the list or to a
separator, where it goes on. An element takes no more than two units of fuel for each character. -/
structure ReadsList {α : Type} {M : Type → Type} [Monad M] (reader : Nat → List Char → M (List α × List Char))
    (R : α → List Char → Prop) (sep close : List Char) : Prop where
  last {x : α} {cs : List Char} {fuel : Nat} (h : R x cs) (hfuel : 2 * cs.length ≤ fuel) (rest : List Char) :
    reader (fuel + 1) (cs ++ (close ++ rest)) = pure ([x], rest)
  next {x y : α} {cs ds : List Char} {fuel : Nat} (h : R x cs) (hy : R y ds) (hfuel : 2 * cs.length ≤ fuel)
    (rest : List Char) : reader (fuel + 1) (cs ++ (sep ++ (ds ++ rest))) = (do
      let (ys, rest) ← reader fuel (ds ++ rest)
      pure (x :: ys, rest))

theorem ReadsList.intercalate {α : Type} {M : Type → Type} [Monad M] [LawfulMonad M]
    {reader : Nat → List Char → M (List α × List Char)} {R : α → List Char → Prop} {close : List Char}
    {xs : List α} {css : List (List Char)} {fuel : Nat} (hreader : ReadsList reader R sep close)
    (h : List.Forall₂ R xs css) (hne : xs ≠ []) (rest : List Char)
    (hfuel : 2 * (sep.intercalate css).length + 1 ≤ fuel) (hsep : sep ≠ []) :
    reader fuel (sep.intercalate css ++ (close ++ rest)) = pure (xs, rest) := by
  have hlength := List.length_pos_iff.2 hsep
  induction h generalizing fuel with
  | nil => exact absurd rfl hne
  | @cons x cs xs css hx hrest ih =>
    obtain ⟨fuel, rfl⟩ : ∃ n, fuel = n + 1 := ⟨fuel - 1, by omega⟩
    cases hrest with
    | nil =>
      rw [List.intercalate_singleton] at hfuel ⊢
      exact hreader.last hx (by omega) rest
    | @cons y ds xs css hy hrest =>
      rw [List.intercalate_cons_cons, List.length_append, List.length_append] at hfuel
      have hmore := ih (List.cons_ne_nil _ _) (show _ ≤ fuel by omega)
      obtain ⟨tail, htail⟩ := exists_intercalate_cons sep ds css
      rw [htail, List.append_assoc] at hmore
      rw [List.intercalate_cons_cons, htail, List.append_assoc, List.append_assoc, List.append_assoc,
        hreader.next hx hy (by omega), hmore, pure_bind]

/-! ### Replacing -/

/-- Replacing a single character is done character by character. -/
theorem replaceList_singleton (new : List Char) :
    replaceList [c] new 0 cs = cs.flatMap fun d => if d = c then new else [d] := by
  induction cs with
  | nil => rfl
  | cons d rest ih =>
    rw [replaceList, List.flatMap_cons, List.length_singleton, ih]
    by_cases h : d = c
    · simp [h, List.isPrefixOf]
    · simp [h, Ne.symm h, List.isPrefixOf]

/-! ### Cutting and trimming -/

theorem cutList_append {key value : List Char} (h : c ∉ key) :
    cutList c (key ++ c :: value) = (key, some value) := by
  induction key with
  | nil => simp [cutList]
  | cons d key ih =>
    have ⟨hd, hkey⟩ : c ≠ d ∧ c ∉ key := by simpa using h
    have hne : (d == c) = false := beq_false_of_ne (Ne.symm hd)
    rw [List.cons_append, cutList, hne, ih hkey]
    rfl

theorem cut_pair {key value : String} (h : '=' ∉ key.toList) :
    cut '=' (key ++ "=" ++ value) = (key, some value) := by
  have htext : (key ++ "=" ++ value).toList = key.toList ++ '=' :: value.toList := by simp
  rw [cut, htext, cutList_append h]
  simp

theorem dropWhile_of_not_mem (h : c ∉ cs) : cs.dropWhile (· == c) = cs := by
  cases cs with
  | nil => rfl
  | cons d cs =>
    have hne : d ≠ c := fun heq => h (heq ▸ List.mem_cons_self ..)
    rw [List.dropWhile_cons_of_neg (by simpa using hne)]

theorem trimList_of_all {p : Char → Bool} (h : ∀ c ∈ cs, p c = false) : trimList p cs = cs := by
  have hkeep : ∀ ds : List Char, (∀ c ∈ ds, p c = false) → ds.dropWhile p = ds := by
    intro ds hds
    cases ds with
    | nil => rfl
    | cons d ds => rw [List.dropWhile_cons_of_neg (by simp [hds d])]
  rw [trimList, hkeep cs h, hkeep cs.reverse (by simpa using h), List.reverse_reverse]

end OpenApi.Text
