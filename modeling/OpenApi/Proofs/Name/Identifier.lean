import Mathlib.Data.List.SplitBy
import OpenApi.Name.Table
import OpenApi.Proofs.Text.Percent

/-!
What making names keeps. Joining words keeps the letters, digits and dollar signs of a text, and their
number, so a name with more of them is another name; and the identifier of a raw name that is one already
starts with it.
-/
namespace OpenApi

namespace Identifier

variable {c : Char} {word name : String}

/-- The characters that words are made of. -/
def isSolid (c : Char) : Bool := c.isAlphanum || c == '$'

/-- How many characters of a text can stand in words. -/
def solids (s : String) : Nat := s.toList.countP isSolid

theorem solids_append (s t : String) : solids (s ++ t) = solids s + solids t := by
  simp [solids]

theorem solids_le {s t : String} (h : s.toList <+: t.toList) : solids s ≤ solids t :=
  h.sublist.countP_le

theorem isPart_of_isSolid (h : isSolid c = true) : isPart c = true := by
  simp only [isSolid, isPart, Bool.or_eq_true] at h ⊢
  tauto

theorem toNat_of_isSolid (h : isSolid c = true) : c.toNat < 0x80 := by
  rcases Bool.or_eq_true_iff.1 h with h | h
  · rw [Percent.isAlphanum_iff] at h
    omega
  · rw [beq_iff_eq.1 h]
    decide

theorem upperChar_of_isSolid (h : isSolid c = true) : ∃ d, Text.upperChar c = [d] ∧ isSolid d = true := by
  have hall : ∀ n < 0x80, isSolid (Char.ofNat n) = true →
      isSolid (Char.ofNat n).toUpper = true := by decide
  have hc := toNat_of_isSolid h
  refine ⟨c.toUpper, by rw [Text.upperChar, if_pos hc], ?_⟩
  have hupper := hall c.toNat hc
  rw [Char.ofNat_toNat] at hupper
  exact hupper h

/-! ### Words -/

/-- No character of a word is a gap. -/
theorem not_gap_of_mem_wordsBy {p : Char → Bool} {cs : List Char} (h : word ∈ wordsBy p cs)
    (hc : c ∈ word.toList) : p c = false := by
  obtain ⟨run, hrun, rfl⟩ := List.mem_map.1 h
  obtain ⟨hrun, hmixed⟩ := List.mem_filter.1 hrun
  rw [String.toList_ofList] at hc
  -- the characters of a run are alike, and one of them is no gap
  have hpairwise : run.Pairwise fun a b => p a = p b := by
    have htrans : IsTrans Char fun a b => p a = p b := ⟨fun _ _ _ => Eq.trans⟩
    rw [← List.isChain_iff_pairwise]
    exact (List.isChain_of_mem_splitBy hrun).imp fun a b hab => beq_iff_eq.1 hab
  have hsymm : Std.Symm fun a b : Char => p a = p b := ⟨fun _ _ => Eq.symm⟩
  obtain ⟨d, hd, hgap⟩ : ∃ d ∈ run, p d = false := by simpa using hmixed
  rw [← hgap]
  exact List.Pairwise.forall_of_forall (R := fun a b => p a = p b) (fun _ _ => rfl) hpairwise hc hd

/-- What is left out between words are gaps alone. -/
theorem countP_wordsBy (p : Char → Bool) (cs : List Char) :
    ((wordsBy p cs).flatMap String.toList).countP (fun c => !p c) = cs.countP fun c => !p c := by
  have hfilter : ∀ runs : List (List Char),
      ((runs.filter fun run => !run.all p).flatMap fun run => run).countP (fun c => !p c) =
        runs.flatten.countP fun c => !p c := by
    intro runs
    induction runs with
    | nil => rfl
    | cons run rest ih =>
      rw [List.flatten_cons, List.countP_append, ← ih]
      by_cases hgap : run.all p = true
      · have hnone : run.countP (fun c => !p c) = 0 := by
          rw [List.countP_eq_zero]
          intro c hc
          simp [List.all_eq_true.1 hgap c hc]
        rw [List.filter_cons_of_neg (by simp [hgap]), hnone, Nat.zero_add]
      · rw [List.filter_cons_of_pos (by simp [hgap]), List.flatMap_cons, List.countP_append]
  have hruns := hfilter (cs.splitBy fun a b => p a == p b)
  rw [List.flatten_splitBy] at hruns
  rw [← hruns, wordsBy, List.flatMap_map]
  simp only [String.toList_ofList]

theorem capitalize_of_isSolid (h : ∀ c ∈ word.toList, isSolid c = true) :
    (∀ c ∈ (Text.capitalize word).toList, isSolid c = true) ∧
      solids (Text.capitalize word) = solids word := by
  unfold Text.capitalize
  cases hword : word.toList with
  | nil => simp [solids, hword]
  | cons c rest =>
    rw [hword] at h
    obtain ⟨hc, hrest⟩ := List.forall_mem_cons.1 h
    obtain ⟨d, hd, hsolid⟩ := upperChar_of_isSolid hc
    simp only [hd, String.toList_ofList, List.singleton_append, solids, hword]
    exact ⟨List.forall_mem_cons.2 ⟨hsolid, hrest⟩, by simp [hc, hsolid]⟩

/-! ### Names of several words -/

theorem isSolid_of_mem_words (h : word ∈ wordsBy (fun c => !(c.isAlphanum || c == '$')) name.toList) :
    ∀ c ∈ word.toList, isSolid c = true :=
  fun _ hc => (Bool.not_eq_false' _).mp (not_gap_of_mem_wordsBy h hc)

theorem solids_capitalize {words : List String} (h : ∀ w ∈ words, ∀ c ∈ w.toList, isSolid c = true) :
    solids (String.join (words.map Text.capitalize)) = (words.flatMap String.toList).countP isSolid := by
  induction words with
  | nil => rfl
  | cons w rest ih =>
    obtain ⟨hw, hrest⟩ := List.forall_mem_cons.1 h
    rw [List.map_cons, String.join_cons, solids_append, ih hrest, (capitalize_of_isSolid hw).2,
      List.flatMap_cons, List.countP_append]
    rfl

/-- A name that is made of words is more than nothing. -/
theorem solids_join_pos {p : Char → Bool} {cs : List Char} (hp : ∀ c, p c = false → isSolid c = true)
    (hwords : wordsBy p cs ≠ []) :
    0 < solids (String.join ((wordsBy p cs).map Text.capitalize)) := by
  have hsolid : ∀ w ∈ wordsBy p cs, ∀ c ∈ w.toList, isSolid c = true :=
    fun w hw c hc => hp c (not_gap_of_mem_wordsBy hw hc)
  obtain ⟨word, hword⟩ := List.exists_mem_of_ne_nil _ hwords
  obtain ⟨run, hrun, rfl⟩ := List.mem_map.1 hword
  obtain ⟨c, hc, -⟩ : ∃ c ∈ run, p c = false := by simpa using (List.mem_filter.1 hrun).2
  have hmem : c ∈ (String.ofList run).toList := by rwa [String.toList_ofList]
  rw [solids_capitalize hsolid, List.countP_pos_iff]
  exact ⟨c, List.mem_flatMap.2 ⟨_, hword, hmem⟩, hsolid _ hword c hmem⟩

/-- Joining words keeps what they are made of. -/
theorem solids_pascal (name : String) : solids (pascal name) = solids name := by
  have hcount := countP_wordsBy (fun c => !(c.isAlphanum || c == '$')) name.toList
  simp only [Bool.not_not] at hcount
  unfold pascal
  dsimp only
  split
  · next hempty =>
    rw [List.isEmpty_iff.1 hempty] at hcount
    exact hcount
  · rw [solids_capitalize fun w hw => isSolid_of_mem_words hw]
    exact hcount

theorem isPart_of_mem_pascal (h : c ∈ (pascal name).toList) : isPart c = true := by
  unfold pascal at h
  dsimp only at h
  split at h
  · obtain rfl : c = '_' := by simpa using h
    decide
  · rw [String.toList_join, List.flatMap_map] at h
    obtain ⟨w, hw, hc⟩ := List.mem_flatMap.1 h
    exact isPart_of_isSolid ((capitalize_of_isSolid (isSolid_of_mem_words hw)).1 c hc)

theorem isPart_of_mem_isIdentifier (h : isIdentifier name = true) :
    ∀ c ∈ name.toList, isPart c = true := by
  unfold isIdentifier at h
  split at h
  · cases h
  · next hname =>
    obtain ⟨hstart, hparts⟩ := Bool.and_eq_true_iff.1 h
    rw [hname]
    exact List.forall_mem_cons.2 ⟨(Bool.and_eq_true_iff.1 hstart).1, List.all_eq_true.1 hparts⟩

theorem isIdentifier_append {more : String} (h : isIdentifier name = true)
    (hmore : ∀ c ∈ more.toList, isPart c = true) : isIdentifier (name ++ more) = true := by
  unfold isIdentifier at h ⊢
  rw [String.toList_append]
  split at h
  · cases h
  · next hname =>
    rw [hname]
    obtain ⟨hstart, hparts⟩ := Bool.and_eq_true_iff.1 h
    simp only [List.cons_append, List.all_append, Bool.and_eq_true]
    exact ⟨hstart, hparts, List.all_eq_true.2 hmore⟩

theorem isPart_of_mem_toDigits {n : Nat} (h : c ∈ Nat.toDigits 10 n) : isPart c = true := by
  have hdigit : c.isDigit = true := Nat.isDigit_of_mem_toDigits (by omega) (by omega) h
  simp [isPart, Char.isAlphanum, hdigit]

/-- An identifier is its own identifier. -/
theorem ofText_of_isIdentifier (h : isIdentifier name = true) : ofText name = name := by
  have hmap : name.toList.map (fun c => if isPart c then c else '_') = name.toList := by
    refine (List.map_congr_left fun c hc => ?_).trans (List.map_id _)
    rw [if_pos (isPart_of_mem_isIdentifier h c hc)]
    rfl
  unfold isIdentifier at h
  split at h
  · cases h
  · next hname =>
    have hstart := (Bool.and_eq_true_iff.1 (Bool.and_eq_true_iff.1 h).1).2
    unfold ofText
    rw [hmap, hname]
    dsimp only
    rw [if_neg (by simpa using hstart), ← hname, String.ofList_toList]

/-- Whatever the raw name is, an identifier is made of it. -/
theorem isIdentifier_ofText (raw : String) : isIdentifier (ofText raw) = true := by
  have hparts : ∀ c ∈ raw.toList.map (fun c => if isPart c then c else '_'), isPart c = true := by
    intro c hc
    obtain ⟨d, -, rfl⟩ := List.mem_map.1 hc
    split
    · assumption
    · decide
  unfold ofText
  split
  · decide
  · next c rest hmap =>
    rw [hmap] at hparts
    obtain ⟨hc, hrest⟩ := List.forall_mem_cons.1 hparts
    rw [isIdentifier, String.toList_ofList]
    split_ifs with hdigit
    · exact Bool.and_eq_true_iff.2 ⟨by decide, List.all_eq_true.2 hparts⟩
    · exact Bool.and_eq_true_iff.2 ⟨by simp [isStart, hc, hdigit], List.all_eq_true.2 hrest⟩

end Identifier

namespace NameTable

theorem toList_unreserve (naming : Naming) (name : String) :
    name.toList <+: (naming.unreserve name).toList := by
  unfold Naming.unreserve
  split
  · rw [String.toList_append]
    exact List.prefix_append _ _
  · exact List.prefix_refl _

/-- Candidates start with the name that they are tried for. -/
theorem toList_candidate (naming : Naming) (base : String) (n : Nat) :
    base.toList <+: (candidate naming base n).toList := by
  unfold candidate
  split
  · exact List.prefix_refl _
  · refine List.IsPrefix.trans ?_ (toList_unreserve naming _)
    rw [String.toList_append, String.toList_append, List.append_assoc]
    exact List.prefix_append _ _

end NameTable
end OpenApi
