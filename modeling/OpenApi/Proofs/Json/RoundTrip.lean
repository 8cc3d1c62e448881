import Mathlib.Algebra.Group.Nat.Defs
import Mathlib.Data.List.TakeDrop
import OpenApi.Json.Parser
import OpenApi.Json.Printer
import OpenApi.Proofs.Outcome
import OpenApi.Proofs.Text.Number
import OpenApi.Proofs.Tree

/-!
JSON texts are read as they were written. Every reader is followed through what the writer puts down for a
value, whatever stands behind it, as long as that does not go on with a number. Fuel is no obstacle: a
value needs no more than two units for each of its characters.
-/
namespace OpenApi.Json

variable {ch : Char} {rest cs : List Char} {n : Int} {vs : List Value} {css : List (List Char)}
  {fuel : Nat}

/-! ### Strings -/

theorem hexValue?_hexDigits : ∀ n < 0x20,
    (Text.hexDigits 4 n).length = 4 ∧ hexValue? (Text.hexDigits 4 n) = some n := by
  decide

/-- A character that stands for itself. -/
theorem stringUnits_plain (opening : List Char) (hquote : ch ≠ '"') (hback : ch ≠ '\\')
    (hlow : ¬ ch.toNat < 0x20) (rest : List Char) :
    stringUnits opening (ch :: rest) = (do
      let (ns, rest) ← stringUnits opening rest
      .ok (ch.toNat :: ns, rest)) := by
  rw [stringUnits, if_neg hlow] <;> simp [hquote, hback]

/-- One character of a string; a string does not end with it. -/
theorem stringUnits_writtenChar (opening : List Char) (ch next : Char) (rest : List Char) :
    stringUnits opening (writtenChar ch ++ next :: rest) = (do
      let (ns, rest) ← stringUnits opening (next :: rest)
      .ok (ch.toNat :: ns, rest)) := by
  unfold writtenChar
  split
  · next h => rw [beq_iff_eq.1 h]; rfl
  split
  · next h => rw [beq_iff_eq.1 h]; rfl
  split
  · next h => rw [beq_iff_eq.1 h]; rfl
  split
  · next h => rw [beq_iff_eq.1 h]; rfl
  split
  · next h => rw [beq_iff_eq.1 h]; rfl
  split
  · next h => rw [h]; rfl
  split
  · next h => rw [h]; rfl
  split
  · next h =>
    obtain ⟨hlength, hvalue⟩ := hexValue?_hexDigits ch.toNat h
    match hdigits : Text.hexDigits 4 ch.toNat, hlength with
    | [a, b, c, d], _ =>
      rw [hdigits] at hvalue
      simp only [List.cons_append, List.nil_append]
      rw [stringUnits, hvalue]
  · next hquote hback _ _ _ _ _ hlow =>
    rw [beq_iff_eq] at hquote hback
    rw [List.singleton_append, stringUnits_plain opening hquote hback hlow]

theorem stringUnits_flatMap (opening cs rest : List Char) :
    stringUnits opening (cs.flatMap writtenChar ++ '"' :: rest) =
      .ok (cs.map Char.toNat, rest) := by
  induction cs with
  | nil => rfl
  | cons ch cs ih =>
    rw [List.flatMap_cons, List.append_assoc]
    obtain ⟨next, more, hmore⟩ : ∃ next more,
        cs.flatMap writtenChar ++ '"' :: rest = next :: more :=
      List.exists_cons_of_ne_nil (by simp)
    rw [hmore, stringUnits_writtenChar, ← hmore, ih]
    rfl

theorem not_surrogate (ch : Char) :
    isHighSurrogate ch.toNat = false ∧ isLowSurrogate ch.toNat = false := by
  have hvalid : ch.toNat < 0xd800 ∨ 0xdfff < ch.toNat ∧ ch.toNat < 0x110000 := ch.valid
  simp only [isHighSurrogate, isLowSurrogate, Bool.and_eq_false_iff, decide_eq_false_iff_not]
  omega

/-- No character is half of a surrogate pair. -/
theorem joinUnits_map (cs : List Char) : joinUnits (cs.map Char.toNat) = cs := by
  induction cs with
  | nil => rfl
  | cons ch cs ih =>
    obtain ⟨hhigh, hlow⟩ := not_surrogate ch
    cases cs with
    | nil => simp [joinUnits, hhigh, hlow]
    | cons next cs =>
      rw [List.map_cons] at ih
      rw [List.map_cons, List.map_cons, joinUnits, hhigh, hlow]
      simp [ih]

theorem toList_written (s : String) :
    (written s).toList = '"' :: (s.toList.flatMap writtenChar ++ ['"']) := by
  simp [written]

theorem stringBody_written (opening : List Char) (s : String) (rest : List Char) :
    stringBody opening (s.toList.flatMap writtenChar ++ '"' :: rest) = .ok (s, rest) := by
  unfold stringBody
  rw [stringUnits_flatMap]
  change Except.ok (String.ofList (joinUnits (s.toList.map Char.toNat)), rest) = _
  rw [joinUnits_map, String.ofList_toList]

/-! ### Numbers -/

/-- What may stand behind a value in a text. -/
def Ends (rest : List Char) : Prop := ∀ ch ∈ rest.head?, ch = ',' ∨ ch = ']' ∨ ch = '\x7d'

theorem Ends.not_digit (h : Ends rest) :
    rest.takeWhile Char.isDigit = [] ∧ rest.dropWhile Char.isDigit = rest := by
  cases rest with
  | nil => exact ⟨rfl, rfl⟩
  | cons ch rest => rcases h ch rfl with rfl | rfl | rfl <;> exact ⟨rfl, rfl⟩

theorem fractionDigits_of_ends (h : Ends rest) : fractionDigits rest = ([], rest) := by
  cases rest with
  | nil => rfl
  | cons ch rest => rcases h ch rfl with rfl | rfl | rfl <;> rfl

theorem exponentPart_of_ends (h : Ends rest) : exponentPart rest = (none, rest) := by
  cases rest with
  | nil => rfl
  | cons ch rest => rcases h ch rfl with rfl | rfl | rfl <;> rfl

/-- No number but zero starts with the digit zero. -/
theorem head_toDigits {n : Nat} (hn : n ≠ 0) :
    ∃ ch more, Nat.toDigits 10 n = ch :: more ∧ ch ≠ '0' := by
  induction n using Nat.strongRecOn with
  | ind n ih =>
    rw [Nat.toDigits_eq_if (by omega)]
    split
    · next hlt =>
      have hzero : ∀ d < 10, d ≠ 0 → d.digitChar ≠ '0' := by decide
      exact ⟨n.digitChar, [], rfl, hzero n hlt hn⟩
    · next hge =>
      obtain ⟨ch, more, hmore, hch⟩ := ih (n / 10) (by omega) (by omega)
      exact ⟨ch, more ++ [(n % 10).digitChar], by rw [hmore]; rfl, hch⟩

theorem wholeDigits_toDigits (n : Nat) (h : Ends rest) :
    wholeDigits (Nat.toDigits 10 n ++ rest) = some (Nat.toDigits 10 n, rest) := by
  by_cases hn : n = 0
  · subst hn
    rfl
  · have hall : ∀ ch ∈ Nat.toDigits 10 n, ch.isDigit = true :=
      fun ch hch => Nat.isDigit_of_mem_toDigits (by omega) (by omega) hch
    have hspan : (Nat.toDigits 10 n ++ rest).span Char.isDigit = (Nat.toDigits 10 n, rest) := by
      rw [List.span_eq_takeWhile_dropWhile, List.takeWhile_append_of_pos hall,
        List.dropWhile_append_of_pos hall, h.not_digit.1, h.not_digit.2, List.append_nil]
    obtain ⟨ch, more, hmore, hch⟩ := head_toDigits hn
    rw [hmore] at hspan hall ⊢
    rw [List.cons_append] at hspan ⊢
    unfold wholeDigits
    split
    · next heq => exact absurd (List.cons.inj heq).1 hch
    · next heq =>
      obtain ⟨rfl, rfl⟩ := List.cons.inj heq
      rw [if_pos (hall _ List.mem_cons_self), hspan]
    · next heq => cases heq

theorem number_toDigits (start : List Char) (negative : Bool) (n : Nat) (h : Ends rest) :
    number start negative (Nat.toDigits 10 n ++ rest) =
      if n < 10 ^ Text.maxDigits then .ok (.int (if negative then -(n : Int) else n), rest)
      else stopAt .tooManyDigits start := by
  have hvalue : digitsValue (Nat.toDigits 10 n) = n := Text.digitsValue_toDigits n
  have hmax : (Nat.toDigits 10 n).length ≤ Text.maxDigits ↔ n < 10 ^ Text.maxDigits :=
    Nat.length_toDigits_le_iff (by omega) (by decide)
  unfold number
  rw [wholeDigits_toDigits n h]
  simp only [fractionDigits_of_ends h, exponentPart_of_ends h]
  rw [if_pos (by rfl), hvalue]
  by_cases hn : n < 10 ^ Text.maxDigits
  · rw [if_pos hn, if_neg (Nat.not_lt.2 (hmax.2 hn))]
  · rw [if_neg hn, if_pos (Nat.not_le.1 fun hle => hn (hmax.1 hle))]

/-- A text that starts like a number is none of the constants. -/
theorem literal_digit (hch : ch.isDigit = true) (rest : List Char) :
    literal (ch :: rest) = number (ch :: rest) false (ch :: rest) ∧
      literal ('-' :: ch :: rest) = number ('-' :: ch :: rest) true (ch :: rest) := by
  have hne : ∀ other, other.isDigit = false → (other == ch) = false := by
    intro other hother
    rw [beq_eq_false_iff_ne]
    rintro rfl
    rw [hch] at hother
    cases hother
  have hplain : constants.find? (fun e => e.1.isPrefixOf (ch :: rest)) = none := by
    simp [constants, List.isPrefixOf, hne]
  have hminus : constants.find? (fun e => e.1.isPrefixOf ('-' :: ch :: rest)) = none := by
    simp [constants, List.isPrefixOf, hne]
  unfold literal
  rw [hplain, hminus]
  refine ⟨?_, rfl⟩
  dsimp only
  split
  · next heq =>
    rw [(List.cons.inj heq).1] at hch
    cases hch
  · rfl

theorem toDigits_eq_cons (n : Nat) :
    ∃ ch more, Nat.toDigits 10 n = ch :: more ∧ ch.isDigit = true := by
  obtain ⟨ch, more, hmore⟩ := List.exists_cons_of_ne_nil (Nat.toDigits_ne_nil (b := 10) (n := n))
  refine ⟨ch, more, hmore, ?_⟩
  apply Nat.isDigit_of_mem_toDigits (b := 10) (n := n) (by omega) (by omega)
  rw [hmore]
  exact List.mem_cons_self

theorem literal_intText (hn : n.natAbs < 10 ^ Text.maxDigits) (h : Ends rest) :
    literal ((intText n).toList ++ rest) = .ok (.int n, rest) := by
  obtain ⟨ch, more, hmore, hch⟩ := toDigits_eq_cons n.natAbs
  obtain ⟨hplain, hminus⟩ := literal_digit hch (more ++ rest)
  rw [← List.cons_append, ← hmore] at hplain hminus
  unfold intText
  split
  · next hneg =>
    have hlist : ("-" ++ Nat.repr n.natAbs).toList ++ rest =
        '-' :: (Nat.toDigits 10 n.natAbs ++ rest) := by
      rw [String.toList_append, Nat.toList_repr]
      rfl
    have habs : -(n.natAbs : Int) = n := by omega
    rw [hlist, hminus, number_toDigits _ true _ h, if_pos hn, if_pos rfl, habs]
  · next hneg =>
    have habs : (n.natAbs : Int) = n := by omega
    rw [Nat.toList_repr, hplain, number_toDigits _ false _ h, if_pos hn, if_neg (by decide), habs]

/-! ### Values -/

/-- Data as JSON knows it, floating point numbers aside. Keys are texts, each of them given once. -/
inductive Data : Value → Prop
  | null : Data .null
  | bool (b : Bool) : Data (.bool b)
  | int (n : Int) : Data (.int n)
  | str (s : String) : Data (.str s)
  | list {items : List Value} (h : ∀ v ∈ items, Data v) : Data (.list items)
  | map {entries : Entries} (htext : ∀ e ∈ entries, ∃ key, e.1 = .str key)
      (hkeys : (entries.map Prod.fst).Nodup) (h : ∀ e ∈ entries, Data e.2) : Data (.map entries)

/-- No integer in a value has more digits than are read and written. -/
def Bounded (v : Value) : Prop := ∀ n : Int, .int n ∈ v.subvalues → n.natAbs < 10 ^ Text.maxDigits

theorem bounded_int_iff : Bounded (.int n) ↔ n.natAbs < 10 ^ Text.maxDigits := by
  constructor
  · exact fun h => h n (Value.mem_subvalues_self _)
  · intro hn m hm
    rw [Value.subvalues, List.mem_singleton] at hm
    cases hm
    exact hn

theorem bounded_list_iff : Bounded (.list vs) ↔ ∀ v ∈ vs, Bounded v := by
  have hmem : ∀ n : Int, .int n ∈ (Value.list vs).subvalues ↔ ∃ v ∈ vs, .int n ∈ v.subvalues := by
    intro n
    rw [Value.subvalues, List.mem_cons, ← Value.mem_itemSubvalues]
    simp
  simp only [Bounded, hmem]
  exact ⟨fun h v hv n hn => h n ⟨v, hv, hn⟩, fun h n ⟨v, hv, hn⟩ => h v hv n hn⟩

theorem bounded_map_iff {entries : List (Scalar × Value)} :
    Bounded (.map entries) ↔ ∀ e ∈ entries, Bounded e.2 := by
  have hmem : ∀ n : Int, .int n ∈ (Value.map entries).subvalues ↔
      ∃ e ∈ entries, .int n ∈ e.2.subvalues := by
    intro n
    rw [Value.subvalues, List.mem_cons, ← Value.mem_entrySubvalues]
    simp
  simp only [Bounded, hmem]
  exact ⟨fun h e he n hn => h n ⟨e, he, hn⟩, fun h n ⟨e, he, hn⟩ => h e he n hn⟩

/-- A character that a value can start with. -/
def isOpening (ch : Char) : Bool := !isBlank ch && ch != ']' && ch != '\x7d' && ch != '\ufeff'

/-- A text that starts like a value. -/
def Starts (cs : List Char) : Prop := ∃ ch more, cs = ch :: more ∧ isOpening ch = true

/-- A text of a value, whatever stands behind it. -/
structure Reads (v : Value) (cs : List Char) : Prop where
  starts : Starts cs
  value_eq : ∀ fuel rest, Ends rest → 2 * cs.length ≤ fuel → value fuel (cs ++ rest) = .ok (v, rest)

theorem skipBlanks_of_starts (h : Starts cs) (rest : List Char) :
    skipBlanks (cs ++ rest) = cs ++ rest := by
  obtain ⟨ch, more, rfl, hch⟩ := h
  have hblank : isBlank ch = false := by
    simp only [isOpening, Bool.and_eq_true, Bool.not_eq_true'] at hch
    exact hch.1.1.1
  rw [skipBlanks, List.cons_append, List.dropWhile_cons_of_neg (by simp [hblank])]

/-- The texts of a list start like the first of them. -/
theorem starts_intercalate {α : Type} {xs : List α} (hne : xs ≠ [])
    (h : List.Forall₂ (fun _ cs => Starts cs) xs css) : Starts ([','].intercalate css) := by
  cases h with
  | nil => exact absurd rfl hne
  | @cons _ _ _ css hcs _ =>
    obtain ⟨ch, more, rfl, hch⟩ := hcs
    obtain ⟨rest, hrest⟩ := Text.exists_intercalate_cons [','] (ch :: more) css
    exact ⟨ch, more ++ rest, hrest, hch⟩

theorem readsList_items : Text.ReadsList items Reads [','] [']'] where
  last h hfuel rest := by
    rw [items, h.value_eq _ _ (by simp [Ends]) hfuel]
    rfl
  next {x y cs ds fuel} h hy hfuel rest := by
    have hskip := skipBlanks_of_starts hy.starts rest
    rw [items, h.value_eq _ _ (by simp [Ends]) hfuel]
    change (do
      let more ← items fuel (skipBlanks (ds ++ rest))
      Except.ok (x :: more.1, more.2)) = _
    rw [hskip]
    rfl

/-- The text of a member of an object. -/
structure ReadsEntry (e : Scalar × Value) (cs : List Char) : Prop where
  parts : ∃ key ds, e.1 = .str key ∧ cs = (written key).toList ++ ':' :: ds ∧ Reads e.2 ds

theorem ReadsEntry.starts {e : Scalar × Value} (h : ReadsEntry e cs) : Starts cs := by
  obtain ⟨key, ds, -, rfl, -⟩ := h.parts
  rw [toList_written]
  exact ⟨'"', _, rfl, by decide⟩

/-- The first member of an object, when it is the last one too and when others follow. -/
theorem members_entry {e : Scalar × Value} (h : ReadsEntry e cs) (rest : List Char)
    (hfuel : 2 * cs.length ≤ fuel) :
    members (fuel + 1) (cs ++ '\x7d' :: rest) = .ok ([e], rest) ∧
      members (fuel + 1) (cs ++ ',' :: rest) = (do
        let (more, rest) ← members fuel (skipBlanks rest)
        .ok (e :: more, rest)) := by
  obtain ⟨key, ds, hkey, rfl, hds⟩ := h.parts
  have hlength : ds.length ≤ ((written key).toList ++ ':' :: ds).length := by
    rw [List.length_append, List.length_cons]
    omega
  have hentry : (Scalar.str key, e.2) = e := by rw [← hkey]
  have htext : ∀ behind, (written key).toList ++ ':' :: ds ++ behind =
      '"' :: (key.toList.flatMap writtenChar ++ '"' :: ':' :: (ds ++ behind)) := by
    intro behind
    rw [toList_written]
    simp
  have hvalue : ∀ behind, Ends behind → value fuel (skipBlanks (ds ++ behind)) = .ok (e.2, behind) := by
    intro behind hbehind
    rw [skipBlanks_of_starts hds.starts, hds.value_eq fuel behind hbehind (by omega)]
  constructor
  all_goals
    rw [htext, members, stringBody_written]
    change (value fuel (skipBlanks (ds ++ _)) >>= _) = _
    rw [hvalue _ (by simp [Ends]), ← hentry]
    rfl

theorem readsList_members : Text.ReadsList members ReadsEntry [','] ['\x7d'] where
  last h hfuel rest := (members_entry h rest hfuel).1
  next {x y cs ds fuel} h hy hfuel rest := by
    rw [List.singleton_append, (members_entry h (ds ++ rest) hfuel).2, skipBlanks_of_starts hy.starts]
    rfl

/-! ### From writer to reader -/

theorem value_eq_literal (hquote : ch ≠ '"') (hbrace : ch ≠ '\x7b') (hbracket : ch ≠ '[') :
    value (fuel + 1) (ch :: rest) = literal (ch :: rest) := by
  rw [value] <;> simp [hquote, hbrace, hbracket]

/-- A constant or number, read by `literal`. -/
theorem reads_of_literal {v : Value} {more : List Char} (hopening : isOpening ch = true)
    (hquote : ch ≠ '"') (hbrace : ch ≠ '\x7b') (hbracket : ch ≠ '[')
    (h : ∀ rest, Ends rest → literal (ch :: more ++ rest) = .ok (v, rest)) :
    Reads v (ch :: more) := by
  refine ⟨⟨ch, more, rfl, hopening⟩, fun fuel rest hrest hfuel => ?_⟩
  obtain ⟨fuel, rfl⟩ : ∃ n, fuel = n + 1 := ⟨fuel - 1, by simp only [List.length_cons] at hfuel; omega⟩
  rw [← h rest hrest, List.cons_append]
  exact value_eq_literal hquote hbrace hbracket

theorem reads_int (hn : n.natAbs < 10 ^ Text.maxDigits) :
    intText? n = some (intText n) ∧ Reads (.int n) (intText n).toList := by
  refine ⟨if_pos ((Nat.length_toDigits_le_iff (by omega) (by decide)).2 hn), ?_⟩
  have hstart : ∃ ch more, (intText n).toList = ch :: more ∧ Text.isIntChar ch = true := by
    obtain ⟨ch, more, hmore, hch⟩ := toDigits_eq_cons n.natAbs
    unfold intText
    split
    · exact ⟨'-', (Nat.repr n.natAbs).toList, by rw [String.toList_append]; rfl, by decide⟩
    · exact ⟨ch, more, by rw [Nat.toList_repr, hmore], by rw [Text.isIntChar, hch, Bool.true_or]⟩
  obtain ⟨ch, more, hmore, hch⟩ := hstart
  have hne : ∀ other, Text.isIntChar other = false → ch ≠ other := by
    rintro other hother rfl
    rw [hch] at hother
    cases hother
  have hopening : isOpening ch = true := by
    simp [isOpening, isBlank, hne ' ' (by decide), hne '\t' (by decide), hne '\n' (by decide),
      hne '\r' (by decide), hne ']' (by decide), hne '\x7d' (by decide), hne '\ufeff' (by decide)]
  rw [hmore]
  apply reads_of_literal hopening (hne _ (by decide)) (hne _ (by decide)) (hne _ (by decide))
  intro rest hrest
  rw [← hmore]
  exact literal_intText hn hrest

theorem reads_str (s : String) : Reads (.str s) (written s).toList := by
  rw [toList_written]
  refine ⟨⟨'"', _, rfl, by decide⟩, fun fuel rest _ hfuel => ?_⟩
  obtain ⟨fuel, rfl⟩ : ∃ n, fuel = n + 1 := ⟨fuel - 1, by simp only [List.length_cons] at hfuel; omega⟩
  rw [List.cons_append, List.append_assoc, value, List.singleton_append, stringBody_written]
  rfl

theorem reads_list (h : List.Forall₂ Reads vs css) :
    Reads (.list vs) ('[' :: ([','].intercalate css ++ [']'])) := by
  refine ⟨⟨'[', _, rfl, by decide⟩, fun fuel rest _ hfuel => ?_⟩
  simp only [List.length_cons, List.length_append, List.length_nil] at hfuel
  obtain ⟨fuel, rfl⟩ : ∃ n, fuel = n + 1 := ⟨fuel - 1, by omega⟩
  rw [List.cons_append, List.append_assoc]
  by_cases hne : vs = []
  · subst hne
    cases h
    rfl
  · have hstarts : Starts ([','].intercalate css) :=
      starts_intercalate hne (h.imp fun _ _ h => h.starts)
    have hitems := readsList_items.intercalate h hne rest (show _ ≤ fuel by omega) (by simp)
    rw [value, skipBlanks_of_starts hstarts]
    obtain ⟨ch, more, hmore, hch⟩ := hstarts
    rw [hmore] at hitems ⊢
    rw [List.cons_append] at hitems ⊢
    split
    · next heq =>
      rw [(List.cons.inj heq).1] at hch
      exact absurd hch (by decide)
    · rw [hitems]
      rfl

theorem reads_map {entries : Entries} (htext : ∀ e ∈ entries, ∃ key, e.1 = .str key)
    (hkeys : (entries.map Prod.fst).Nodup) (h : List.Forall₂ ReadsEntry entries css) :
    Reads (.map entries) ('\x7b' :: ([','].intercalate css ++ ['\x7d'])) := by
  refine ⟨⟨'\x7b', _, rfl, by decide⟩, fun fuel rest _ hfuel => ?_⟩
  simp only [List.length_cons, List.length_append, List.length_nil] at hfuel
  obtain ⟨fuel, rfl⟩ : ∃ n, fuel = n + 1 := ⟨fuel - 1, by omega⟩
  rw [List.cons_append, List.append_assoc]
  by_cases hne : entries = []
  · subst hne
    cases h
    rfl
  · have hstarts : Starts ([','].intercalate css) :=
      starts_intercalate hne (h.imp fun _ _ h => h.starts)
    have hmembers := readsList_members.intercalate h hne rest (show _ ≤ fuel by omega) (by simp)
    rw [value, skipBlanks_of_starts hstarts]
    obtain ⟨ch, more, hmore, hch⟩ := hstarts
    rw [hmore] at hmembers ⊢
    rw [List.cons_append] at hmembers ⊢
    split
    · next heq =>
      rw [(List.cons.inj heq).1] at hch
      exact absurd hch (by decide)
    · rw [hmembers]
      change Except.ok (Value.map (Entries.ofList entries), rest) = _
      rw [Entries.ofList_of_nodup htext hkeys]

/-- What is said of the text of each item is said of the texts of all of them. -/
theorem exists_printItems {P : Value → String → Prop}
    (h : ∀ v ∈ vs, ∃ text, print? v = some text ∧ P v text) :
    ∃ texts, printItems? vs = some texts ∧ List.Forall₂ P vs texts := by
  induction vs with
  | nil => exact ⟨[], rfl, .nil⟩
  | cons v vs ih =>
    obtain ⟨⟨text, htext, hP⟩, hvs⟩ := List.forall_mem_cons.1 h
    obtain ⟨texts, htexts, hall⟩ := ih hvs
    exact ⟨text :: texts, by simp [printItems?, htext, htexts], .cons hP hall⟩

theorem exists_printEntries {P : Scalar × Value → String → Prop} {entries : Entries}
    (h : ∀ e ∈ entries, ∃ key text, keyText? e.1 = some key ∧ print? e.2 = some text ∧
      P e (key ++ ":" ++ text)) :
    ∃ texts, printEntries? entries = some texts ∧ List.Forall₂ P entries texts := by
  induction entries with
  | nil => exact ⟨[], rfl, .nil⟩
  | cons e entries ih =>
    obtain ⟨⟨key, text, hkey, htext, hP⟩, hentries⟩ := List.forall_mem_cons.1 h
    obtain ⟨texts, htexts, hall⟩ := ih hentries
    obtain ⟨k, v⟩ := e
    exact ⟨_ :: texts, by simp [printEntries?, hkey, htext, htexts], .cons hP hall⟩

theorem Data.exists_print {v : Value} (h : Data v) (hbounded : Bounded v) :
    ∃ text, print? v = some text ∧ Reads v text.toList := by
  induction h with
  | null =>
    exact ⟨"null", rfl, reads_of_literal rfl (by decide) (by decide) (by decide) fun _ _ => rfl⟩
  | bool b =>
    cases b with
    | true =>
      exact ⟨"true", rfl, reads_of_literal rfl (by decide) (by decide) (by decide) fun _ _ => rfl⟩
    | false =>
      exact ⟨"false", rfl, reads_of_literal rfl (by decide) (by decide) (by decide) fun _ _ => rfl⟩
  | int n =>
    obtain ⟨htext, hreads⟩ := reads_int (hbounded n (Value.mem_subvalues_self _))
    exact ⟨_, htext, hreads⟩
  | str s => exact ⟨written s, rfl, reads_str s⟩
  | @list items _ ih =>
    obtain ⟨texts, htexts, hall⟩ := exists_printItems fun v hv =>
      ih v hv fun n hn => hbounded n (Value.subvalues_trans (Value.mem_subvalues_of_item hv) hn)
    refine ⟨"[" ++ ",".intercalate texts ++ "]", by simp [print?, htexts], ?_⟩
    have hreads := reads_list (List.forall₂_map_right_iff.2 hall)
    simpa [String.toList_intercalate] using hreads
  | @map entries htext hkeys _ ih =>
    have hentry : ∀ e ∈ entries, ∃ key text, keyText? e.1 = some key ∧ print? e.2 = some text ∧
        ReadsEntry e (key ++ ":" ++ text).toList := by
      intro e he
      obtain ⟨key, hkey⟩ := htext e he
      obtain ⟨text, hprint, hreads⟩ := ih e he fun n hn =>
        hbounded n (Value.subvalues_trans (Value.mem_subvalues_of_entry he) hn)
      refine ⟨written key, text, by rw [hkey]; rfl, hprint, ⟨key, text.toList, hkey, ?_, hreads⟩⟩
      simp
    obtain ⟨texts, htexts, hall⟩ :=
      exists_printEntries (P := fun e text => ReadsEntry e text.toList) hentry
    refine ⟨"\x7b" ++ ",".intercalate texts ++ "\x7d", by simp [print?, htexts], ?_⟩
    have hreads := reads_map htext hkeys (List.forall₂_map_right_iff.2 hall)
    simpa [String.toList_intercalate] using hreads

/-- A value is written, and its text is read as the value. -/
theorem Data.parse_print {v : Value} (h : Data v) (hbounded : Bounded v) :
    ∃ text, print? v = some text ∧ parse text = .ok v := by
  obtain ⟨text, hprint, hreads⟩ := h.exists_print hbounded
  have hvalue := hreads.value_eq (2 * text.toList.length + 2) [] (by simp [Ends]) (by omega)
  have hskip := skipBlanks_of_starts hreads.starts []
  rw [List.append_nil] at hvalue hskip
  have hdocument : document text.toList = .ok v := by
    obtain ⟨ch, more, hmore, hch⟩ := hreads.starts
    unfold document
    split
    · next heq =>
      rw [hmore, List.cons.injEq] at heq
      rw [heq.1] at hch
      exact absurd hch (by decide)
    · rw [hskip, hvalue]
      rfl
  refine ⟨text, hprint, ?_⟩
  rw [parse, hdocument]
  rfl

/-! ### What is too large -/

/-- A number of too many digits is not read. -/
theorem parse_repr_of_le {n : Nat} (hn : 10 ^ Text.maxDigits ≤ n) :
    ∃ e, parse (Nat.repr n) = .error e ∧ e.reason = .tooManyDigits := by
  obtain ⟨ch, more, hmore, hch⟩ := toDigits_eq_cons n
  have hne : ∀ other, other.isDigit = false → ch ≠ other := by
    rintro other hother rfl
    rw [hch] at hother
    cases hother
  have hnumber := number_toDigits (ch :: more) false n (show Ends [] by simp [Ends])
  rw [List.append_nil, hmore, if_neg (Nat.not_lt.2 hn)] at hnumber
  have hblank : isBlank ch = false := by
    simp [isBlank, hne ' ' (by decide), hne '\t' (by decide), hne '\n' (by decide),
      hne '\r' (by decide)]
  have hskip : skipBlanks (ch :: more) = ch :: more := by
    rw [skipBlanks, List.dropWhile_cons_of_neg (by simp [hblank])]
  have hdocument : document (ch :: more) = stopAt .tooManyDigits (ch :: more) := by
    unfold document
    split
    · next heq => exact absurd (List.cons.inj heq).1 (hne _ (by decide))
    · rw [hskip, value_eq_literal (hne _ (by decide)) (hne _ (by decide)) (hne _ (by decide)),
        (literal_digit hch more).1, hnumber]
      rfl
  refine ⟨_, by rw [parse, Nat.toList_repr, hmore, hdocument]; rfl, rfl⟩

mutual

/-- What stands in a value that is written is written too. -/
theorem print?_of_mem : (v : Value) → ∀ {text : String} {u : Value}, print? v = some text →
    u ∈ v.subvalues → ∃ t, print? u = some t
  | .scalar s, text, u, h, hu => by
    rw [Value.subvalues, List.mem_singleton] at hu
    exact ⟨text, hu ▸ h⟩
  | .list items, text, u, h, hu => by
    rcases List.mem_cons.1 hu with rfl | hu
    · exact ⟨text, h⟩
    · obtain ⟨texts, htexts, -⟩ := Option.map_eq_some_iff.1 h
      exact printItems?_of_mem items htexts hu
  | .map entries, text, u, h, hu => by
    rcases List.mem_cons.1 hu with rfl | hu
    · exact ⟨text, h⟩
    · obtain ⟨texts, htexts, -⟩ := Option.map_eq_some_iff.1 h
      exact printEntries?_of_mem entries htexts hu

theorem printItems?_of_mem : (items : List Value) → ∀ {texts : List String} {u : Value},
    printItems? items = some texts → u ∈ Value.itemSubvalues items → ∃ t, print? u = some t
  | [], _, _, _, hu => by cases hu
  | x :: xs, texts, u, h, hu => by
    rw [printItems?] at h
    obtain ⟨first, hfirst, h⟩ := Option.bind_eq_some_iff.1 h
    obtain ⟨rest, hrest, -⟩ := Option.bind_eq_some_iff.1 h
    rcases List.mem_append.1 hu with hu | hu
    · exact print?_of_mem x hfirst hu
    · exact printItems?_of_mem xs hrest hu

theorem printEntries?_of_mem : (entries : List (Scalar × Value)) →
    ∀ {texts : List String} {u : Value}, printEntries? entries = some texts →
      u ∈ Value.entrySubvalues entries → ∃ t, print? u = some t
  | [], _, _, _, hu => by cases hu
  | (_, x) :: rest, texts, u, h, hu => by
    rw [printEntries?] at h
    obtain ⟨key, -, h⟩ := Option.bind_eq_some_iff.1 h
    obtain ⟨first, hfirst, h⟩ := Option.bind_eq_some_iff.1 h
    obtain ⟨more, hmore, -⟩ := Option.bind_eq_some_iff.1 h
    rcases List.mem_append.1 hu with hu | hu
    · exact print?_of_mem x hfirst hu
    · exact printEntries?_of_mem rest hmore hu

end

theorem bounded_of_print {v : Value} {text : String} (h : print? v = some text) : Bounded v := by
  intro n hn
  obtain ⟨t, ht⟩ := print?_of_mem v h hn
  have hint : intText? n = some t := ht
  unfold intText? at hint
  split at hint
  · next hmax => exact (Nat.length_toDigits_le_iff (by omega) (by decide)).1 hmax
  · cases hint

end OpenApi.Json
