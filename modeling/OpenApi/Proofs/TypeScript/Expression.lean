import OpenApi.Proofs.Json.RoundTrip
import OpenApi.Proofs.Name.Identifier
import OpenApi.TypeScript.Literal

/-!
A reader of expressions: constants, decimal integers, strings in single quotes, arrays, and objects with
identifiers or strings as keys. It is followed through the texts that are written, whatever stands behind
them. A key that is an identifier with a line feed behind it is written without quotes, and the line feed is
white space to the reader.
-/
namespace OpenApi.TypeScript.Expression

open Identifier (isPart isStart isIdentifier isPart_of_mem_toDigits)

variable {rest cs : List Char} {v : Value} {texts : List String} {fuel : Nat}

/-! ### The reader -/

/-- The character that stands behind a backslash. -/
def unescape? : Char → Option Char
  | '\\' => some '\\'
  | '\'' => some '\''
  | 'n' => some '\n'
  | 'r' => some '\r'
  | _ => none

/-- The characters of a string from behind its opening quote on, and what follows the closing one. Strings
do not go beyond a line. -/
def stringBody : List Char → Option (List Char × List Char)
  | [] => none
  | '\'' :: rest => some ([], rest)
  | ['\\'] => none
  | '\\' :: c :: rest =>
    (unescape? c).bind fun d => (stringBody rest).map fun (cs, rest) => (d :: cs, rest)
  | c :: rest =>
    if c == '\n' || c == '\r' then none
    else (stringBody rest).map fun (cs, rest) => (c :: cs, rest)

def string (cs : List Char) : Option (String × List Char) :=
  (stringBody cs).map fun (body, rest) => (String.ofList body, rest)

/-- White space and ends of lines. -/
def isBlank (c : Char) : Bool :=
  [0x09, 0x0a, 0x0b, 0x0c, 0x0d, 0x20, 0xa0, 0x1680, 0x2028, 0x2029, 0x202f, 0x205f, 0x3000,
    0xfeff].contains c.toNat || (0x2000 ≤ c.toNat && c.toNat ≤ 0x200a)

def skipBlanks (cs : List Char) : List Char := cs.dropWhile isBlank

/-- A decimal integer, without zeros in front. -/
def numeral? (ds : List Char) : Option Nat :=
  if !ds.isEmpty && ds.all Char.isDigit && (ds.head? != some '0' || ds.length == 1) then
    some (Json.digitsValue ds)
  else none

/-- The constants, each with its spelling. -/
def constants : List (List Char × Value) :=
  [("null".toList, .null), ("true".toList, .bool true), ("false".toList, .bool false)]

def word? (cs : List Char) : Option Value :=
  match constants.lookup cs with
  | some v => some v
  | none => (numeral? cs).map fun n : Nat => .int n

/-- A constant or an integer; it goes as far as an identifier would. -/
def atom (cs : List Char) : Option (Value × List Char) :=
  match cs with
  | '-' :: rest =>
    let (ds, rest) := rest.span isPart
    (numeral? ds).map fun n : Nat => (.int (-(n : Int)), rest)
  | _ =>
    let (word, rest) := cs.span isPart
    (word? word).map fun v => (v, rest)

/-- The key of a member. -/
def memberName (cs : List Char) : Option (String × List Char) :=
  match cs with
  | '\'' :: rest => string rest
  | _ =>
    let (name, rest) := cs.span isPart
    if isIdentifier (String.ofList name) then some (String.ofList name, rest) else none

mutual

/-- A value at the start of `cs`, and what follows it. Each character needs at most two units of fuel. -/
def value (fuel : Nat) (cs : List Char) : Option (Value × List Char) :=
  match fuel with
  | 0 => none
  | fuel + 1 =>
    match cs with
    | '\'' :: rest => (string rest).map fun (s, rest) => (.str s, rest)
    | '[' :: rest =>
      match skipBlanks rest with
      | ']' :: rest => some (.list [], rest)
      | rest => (items fuel rest).map fun (xs, rest) => (.list xs, rest)
    | '{' :: rest =>
      match skipBlanks rest with
      | '}' :: rest => some (.map [], rest)
      | rest => (members fuel rest).map fun (pairs, rest) => (.map (Entries.ofList pairs), rest)
    | _ => atom cs

/-- The items of an array that has at least one more, with the closing bracket. -/
def items (fuel : Nat) (cs : List Char) : Option (List Value × List Char) :=
  match fuel with
  | 0 => none
  | fuel + 1 => do
    let (x, rest) ← value fuel cs
    match skipBlanks rest with
    | ']' :: rest => some ([x], rest)
    | ',' :: rest => do
      let (xs, rest) ← items fuel (skipBlanks rest)
      some (x :: xs, rest)
    | _ => none

/-- The members of an object that has at least one more, with the closing brace. -/
def members (fuel : Nat) (cs : List Char) : Option (List (Scalar × Value) × List Char) :=
  match fuel with
  | 0 => none
  | fuel + 1 => do
    let (name, rest) ← memberName cs
    match skipBlanks rest with
    | ':' :: rest => do
      let (v, rest) ← value fuel (skipBlanks rest)
      match skipBlanks rest with
      | '}' :: rest => some ([(.str name, v)], rest)
      | ',' :: rest => do
        let (more, rest) ← members fuel (skipBlanks rest)
        some ((.str name, v) :: more, rest)
      | _ => none
    | _ => none

end

/-- The value that the whole of a text denotes. A key that an object has twice has its last value. -/
def read (text : String) : Option Value := do
  let (v, rest) ← value (2 * text.length + 2) (skipBlanks text.toList)
  if (skipBlanks rest).isEmpty then some v else none

example : read "[1, -20, 'it\\'s', \x7b a: null, 'b c': \x7b  \x7d, a: true \x7d]" =
    some (.list [.int 1, .int (-20), .str "it's", .record [("a", .bool true), ("b c", .map [])]]) := by
  cbv

/-! ### Strings -/

/-- One character of a string; a string does not end with it. -/
theorem stringBody_escapeChar (c : Char) (rest : List Char) :
    stringBody (escapeChar c ++ rest) = (stringBody rest).map fun (cs, rest) => (c :: cs, rest) := by
  unfold escapeChar
  split
  · next h => rw [beq_iff_eq.1 h]; rfl
  split
  · next h => rw [beq_iff_eq.1 h]; rfl
  split
  · next h => rw [beq_iff_eq.1 h]; rfl
  split
  · next h => rw [beq_iff_eq.1 h]; rfl
  · next hback hquote hfeed hreturn =>
    rw [beq_iff_eq] at hback hquote hfeed hreturn
    have hline : ¬ (c == '\n' || c == '\r') = true := by simp [hfeed, hreturn]
    rw [List.singleton_append, stringBody, if_neg hline]
    · exact hquote
    · exact fun h _ => hback h
    · exact fun _ _ h _ => hback h

theorem stringBody_flatMap (cs rest : List Char) :
    stringBody (cs.flatMap escapeChar ++ '\'' :: rest) = some (cs, rest) := by
  induction cs with
  | nil => rfl
  | cons c cs ih =>
    rw [List.flatMap_cons, List.append_assoc, stringBody_escapeChar, ih]
    rfl

theorem toList_quoted (s : String) :
    (quoted s).toList = '\'' :: (s.toList.flatMap escapeChar ++ ['\'']) := by
  simp [quoted]

theorem string_quoted (s : String) (rest : List Char) :
    string (s.toList.flatMap escapeChar ++ '\'' :: rest) = some (s, rest) := by
  rw [string, stringBody_flatMap, Option.map_some]
  exact congrArg (fun t => some (t, rest)) String.ofList_toList

/-! ### Words -/

/-- What may stand behind a word. -/
def Ends (rest : List Char) : Prop := ∀ c ∈ rest.head?, isPart c = false

theorem ends_cons {c : Char} (h : isPart c = false) (rest : List Char) : Ends (c :: rest) := by
  rintro _ ⟨⟩
  exact h

theorem span_isPart (cs : List Char) (hcs : ∀ c ∈ cs, isPart c = true) (hrest : Ends rest) :
    (cs ++ rest).span isPart = (cs, rest) := by
  have hstop : rest.takeWhile isPart = [] ∧ rest.dropWhile isPart = rest := by
    cases rest with
    | nil => exact ⟨rfl, rfl⟩
    | cons c rest =>
      have hc : ¬ isPart c = true := by simp [hrest c rfl]
      exact ⟨List.takeWhile_cons_of_neg hc, List.dropWhile_cons_of_neg hc⟩
  rw [List.span_eq_takeWhile_dropWhile, List.takeWhile_append_of_pos hcs,
    List.dropWhile_append_of_pos hcs, hstop.1, hstop.2, List.append_nil]

theorem numeral?_toDigits (n : Nat) : numeral? (Nat.toDigits 10 n) = some n := by
  have hne : (Nat.toDigits 10 n).isEmpty = false := by
    rw [List.isEmpty_eq_false_iff]
    exact Nat.toDigits_ne_nil
  have hdigits : (Nat.toDigits 10 n).all Char.isDigit = true :=
    List.all_eq_true.2 fun c hc => isDigit_of_mem_toDigits hc
  have hzero : ((Nat.toDigits 10 n).head? != some '0' || (Nat.toDigits 10 n).length == 1) = true := by
    by_cases hn : n = 0
    · subst hn
      rfl
    · obtain ⟨c, more, hmore, hc⟩ := Json.head_toDigits hn
      simp [hmore, hc]
  have hvalue : Json.digitsValue (Nat.toDigits 10 n) = n := Text.digitsValue_toDigits n
  rw [numeral?, hne, hdigits, hzero, hvalue]
  rfl

theorem word?_toDigits (n : Nat) : word? (Nat.toDigits 10 n) = some (.int n) := by
  obtain ⟨c, more, hmore, hc⟩ := Json.toDigits_eq_cons n
  have hne : ∀ other, other.isDigit = false → (c == other) = false := by
    intro other hother
    rw [beq_eq_false_iff_ne]
    rintro rfl
    rw [hc] at hother
    cases hother
  have hconstant : constants.lookup (Nat.toDigits 10 n) = none := by
    simp [constants, hmore, List.lookup_cons, hne]
  rw [word?, hconstant, numeral?_toDigits]
  rfl

theorem atom_word {word : List Char} (hparts : ∀ c ∈ word, isPart c = true)
    (hword : word? word = some v) (h : Ends rest) :
    atom (word ++ rest) = some (v, rest) := by
  have hspan := span_isPart word hparts h
  unfold atom
  split
  · next heq =>
    cases word with
    | nil => cases hword
    | cons c word =>
      rw [List.cons_append, List.cons.injEq] at heq
      have hminus := hparts c List.mem_cons_self
      rw [heq.1] at hminus
      cases hminus
  · simp only [hspan, hword, Option.map_some]

theorem atom_minus (n : Nat) (h : Ends rest) :
    atom ('-' :: (Nat.toDigits 10 n ++ rest)) = some (.int (-(n : Int)), rest) := by
  rw [atom]
  simp only [span_isPart _ (fun _ => isPart_of_mem_toDigits) h, numeral?_toDigits, Option.map_some]

/-! ### Keys -/

/-- The identifier that a key consists of, if there is a line feed behind it and nothing else. -/
def cutKey? (name : String) : Option String :=
  let word := String.ofList name.toList.dropLast
  if name.toList.getLast? == some '\n' && isIdentifier word then some word else none

/-- The key that is read for one that is written: a line feed that is not in quotes is lost. -/
def keyAsRead (name : String) : String := (cutKey? name).getD name

theorem cutKey?_eq_some_iff {name word : String} :
    cutKey? name = some word ↔ isIdentifier word = true ∧ name = word ++ "\n" := by
  unfold cutKey?
  dsimp only
  constructor
  · intro h
    split at h
    · next hcut =>
      obtain ⟨hlast, hword⟩ := Bool.and_eq_true_iff.1 hcut
      obtain rfl := Option.some.inj h
      refine ⟨hword, String.toList_injective ?_⟩
      rw [String.toList_append, String.toList_ofList]
      exact (List.dropLast_append_getLast? _ (beq_iff_eq.1 hlast)).symm
    · cases h
  · rintro ⟨hword, rfl⟩
    have hlist : (word ++ "\n").toList = word.toList ++ ['\n'] := String.toList_append
    rw [hlist, List.getLast?_concat, List.dropLast_concat, String.ofList_toList, hword]
    rfl

theorem cutKey?_of_isIdentifier {name : String} (h : isIdentifier name = true) : cutKey? name = none := by
  rw [Option.eq_none_iff_forall_ne_some]
  intro word hword
  obtain ⟨-, rfl⟩ := cutKey?_eq_some_iff.1 hword
  have hfeed := Identifier.isPart_of_mem_isIdentifier h '\n' (by simp)
  exact absurd hfeed (by decide)

/-- A key is an identifier, or one with a line feed behind it, or it is quoted; only the line feed is lost. -/
theorem key_cases (name : String) :
    (isIdentifier name = true ∧ key name = name ∧ keyAsRead name = name) ∨
    (∃ word, isIdentifier word = true ∧ key name = word ++ "\n" ∧ keyAsRead name = word) ∨
    (key name = quoted name ∧ keyAsRead name = name) := by
  have hplain : isPlainKey name = (isIdentifier name || (cutKey? name).isSome) := by
    unfold isPlainKey cutKey?
    dsimp only
    split
    · next hcut => rw [hcut]; rfl
    · next hcut => rw [eq_false_of_ne_true hcut]; rfl
  unfold key keyAsRead
  rw [hplain]
  by_cases hname : isIdentifier name = true
  · rw [hname, cutKey?_of_isIdentifier hname]
    exact .inl ⟨rfl, rfl, rfl⟩
  · rw [eq_false_of_ne_true hname]
    cases hcut : cutKey? name with
    | some word =>
      obtain ⟨hword, rfl⟩ := cutKey?_eq_some_iff.1 hcut
      exact .inr (.inl ⟨word, hword, rfl, rfl⟩)
    | none => exact .inr (.inr ⟨rfl, rfl⟩)

theorem skipBlanks_cons {c : Char} (h : isBlank c = false) (rest : List Char) :
    skipBlanks (c :: rest) = c :: rest :=
  List.dropWhile_cons_of_neg (by simp [h])

theorem memberName_identifier {word : String} (hword : isIdentifier word = true) (hrest : Ends rest) :
    memberName (word.toList ++ rest) = some (word, rest) := by
  have hspan := span_isPart word.toList (Identifier.isPart_of_mem_isIdentifier hword) hrest
  unfold memberName
  split
  · next heq =>
    -- no identifier starts with a quote
    unfold isIdentifier at hword
    split at hword
    · cases hword
    · next hlist =>
      rw [hlist, List.cons_append, List.cons.injEq] at heq
      rw [heq.1] at hword
      cases hword
  · simp only [hspan, String.ofList_toList, hword, if_true]

/-- A key, and the colon behind it. -/
theorem memberName_key (name : String) (rest : List Char) :
    ∃ more, memberName ((key name).toList ++ ':' :: rest) = some (keyAsRead name, more) ∧
      skipBlanks more = ':' :: rest := by
  have hcolon : skipBlanks (':' :: rest) = ':' :: rest := skipBlanks_cons (by decide) rest
  obtain ⟨hname, hkey, hread⟩ | ⟨word, hword, hkey, hread⟩ | ⟨hkey, hread⟩ := key_cases name
  · refine ⟨':' :: rest, ?_, hcolon⟩
    rw [hkey, hread]
    exact memberName_identifier hname (ends_cons (by decide) _)
  · refine ⟨'\n' :: ':' :: rest, ?_, hcolon⟩
    rw [hkey, hread, String.toList_append, List.append_assoc]
    exact memberName_identifier hword (ends_cons (by decide) _)
  · refine ⟨':' :: rest, ?_, hcolon⟩
    rw [hkey, hread, toList_quoted, List.cons_append, List.append_assoc]
    exact string_quoted name _

/-! ### Values -/

/-- A text that starts like a value or a member. -/
def Starts (cs : List Char) : Prop :=
  ∃ c more, cs = c :: more ∧ isBlank c = false ∧ c ≠ ']' ∧ c ≠ '\x7d'

/-- A text of a value, whatever stands behind it. -/
structure Reads (v : Value) (cs : List Char) : Prop where
  starts : Starts cs
  value_eq : ∀ fuel rest, Ends rest → 2 * cs.length ≤ fuel → value fuel (cs ++ rest) = some (v, rest)

/-- A text of a member of an object. -/
structure ReadsMember (e : Scalar × Value) (cs : List Char) : Prop where
  parts : ∃ name ds, e.1 = .str (keyAsRead name) ∧ cs = (key name).toList ++ ':' :: ' ' :: ds ∧ Reads e.2 ds

theorem skipBlanks_of_starts (h : Starts cs) (rest : List Char) :
    skipBlanks (cs ++ rest) = cs ++ rest := by
  obtain ⟨c, more, rfl, hblank, -⟩ := h
  exact skipBlanks_cons hblank (more ++ rest)

theorem isBlank_of_isPart {c : Char} (h : isPart c = true) : isBlank c = false := by
  simp only [isPart, Bool.or_eq_true, beq_iff_eq] at h
  rcases h with (h | rfl) | rfl
  · rw [Percent.isAlphanum_iff] at h
    simp [isBlank]
    omega
  · decide
  · decide

theorem starts_identifier {word : String} (h : isIdentifier word = true) (rest : List Char) :
    Starts (word.toList ++ rest) := by
  unfold isIdentifier at h
  split at h
  · cases h
  · next c more hword =>
    have hpart : isPart c = true := (Bool.and_eq_true_iff.1 (Bool.and_eq_true_iff.1 h).1).1
    refine ⟨c, more ++ rest, by rw [hword]; rfl, isBlank_of_isPart hpart, ?_, ?_⟩
    · rintro rfl
      cases hpart
    · rintro rfl
      cases hpart

theorem starts_key (name : String) (rest : List Char) : Starts ((key name).toList ++ rest) := by
  obtain ⟨hname, hkey, -⟩ | ⟨word, hword, hkey, -⟩ | ⟨hkey, -⟩ := key_cases name
  · rw [hkey]
    exact starts_identifier hname rest
  · rw [hkey, String.toList_append, List.append_assoc]
    exact starts_identifier hword _
  · rw [hkey, toList_quoted]
    exact ⟨'\'', _, rfl, by decide, by decide, by decide⟩

theorem ReadsMember.starts {e : Scalar × Value} (h : ReadsMember e cs) : Starts cs := by
  obtain ⟨name, ds, -, rfl, -⟩ := h.parts
  exact starts_key name _

/-- Texts that are joined start like the first of them. -/
theorem starts_join {sep : String} {α : Type} {xs : List α} (hne : xs ≠ [])
    (h : List.Forall₂ (fun _ text => Starts text.toList) xs texts) :
    Starts (Text.join sep texts).toList := by
  cases h with
  | nil => exact absurd rfl hne
  | @cons _ _ _ texts htext _ =>
    obtain ⟨c, more, hmore, hc⟩ := htext
    rw [Text.toList_join, List.map_cons, hmore]
    obtain ⟨rest, hrest⟩ := Text.exists_intercalate_cons sep.toList (c :: more) (texts.map String.toList)
    exact ⟨c, more ++ rest, hrest, hc⟩

theorem toList_join_comma (texts : List String) :
    (Text.join ", " texts).toList = [',', ' '].intercalate (texts.map String.toList) :=
  Text.toList_join ", " texts

theorem readsList_items : Text.ReadsList items Reads [',', ' '] [']'] where
  last h hfuel rest := by
    rw [List.singleton_append, items, h.value_eq _ _ (ends_cons (by decide) _) hfuel]
    rfl
  next {x y cs ds fuel} h hy hfuel rest := by
    -- the blank behind the comma is skipped, for the next item starts with something else
    have hskip : skipBlanks (' ' :: (ds ++ rest)) = ds ++ rest := skipBlanks_of_starts hy.starts rest
    rw [List.cons_append, items, h.value_eq _ _ (ends_cons (by decide) _) hfuel]
    change (do
      let (xs, rest) ← items fuel (skipBlanks (' ' :: (ds ++ rest)))
      some (x :: xs, rest)) = _
    rw [hskip]
    rfl

theorem items_join {vs : List Value} (h : List.Forall₂ (fun v text => Reads v text.toList) vs texts)
    (hne : vs ≠ []) (rest : List Char) (hfuel : 2 * (Text.join ", " texts).toList.length + 1 ≤ fuel) :
    items fuel ((Text.join ", " texts).toList ++ ']' :: rest) = some (vs, rest) := by
  rw [toList_join_comma] at hfuel ⊢
  exact readsList_items.intercalate (List.forall₂_map_right_iff.2 h) hne rest hfuel (by simp)

/-- The first member of an object, when it is the last one too and when others follow. -/
theorem members_member {e : Scalar × Value} (h : ReadsMember e cs) (rest : List Char)
    (hfuel : 2 * cs.length ≤ fuel) :
    members (fuel + 1) (cs ++ ' ' :: '\x7d' :: rest) = some ([e], rest) ∧
      members (fuel + 1) (cs ++ ',' :: rest) = (do
        let (more, rest) ← members fuel (skipBlanks rest)
        some (e :: more, rest)) := by
  obtain ⟨name, ds, hkey, rfl, hds⟩ := h.parts
  have hlength : ds.length ≤ ((key name).toList ++ ':' :: ' ' :: ds).length := by
    simp only [List.length_append, List.length_cons]
    omega
  have hentry : (Scalar.str (keyAsRead name), e.2) = e := by rw [← hkey]
  have hstep : ∀ behind, Ends behind →
      members (fuel + 1) ((key name).toList ++ ':' :: ' ' :: ds ++ behind) =
        match skipBlanks behind with
        | '\x7d' :: rest => some ([e], rest)
        | ',' :: rest => do
          let (more, rest) ← members fuel (skipBlanks rest)
          some (e :: more, rest)
        | _ => none := by
    intro behind hbehind
    obtain ⟨more, hname, hcolon⟩ := memberName_key name (' ' :: ds ++ behind)
    have hskip : skipBlanks (' ' :: ds ++ behind) = ds ++ behind := skipBlanks_of_starts hds.starts behind
    rw [List.append_assoc, members, List.cons_append, hname]
    simp only [Option.bind_eq_bind, Option.bind_some, hcolon]
    rw [hskip, hds.value_eq fuel behind hbehind (by omega), ← hentry]
    rfl
  exact ⟨hstep (' ' :: '\x7d' :: rest) (ends_cons (by decide) _), hstep (',' :: rest) (ends_cons (by decide) _)⟩

theorem readsList_members : Text.ReadsList members ReadsMember [',', ' '] [' ', '\x7d'] where
  last h hfuel rest := (members_member h rest hfuel).1
  next {x y cs ds fuel} h hy hfuel rest := by
    have hskip : skipBlanks (' ' :: (ds ++ rest)) = ds ++ rest := skipBlanks_of_starts hy.starts rest
    rw [List.cons_append, (members_member h _ hfuel).2, List.singleton_append, hskip]
    rfl

theorem members_join {entries : List (Scalar × Value)}
    (h : List.Forall₂ (fun e text => ReadsMember e text.toList) entries texts) (hne : entries ≠ [])
    (rest : List Char) (hfuel : 2 * (Text.join ", " texts).toList.length + 1 ≤ fuel) :
    members fuel ((Text.join ", " texts).toList ++ ' ' :: '\x7d' :: rest) = some (entries, rest) := by
  rw [toList_join_comma] at hfuel ⊢
  exact readsList_members.intercalate (List.forall₂_map_right_iff.2 h) hne rest hfuel (by simp)

/-! ### From writer to reader -/

theorem value_eq_atom {c : Char} (hquote : c ≠ '\'') (hbracket : c ≠ '[') (hbrace : c ≠ '\x7b') :
    value (fuel + 1) (c :: rest) = atom (c :: rest) := by
  rw [value] <;> simp [hquote, hbrace, hbracket]

/-- A constant or an integer, read by `atom`. -/
theorem reads_of_atom {c : Char} {more : List Char} (hblank : isBlank c = false)
    (hne : c ∉ ['\'', '[', ']', '\x7b', '\x7d'])
    (h : ∀ rest, Ends rest → atom (c :: more ++ rest) = some (v, rest)) : Reads v (c :: more) := by
  simp only [List.mem_cons, List.not_mem_nil, or_false, not_or] at hne
  obtain ⟨hquote, hbracket, hclose, hbrace, hend⟩ := hne
  refine ⟨⟨c, more, rfl, hblank, hclose, hend⟩, fun fuel rest hrest hfuel => ?_⟩
  obtain ⟨fuel, rfl⟩ : ∃ n, fuel = n + 1 := ⟨fuel - 1, by simp only [List.length_cons] at hfuel; omega⟩
  rw [← h rest hrest, List.cons_append]
  exact value_eq_atom hquote hbracket hbrace

theorem reads_word {word : List Char} (hparts : word.all isPart = true) (hword : word? word = some v) :
    Reads v word := by
  cases word with
  | nil => cases hword
  | cons c word =>
    have hc := List.all_eq_true.1 hparts c List.mem_cons_self
    refine reads_of_atom (isBlank_of_isPart hc) (fun hother => ?_) fun rest =>
      atom_word (List.all_eq_true.1 hparts) hword
    have hnone : ['\'', '[', ']', '\x7b', '\x7d'].all (fun other => !isPart other) = true := by decide
    have hother := List.all_eq_true.1 hnone c hother
    rw [hc] at hother
    cases hother

theorem reads_int (n : Int) : Reads (.int n) (intText n).toList := by
  unfold intText
  split
  · next hneg =>
    have hlist : ("-" ++ Nat.repr n.natAbs).toList = '-' :: Nat.toDigits 10 n.natAbs := by
      rw [String.toList_append, Nat.toList_repr]
      rfl
    have habs : -(n.natAbs : Int) = n := by omega
    rw [hlist]
    refine reads_of_atom (by decide) (by decide) fun rest hrest => ?_
    rw [List.cons_append, atom_minus n.natAbs hrest, habs]
  · next hneg =>
    have habs : (n.natAbs : Int) = n := by omega
    rw [Nat.toList_repr]
    refine reads_word (List.all_eq_true.2 fun _ => isPart_of_mem_toDigits) ?_
    rw [word?_toDigits, habs]

theorem reads_str (s : String) : Reads (.str s) (quoted s).toList := by
  rw [toList_quoted]
  refine ⟨⟨'\'', _, rfl, by decide, by decide, by decide⟩, fun fuel rest _ hfuel => ?_⟩
  obtain ⟨fuel, rfl⟩ : ∃ n, fuel = n + 1 := ⟨fuel - 1, by simp only [List.length_cons] at hfuel; omega⟩
  rw [List.cons_append, List.append_assoc, value, List.singleton_append, string_quoted]
  rfl

theorem reads_list {vs : List Value} (h : List.Forall₂ (fun v text => Reads v text.toList) vs texts) :
    Reads (.list vs) ("[" ++ Text.join ", " texts ++ "]").toList := by
  have hlist : ("[" ++ Text.join ", " texts ++ "]").toList =
      '[' :: ((Text.join ", " texts).toList ++ [']']) := by simp
  rw [hlist]
  refine ⟨⟨'[', _, rfl, by decide, by decide, by decide⟩, fun fuel rest _ hfuel => ?_⟩
  simp only [List.length_cons, List.length_append, List.length_nil] at hfuel
  obtain ⟨fuel, rfl⟩ : ∃ n, fuel = n + 1 := ⟨fuel - 1, by omega⟩
  rw [List.cons_append, List.append_assoc, List.singleton_append]
  by_cases hne : vs = []
  · subst hne
    cases h
    rfl
  · have hstarts : Starts (Text.join ", " texts).toList :=
      starts_join hne (h.imp fun _ _ h => h.starts)
    have hitems := items_join h hne rest (show _ ≤ fuel by omega)
    rw [value, skipBlanks_of_starts hstarts]
    obtain ⟨c, more, hmore, -, hclose, -⟩ := hstarts
    rw [hmore] at hitems ⊢
    rw [List.cons_append] at hitems ⊢
    split
    · next heq => exact absurd (List.cons.inj heq).1 hclose
    · rw [hitems]
      rfl

theorem reads_map {entries : List (Scalar × Value)}
    (h : List.Forall₂ (fun e text => ReadsMember e text.toList) entries texts) :
    Reads (.map (Entries.ofList entries)) ("\x7b " ++ Text.join ", " texts ++ " \x7d").toList := by
  have hlist : ("\x7b " ++ Text.join ", " texts ++ " \x7d").toList =
      '\x7b' :: ' ' :: ((Text.join ", " texts).toList ++ [' ', '\x7d']) := by simp
  rw [hlist]
  refine ⟨⟨'\x7b', _, rfl, by decide, by decide, by decide⟩, fun fuel rest _ hfuel => ?_⟩
  simp only [List.length_cons, List.length_append, List.length_nil] at hfuel
  obtain ⟨fuel, rfl⟩ : ∃ n, fuel = n + 1 := ⟨fuel - 1, by omega⟩
  rw [List.cons_append, List.cons_append, List.append_assoc]
  by_cases hne : entries = []
  · subst hne
    cases h
    rfl
  · have hstarts : Starts (Text.join ", " texts).toList :=
      starts_join hne (h.imp fun _ _ h => h.starts)
    have hmembers := members_join h hne rest (show _ ≤ fuel by omega)
    have hskip : skipBlanks (' ' :: ((Text.join ", " texts).toList ++ ([' ', '\x7d'] ++ rest))) =
        (Text.join ", " texts).toList ++ ([' ', '\x7d'] ++ rest) := skipBlanks_of_starts hstarts _
    rw [value, hskip]
    obtain ⟨c, more, hmore, -, -, hclose⟩ := hstarts
    rw [hmore] at hmembers ⊢
    rw [List.cons_append] at hmembers ⊢
    split
    · next heq => exact absurd (List.cons.inj heq).1 hclose
    · rw [List.cons_append, List.singleton_append, hmembers]
      rfl

end OpenApi.TypeScript.Expression
