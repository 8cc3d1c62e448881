import OpenApi.Proofs.Operation.Keys
import OpenApi.Proofs.TypeScript.Expression

/-!
Literals denote values. What is written for a value is read to its end, and everything is read as it was but
for keys that are identifiers with a line feed behind them. They lose the line feed, and may fall on other
keys by that.
-/
namespace OpenApi.TypeScript

open Identifier (isIdentifier)

variable {text : String}

/-! ### What is written -/

/-- The text of an entry of a mapping. -/
def memberLiteral (e : Scalar × Value) : Checked String := do
  let name ← e.1.text
  let text ← literal e.2
  return key name ++ ": " ++ text

theorem itemLiterals_eq (items : List Value) : itemLiterals items = items.mapM literal := by
  induction items with
  | nil => rfl
  | cons v items ih => rw [itemLiterals, List.mapM_cons, ih]

theorem entryLiterals_eq (entries : List (Scalar × Value)) :
    entryLiterals entries = entries.mapM memberLiteral := by
  induction entries with
  | nil => rfl
  | cons e entries ih =>
    rw [entryLiterals, List.mapM_cons, ih]
    simp only [memberLiteral, bind_assoc, pure_bind]

theorem memberLiteral_ok {name : String} {v : Value} :
    memberLiteral (.str name, v) = .ok text ↔ ∃ t, literal v = .ok t ∧ key name ++ ": " ++ t = text := by
  change (literal v >>= fun t => pure (key name ++ ": " ++ t)) = .ok text ↔ _
  simp only [Outcome.bind_ok, Outcome.pure_ok]

theorem literal_list_ok {items : List Value} : literal (.list items) = .ok text ↔
    ∃ texts, List.Forall₂ (fun v t => literal v = .ok t) items texts ∧
      "[" ++ Text.join ", " texts ++ "]" = text := by
  rw [literal, itemLiterals_eq]
  simp only [Outcome.bind_ok, Outcome.pure_ok, Outcome.mapM_ok]

theorem literal_map_ok {entries : List (Scalar × Value)} :
    literal (.map entries) = .ok text ↔
      ∃ texts, List.Forall₂ (fun e t => memberLiteral e = .ok t) entries texts ∧
        "\x7b " ++ Text.join ", " texts ++ " \x7d" = text := by
  rw [literal, entryLiterals_eq]
  simp only [Outcome.bind_ok, Outcome.pure_ok, Outcome.mapM_ok]

theorem literal_int_ok {n : Int} : literal (.int n) = .ok text ↔
    n.natAbs < 10 ^ Text.maxDigits ∧ intText n = text := by
  have hdigits : (Nat.toDigits 10 n.natAbs).length ≤ Text.maxDigits ↔ n.natAbs < 10 ^ Text.maxDigits :=
    Nat.length_toDigits_le_iff (by omega) (by decide)
  change writtenInt n = .ok text ↔ _
  rw [← hdigits, writtenInt, intText?]
  split
  · next hmax => simp [written, hmax]
  · next hmax => simp [written, hmax]

namespace Expression

variable {v : Value}

/-! ### What is read for it -/

/-- The key that is read for the key of an entry. -/
def entryKeyAsRead : Scalar → Scalar
  | .str name => .str (keyAsRead name)
  | k => k

mutual

/-- The value that is read for one that is written. -/
def asRead : Value → Value
  | .scalar s => .scalar s
  | .list items => .list (itemsAsRead items)
  | .map entries => .map (Entries.ofList (entriesAsRead entries))

def itemsAsRead : List Value → List Value
  | [] => []
  | v :: rest => asRead v :: itemsAsRead rest

def entriesAsRead : List (Scalar × Value) → List (Scalar × Value)
  | [] => []
  | (k, v) :: rest => (entryKeyAsRead k, asRead v) :: entriesAsRead rest

end

theorem itemsAsRead_eq (items : List Value) : itemsAsRead items = items.map asRead := by
  induction items with
  | nil => rfl
  | cons v items ih => rw [itemsAsRead, ih, List.map_cons]

theorem entriesAsRead_eq (entries : List (Scalar × Value)) :
    entriesAsRead entries = entries.map fun e => (entryKeyAsRead e.1, asRead e.2) := by
  induction entries with
  | nil => rfl
  | cons e entries ih => rw [entriesAsRead, ih, List.map_cons]

/-- What is written for a value is read, whatever stands behind it. -/
theorem reads_literal (h : Json.Data v) :
    ∀ {text : String}, literal v = .ok text → Reads (asRead v) text.toList := by
  induction h with
  | null =>
    rintro _ ⟨⟩
    exact reads_word (by decide) rfl
  | bool b =>
    rintro _ ⟨⟩
    cases b with
    | true => exact reads_word (by decide) rfl
    | false => exact reads_word (by decide) rfl
  | int n =>
    intro text htext
    obtain ⟨-, rfl⟩ := literal_int_ok.1 htext
    exact reads_int n
  | str s =>
    rintro _ ⟨⟩
    exact reads_str s
  | @list items _ ih =>
    intro text htext
    obtain ⟨texts, hall, rfl⟩ := literal_list_ok.1 htext
    rw [asRead, itemsAsRead_eq]
    refine reads_list (List.forall₂_map_left_iff.2 ?_)
    exact ((List.forall₂_and_left _ _).2 ⟨ih, hall⟩).imp fun v t ⟨hv, ht⟩ => hv ht
  | @map entries hname hkeys _ ih =>
    intro text htext
    obtain ⟨texts, hall, rfl⟩ := literal_map_ok.1 htext
    rw [asRead, entriesAsRead_eq]
    refine reads_map (List.forall₂_map_left_iff.2 ?_)
    have hboth : ∀ e ∈ entries, (∃ name, e.1 = .str name) ∧
        ∀ {t : String}, literal e.2 = .ok t → Reads (asRead e.2) t.toList :=
      fun e he => ⟨hname e he, ih e he⟩
    refine ((List.forall₂_and_left _ _).2 ⟨hboth, hall⟩).imp ?_
    rintro ⟨k, v⟩ t ⟨⟨⟨name, rfl⟩, hv⟩, ht⟩
    obtain ⟨t, hliteral, rfl⟩ := memberLiteral_ok.1 ht
    exact ⟨name, t.toList, rfl, by simp, hv hliteral⟩

/-- Only an integer can be too large to be written. -/
theorem exists_literal_iff (h : Json.Data v) : (∃ text, literal v = .ok text) ↔ Json.Bounded v := by
  induction h with
  | null => exact ⟨fun _ n hn => by simp [Value.subvalues] at hn, fun _ => ⟨_, rfl⟩⟩
  | bool b => exact ⟨fun _ n hn => by simp [Value.subvalues] at hn, fun _ => ⟨_, rfl⟩⟩
  | int n =>
    rw [Json.bounded_int_iff]
    simp only [literal_int_ok]
    exact ⟨fun ⟨_, hn, _⟩ => hn, fun hn => ⟨_, hn, rfl⟩⟩
  | str s => exact ⟨fun _ n hn => by simp [Value.subvalues] at hn, fun _ => ⟨_, rfl⟩⟩
  | @list items _ ih =>
    rw [Json.bounded_list_iff, literal, Outcome.exists_bind_pure_ok, itemLiterals_eq,
      Outcome.exists_mapM_ok_iff]
    exact forall₂_congr ih
  | @map entries hname hkeys _ ih =>
    rw [Json.bounded_map_iff, literal, Outcome.exists_bind_pure_ok, entryLiterals_eq,
      Outcome.exists_mapM_ok_iff]
    refine forall₂_congr fun e he => ?_
    rw [← ih e he]
    obtain ⟨k, v⟩ := e
    obtain ⟨name, rfl⟩ := hname _ he
    exact Outcome.exists_bind_pure_ok (f := fun t => key name ++ ": " ++ t)

theorem read_of_reads {text : String} (h : Reads v text.toList) : read text = some v := by
  have hvalue := h.value_eq (2 * text.length + 2) [] (by simp [Ends]) (by rw [String.length_toList]; omega)
  have hskip := skipBlanks_of_starts h.starts []
  rw [List.append_nil] at hvalue hskip
  rw [read, hskip, hvalue]
  rfl

/-! ### What is read as it was -/

/-- No mapping in a value has a key that is an identifier with a line feed behind it. -/
def KeysUncut (v : Value) : Prop :=
  ∀ w ∈ v.subvalues, ∀ word, isIdentifier word = true → .str (word ++ "\n") ∉ w.keys

theorem entryKeyAsRead_eq_self_iff {k : Scalar} :
    entryKeyAsRead k = k ↔ ∀ word, isIdentifier word = true → .str (word ++ "\n") ≠ k := by
  cases k with
  | str name =>
    rw [entryKeyAsRead, keyAsRead, Scalar.str.injEq]
    cases hcut : cutKey? name with
    | none =>
      refine ⟨fun _ word hword hname => ?_, fun _ => rfl⟩
      have hsome := cutKey?_eq_some_iff.2 ⟨hword, (Scalar.str.inj hname).symm⟩
      rw [hcut] at hsome
      cases hsome
    | some word =>
      obtain ⟨hword, rfl⟩ := cutKey?_eq_some_iff.1 hcut
      refine ⟨fun hname => ?_, fun h => absurd rfl (h word hword)⟩
      have hlength := congrArg String.length hname
      simp at hlength
  | _ => exact ⟨fun _ _ _ => nofun, fun _ => rfl⟩

/-- No more than one line feed is lost. -/
theorem entryKeyAsRead_idem (k : Scalar) : entryKeyAsRead (entryKeyAsRead k) = entryKeyAsRead k := by
  cases k with
  | str name =>
    simp only [entryKeyAsRead, Scalar.str.injEq]
    cases hcut : cutKey? name with
    | none => simp [keyAsRead, hcut]
    | some word =>
      have hword := cutKey?_of_isIdentifier (cutKey?_eq_some_iff.1 hcut).1
      simp [keyAsRead, hcut, hword]
  | _ => rfl

theorem keysUncut_iff : KeysUncut v ↔ ∀ w ∈ v.subvalues, ∀ k ∈ w.keys, entryKeyAsRead k = k := by
  refine forall₂_congr fun w _ => ?_
  simp only [entryKeyAsRead_eq_self_iff]
  exact ⟨fun h k hk word hword heq => h word hword (heq ▸ hk), fun h word hword hk => h _ hk word hword rfl⟩

instance (v : Value) : Decidable (KeysUncut v) := decidable_of_iff _ keysUncut_iff.symm

theorem keysUncut_list_iff {items : List Value} : KeysUncut (.list items) ↔ ∀ v ∈ items, KeysUncut v := by
  simp only [KeysUncut, Value.subvalues, List.forall_mem_cons, Value.mem_itemSubvalues]
  constructor
  · exact fun h v hv w hw => h.2 w ⟨v, hv, hw⟩
  · exact fun h => ⟨fun _ _ => List.not_mem_nil, fun w ⟨v, hv, hw⟩ => h v hv w hw⟩

theorem keysUncut_map_iff {entries : Entries} : KeysUncut (.map entries) ↔
    ∀ e ∈ entries, entryKeyAsRead e.1 = e.1 ∧ KeysUncut e.2 := by
  simp only [keysUncut_iff, Value.subvalues, List.forall_mem_cons, Value.mem_entrySubvalues, Value.keys,
    List.forall_mem_map]
  constructor
  · exact fun h e he => ⟨h.1 e he, fun w hw => h.2 w ⟨e, he, hw⟩⟩
  · exact fun h => ⟨fun e he => (h e he).1, fun w ⟨e, he, hw⟩ => (h e he).2 w hw⟩

theorem map_eq_self_iff {α : Type} {f : α → α} {xs : List α} : xs.map f = xs ↔ ∀ x ∈ xs, f x = x := by
  conv_lhs => rhs; rw [← List.map_id xs]
  exact List.map_inj_left

theorem asRead_eq_self_iff (h : Json.Data v) : asRead v = v ↔ KeysUncut v := by
  induction h with
  | null => exact ⟨fun _ => by decide, fun _ => rfl⟩
  | bool b => exact ⟨fun _ => by simp [KeysUncut, Value.subvalues, Value.keys], fun _ => rfl⟩
  | int n => exact ⟨fun _ => by simp [KeysUncut, Value.subvalues, Value.keys], fun _ => rfl⟩
  | str s => exact ⟨fun _ => by simp [KeysUncut, Value.subvalues, Value.keys], fun _ => rfl⟩
  | @list items _ ih =>
    rw [asRead, itemsAsRead_eq, Value.list.injEq, map_eq_self_iff, keysUncut_list_iff]
    exact forall₂_congr ih
  | @map entries hname hkeys _ ih =>
    have hentry : (∀ e ∈ entries, (entryKeyAsRead e.1, asRead e.2) = e) ↔ KeysUncut (.map entries) := by
      rw [keysUncut_map_iff]
      exact forall₂_congr fun e he => by rw [Prod.ext_iff, ih e he]
    rw [asRead, entriesAsRead_eq, Value.map.injEq, ← hentry, ← map_eq_self_iff]
    constructor
    · intro hread
      -- a key that was read has nothing left to lose, so no key was changed and none fell on another
      have hkept : ∀ e ∈ entries, entryKeyAsRead e.1 = e.1 := by
        intro e he
        rw [← hread] at he
        obtain ⟨p, hp, hsame, -⟩ := Entries.mem_ofList he
        obtain ⟨f, hf, rfl⟩ := List.mem_map.1 hp
        obtain ⟨name, hf⟩ := hname f hf
        have hstr : e.1 = entryKeyAsRead f.1 := by
          rw [hf] at hsame ⊢
          exact Scalar.same_str_iff.1 hsame
        rw [hstr, entryKeyAsRead_idem]
      have hfst : (entries.map fun e => (entryKeyAsRead e.1, asRead e.2)).map Prod.fst =
          entries.map Prod.fst := by
        rw [List.map_map]
        exact List.map_congr_left hkept
      rw [Entries.ofList_of_nodup _ (hfst ▸ hkeys)] at hread
      · exact hread
      · intro p hp
        obtain ⟨e, he, rfl⟩ := List.mem_map.1 hp
        obtain ⟨name, hname⟩ := hname e he
        exact ⟨name, (hkept e he).trans hname⟩
    · intro hread
      rw [hread, Entries.ofList_of_nodup hname hkeys]

/-- A value of constants, integers, texts, lists and mappings is written if no integer in it is too long.
The whole of the text is read, and what is read is the value itself just if no key in it is an identifier
with a line feed behind it. -/
theorem read_literal {v : Value} (h : Json.Data v) :
    ((∃ text, literal v = .ok text) ↔ Json.Bounded v) ∧
      ∀ text, literal v = .ok text →
        read text = some (asRead v) ∧ (read text = some v ↔ KeysUncut v) := by
  refine ⟨exists_literal_iff h, fun text htext => ?_⟩
  have hread := read_of_reads (reads_literal h htext)
  refine ⟨hread, ?_⟩
  rw [hread, Option.some.injEq]
  exact asRead_eq_self_iff h

/-- Keys of all kinds and texts that need care. -/
def tricky : Value :=
  .list [.record [("$a1", .int (-20)), ("", .str "it's\\"), ("\n", .bool false), ("a\nb", .null),
    ("1\n", .list []), ("new", .map [])], .str "\r\n"]

def trickyText : String :=
  "[\x7b $a1: -20, '': 'it\\'s\\\\', '\\n': false, 'a\\nb': null, '1\\n': [], new: \x7b  \x7d \x7d, " ++
    "'\\r\\n']"

theorem tricky_read : Json.Data tricky ∧ literal tricky = .ok trickyText ∧ read trickyText = some tricky := by
  have hdata : Json.Data tricky := by
    refine .list (List.forall_mem_cons.2 ⟨.map (by simp) (by decide) ?_, ?_⟩)
    · simp only [List.map_cons, List.map_nil, List.forall_mem_cons]
      exact ⟨.int _, .str _, .bool _, .null, .list (List.forall_mem_nil _),
        .map (List.forall_mem_nil _) List.nodup_nil (List.forall_mem_nil _), List.forall_mem_nil _⟩
    · exact List.forall_mem_singleton.2 (.str _)
  have hliteral : literal tricky = .ok trickyText := rfl
  exact ⟨hdata, hliteral, ((read_literal hdata).2 _ hliteral).2.2 (by decide +kernel)⟩

/-- The line feed at the end of a key is read as white space, and the key is another one. -/
theorem read_line_feed_key :
    literal (.record [("a\n", .int 1)]) = .ok "\x7b a\n: 1 \x7d" ∧
      read "\x7b a\n: 1 \x7d" = some (.record [("a", .int 1)]) ∧
      read "\x7b a\n: 1 \x7d" ≠ some (.record [("a\n", .int 1)]) := by
  have hread : read "\x7b a\n: 1 \x7d" = some (.record [("a", .int 1)]) := by decide +kernel
  refine ⟨rfl, hread, ?_⟩
  rw [hread]
  simp [Value.record]

end Expression

end OpenApi.TypeScript
