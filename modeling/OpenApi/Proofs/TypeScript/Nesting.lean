import Mathlib.Algebra.Ring.Int.Defs
import OpenApi.Proofs.TypeScript.Literal
import OpenApi.Proofs.Types.Parts
import OpenApi.TypeScript.Type

/-!
Brackets in type expressions. Parentheses are put around a type if an operator stands in it outside of
brackets, and brackets are counted without regard to strings. What is written closes all its brackets and
strings, so an operator can only be missed if a string has brackets that do not match.
-/
namespace OpenApi.TypeScript

variable {c o : Char} {cs before : List Char} {text : String}

/-! ### Where a character stands -/

/-- One for a bracket that opens, less one for a bracket that closes. -/
def weight (c : Char) : Int := if isOpening c then 1 else if isClosing c then -1 else 0

/-- Brackets opened less brackets closed, wherever they stand. -/
def level (cs : List Char) : Int := (cs.map weight).sum

@[simp] theorem level_nil : level [] = 0 := rfl

@[simp] theorem level_cons (c : Char) (cs : List Char) : level (c :: cs) = weight c + level cs := by
  simp [level]

@[simp] theorem level_append (a b : List Char) : level (a ++ b) = level a + level b := by
  simp [level]

/-- In code, in a string, or behind a backslash of one. -/
inductive Mode where
  | code
  | string
  | escape
deriving DecidableEq

/-- How a text is read on from some place, and how many brackets are open there. -/
structure Cursor where
  mode : Mode
  depth : Int
deriving DecidableEq

namespace Cursor

def start : Cursor := ⟨.code, 0⟩

/-- Brackets in strings are characters like others. -/
def next (s : Cursor) (c : Char) : Cursor :=
  match s.mode with
  | .code => if c == '\'' then ⟨.string, s.depth⟩ else ⟨.code, s.depth + weight c⟩
  | .string =>
    if c == '\'' then ⟨.code, s.depth⟩ else if c == '\\' then ⟨.escape, s.depth⟩ else s
  | .escape => ⟨.string, s.depth⟩

def after (s : Cursor) (cs : List Char) : Cursor := cs.foldl next s

/-- The same place with more brackets around it. -/
def raised (s : Cursor) (k : Int) : Cursor := ⟨s.mode, s.depth + k⟩

variable (s : Cursor)

@[simp] theorem after_nil : s.after [] = s := rfl

@[simp] theorem after_cons (c : Char) (cs : List Char) : s.after (c :: cs) = (s.next c).after cs := rfl

@[simp] theorem after_append (a b : List Char) : s.after (a ++ b) = (s.after a).after b :=
  List.foldl_append

theorem next_raised (k : Int) (c : Char) : (s.raised k).next c = (s.next c).raised k := by
  obtain ⟨mode, depth⟩ := s
  cases mode with
  | code =>
    simp only [next, raised]
    split_ifs
    · rfl
    · rw [Int.add_right_comm]
  | string =>
    simp only [next, raised]
    split_ifs
    · rfl
    · rfl
    · rfl
  | escape => rfl

theorem after_raised (k : Int) (cs : List Char) : (s.raised k).after cs = (s.after cs).raised k := by
  induction cs generalizing s with
  | nil => rfl
  | cons c cs ih => rw [after_cons, after_cons, next_raised, ih]

end Cursor

open Cursor (start)

/-! ### Operators -/

/-- Some operator has something in front of it of which `Q` holds. -/
def OperatorBehind (Q : List Char → Prop) (cs : List Char) : Prop :=
  ∃ before op behind, cs = before ++ op :: behind ∧ op ∈ operators ∧ Q before

/-- An operator outside of strings and brackets. -/
def TopLevel (text : String) : Prop := OperatorBehind (start.after · = start) text.toList

/-- An operator in front of which brackets, in strings or not, are opened as often as closed. -/
def Seen (text : String) : Prop := OperatorBehind (level · = 0) text.toList

theorem operatorBehind_cons {Q : List Char → Prop} :
    OperatorBehind Q (c :: cs) ↔
      (c ∈ operators ∧ Q []) ∨ OperatorBehind (fun before => Q (c :: before)) cs := by
  constructor
  · rintro ⟨before, op, behind, hcs, hop, hQ⟩
    cases before with
    | nil =>
      obtain ⟨rfl, rfl⟩ := List.cons.inj hcs
      exact .inl ⟨hop, hQ⟩
    | cons d before =>
      obtain ⟨rfl, rfl⟩ := List.cons.inj hcs
      exact .inr ⟨before, op, behind, rfl, hop, hQ⟩
  · rintro (⟨hop, hQ⟩ | ⟨before, op, behind, rfl, hop, hQ⟩)
    · exact ⟨[], c, cs, rfl, hop, hQ⟩
    · exact ⟨c :: before, op, behind, rfl, hop, hQ⟩

/-- Brackets are no operators, so it does not matter that they are looked for first. -/
theorem hasOperator_cons (depth : Int) (c : Char) (cs : List Char) :
    hasOperator operators depth (c :: cs) =
      ((depth == 0 && operators.contains c) || hasOperator operators (depth + weight c) cs) := by
  have hbracket : operators.all (fun op => !(isOpening op || isClosing op)) = true := by decide
  have hop : isOpening c = true ∨ isClosing c = true → c ∉ operators := by
    intro h hc
    have hnone := List.all_eq_true.1 hbracket c hc
    rw [Bool.or_eq_true_iff.2 h] at hnone
    cases hnone
  rw [hasOperator, weight]
  split
  · next hopen => simp [hop (.inl hopen)]
  split
  · next hclose => simp [hop (.inr hclose), Int.sub_eq_add_neg]
  · simp

theorem hasOperator_iff {depth : Int} : hasOperator operators depth cs = true ↔
    OperatorBehind (fun before => depth + level before = 0) cs := by
  induction cs generalizing depth with
  | nil => exact ⟨nofun, fun ⟨before, _, _, h, _⟩ => absurd h.symm (by simp)⟩
  | cons c cs ih =>
    simp only [hasOperator_cons, operatorBehind_cons, Bool.or_eq_true, Bool.and_eq_true, beq_iff_eq,
      List.contains_iff_mem, ih, level_nil, level_cons, Int.add_zero, Int.add_assoc]
    rw [and_comm]

theorem hasOperator_iff_seen : hasOperator operators 0 text.toList = true ↔ Seen text := by
  rw [hasOperator_iff]
  simp only [Int.zero_add]
  rfl

/-! ### Texts that close what they open -/

/-- All brackets and strings are closed, and no bracket is closed that was not opened. -/
def Enclosed (cs : List Char) : Prop :=
  start.after cs = start ∧ ∀ before, before <+: cs → 0 ≤ (start.after before).depth

/-- Outside of strings, the brackets that are open are those that were counted. -/
def Counted (cs : List Char) : Prop :=
  ∀ before, before <+: cs → (start.after before).mode = .code → (start.after before).depth = level before

/-- Parentheses that belong together stand around a text. -/
def Parenthesized (text : String) : Prop :=
  ∃ inner, text.toList = '(' :: (inner ++ [')']) ∧ Enclosed inner

/-- What follows a text applies to the whole of it. -/
def Whole (text : String) : Prop := ¬ TopLevel text ∨ Parenthesized text

def isPlain (c : Char) : Bool := !isOpening c && !isClosing c && c != '\''

/-- Texts of characters, strings and brackets around texts. The strings have `P`. -/
inductive Written (P : String → Prop) : List Char → Prop
  | nil : Written P []
  | plain {c : Char} (h : isPlain c = true) : Written P [c]
  | quoted {s : String} (h : P s) : Written P (quoted s).toList
  | bracketed {o c : Char} {cs : List Char} (ho : isOpening o = true) (hc : isClosing c = true)
      (h : Written P cs) : Written P (o :: (cs ++ [c]))
  | append {a b : List Char} (ha : Written P a) (hb : Written P b) : Written P (a ++ b)

/-- The start of two texts goes no further than the first of them, or it is the first and a start of the
second. -/
theorem prefix_of_append {a b : List Char} (h : before <+: a ++ b) :
    before <+: a ∨ ∃ more, more <+: b ∧ before = a ++ more := by
  obtain ⟨behind, heq⟩ := h
  rcases List.append_eq_append_iff.1 heq with ⟨rest, ha, -⟩ | ⟨more, hbefore, hb⟩
  · exact .inl ⟨rest, ha.symm⟩
  · exact .inr ⟨more, ⟨behind, hb.symm⟩, hbefore⟩

theorem prefix_of_singleton (h : before <+: [c]) : before = [] ∨ before = [c] := by
  rw [← List.nil_append [c], List.prefix_concat_iff, List.prefix_nil] at h
  exact h.symm

/-- The start of a text with a character at both ends. -/
theorem prefix_of_enclosed (h : before <+: o :: (cs ++ [c])) :
    before = [] ∨ before = o :: (cs ++ [c]) ∨ ∃ more, more <+: cs ∧ before = o :: more := by
  rw [List.prefix_cons_iff] at h
  obtain rfl | ⟨more, rfl, hmore⟩ := h
  · exact .inl rfl
  rw [List.prefix_concat_iff] at hmore
  obtain rfl | hmore := hmore
  · exact .inr (.inl rfl)
  · exact .inr (.inr ⟨more, hmore, rfl⟩)

theorem weight_of_isOpening (h : isOpening c = true) : weight c = 1 := by
  rw [weight, if_pos h]

theorem weight_of_isClosing (h : isClosing c = true) : weight c = -1 := by
  have hopen : isOpening c = false := by
    simp only [isClosing, Bool.or_eq_true, beq_iff_eq] at h
    rcases h with ((rfl | rfl) | rfl) | rfl <;> rfl
  rw [weight, hopen, h]
  rfl

theorem weight_of_isPlain (h : isPlain c = true) : weight c = 0 := by
  simp only [isPlain, Bool.and_eq_true, Bool.not_eq_true'] at h
  simp [weight, h.1.1, h.1.2]

theorem next_code (h : c ≠ '\'') (k : Int) : Cursor.next ⟨.code, k⟩ c = ⟨.code, k + weight c⟩ := by
  simp [Cursor.next, h]

theorem ne_quote_of_bracket (h : isOpening c = true ∨ isClosing c = true) : c ≠ '\'' := by
  rintro rfl
  revert h
  decide

theorem next_plain (h : isPlain c = true) : start.next c = start := by
  have hquote : c ≠ '\'' := by
    rintro rfl
    cases h
  rw [start, next_code hquote, weight_of_isPlain h, Int.add_zero]

/-! ### Strings -/

/-- A character stands for itself in a string, or there is a backslash in front of some other one. -/
theorem escapeChar_cases (c : Char) : (escapeChar c = [c] ∧ c ≠ '\'' ∧ c ≠ '\\') ∨
    ∃ d, escapeChar c = ['\\', d] ∧ weight d = 0 ∧ weight c = 0 := by
  unfold escapeChar
  simp only [beq_iff_eq]
  split_ifs with hback hquote hfeed hreturn
  · exact .inr ⟨'\\', rfl, by decide, by rw [hback]; decide⟩
  · exact .inr ⟨'\'', rfl, by decide, by rw [hquote]; decide⟩
  · exact .inr ⟨'n', rfl, by decide, by rw [hfeed]; decide⟩
  · exact .inr ⟨'r', rfl, by decide, by rw [hreturn]; decide⟩
  · exact .inl ⟨rfl, hquote, hback⟩

theorem after_escapeChar (c : Char) : Cursor.after ⟨.string, 0⟩ (escapeChar c) = ⟨.string, 0⟩ := by
  obtain ⟨heq, hquote, hback⟩ | ⟨d, heq, -⟩ := escapeChar_cases c
  · simp [heq, Cursor.next, hquote, hback]
  · rw [heq]
    rfl

theorem after_flatMap_escapeChar (cs : List Char) :
    Cursor.after ⟨.string, 0⟩ (cs.flatMap escapeChar) = ⟨.string, 0⟩ := by
  induction cs with
  | nil => rfl
  | cons c cs ih => rw [List.flatMap_cons, Cursor.after_append, after_escapeChar, ih]

/-- Nothing that is escaped ends a string. -/
theorem after_of_prefix_escaped (h : before <+: cs.flatMap escapeChar) :
    ∃ mode, mode ≠ .code ∧ Cursor.after ⟨.string, 0⟩ before = ⟨mode, 0⟩ := by
  induction cs generalizing before with
  | nil =>
    rw [List.prefix_nil.1 h]
    exact ⟨.string, by decide, rfl⟩
  | cons c cs ih =>
    rw [List.flatMap_cons] at h
    rcases prefix_of_append h with h | ⟨more, hmore, rfl⟩
    · obtain ⟨heq, hquote, hback⟩ | ⟨d, heq, -⟩ := escapeChar_cases c
      · rw [heq] at h
        obtain rfl | rfl := prefix_of_singleton h
        · exact ⟨.string, by decide, rfl⟩
        · exact ⟨.string, by decide, heq ▸ after_escapeChar c⟩
      · rw [heq, List.prefix_cons_iff] at h
        obtain rfl | ⟨more, rfl, hmore⟩ := h
        · exact ⟨.string, by decide, rfl⟩
        · obtain rfl | rfl := prefix_of_singleton hmore
          · exact ⟨.escape, by decide, rfl⟩
          · exact ⟨.string, by decide, rfl⟩
    · rw [Cursor.after_append, after_escapeChar]
      exact ih hmore

theorem after_quoted (s : String) : start.after (quoted s).toList = start := by
  rw [Expression.toList_quoted, Cursor.after_cons, Cursor.after_append]
  change Cursor.after (Cursor.after ⟨.string, 0⟩ _) _ = _
  rw [after_flatMap_escapeChar]
  rfl

/-- A string stands outside of strings at its ends only. -/
theorem after_of_prefix_quoted {s : String} (h : before <+: (quoted s).toList) :
    before = [] ∨ before = (quoted s).toList ∨
      ∃ mode, mode ≠ .code ∧ start.after before = ⟨mode, 0⟩ := by
  rw [Expression.toList_quoted] at h ⊢
  obtain rfl | rfl | ⟨more, hmore, rfl⟩ := prefix_of_enclosed h
  · exact .inl rfl
  · exact .inr (.inl rfl)
  · exact .inr (.inr (after_of_prefix_escaped hmore))

theorem level_quoted (s : String) : level (quoted s).toList = level s.toList := by
  have hescaped : ∀ cs : List Char, level (cs.flatMap escapeChar) = level cs := by
    intro cs
    induction cs with
    | nil => rfl
    | cons c cs ih =>
      have hback : weight '\\' = 0 := by decide
      rw [List.flatMap_cons, level_append, ih, level_cons]
      obtain ⟨heq, -⟩ | ⟨d, heq, hd, hc⟩ := escapeChar_cases c
      · simp [heq]
      · simp [heq, hback, hd, hc]
  have hquote : weight '\'' = 0 := by decide
  rw [Expression.toList_quoted]
  simp [hescaped, hquote]

/-! ### What is written -/

/-- Inside of brackets a text goes on as it would outside, one level deeper. -/
theorem after_opening (ho : isOpening o = true) (cs : List Char) :
    start.after (o :: cs) = (start.after cs).raised 1 := by
  rw [Cursor.after_cons, start, next_code (ne_quote_of_bracket (.inl ho)), weight_of_isOpening ho,
    ← Cursor.after_raised]
  rfl

theorem after_bracketed (ho : isOpening o = true) (hc : isClosing c = true) (h : start.after cs = start) :
    start.after (o :: (cs ++ [c])) = start := by
  have hclose := next_code (ne_quote_of_bracket (.inr hc)) 1
  rw [weight_of_isClosing hc] at hclose
  rw [← List.cons_append, Cursor.after_append, after_opening ho, h]
  exact hclose

namespace Written
variable {P : String → Prop} {cs : List Char}

theorem enclosed (h : Written P cs) : Enclosed cs := by
  induction h with
  | nil =>
    refine ⟨rfl, fun before hbefore => ?_⟩
    rw [List.prefix_nil.1 hbefore]
    decide
  | @plain c h =>
    have hnext := next_plain h
    refine ⟨hnext, fun before hbefore => ?_⟩
    obtain rfl | rfl := prefix_of_singleton hbefore
    · decide
    · rw [Cursor.after_cons, hnext]
      decide
  | @quoted s _ =>
    refine ⟨after_quoted s, fun before hbefore => ?_⟩
    obtain rfl | rfl | ⟨mode, -, hmode⟩ := after_of_prefix_quoted hbefore
    · decide
    · rw [after_quoted]
      decide
    · exact Int.le_of_eq (congrArg Cursor.depth hmode).symm
  | @bracketed o c cs ho hc _ ih =>
    have hwhole := after_bracketed ho hc ih.1
    refine ⟨hwhole, fun before hbefore => ?_⟩
    obtain rfl | rfl | ⟨more, hmore, rfl⟩ := prefix_of_enclosed hbefore
    · decide
    · rw [hwhole]
      decide
    · -- one level deeper, but otherwise as without the bracket
      have hdepth := ih.2 more hmore
      rw [after_opening ho]
      exact Int.add_nonneg hdepth (by decide)
  | @append a b _ _ iha ihb =>
    refine ⟨by rw [Cursor.after_append, iha.1, ihb.1], fun before hbefore => ?_⟩
    rcases prefix_of_append hbefore with hbefore | ⟨more, hmore, rfl⟩
    · exact iha.2 before hbefore
    · rw [Cursor.after_append, iha.1]
      exact ihb.2 more hmore

/-- Brackets in strings may be counted if they match. -/
theorem counted (h : Written P cs) (hP : ∀ s, P s → level s.toList = 0) : Counted cs := by
  induction h with
  | nil =>
    intro before hbefore _
    rw [List.prefix_nil.1 hbefore]
    rfl
  | @plain c h =>
    intro before hbefore _
    obtain rfl | rfl := prefix_of_singleton hbefore
    · rfl
    · rw [Cursor.after_cons, next_plain h, level_cons, weight_of_isPlain h]
      rfl
  | @quoted s h =>
    intro before hbefore hcode
    -- in between, brackets may be counted that do not match yet, but there it is a string
    obtain rfl | rfl | ⟨mode, hne, hmode⟩ := after_of_prefix_quoted hbefore
    · rfl
    · rw [after_quoted, level_quoted, hP s h]
      rfl
    · rw [hmode] at hcode
      exact absurd hcode hne
  | @bracketed o c cs ho hc h ih =>
    intro before hbefore hcode
    have hlevel : level cs = 0 := by
      rw [← ih cs (List.prefix_refl cs) (by rw [h.enclosed.1]; rfl), h.enclosed.1]
      rfl
    obtain rfl | rfl | ⟨more, hmore, rfl⟩ := prefix_of_enclosed hbefore
    · rfl
    · rw [after_bracketed ho hc h.enclosed.1]
      simp [weight_of_isOpening ho, weight_of_isClosing hc, hlevel, start]
    · rw [after_opening ho] at hcode ⊢
      have hdepth := ih more hmore hcode
      rw [level_cons, weight_of_isOpening ho, ← hdepth]
      exact Int.add_comm _ _
  | @append a b ha _ iha ihb =>
    intro before hbefore hcode
    rcases prefix_of_append hbefore with hbefore | ⟨more, hmore, rfl⟩
    · exact iha before hbefore hcode
    · have hlevel : level a = 0 := by
        rw [← iha a (List.prefix_refl a) (by rw [ha.enclosed.1]; rfl), ha.enclosed.1]
        rfl
      rw [Cursor.after_append, ha.enclosed.1] at hcode ⊢
      rw [level_append, hlevel, Int.zero_add]
      exact ihb more hmore hcode

end Written

/-! ### Parentheses -/

theorem Parenthesized.not_topLevel (h : Parenthesized text) : ¬ TopLevel text := by
  obtain ⟨inner, htext, -, hdepth⟩ := h
  rintro ⟨before, op, behind, hsplit, hop, hstart⟩
  rw [htext] at hsplit
  obtain rfl | rfl | ⟨more, hmore, rfl⟩ := prefix_of_enclosed ⟨op :: behind, hsplit.symm⟩
  · -- the text starts with a bracket, not with an operator
    obtain ⟨rfl, -⟩ := List.cons.inj hsplit
    revert hop
    decide
  · have hlength := congrArg List.length hsplit
    simp at hlength
  · have hdepth := hdepth more hmore
    have hraised := congrArg Cursor.depth hstart
    rw [after_opening (by decide)] at hraised
    change (start.after more).depth + 1 = 0 at hraised
    omega

theorem Whole.not_topLevel (h : Whole text) : ¬ TopLevel text :=
  h.elim id Parenthesized.not_topLevel

theorem wrap_of_seen (h : Seen text) : wrap operators text = "(" ++ text ++ ")" :=
  if_pos (hasOperator_iff_seen.2 h)

theorem wrap_of_not_seen (h : ¬ Seen text) : wrap operators text = text :=
  if_neg fun hseen => h (hasOperator_iff_seen.1 hseen)

/-- Parentheses are where they should be, unless an operator outside of brackets is missed. -/
theorem whole_wrap_iff (h : Enclosed text.toList) :
    Whole (wrap operators text) ↔ (TopLevel text → Seen text) := by
  by_cases hseen : Seen text
  · refine ⟨fun _ _ => hseen, fun _ => .inr ⟨text.toList, ?_, h⟩⟩
    rw [wrap_of_seen hseen]
    simp
  · rw [wrap_of_not_seen hseen]
    constructor
    · exact fun hwhole htop => absurd htop hwhole.not_topLevel
    · exact fun hmissed => .inl fun htop => hseen (hmissed htop)

theorem Counted.seen_of_topLevel (h : Counted text.toList) (htop : TopLevel text) : Seen text := by
  obtain ⟨before, op, behind, hsplit, hop, hstart⟩ := htop
  refine ⟨before, op, behind, hsplit, hop, ?_⟩
  have hdepth := h before ⟨op :: behind, hsplit.symm⟩ (by rw [hstart]; rfl)
  exact hdepth.symm.trans (congrArg Cursor.depth hstart)

end OpenApi.TypeScript
