import OpenApi.Proofs.TypeScript.Nesting

/-!
Texts in single quotes. Between the quotes stands a body that nothing in it ends, and that reads back as the
text.
-/
namespace OpenApi.TypeScript

variable {c : Char} {cs before after : List Char}

theorem escapeChar_eq_self (h : ¬ (c = '\\' ∨ c = '\'' ∨ c = '\n' ∨ c = '\r')) : escapeChar c = [c] := by
  simp_all [escapeChar]

/-- In one pass, or one replacement after the other: backslashes go first, for all others bring new ones. -/
theorem escaped_eq_replace (s : String) : String.ofList (s.toList.flatMap escapeChar) =
    Text.replace (Text.replace (Text.replace (Text.replace s "\\" "\\\\") "'" "\\'") "\n" "\\n")
      "\r" "\\r" := by
  have hback : "\\".toList = ['\\'] := rfl
  have hquote : "'".toList = ['\''] := rfl
  have hfeed : "\n".toList = ['\n'] := rfl
  have hreturn : "\r".toList = ['\r'] := rfl
  simp only [Text.replace, String.toList_ofList, hback, hquote, hfeed, hreturn, Text.replaceList_singleton,
    List.flatMap_assoc]
  refine congrArg (fun f => String.ofList (s.toList.flatMap f)) (funext fun c => ?_)
  by_cases hc : c = '\\' ∨ c = '\'' ∨ c = '\n' ∨ c = '\r'
  · obtain rfl | rfl | rfl | rfl := hc <;> rfl
  · rw [escapeChar_eq_self hc]
    simp_all

/-- No line ends within quotes. -/
theorem ne_of_mem_escaped (h : c ∈ cs.flatMap escapeChar) : c ≠ '\n' ∧ c ≠ '\r' := by
  obtain ⟨d, -, hmem⟩ := List.mem_flatMap.1 h
  have hall : ((escapeChar d).all fun c => c != '\n' && c != '\r') = true := by
    by_cases hd : d = '\\' ∨ d = '\'' ∨ d = '\n' ∨ d = '\r'
    · obtain rfl | rfl | rfl | rfl := hd <;> rfl
    · rw [escapeChar_eq_self hd]
      simp_all
  simpa using List.all_eq_true.1 hall c hmem

/-- A quote in a string has a backslash in front of it. -/
theorem mode_of_escaped_eq (h : cs.flatMap escapeChar = before ++ '\'' :: after) :
    (Cursor.after ⟨.string, 0⟩ before).mode = .escape := by
  obtain ⟨mode, hmode, heq⟩ := after_of_prefix_escaped ⟨_, h.symm⟩
  have hquote : before ++ ['\''] <+: cs.flatMap escapeChar := ⟨after, by simp [h]⟩
  obtain ⟨mode', hmode', heq'⟩ := after_of_prefix_escaped hquote
  rw [Cursor.after_append, heq] at heq'
  cases mode with
  | code => exact absurd rfl hmode
  | string => exact absurd (congrArg Cursor.mode heq').symm hmode'
  | escape => rw [heq]

/-- What stands between the quotes ends no line and has a backslash in front of each quote; it leaves no
backslash open, and is read as the text, whatever follows. -/
theorem quoted_read_back : (∀ s, ∃ body,
    (quoted s).toList = '\'' :: (body ++ ['\'']) ∧
    String.ofList body = Text.replace (Text.replace (Text.replace (Text.replace s "\\" "\\\\") "'" "\\'")
      "\n" "\\n") "\r" "\\r" ∧
    '\n' ∉ body ∧ '\r' ∉ body ∧
    (∀ before after, body = before ++ '\'' :: after →
      (Cursor.after ⟨.string, 0⟩ before).mode = .escape) ∧
    (Cursor.after ⟨.string, 0⟩ body).mode = .string ∧
    ∀ rest, Expression.string (body ++ '\'' :: rest) = some (s, rest)) ∧
    Function.Injective quoted := by
  refine ⟨fun s => ⟨s.toList.flatMap escapeChar, Expression.toList_quoted s, escaped_eq_replace s,
    fun h => (ne_of_mem_escaped h).1 rfl, fun h => (ne_of_mem_escaped h).2 rfl,
    fun _ _ => mode_of_escaped_eq, by rw [after_flatMap_escapeChar], Expression.string_quoted s⟩, fun s t h => ?_⟩
  have hbody := congrArg (List.tail ∘ String.toList) h
  simp only [Function.comp, Expression.toList_quoted, List.tail_cons] at hbody
  have hs := Expression.string_quoted s []
  rw [hbody, Expression.string_quoted] at hs
  exact (Prod.mk.inj (Option.some.inj hs)).1.symm

end OpenApi.TypeScript
