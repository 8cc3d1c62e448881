import OpenApi.Pointer
import OpenApi.Proofs.Outcome
import OpenApi.Proofs.Text.Percent
import OpenApi.Proofs.Text.Split

/-!
Pointers as paths: the tokens of a pointer are those that it was joined of, and every pointer is what a
reference can be normalized to.
-/
namespace OpenApi.Pointer

theorem child_eq (pointer token : String) : child pointer token = pointer ++ "/" ++ escape token :=
  rfl

theorem child_inj_left {p q token : String} (h : child p token = child q token) : p = q := by
  rw [child_eq, child_eq, String.append_assoc, String.append_assoc] at h
  have hl := congrArg String.toList h
  simp only [String.toList_append] at hl
  exact String.ext (List.append_cancel_right hl)

theorem toList_join (pointer : String) (tokens : List String) :
    (join pointer tokens).toList =
      pointer.toList ++ tokens.flatMap fun t => '/' :: (escape t).toList := by
  induction tokens generalizing pointer with
  | nil => simp [join]
  | cons t rest ih =>
    change (join (pointer ++ "/" ++ escape t) rest).toList = _
    rw [ih]
    simp

/-! ### Tokens -/

theorem unescapeList_cons {c : Char} (h : c ≠ '~') (rest : List Char) :
    unescapeList (c :: rest) = c :: unescapeList rest := by
  rw [unescapeList]
  · rintro rest' rfl
    exact absurd rfl h
  · rintro rest' rfl
    exact absurd rfl h

theorem unescapeList_escape (cs : List Char) : unescapeList (cs.flatMap escapeChar) = cs := by
  induction cs with
  | nil => rfl
  | cons c cs ih =>
    rw [List.flatMap_cons]
    by_cases htilde : c = '~'
    · subst htilde
      exact congrArg _ ih
    · by_cases hslash : c = '/'
      · subst hslash
        exact congrArg _ ih
      · have hself : escapeChar c = [c] := by simp [escapeChar, htilde, hslash]
        rw [hself, List.singleton_append, unescapeList_cons htilde, ih]

theorem slash_not_mem_escape (token : String) : '/' ∉ (escape token).toList := by
  rw [escape, String.toList_ofList, List.mem_flatMap]
  rintro ⟨c, -, hc⟩
  unfold escapeChar at hc
  split at hc
  · simp at hc
  · next htilde =>
    split at hc
    · simp at hc
    · next hslash =>
      exact hslash (by simpa using (List.mem_singleton.1 hc).symm)

theorem unescape_escape (token : String) : String.ofList (unescapeList (escape token).toList) = token := by
  rw [escape, String.toList_ofList, unescapeList_escape, String.ofList_toList]

/-- In one pass, or one replacement after the other: tildes go first, for slashes bring new ones. -/
theorem escape_eq_replace (token : String) :
    escape token = Text.replace (Text.replace token "~" "~0") "/" "~1" := by
  refine congrArg String.ofList ?_
  change _ = Text.replaceList ['/'] ['~', '1'] 0 (String.ofList (Text.replaceList ['~'] ['~', '0'] 0 _)).toList
  rw [String.toList_ofList, Text.replaceList_singleton, Text.replaceList_singleton, List.flatMap_assoc]
  refine congrArg (List.flatMap · _) (funext fun c => ?_)
  by_cases htilde : c = '~'
  · subst htilde
    decide
  · by_cases hslash : c = '/'
    · subst hslash
      decide
    · simp [escapeChar, htilde, hslash]

/-- Slashes come back first: where a tilde with a one behind it is left, the tilde was escaped. -/
theorem unescapeList_eq_replaceList (cs : List Char) :
    unescapeList cs =
      Text.replaceList ['~', '0'] ['~'] 0 (Text.replaceList ['~', '1'] ['/'] 0 cs) := by
  fun_induction unescapeList cs with
  | case1 rest ih => simp [Text.replaceList, List.isPrefixOf, ih]
  | case2 rest ih => simp [Text.replaceList, List.isPrefixOf, ih]
  | case3 c rest hone hzero ih =>
    -- no zero comes to stand behind a tilde
    have hhead : c = '~' → (Text.replaceList ['~', '1'] ['/'] 0 rest).head? ≠ some '0' := by
      rintro rfl
      cases rest with
      | nil => simp [Text.replaceList]
      | cons d rest =>
        rw [Text.replaceList]
        split
        · simp
        · rintro ⟨⟩
          exact hzero rest rfl rfl
    have hinner : ¬ ['~', '1'].isPrefixOf (c :: rest) = true := by
      cases rest with
      | nil => simp [List.isPrefixOf]
      | cons d rest =>
        simp only [List.isPrefixOf, Bool.and_true, Bool.and_eq_true, beq_iff_eq]
        rintro ⟨rfl, rfl⟩
        exact hone rest rfl rfl
    have houter : ¬ ['~', '0'].isPrefixOf (c :: Text.replaceList ['~', '1'] ['/'] 0 rest) = true := by
      intro hpre
      obtain ⟨hc, tail, htail⟩ := List.cons_prefix_cons.1 (List.isPrefixOf_iff_prefix.1 hpre)
      exact hhead hc.symm (by rw [← htail]; rfl)
    rw [ih, Text.replaceList.eq_3 _ _ _ rest, if_neg hinner, Text.replaceList, if_neg houter]
  | case4 => rfl

theorem unescape_eq_replace (token : String) :
    unescape token = Text.replace (Text.replace token "~1" "/") "~0" "~" := by
  refine congrArg String.ofList ?_
  change _ = Text.replaceList ['~', '0'] ['~'] 0
    (String.ofList (Text.replaceList ['~', '1'] ['/'] 0 token.toList)).toList
  rw [String.toList_ofList, unescapeList_eq_replaceList]

/-- A slash and an escaped token behind a fragment add the token, and mend nothing that is wrong with it. -/
theorem fragmentTokens_append (ref ref' : String) (fragment : List Char) (token : String)
    (ts : List String) :
    fragmentTokens ref (fragment ++ '/' :: (escape token).toList) = .ok ts ↔
      ∃ us, fragmentTokens ref' fragment = .ok us ∧ ts = us ++ [token] := by
  have hone : Text.splitList '/' (escape token).toList = [(escape token).toList] := by
    rw [Text.splitList_eq, Text.splitSeqList_clear (Text.clear_of_not_mem (slash_not_mem_escape token))]
  cases fragment with
  | nil =>
    change Except.ok ((Text.splitList '/' (escape token).toList).map _) = _ ↔ _
    rw [hone, List.map_singleton, unescape_escape]
    simp [fragmentTokens, eq_comm]
  | cons c rest =>
    by_cases hc : c = '/'
    · subst hc
      rw [List.cons_append, fragmentTokens, fragmentTokens, Text.splitList_append, hone, List.map_append,
        List.map_singleton, unescape_escape]
      simp [eq_comm]
    · simp [fragmentTokens, hc]

theorem fragmentTokens_joined (ref : String) (ts : List String) :
    fragmentTokens ref (ts.flatMap fun t => '/' :: (escape t).toList) = .ok ts := by
  induction ts using List.reverseRecOn with
  | nil => rfl
  | append_singleton ts t ih =>
    rw [List.flatMap_append, List.flatMap_singleton]
    exact (fragmentTokens_append ref ref _ t _).2 ⟨ts, ih, rfl⟩

/-- A step down adds a token. -/
theorem tokens_child {pointer token : String} {ts : List String} :
    tokens (child pointer token) = .ok ts ↔ ∃ us, tokens pointer = .ok us ∧ ts = us ++ [token] := by
  have hlist : (child pointer token).toList = pointer.toList ++ '/' :: (escape token).toList := by
    rw [child, toList_join, List.flatMap_singleton]
  unfold tokens
  rw [hlist]
  cases pointer.toList with
  | nil => simp
  | cons c rest =>
    by_cases hc : c = '#'
    · subst hc
      exact fragmentTokens_append _ _ rest token ts
    · simp [hc]

/-- The tokens of a pointer are those that it was joined of. -/
theorem tokens_join (ts : List String) : tokens (join "#" ts) = .ok ts := by
  unfold tokens
  rw [toList_join]
  exact fragmentTokens_joined _ ts

/-- The canonical pointer of a reference has the tokens of the reference. -/
theorem tokens_normalize (ref : String) : (normalize ref >>= tokens) = refTokens ref := by
  unfold normalize
  cases refTokens ref with
  | error e => rfl
  | ok ts => exact tokens_join ts

theorem tokens_of_normalize {ref pointer : String} (h : normalize ref = .ok pointer) :
    ∃ ts, tokens pointer = .ok ts := by
  obtain ⟨ts, -, rfl⟩ := Outcome.bind_pure_ok.1 h
  exact ⟨ts, tokens_join ts⟩

/-- Every pointer can be referred to: the reference is percent-encoded. -/
theorem exists_normalize (ts : List String) : ∃ ref, normalize ref = .ok (join "#" ts) := by
  let fragment := String.ofList (ts.flatMap fun t => '/' :: (escape t).toList)
  refine ⟨"#" ++ Percent.encode fragment false, Outcome.bind_ok.2 ⟨ts, ?_, rfl⟩⟩
  unfold refTokens
  rw [String.toList_append]
  change fragmentTokens _ (Percent.decodeLossy (String.ofList (Percent.encode fragment false).toList)).toList = _
  rw [String.ofList_toList, Percent.decodeLossy_encode, String.toList_ofList]
  exact fragmentTokens_joined _ ts

end OpenApi.Pointer
