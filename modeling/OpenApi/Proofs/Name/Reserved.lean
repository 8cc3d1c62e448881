import OpenApi.Config
import OpenApi.Proofs.Name.Registration

/-!
Reserved words among the names that are handed out. A reserved name gets the suffix once, and what comes of
that is not looked at again. So a reserved name is handed out if and only if there is a name that comes up
and is reserved both without the suffix and with it.
-/
namespace OpenApi

open Outcome (bind_ok mapM_ok)

namespace Naming

variable {naming : Naming}

theorem isReserved_of_unreserve {name : String} (h : naming.isReserved (naming.unreserve name) = true) :
    naming.isReserved name = true ∧ naming.isReserved (name ++ naming.suffix) = true := by
  unfold unreserve at h
  split at h
  · next hname => exact ⟨hname, h⟩
  · next hname => exact absurd h hname

/-- The names that are looked up among the reserved words: identifiers, and those of them that are numbered
because they are taken. -/
inductive Considered (naming : Naming) : String → Prop
  | plain {name : String} (h : Identifier.isIdentifier name = true) : Considered naming name
  | numbered {name : String} (h : Identifier.isIdentifier name = true) {n : Nat} (hn : 1 < n) :
      Considered naming (naming.unreserve name ++ naming.separator ++ Nat.repr n)

/-- The suffix makes every reserved name that comes up a name that is not reserved. -/
def Evades (naming : Naming) : Prop :=
  ∀ name, Considered naming name → naming.isReserved name = true →
    naming.isReserved (name ++ naming.suffix) = false

/-- The words need not be considered one by one where none of them is reserved with the suffix. -/
theorem evades_of_words (h : ∀ set ∈ naming.reserved, ∀ word ∈ set.2,
    naming.isReserved (word ++ naming.suffix) = false) : naming.Evades := by
  intro name _ hreserved
  obtain ⟨set, hset, hname⟩ := List.any_eq_true.1 hreserved
  exact h set hset name (List.contains_iff_mem.1 hname)

end Naming

namespace NameTable

variable {naming : Naming} {raw : String}

/-! ### What is handed out is no reserved word -/

theorem candidate_not_reserved (h : naming.Evades) (raw : String) (n : Nat) :
    naming.isReserved (candidate naming (base naming raw) n) = false := by
  have hunreserve : ∀ name, naming.Considered name →
      naming.isReserved (naming.unreserve name) = false := by
    intro name hname
    rw [← Bool.not_eq_true]
    intro hreserved
    obtain ⟨hplain, hsuffix⟩ := Naming.isReserved_of_unreserve hreserved
    rw [h name hname hplain] at hsuffix
    cases hsuffix
  have hraw := Identifier.isIdentifier_ofText raw
  unfold candidate
  split
  · exact hunreserve _ (.plain hraw)
  · exact hunreserve _ (.numbered hraw (by omega))

theorem run_not_reserved (h : naming.Evades) (requests : List NameRequest) :
    ∀ e ∈ (run naming [] requests).2, naming.isReserved e.identifier = false :=
  run_identifiers (Q := fun identifier => naming.isReserved identifier = false) (candidate_not_reserved h)
    requests

/-- The identifiers of a table that was new before a run are the answers of the run. -/
theorem mem_answers_iff {requests : List NameRequest} {identifier : String} :
    identifier ∈ (run naming [] requests).1 ↔
      ∃ e ∈ (run naming [] requests).2, e.identifier = identifier := by
  constructor
  · intro h
    obtain ⟨r, -, e, hfind, hidentifier⟩ := Outcome.exists_mem_of_forall₂ (find?_run naming [] requests).flip h
    exact ⟨e, (find?_some hfind).1, hidentifier⟩
  · rintro ⟨e, he, rfl⟩
    have hentered : ∀ table, e ∈ (run naming table requests).2 →
        e ∈ table ∨ e.identifier ∈ (run naming table requests).1 := by
      clear he
      induction requests with
      | nil => exact fun table he => .inl he
      | cons r rest ih =>
        intro table he
        rw [run_cons, answer_eq] at he ⊢
        rcases ih _ he with he | he
        · rcases register_cases naming table r.raw r.scope r.space r.source with ⟨f, -, heq⟩ | ⟨-, heq⟩
          · rw [heq] at he
            exact .inl he
          · rw [heq] at he
            rcases List.mem_append.1 he with he | he
            · exact .inl he
            · obtain rfl := List.mem_singleton.1 he
              rw [heq]
              exact .inr List.mem_cons_self
        · exact .inr (List.mem_cons_of_mem _ he)
    exact (hentered [] he).resolve_left nofun

/-! ### Every candidate comes up -/

/-- Owners of one raw name. -/
def owners (raw : String) (n : Nat) : List NameRequest :=
  (List.range n).map fun i => .name raw .schemaType "" (Nat.repr i)

/-- Is the `m`-th candidate, or one that reads like it, in a table of types? -/
def Occupied (naming : Naming) (raw : String) (table : NameTable) (m : Nat) : Prop :=
  ∃ e ∈ table, foldCase naming e.identifier = foldCase naming (candidate naming (base naming raw) m)

/-- A table of `n` owners of one raw name: the first `n` candidates are occupied, each of them by itself or
by an earlier one. -/
structure Crowded (naming : Naming) (raw : String) (n : Nat) (table : NameTable) : Prop where
  scope : ∀ e ∈ table, e.scope = .schemaType ∧ e.space = ""
  key : ∀ e ∈ table, ∃ i < n, e.key = Nat.repr i
  identifier : ∀ e ∈ table, 0 < e.collision ∧
    e.identifier = candidate naming (base naming raw) e.collision
  occupied : ∀ m, 0 < m → m ≤ n → Occupied naming raw table m
  earlier : ∀ m, 0 < m → Occupied naming raw table m → ∃ e ∈ table, e.collision ≤ m ∧
    foldCase naming e.identifier = foldCase naming (candidate naming (base naming raw) m)

theorem Crowded.mem_taken {n m : Nat} {table : NameTable} (h : Crowded naming raw n table) :
    foldCase naming (candidate naming (base naming raw) m) ∈ table.taken naming .schemaType "" ↔
      Occupied naming raw table m := by
  simp only [taken, List.mem_map, List.mem_filter, NameEntry.inScope, Bool.and_eq_true, beq_iff_eq]
  constructor
  · rintro ⟨e, ⟨he, -⟩, heq⟩
    exact ⟨e, he, heq⟩
  · rintro ⟨e, he, heq⟩
    exact ⟨e, ⟨he, h.scope e he⟩, heq⟩

theorem ownerKey_repr (raw : String) (n : Nat) : ownerKey raw (Nat.repr n) = Nat.repr n := by
  have hne : (Nat.repr n).isEmpty = false := by
    rw [← Bool.not_eq_true, String.isEmpty_iff]
    intro heq
    have hlist := congrArg String.toList heq
    rw [Nat.toList_repr] at hlist
    exact Nat.toDigits_ne_nil hlist
  rw [ownerKey, if_neg (by simp [hne])]

/-- The next owner gets the first candidate that is not occupied. -/
theorem Crowded.register {n : Nat} {table : NameTable} (h : Crowded naming raw n table) :
    Crowded naming raw (n + 1) (table.register naming raw .schemaType "" (Nat.repr n)).2 := by
  have hnew : table.find? .schemaType "" (ownerKey raw (Nat.repr n)) = none := by
    rw [ownerKey_repr, Option.eq_none_iff_forall_ne_some]
    intro e he
    obtain ⟨hmem, -, -, hkey⟩ := find?_some he
    obtain ⟨i, hi, heq⟩ := h.key e hmem
    exact hi.ne (repr_inj (heq.symm.trans hkey))
  rcases register_cases naming table raw .schemaType "" (Nat.repr n) with ⟨e, he, -⟩ | ⟨-, heq⟩
  · rw [hnew] at he
    cases he
  rw [heq]
  let e := table.newEntry naming raw .schemaType "" (Nat.repr n)
  obtain ⟨hpos, hbefore⟩ := firstFree_least naming (base naming raw) (table.taken naming .schemaType "")
  have hfree : ¬ Occupied naming raw table e.collision := fun hocc =>
    firstFree_not_mem naming (base naming raw) (table.taken naming .schemaType "") (h.mem_taken.2 hocc)
  have hlt : n < e.collision := by
    by_contra! hle
    exact hfree (h.occupied _ hpos hle)
  have hmem : ∀ {f}, f ∈ table ++ [e] ↔ f ∈ table ∨ f = e := by simp
  refine ⟨?_, ?_, ?_, fun m hm hle => ?_, fun m hm hocc => ?_⟩
  · intro f hf
    rcases hmem.1 hf with hf | rfl
    · exact h.scope f hf
    · exact ⟨rfl, rfl⟩
  · intro f hf
    rcases hmem.1 hf with hf | rfl
    · obtain ⟨i, hi, hkey⟩ := h.key f hf
      exact ⟨i, by omega, hkey⟩
    · exact ⟨n, by omega, ownerKey_repr raw n⟩
  · intro f hf
    rcases hmem.1 hf with hf | rfl
    · exact h.identifier f hf
    · exact ⟨hpos, rfl⟩
  · rcases Nat.lt_or_ge m e.collision with hm' | hm'
    · obtain ⟨f, hf, hsame⟩ := h.mem_taken.1 (hbefore m hm hm')
      exact ⟨f, hmem.2 (.inl hf), hsame⟩
    · obtain rfl : m = e.collision := by omega
      exact ⟨e, hmem.2 (.inr rfl), rfl⟩
  · by_cases hold : Occupied naming raw table m
    · obtain ⟨f, hf, hle, hsame⟩ := h.earlier m hm hold
      exact ⟨f, hmem.2 (.inl hf), hle, hsame⟩
    · -- it is the new entry that reads like the candidate, and all numbers before it are occupied
      obtain ⟨f, hf, hsame⟩ := hocc
      rcases hmem.1 hf with hf | rfl
      · exact absurd ⟨f, hf, hsame⟩ hold
      · refine ⟨e, hmem.2 (.inr rfl), ?_, hsame⟩
        by_contra! hlt'
        exact hold (h.mem_taken.1 (hbefore m hm hlt'))

theorem crowded_owners (naming : Naming) (raw : String) (n : Nat) :
    Crowded naming raw n (run naming [] (owners raw n)).2 := by
  induction n with
  | zero => exact ⟨nofun, nofun, nofun, by omega, fun m _ ⟨e, he, _⟩ => nomatch he⟩
  | succ n ih =>
    rw [owners, List.range_succ, List.map_append, run_append]
    exact ih.register

theorem length_foldCase_append (naming : Naming) (s t : String) : (foldCase naming (s ++ t)).length =
    (foldCase naming s).length + (foldCase naming t).length := by
  unfold foldCase
  split
  · exact Text.length_lower_append s t
  · exact String.length_append s t

theorem length_le_foldCase (naming : Naming) (s : String) : s.length ≤ (foldCase naming s).length := by
  unfold foldCase
  split
  · exact Text.length_le_lower s
  · exact Nat.le_refl _

theorem length_repr_le {m n : Nat} (h : m ≤ n) : (Nat.repr m).length ≤ (Nat.repr n).length := by
  have hpos : 0 < (Nat.repr n).length := Nat.length_repr_pos
  have hn := (Nat.length_repr_le_iff hpos).1 (Nat.le_refl _)
  exact (Nat.length_repr_le_iff hpos).2 (by omega)

/-- A numbered candidate that has the suffix reads like none before it. -/
theorem eq_of_reads_alike (hsuffix : naming.suffix ≠ "") {base : String} {m n : Nat} (hm : 0 < m)
    (hn : 1 < n) (hle : m ≤ n)
    (hreserved : naming.isReserved (base ++ naming.separator ++ Nat.repr n) = true)
    (h : foldCase naming (candidate naming base m) = foldCase naming (candidate naming base n)) :
    m = n := by
  have hformn : form naming base n = some true := by
    rw [form, if_neg (by omega), hreserved]
  have hsuffixPos : 0 < (foldCase naming naming.suffix).length := by
    refine Nat.lt_of_lt_of_le ?_ (length_le_foldCase naming _)
    rw [Nat.pos_iff_ne_zero, ne_eq, String.length_eq_zero_iff]
    exact hsuffix
  -- the candidate is longer than the base, and than what has fewer digits and no suffix
  have hlength := congrArg String.length h
  rw [candidate_numbered naming base hn, foldCase_numbered, ending, if_pos hreserved,
    String.length_append, String.length_append, length_foldCase_append] at hlength
  cases hformm : form naming base m with
  | none =>
    have hbase : candidate naming base m = base := if_pos (by
      unfold form at hformm
      split at hformm
      · assumption
      · cases hformm)
    rw [hbase] at hlength
    omega
  | some reserved =>
    cases reserved with
    | true => exact candidate_inj naming base hm (by omega) (hformm.trans hformn.symm) h
    | false =>
      unfold form at hformm
      split at hformm
      · cases hformm
      · next hm1 =>
        have hdigits := length_repr_le hle
        rw [candidate_numbered naming base (by omega), foldCase_numbered, ending,
          if_neg (by simp [Option.some.inj hformm]), String.length_append, String.length_append,
          length_foldCase_append] at hlength
        have hempty : (foldCase naming "").length = 0 := by
          have happend := length_foldCase_append naming "" ""
          rw [String.append_empty] at happend
          omega
        omega

/-- Every candidate that is reserved and gets the suffix is handed out by some run. -/
theorem exists_run_candidate (hsuffix : naming.suffix ≠ "") (raw : String) {n : Nat} (hn : 1 < n)
    (hreserved : naming.isReserved (base naming raw ++ naming.separator ++ Nat.repr n) = true) :
    candidate naming (base naming raw) n ∈ (run naming [] (owners raw n)).1 := by
  have hcrowded := crowded_owners naming raw n
  obtain ⟨e, he, hle, hsame⟩ := hcrowded.earlier n (by omega) (hcrowded.occupied n (by omega) le_rfl)
  obtain ⟨hpos, hidentifier⟩ := hcrowded.identifier e he
  rw [hidentifier] at hsame
  have hnumber := eq_of_reads_alike hsuffix hpos hn hle hreserved hsame
  exact mem_answers_iff.2 ⟨e, he, by rw [hidentifier, hnumber]⟩

/-- So is every identifier, with the suffix if it is reserved. -/
theorem exists_run_base (naming : Naming) (raw : String) :
    base naming raw ∈ (run naming [] (owners raw 1)).1 := by
  have hcrowded := crowded_owners naming raw 1
  obtain ⟨e, he, hle, -⟩ := hcrowded.earlier 1 (by omega) (hcrowded.occupied 1 (by omega) le_rfl)
  obtain ⟨hpos, hidentifier⟩ := hcrowded.identifier e he
  refine mem_answers_iff.2 ⟨e, he, ?_⟩
  rw [hidentifier]
  exact if_pos hle

theorem evades_of_run_not_reserved (hsuffix : naming.suffix ≠ "")
    (h : ∀ requests, ∀ identifier ∈ (run naming [] requests).1, naming.isReserved identifier = false) :
    naming.Evades := by
  intro name hname hreserved
  have hbase : ∀ {name}, Identifier.isIdentifier name = true → base naming name = naming.unreserve name :=
    fun hname => by rw [base, Identifier.ofText_of_isIdentifier hname]
  have hunreserve : naming.unreserve name = name ++ naming.suffix := if_pos hreserved
  rw [← hunreserve]
  cases hname with
  | plain hname => exact h _ _ (hbase hname ▸ exists_run_base naming name)
  | @numbered name hname n hn =>
    have hcandidate : candidate naming (base naming name) n = naming.unreserve
        (naming.unreserve name ++ naming.separator ++ Nat.repr n) := by
      rw [candidate, if_neg (by omega), hbase hname]
    rw [← hcandidate]
    exact h _ _ (exists_run_candidate hsuffix name hn (by rwa [hbase hname]))

end NameTable

namespace Config

/-- Settings with an empty suffix are refused. -/
theorem parseNaming_suffix {raw : Value} {naming : Naming} (h : parseNaming raw = .ok naming) :
    naming.suffix ≠ "" := by
  unfold parseNaming at h
  split at h
  · obtain ⟨reserved, -, h⟩ := bind_ok.1 h
    obtain ⟨suffix, -, h⟩ := bind_ok.1 h
    obtain ⟨hempty, h⟩ := Outcome.guard_ok h
    obtain ⟨separator, -, h⟩ := bind_ok.1 h
    cases h
    simpa using hempty
  · cases h

theorem ofValue_naming {raw : Value} {config : Config} (h : ofValue raw = .ok config) :
    ∃ settings, parseNaming settings = .ok config.naming := by
  unfold ofValue at h
  split at h
  · obtain ⟨_, -, h⟩ := bind_ok.1 h
    obtain ⟨targets, -, h⟩ := bind_ok.1 h
    obtain ⟨policy, -, h⟩ := bind_ok.1 h
    obtain ⟨workers, -, h⟩ := bind_ok.1 h
    obtain ⟨input, -, h⟩ := bind_ok.1 h
    obtain ⟨files, -, h⟩ := bind_ok.1 h
    obtain ⟨naming, hnaming, h⟩ := bind_ok.1 h
    obtain ⟨client, -, h⟩ := bind_ok.1 h
    obtain ⟨routes, -, h⟩ := bind_ok.1 h
    obtain ⟨types, -, h⟩ := bind_ok.1 h
    cases h
    exact ⟨_, hnaming⟩
  · cases h

/-- Under settings that are accepted, whatever reserved words, suffix and separator they give, no request to
a new table of names is ever answered by a reserved word, if and only if the suffix makes every name that
comes up and is reserved a name that is not. -/
theorem run_not_reserved_iff {raw : Value} {config : Config} (h : ofValue raw = .ok config) :
    (∀ requests, ∀ identifier ∈ (NameTable.run config.naming [] requests).1,
      config.naming.isReserved identifier = false) ↔ config.naming.Evades := by
  obtain ⟨settings, hnaming⟩ := ofValue_naming h
  refine ⟨NameTable.evades_of_run_not_reserved (parseNaming_suffix hnaming),
    fun hevades requests identifier hmem => ?_⟩
  obtain ⟨e, he, rfl⟩ := NameTable.mem_answers_iff.1 hmem
  exact NameTable.run_not_reserved hevades requests e he

/-- Settings that differ from the usual ones in their reserved words and the signs in names. -/
def wordSettings (words : List String) (suffix separator : String) : Value :=
  .record [("naming", .record [("reserved_suffix", .str suffix), ("collision_separator", .str separator),
    ("reserved_words", .record [("words", .list (words.map .str))])])]

theorem wordSet_of_pairwise {words : List String} (h : words.Pairwise (· < ·)) : wordSet words = words := by
  have hsort : words.mergeSort (· ≤ ·) = words :=
    List.mergeSort_of_pairwise (h.imp fun hlt => decide_eq_true (String.not_lt.1 (String.lt_asymm hlt)))
  rw [wordSet, hsort]
  clear hsort
  induction words with
  | nil => rfl
  | cons word rest ih =>
    obtain ⟨hword, hrest⟩ := List.pairwise_cons.1 h
    have hfilter : (rest.filter fun other => !other == word) = rest := by
      refine List.filter_eq_self.2 fun other hother => ?_
      have hne : other ≠ word := fun heq => String.lt_irrefl word (heq ▸ hword other hother)
      simp [hne]
    rw [List.eraseDups_cons, hfilter, ih hrest]

theorem ofValue_wordSettings (words : List String) (suffix separator : String)
    (h : words.Pairwise (· < ·)) (hsuffix : suffix ≠ "") :
    ofValue (wordSettings words suffix separator) =
      .ok { naming := { reserved := [(.str "words", words)], suffix, separator } } := by
  have htexts : (words.map Value.str).mapM Value.text = .ok words := by
    rw [mapM_ok, List.forall₂_map_left_iff, List.forall₂_same]
    exact fun _ _ => rfl
  have hset : givenSet (.str "words") (.list (words.map .str)) = .ok (.str "words", words) :=
    bind_ok.2 ⟨words, htexts, by rw [wordSet_of_pairwise h]; rfl⟩
  have hreserved : parseReserved (.record [("words", .list (words.map .str))]) =
      .ok [(.str "words", words)] := mapM_ok.2 (.cons hset .nil)
  have hnaming : parseNaming (.record [("reserved_suffix", .str suffix),
      ("collision_separator", .str separator),
      ("reserved_words", .record [("words", .list (words.map .str))])]) =
        .ok { reserved := [(.str "words", words)], suffix, separator } := by
    refine bind_ok.2 ⟨_, hreserved, bind_ok.2 ⟨suffix, rfl, ?_⟩⟩
    rw [if_neg (by simpa using hsuffix)]
    rfl
  refine bind_ok.2 ⟨(), rfl, bind_ok.2 ⟨[], rfl, bind_ok.2 ⟨.lastWins, rfl,
    bind_ok.2 ⟨.null, rfl, bind_ok.2 ⟨none, rfl, bind_ok.2 ⟨[], rfl, ?_⟩⟩⟩⟩⟩⟩
  exact bind_ok.2 ⟨_, hnaming, rfl⟩

/-- The number of a second order makes a reserved word of it again. -/
theorem orders_not_reserved : ∃ config,
    ofValue (wordSettings ["order", "order2", "orderValue2"] "Value" "") = .ok config ∧
    config.naming.isReserved "orderValue2" = true ∧
    ∀ requests, ∀ identifier ∈ (NameTable.run config.naming [] requests).1,
      config.naming.isReserved identifier = false := by
  have hconfig := ofValue_wordSettings ["order", "order2", "orderValue2"] "Value" "" (by decide) (by decide)
  exact ⟨_, hconfig, by decide, (run_not_reserved_iff hconfig).2 (Naming.evades_of_words (by decide))⟩

/-- A word that is reserved both without the suffix and with it. -/
theorem doubled_hands_out_reserved : ∃ config, ofValue (wordSettings ["a", "a_"] "_" "_") = .ok config ∧
    (NameTable.run config.naming [] [.name "a" .schemaType "" ""]).1 = ["a_"] ∧
    config.naming.isReserved "a_" = true :=
  ⟨_, ofValue_wordSettings _ _ _ (by decide) (by decide), by decide, by decide⟩

end Config
end OpenApi
