import Mathlib.Data.List.Forall2
import Mathlib.Data.List.Pairwise
import Mathlib.Order.Bounds.Defs
import OpenApi.Proofs.Name.Candidates
import OpenApi.Proofs.Name.Identifier
import OpenApi.Proofs.Outcome

/-!
Registering names. A registration finds the entry of its owner or adds one at the end, with an identifier
that nobody has in the same scope and namespace. After any run of registrations owners differ, identifiers
differ, and every answer that was given stays the answer.
-/
namespace OpenApi

open Identifier (isPart isIdentifier isIdentifier_append)

/-- What is asked of a table of names: a name of any kind, or the name of an operation. -/
inductive NameRequest where
  | name (raw : String) (scope : Scope) (space source : String)
  | operation (method path : String) (id : Option String) (source : String)

namespace NameRequest

def raw : NameRequest → String
  | .name raw .. => raw
  | .operation method path id _ => NameTable.operationRaw method path id

def scope : NameRequest → Scope
  | .name _ scope .. => scope
  | .operation .. => .operation

def space : NameRequest → String
  | .name _ _ space _ => space
  | .operation .. => ""

def source : NameRequest → String
  | .name _ _ _ source => source
  | .operation _ _ _ source => source

/-- What the owner is found by. -/
def key (r : NameRequest) : String := ownerKey r.raw r.source

end NameRequest

namespace NameTable

variable {naming : Naming} {table : NameTable} {scope : Scope} {space key raw source : String}
  {e : NameEntry}

/-! ### Looking up -/

theorem found_iff : (e.inScope scope space && e.key == key) = true ↔
    e.scope = scope ∧ e.space = space ∧ e.key = key := by
  simp [NameEntry.inScope, and_assoc]

theorem find?_some (h : table.find? scope space key = some e) :
    e ∈ table ∧ e.scope = scope ∧ e.space = space ∧ e.key = key :=
  ⟨List.mem_of_find?_eq_some h, found_iff.1 (by simpa using List.find?_some h)⟩

theorem find?_none (h : table.find? scope space key = none) {f : NameEntry} (hf : f ∈ table)
    (hscope : f.scope = scope) (hspace : f.space = space) : f.key ≠ key :=
  fun hkey => List.find?_eq_none.1 h f hf (found_iff.2 ⟨hscope, hspace, hkey⟩)

theorem find?_append (h : table.find? scope space key = some e) (more : NameTable) :
    find? (table ++ more) scope space key = some e := by
  unfold find? at h ⊢
  rw [List.find?_append, h, Option.some_or]

theorem find?_of_prefix {table' : NameTable} (hpre : table <+: table')
    (h : table.find? scope space key = some e) : table'.find? scope space key = some e := by
  obtain ⟨more, rfl⟩ := hpre
  exact find?_append h more

theorem get_of_find? (h : table.find? scope space key = some e) :
    table.get scope (.str key) space = .ok e.identifier := by
  unfold get entry?
  dsimp only
  rw [h]
  rfl

theorem get_ok {k : Scalar} {identifier : String} (h : table.get scope k space = .ok identifier) :
    ∃ s e, k = .str s ∧ table.find? scope space s = some e ∧ e.identifier = identifier := by
  unfold get at h
  split at h
  · next e he =>
    unfold entry? at he
    split at he
    · exact ⟨_, e, rfl, he, Outcome.pure_ok.1 h⟩
    · cases he
  · obtain ⟨_, -, h⟩ := Outcome.bind_ok.1 h
    cases h

/-! ### One registration -/

/-- What a registration does: it finds the owner, or it adds an entry for it. -/
theorem register_cases (naming : Naming) (table : NameTable) (raw : String) (scope : Scope)
    (space source : String) :
    (∃ e, table.find? scope space (ownerKey raw source) = some e ∧
      table.register naming raw scope space source = (e.identifier, table)) ∨
    (table.find? scope space (ownerKey raw source) = none ∧
      table.register naming raw scope space source =
        ((table.newEntry naming raw scope space source).identifier,
          table ++ [table.newEntry naming raw scope space source])) := by
  unfold register
  cases hfind : table.find? scope space (ownerKey raw source) with
  | some e => exact .inl ⟨e, rfl, rfl⟩
  | none => exact .inr ⟨rfl, rfl⟩

theorem find?_newEntry (h : table.find? scope space (ownerKey raw source) = none) :
    find? (table ++ [table.newEntry naming raw scope space source]) scope space
      (ownerKey raw source) = some (table.newEntry naming raw scope space source) := by
  unfold find? at h ⊢
  rw [List.find?_append, h, Option.none_or, List.find?_cons_of_pos]
  exact found_iff.2 ⟨rfl, rfl, rfl⟩

theorem prefix_register (naming : Naming) (table : NameTable) (raw : String) (scope : Scope)
    (space source : String) : table <+: (table.register naming raw scope space source).2 := by
  rcases register_cases naming table raw scope space source with ⟨e, -, h⟩ | ⟨-, h⟩
  · simp only [h, List.prefix_refl]
  · simp only [h, List.prefix_append]

/-- The owner is found from then on, under the identifier that was handed out. -/
theorem find?_register (naming : Naming) (table : NameTable) (raw : String) (scope : Scope)
    (space source : String) :
    ∃ e, (table.register naming raw scope space source).2.find? scope space (ownerKey raw source) =
      some e ∧ e.identifier = (table.register naming raw scope space source).1 := by
  rcases register_cases naming table raw scope space source with ⟨e, hfind, h⟩ | ⟨hfind, h⟩
  · rw [h]
    exact ⟨e, hfind, rfl⟩
  · rw [h]
    exact ⟨_, find?_newEntry hfind, rfl⟩

/-- An owner that is new. The candidates for its name are tried one after the other, which comes to an end, and
the owner gets the first of them that nobody has in its scope and namespace. -/
theorem register_new (naming : Naming) (table : NameTable) (raw : String) (scope : Scope)
    (space source : String) (hnew : table.find? scope space (ownerKey raw source) = none) :
    ∃ e : NameEntry, table.register naming raw scope space source = (e.identifier, table ++ [e]) ∧
      (e.raw = raw ∧ e.scope = scope ∧ e.space = space ∧ e.source = source) ∧
      Tries naming (table.taken naming scope space) (base naming raw) 1 e.collision ∧
      IsLeast {n | 1 ≤ n ∧ foldCase naming (candidate naming (base naming raw) n) ∉
        table.taken naming scope space} e.collision ∧
      e.identifier = candidate naming (base naming raw) e.collision := by
  obtain ⟨hpos, hleast⟩ := firstFree_least naming (base naming raw) (table.taken naming scope space)
  refine ⟨table.newEntry naming raw scope space source, ?_, ⟨rfl, rfl, rfl, rfl⟩, tries_firstFree naming _ _,
    ⟨⟨hpos, firstFree_not_mem naming _ _⟩, fun n ⟨hn, hfree⟩ => ?_⟩, rfl⟩
  · rw [register, hnew]
  · by_contra hlt
    exact hfree (hleast n hn (Nat.lt_of_not_le hlt))

/-- Numbers without a separator, and a suffix that is a digit: the second candidate for `a` is the
twenty-first. -/
def digits : Naming := { reserved := [(.str "words", ["a2"])], suffix := "1", separator := "" }

theorem digits_register_new : candidate digits "a" 2 = candidate digits "a" 21 ∧
    ∃ table e, (table : NameTable).map (·.identifier) = ["a", "a21"] ∧
      table.find? .schemaType "" "other" = none ∧
      table.register digits "a" .schemaType "" "other" = (e.identifier, table ++ [e]) ∧
      e.identifier = "a3" ∧
      IsLeast {n | 1 ≤ n ∧ foldCase digits (candidate digits (base digits "a") n) ∉
        table.taken digits .schemaType ""} e.collision := by
  let table : NameTable := [⟨"a", "a", .schemaType, "", 1, ""⟩, ⟨"a21", "a21", .schemaType, "", 1, ""⟩]
  have hnew : table.find? .schemaType "" (ownerKey "a" "other") = none := by decide
  obtain ⟨e, heq, -, -, hleast, -⟩ := register_new digits table "a" .schemaType "" "other" hnew
  have hanswer : (table.register digits "a" .schemaType "" "other").1 = "a3" := by decide
  rw [heq] at hanswer
  exact ⟨by decide, table, e, rfl, hnew, heq, hanswer, hleast⟩

/-- Entries of one scope and namespace have different owners, and identifiers that read differently. -/
def Apart (naming : Naming) (e f : NameEntry) : Prop :=
  e.scope = f.scope → e.space = f.space →
    e.key ≠ f.key ∧ foldCase naming e.identifier ≠ foldCase naming f.identifier

instance : Std.Symm (Apart naming) where
  symm _ _ h hscope hspace := (h hscope.symm hspace.symm).imp Ne.symm Ne.symm

abbrev Distinct (naming : Naming) (table : NameTable) : Prop := table.Pairwise (Apart naming)

theorem Distinct.register (h : Distinct naming table) (raw : String) (scope : Scope)
    (space source : String) : Distinct naming (table.register naming raw scope space source).2 := by
  rcases register_cases naming table raw scope space source with ⟨e, -, heq⟩ | ⟨hfind, heq⟩
  · rw [heq]
    exact h
  · rw [heq]
    refine List.pairwise_append.2 ⟨h, List.pairwise_singleton _ _, fun f hf e he hscope hspace => ?_⟩
    obtain rfl := List.mem_singleton.1 he
    refine ⟨find?_none hfind hf hscope hspace, fun hsame => ?_⟩
    -- the identifier would be among those that are taken
    apply firstFree_not_mem naming (base naming raw) (table.taken naming scope space)
    change foldCase naming (table.newEntry naming raw scope space source).identifier ∈ _
    rw [← hsame]
    refine List.mem_map.2 ⟨f, List.mem_filter.2 ⟨hf, ?_⟩, rfl⟩
    simp [NameEntry.inScope, show f.scope = scope from hscope, show f.space = space from hspace]

/-! ### Runs -/

/-- The answer to a request, and the table behind it. -/
def answer (naming : Naming) (table : NameTable) : NameRequest → String × NameTable
  | .name raw scope space source => table.register naming raw scope space source
  | .operation method path id source => table.registerOperation naming method path id source

/-- The answers to requests, one after the other, and the table behind the last. -/
def run (naming : Naming) : NameTable → List NameRequest → List String × NameTable
  | table, [] => ([], table)
  | table, r :: rest =>
    let (answer, table) := table.answer naming r
    let (answers, table) := run naming table rest
    (answer :: answers, table)

theorem answer_eq (r : NameRequest) :
    table.answer naming r = table.register naming r.raw r.scope r.space r.source := by
  cases r <;> rfl

theorem run_cons (r : NameRequest) (rest : List NameRequest) : run naming table (r :: rest) =
    ((table.answer naming r).1 :: (run naming (table.answer naming r).2 rest).1,
      (run naming (table.answer naming r).2 rest).2) := rfl

theorem run_append (requests more : List NameRequest) : run naming table (requests ++ more) =
    ((run naming table requests).1 ++ (run naming (run naming table requests).2 more).1,
      (run naming (run naming table requests).2 more).2) := by
  induction requests generalizing table with
  | nil => rfl
  | cons r rest ih => rw [List.cons_append, run_cons, ih, run_cons, List.cons_append]

/-- What every registration keeps, a run keeps. -/
theorem run_keeps {inv : NameTable → Prop}
    (hstep : ∀ table raw scope space source, inv table →
      inv (table.register naming raw scope space source).2)
    (h : inv table) (requests : List NameRequest) : inv (run naming table requests).2 := by
  induction requests generalizing table with
  | nil => exact h
  | cons r rest ih =>
    rw [run_cons, answer_eq]
    exact ih (hstep table r.raw r.scope r.space r.source h)

theorem prefix_run (requests : List NameRequest) : table <+: (run naming table requests).2 :=
  run_keeps (fun _ _ _ _ _ h => h.trans (prefix_register ..)) (List.prefix_refl table) requests

theorem Distinct.run (h : Distinct naming table) (requests : List NameRequest) :
    Distinct naming (run naming table requests).2 :=
  run_keeps (fun _ raw scope space source h => h.register raw scope space source) h requests

/-- What holds of every entry that is made holds of all entries of a table that was new before a run. -/
theorem run_entries {Q : NameEntry → Prop}
    (h : ∀ (table : NameTable) raw scope space source, Q (table.newEntry naming raw scope space source))
    (requests : List NameRequest) : ∀ e ∈ (run naming [] requests).2, Q e := by
  have hstep : ∀ (table : NameTable) raw scope space source, (∀ e ∈ table, Q e) →
      ∀ e ∈ (table.register naming raw scope space source).2, Q e := by
    intro table raw scope space source htable
    rcases register_cases naming table raw scope space source with ⟨e, -, heq⟩ | ⟨-, heq⟩
    · rw [heq]
      exact htable
    · rw [heq]
      exact List.forall_mem_append.2 ⟨htable, List.forall_mem_singleton.2 (h table raw scope space source)⟩
  exact run_keeps hstep (List.forall_mem_nil _) requests

theorem run_identifiers {Q : String → Prop} (h : ∀ raw n, Q (candidate naming (base naming raw) n))
    (requests : List NameRequest) : ∀ e ∈ (run naming [] requests).2, Q e.identifier :=
  run_entries (Q := fun e => Q e.identifier) (fun _ raw _ _ _ => h raw _) requests

/-- Behind a run every owner is found under the answer that was given to it. -/
theorem find?_run (naming : Naming) (table : NameTable) (requests : List NameRequest) :
    List.Forall₂ (fun r answer => ∃ e,
      (run naming table requests).2.find? r.scope r.space r.key = some e ∧ e.identifier = answer)
      requests (run naming table requests).1 := by
  induction requests generalizing table with
  | nil => exact .nil
  | cons r rest ih =>
    rw [run_cons]
    refine .cons ?_ (ih _)
    rw [answer_eq]
    obtain ⟨e, he, hidentifier⟩ := find?_register naming table r.raw r.scope r.space r.source
    exact ⟨e, find?_of_prefix (prefix_run rest) he, hidentifier⟩

/-- Any run of requests to a new table. Owners are entered once; no two identifiers of a scope and
namespace are the same, nor do they differ in case alone where that is asked for; looking up an owner
gives every answer that it was given, so these are all the same; and further requests only add to the
table. -/
theorem run_distinct_and_stable (naming : Naming) (requests : List NameRequest) :
    (run naming [] requests).2.Pairwise (fun e f =>
      ¬ (e.scope = f.scope ∧ e.space = f.space ∧ e.key = f.key)) ∧
    (run naming [] requests).2.Pairwise (fun e f => e.scope = f.scope → e.space = f.space →
      e.identifier ≠ f.identifier ∧
        (naming.caseInsensitive = true → Text.lower e.identifier ≠ Text.lower f.identifier)) ∧
    List.Forall₂ (fun r answer => (run naming [] requests).2.get r.scope (.str r.key) r.space =
      .ok answer) requests (run naming [] requests).1 ∧
    (∀ (i j : Nat) (r s : NameRequest) (a b : String),
      requests[i]? = some r → (run naming [] requests).1[i]? = some a →
      requests[j]? = some s → (run naming [] requests).1[j]? = some b →
      r.scope = s.scope → r.space = s.space → r.key = s.key → a = b) ∧
    ∀ more, (run naming [] requests).1 <+: (run naming [] (requests ++ more)).1 ∧
      (run naming [] requests).2 <+: (run naming [] (requests ++ more)).2 := by
  have hdistinct : Distinct naming (run naming [] requests).2 := Distinct.run .nil requests
  have hanswers := (find?_run naming [] requests).imp
    fun r a ⟨e, he, hidentifier⟩ => hidentifier ▸ get_of_find? he
  refine ⟨?_, ?_, hanswers, ?_, fun more => ?_⟩
  · exact hdistinct.imp fun h ⟨hscope, hspace, hkey⟩ => (h hscope hspace).1 hkey
  · refine hdistinct.imp fun h hscope hspace => ?_
    have hfold := (h hscope hspace).2
    refine ⟨fun heq => hfold (by rw [heq]), fun hcase => ?_⟩
    simpa only [foldCase, hcase, if_true] using hfold
  · intro i j r s a b hr ha hs hb hscope hspace hkey
    have hget : ∀ {i : Nat} {r : NameRequest} {a : String}, requests[i]? = some r →
        (run naming [] requests).1[i]? = some a →
          (run naming [] requests).2.get r.scope (.str r.key) r.space = .ok a := by
      intro i r a hr ha
      obtain ⟨hi, rfl⟩ := List.getElem?_eq_some_iff.1 hr
      obtain ⟨hi', rfl⟩ := List.getElem?_eq_some_iff.1 ha
      exact hanswers.get hi hi'
    have heq := hget hr ha
    rw [hscope, hspace, hkey, hget hs hb] at heq
    exact (Except.ok.inj heq).symm
  · rw [run_append]
    exact ⟨List.prefix_append _ _, prefix_run more⟩

/-- A number is passed over where it makes a name that stands already. -/
example : (run {} [] [.name "a_2" .schemaType "" "", .name "a" .schemaType "" "x",
    .name "a" .schemaType "" "y", .name "a" .schemaType "" "x"]).1 = ["a_2", "a", "a_3", "a"] := by
  decide

/-! ### Identifiers -/

theorem isIdentifier_candidate (hsuffix : ∀ c ∈ naming.suffix.toList, isPart c = true)
    (hseparator : ∀ c ∈ naming.separator.toList, isPart c = true) (raw : String) (n : Nat) :
    isIdentifier (candidate naming (base naming raw) n) = true := by
  have hunreserve : ∀ {name}, isIdentifier name = true →
      isIdentifier (naming.unreserve name) = true := by
    intro name hname
    unfold Naming.unreserve
    split
    · exact isIdentifier_append hname hsuffix
    · exact hname
  have hbase : isIdentifier (base naming raw) = true :=
    hunreserve (Identifier.isIdentifier_ofText raw)
  unfold candidate
  split
  · exact hbase
  · refine hunreserve (isIdentifier_append (isIdentifier_append hbase hseparator) ?_)
    rw [Nat.toList_repr]
    exact fun c => Identifier.isPart_of_mem_toDigits

/-- A raw name that needs no change is the first candidate for itself. -/
theorem base_of_isIdentifier (hraw : isIdentifier raw = true)
    (hreserved : naming.isReserved raw = false) : base naming raw = raw := by
  rw [base, Identifier.ofText_of_isIdentifier hraw, Naming.unreserve, hreserved]
  rfl

/-- The answers to any run of requests are identifiers, if suffix and separator can stand in one. Without a
collision, a raw name that is an identifier already and is not reserved is its own answer. -/
theorem run_isIdentifier (hsuffix : ∀ c ∈ naming.suffix.toList, isPart c = true)
    (hseparator : ∀ c ∈ naming.separator.toList, isPart c = true) (requests : List NameRequest) :
    (∀ answer ∈ (run naming [] requests).1, isIdentifier answer = true) ∧
    List.Forall₂ (fun r answer => ∃ e,
      (run naming [] requests).2.find? r.scope r.space r.key = some e ∧ e.identifier = answer ∧
        (e.collision = 1 → isIdentifier e.raw = true → naming.isReserved e.raw = false →
          answer = e.raw)) requests (run naming [] requests).1 := by
  have hanswers := find?_run naming [] requests
  have hidentifiers : ∀ e ∈ (run naming [] requests).2, isIdentifier e.identifier = true :=
    run_identifiers (Q := fun identifier => isIdentifier identifier = true)
      (isIdentifier_candidate hsuffix hseparator) requests
  have hplain : ∀ e ∈ (run naming [] requests).2, e.collision = 1 → isIdentifier e.raw = true →
      naming.isReserved e.raw = false → e.identifier = e.raw := by
    refine run_entries (fun table raw scope space source hfirst hraw hreserved => ?_) requests
    change candidate naming (base naming raw) (table.newEntry naming raw scope space source).collision = raw
    rw [hfirst]
    exact base_of_isIdentifier hraw hreserved
  refine ⟨fun answer hanswer => ?_, hanswers.imp fun r answer ⟨e, he, hidentifier⟩ => ?_⟩
  · obtain ⟨r, -, e, he, rfl⟩ := Outcome.exists_mem_of_forall₂ hanswers.flip hanswer
    exact hidentifiers e (find?_some he).1
  · exact ⟨e, he, hidentifier, hidentifier ▸ hplain e (find?_some he).1⟩

theorem default_run_isIdentifier : ∃ requests : List NameRequest,
    (run {} [] requests).1 = ["pet", "_9_lives", "class_", "pet_2", "__", "getPetsId"] ∧
      ∀ answer ∈ (run {} [] requests).1, isIdentifier answer = true := by
  let requests : List NameRequest := [.name "pet" .schemaType "" "", .name "9 lives" .schemaType "" "",
    .name "class" .schemaType "" "", .name "pet" .schemaType "" "other", .name "" .schemaType "" "",
    .operation "GET" "/pets/\x7bid\x7d" none ""]
  have hunderscore : ∀ c ∈ "_".toList, isPart c = true := List.all_eq_true.1 (by decide)
  exact ⟨requests, by decide +kernel, (run_isIdentifier hunderscore hunderscore requests).1⟩

end NameTable
end OpenApi
