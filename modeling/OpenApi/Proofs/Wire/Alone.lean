import OpenApi.Proofs.Wire.Placing

/-!
Pairs alone and among others. The pairs of an object in brackets are put one after the other into what was
built so far. A pair whose path lies apart from those of all others is read among them as it is alone; one
that is refused alone is refused among others, unless they fail before it.
-/
namespace OpenApi

open Value (Apart Reordered)

namespace Codec

variable {c : Codec} {α β : Type}
  {x : Checked α} {pair : String × String} {e : Descriptor} {pairs : List (String × String)}
  {found : Option Entries}

/-! ### Outcomes -/

/-- The text is no value of the parameter. -/
def Refused (x : Checked α) : Prop := ∃ name cause, x = .error (.wire name cause)

/-- The text is a value of the parameter, or it is refused. -/
def Decided (x : Checked α) : Prop := (∃ a, x = .ok a) ∨ Refused x

/-- Both texts are refused, or their values are equal but for the order of keys. -/
def Agrees (x y : Checked Value) : Prop :=
  (∃ v w, x = .ok v ∧ y = .ok w ∧ Reordered v w) ∨ Refused x ∧ Refused y

/-- Is the text refused? -/
def refused? : Checked α → Bool
  | .error (.wire _ _) => true
  | _ => false

theorem refused?_iff : refused? x = true ↔ Refused x := by
  constructor
  · intro h
    unfold refused? at h
    split at h
    · exact ⟨_, _, rfl⟩
    · cases h
  · rintro ⟨name, cause, rfl⟩
    rfl

instance (x : Checked α) : Decidable (Refused x) := decidable_of_iff _ refused?_iff

instance (x : Checked α) : Decidable (Decided x) :=
  match x with
  | .ok a => isTrue (.inl ⟨a, rfl⟩)
  | .error f => decidable_of_iff (Refused (.error f : Checked α)) ⟨.inr, fun h => h.resolve_left nofun⟩

theorem not_refused_ok (a : α) : ¬ Refused (.ok a : Checked α) := by
  rintro ⟨name, cause, h⟩
  cases h

theorem refused_fail (cause : WireFault) : Refused (c.fail cause : Checked α) := ⟨c.name, cause, rfl⟩

theorem Decided.refused {f : Fault} (h : Decided x) (hx : x = .error f) :
    Refused (.error f : Checked β) := by
  rcases h with ⟨a, ha⟩ | ⟨name, cause, hwire⟩
  · cases ha.symm.trans hx
  · exact ⟨name, cause, congrArg Except.error (Except.error.inj (hx.symm.trans hwire))⟩

theorem Agrees.decided {x y : Checked Value} (h : Agrees x y) : Decided y := by
  rcases h with ⟨v, w, -, hw, -⟩ | ⟨-, hrefused⟩
  · exact .inl ⟨w, hw⟩
  · exact .inr hrefused

theorem Agrees.refused_iff {x y : Checked Value} (h : Agrees x y) : Refused x ↔ Refused y := by
  rcases h with ⟨v, w, rfl, rfl, -⟩ | ⟨hx, hy⟩
  · exact iff_of_false (not_refused_ok v) (not_refused_ok w)
  · exact iff_of_true hx hy

theorem Refused.bind (h : Refused x) (g : α → Checked β) : Refused (x >>= g) := by
  obtain ⟨name, cause, rfl⟩ := h
  exact ⟨name, cause, rfl⟩

theorem refused_map_iff {g : α → β} : Refused (do return g (← x)) ↔ Refused x := by
  refine ⟨fun h => ?_, fun h => h.bind _⟩
  cases x with
  | error f =>
    obtain ⟨name, cause, h⟩ := h
    cases h
    exact ⟨name, cause, rfl⟩
  | ok a => exact absurd h (not_refused_ok _)

theorem decided_map_iff {g : α → β} : Decided (do return g (← x)) ↔ Decided x := by
  cases x with
  | error f =>
    rw [Decided, Decided, refused_map_iff]
    simp [bind, Except.bind]
  | ok a => exact iff_of_true (.inl ⟨_, rfl⟩) (.inl ⟨_, rfl⟩)

theorem refused_mapM {g : α → Checked β} {xs : List α} (hdecided : ∀ x ∈ xs, Decided (g x))
    (hrefused : ∃ x ∈ xs, Refused (g x)) : Refused (xs.mapM g) := by
  induction xs with
  | nil =>
    obtain ⟨x, hx, -⟩ := hrefused
    cases hx
  | cons x xs ih =>
    obtain ⟨hx, hxs⟩ := List.forall_mem_cons.1 hdecided
    rw [List.mapM_cons]
    rcases hx with ⟨a, ha⟩ | hx
    · rw [Outcome.bind_of_ok ha]
      refine (ih hxs ?_).bind _
      obtain ⟨y, hy, hrefused⟩ := hrefused
      rcases List.mem_cons.1 hy with rfl | hy
      · rw [ha] at hrefused
        exact absurd hrefused (not_refused_ok a)
      · exact ⟨y, hy, hrefused⟩
    · exact hx.bind _

/-! ### One pair -/

/-- The path that the key of a pair spells. -/
def Spells (c : Codec) (pair : String × String) (path : List String) : Prop :=
  c.bracketPath? (plainBrackets pair.1.toList) = .ok (some path)

theorem Spells.unique {p q : List String} (hp : c.Spells pair p) (hq : c.Spells pair q) : p = q :=
  Option.some.inj (Except.ok.inj (hp.symm.trans hq))

/-- The path of a pair, if it has one. -/
def path? (c : Codec) (pair : String × String) : Option (List String) :=
  (c.bracketPath? (plainBrackets pair.1.toList)).toOption.join

theorem mem_path?_iff {path : List String} : path ∈ c.path? pair ↔ c.Spells pair path := by
  rw [path?, Spells]
  cases c.bracketPath? (plainBrackets pair.1.toList) <;> simp [Except.toOption]

/-- Two pairs are for the same path. -/
def SamePath (c : Codec) (a b : String × String) : Prop := ∃ path, c.Spells a path ∧ c.Spells b path

instance (a b : String × String) : Decidable (c.SamePath a b) :=
  decidable_of_iff (∃ path ∈ c.path? a, path ∈ c.path? b) (by simp only [mem_path?_iff, SamePath])

/-- The path of the second pair leads through the end of that of the first. -/
def Through (c : Codec) (a b : String × String) : Prop :=
  ∃ path more, more ≠ [] ∧ c.Spells a path ∧ c.Spells b (path ++ more)

theorem through_iff {a b : String × String} : c.Through a b ↔
    ∃ p ∈ c.path? a, ∃ q ∈ c.path? b, p <+: q ∧ p ≠ q := by
  simp only [mem_path?_iff]
  constructor
  · rintro ⟨path, more, hmore, ha, hb⟩
    exact ⟨path, ha, path ++ more, hb, List.prefix_append path more,
      fun heq => hmore (List.self_eq_append_right.1 heq)⟩
  · rintro ⟨path, ha, _, hb, ⟨more, rfl⟩, hne⟩
    exact ⟨path, more, fun hnil => hne (by rw [hnil, List.append_nil]), ha, hb⟩

instance (a b : String × String) : Decidable (c.Through a b) := decidable_of_iff _ through_iff.symm

theorem Through.ne {a b : String × String} (h : c.Through a b) : a ≠ b := by
  obtain ⟨path, more, hmore, ha, hb⟩ := h
  rintro rfl
  exact hmore (List.self_eq_append_right.1 (ha.unique hb))

/-- Every path leads to some type. -/
def HasTypes (c : Codec) : Prop := ∀ path, ∃ e, c.typeAt c.type path = .ok e

/-- What a pair puts where nothing stands, and the path to it. -/
def leafOf (c : Codec) (pair : String × String) : Checked (Option (List String × Value)) := do
  match ← c.bracketPath? (plainBrackets pair.1.toList) with
  | none => return none
  | some path => return some (path, ← c.leaf pair.2 (← c.typeAt c.type path) none)

/-- A pair is put at a path unless a value stands on the way. -/
structure Owns (c : Codec) (pair : String × String) (path : List String) (e : Descriptor) : Prop where
  spells : c.Spells pair path
  ne_nil : path ≠ []
  type : c.typeAt c.type path = .ok e
  leafOf_eq : c.leafOf pair = do return some (path, ← c.leaf pair.2 e none)
  blocked : ∀ found rest, (Value.map (found.getD [])).Blocked path →
    Refused (c.decodeDeep found (pair :: rest))
  clear : ∀ found rest, ¬ (Value.map (found.getD [])).Blocked path →
    c.decodeDeep found (pair :: rest) = do
      let v ← c.leaf pair.2 e ((Value.map (found.getD [])).at? path)
      c.decodeDeep (some ((Value.map (found.getD [])).put path v).members) rest

theorem Spells.owns {path : List String} (hspells : c.Spells pair path)
    (htype : c.typeAt c.type path = .ok e) : c.Owns pair path e := by
  obtain ⟨key, raw⟩ := pair
  have hpath : path ≠ [] := bracketPath?_ne_nil hspells
  refine ⟨hspells, hpath, htype, ?_, fun found rest h => ?_, fun found rest h => ?_⟩
  · rw [leafOf, Outcome.bind_of_ok hspells]
    dsimp only
    rw [Outcome.bind_of_ok htype]
  · obtain ⟨k, hk⟩ : ∃ k, c.assign raw path c.type (found.getD []) = c.fail (.valueAndObject k) :=
      assign_blocked htype h
    rw [decodeDeep, Outcome.bind_of_ok hspells]
    dsimp only
    rw [hk]
    exact (refused_fail _).bind _
  · rw [decodeDeep, Outcome.bind_of_ok hspells]
    dsimp only
    rw [assign_clear hpath htype h]
    cases c.leaf raw e ((Value.map (found.getD [])).at? path) <;> rfl

/-- What a pair does: its key is malformed or of another parameter, or it is put at a path. -/
inductive Meaning (c : Codec) (pair : String × String) : Prop
  | malformed {f : Fault} (hleaf : c.leafOf pair = .error f)
      (hrun : ∀ found rest, c.decodeDeep found (pair :: rest) = .error f)
  | other (hleaf : c.leafOf pair = .ok none)
      (hrun : ∀ found rest, c.decodeDeep found (pair :: rest) = c.decodeDeep found rest)
  | own {path : List String} {e : Descriptor} (h : c.Owns pair path e)

theorem meaning (htypes : c.HasTypes) (pair : String × String) : c.Meaning pair := by
  obtain ⟨key, raw⟩ := pair
  cases hkey : c.bracketPath? (plainBrackets key.toList) with
  | error f =>
    refine .malformed (f := f) ?_ fun found rest => ?_
    · rw [leafOf, hkey]
      rfl
    · rw [decodeDeep, hkey]
      rfl
  | ok path? =>
    cases path? with
    | none =>
      refine .other ?_ fun found rest => ?_
      · rw [leafOf, hkey]
        rfl
      · rw [decodeDeep, Outcome.bind_of_ok hkey]
    | some path =>
      obtain ⟨e, he⟩ := htypes path
      exact .own (Spells.owns hkey he)

/-- A pair that is read among others is read alone. -/
theorem Owns.leafOf_ok {path : List String} (h : c.Owns pair path e) {old : Option Value} {v : Value}
    (hv : c.leaf pair.2 e old = .ok v) :
    ∃ w, c.leafOf pair = .ok (some (path, w)) := by
  cases hnone : c.leaf pair.2 e none with
  | ok w => exact ⟨w, by rw [h.leafOf_eq, hnone]; rfl⟩
  | error f =>
    rcases c.leaf_cases pair.2 e old with ⟨_, _, _, _, _, _, hwrong⟩ | hsame
    · cases hwrong.symm.trans hv
    · cases ((hsame f).2 hnone).symm.trans hv

/-- A pair that fails among others fails alone, or an array meets something else. -/
theorem Owns.leafOf_error {path : List String} (h : c.Owns pair path e) {old : Option Value} {f : Fault}
    (hf : c.leaf pair.2 e old = .error f) :
    c.leafOf pair = .error f ∨ f = .wrongKind ∧
      ∃ items t v, e = .array items t ∧ old = some v ∧ ∀ vs, v ≠ .list vs := by
  rcases c.leaf_cases pair.2 e old with ⟨items, t, v, he, hold, hlist, hwrong⟩ | hsame
  · exact .inr ⟨Except.error.inj (hf.symm.trans hwrong), items, t, v, he, hold, hlist⟩
  · rw [h.leafOf_eq, (hsame f).1 hf]
    exact .inl rfl

/-! ### Pairs that lie apart -/

/-- What is built from the values of pairs; nothing from none. -/
def gather (found : Option Entries) (leaves : List (List String × Value)) : Value :=
  match found, leaves with
  | none, [] => .null
  | _, _ => (Value.map (found.getD [])).putAll leaves

theorem gather_put (found : Option Entries) {path : List String} (hpath : path ≠ []) (v : Value)
    (leaves : List (List String × Value)) :
    gather (some ((Value.map (found.getD [])).put path v).members) leaves =
      gather found ((path, v) :: leaves) := by
  have hsome : gather (some ((Value.map (found.getD [])).put path v).members) leaves =
      ((Value.map (found.getD [])).put path v).putAll leaves := by
    rw [← Value.map_members_put _ _ hpath]
    rfl
  rw [hsome]
  cases found <;> rfl

/-- Nothing stands at the end of a path or on the way. -/
def Free (u : Value) (path : List String) : Prop := ¬ u.Blocked path ∧ u.at? path = none

theorem free_empty {path : List String} (hpath : path ≠ []) : Free (.map []) path := by
  obtain ⟨key, rest, rfl⟩ := List.exists_cons_of_ne_nil hpath
  refine ⟨fun hblocked => ?_, rfl⟩
  obtain ⟨child, hchild, -⟩ := Value.blocked_cons_iff.1 hblocked
  cases hchild

theorem Free.put {u : Value} {p q : List String} (h : Free u q) (hpq : Apart p q) (v : Value) :
    Free (u.put p v) q :=
  ⟨fun hblocked => h.1 (hblocked.of_put fun hpre => hpq.1 hpre.1),
    (Value.at?_put_apart u v hpq).trans h.2⟩

/-- Pairs with paths that lie apart are read as if each were alone. -/
theorem decodeDeep_apart (htypes : c.HasTypes)
    (hapart : pairs.Pairwise fun a b => ∀ p q, c.Spells a p → c.Spells b q → Apart p q)
    (hfree : ∀ pair ∈ pairs, ∀ path, c.Spells pair path → Free (.map (found.getD [])) path) :
    c.decodeDeep found pairs = do
      return gather found ((← pairs.mapM c.leafOf).filterMap id) := by
  induction pairs generalizing found with
  | nil => cases found <;> rfl
  | cons pair rest ih =>
    obtain ⟨hpair, hapart⟩ := List.pairwise_cons.1 hapart
    obtain ⟨hfirst, hfree⟩ := List.forall_mem_cons.1 hfree
    rw [List.mapM_cons]
    cases c.meaning htypes pair with
    | malformed hleaf hrun =>
      rw [hrun, hleaf]
      rfl
    | other hleaf hrun =>
      rw [hrun, hleaf, ih hapart hfree]
      cases rest.mapM c.leafOf <;> rfl
    | @own path e h =>
      obtain ⟨hopen, hnone⟩ := hfirst path h.spells
      rw [h.clear found rest hopen, hnone, h.leafOf_eq]
      cases c.leaf pair.2 e none with
      | error f => rfl
      | ok v =>
        have hput : ∀ b ∈ rest, ∀ q, c.Spells b q →
            Free (.map ((some ((Value.map (found.getD [])).put path v).members).getD [])) q := by
          intro b hb q hq
          rw [Option.getD_some, Value.map_members_put _ _ h.ne_nil]
          exact (hfree b hb q hq).put (hpair b hb path q h.spells hq) v
        refine (ih hapart hput).trans ?_
        cases rest.mapM c.leafOf with
        | error f => rfl
        | ok leaves => exact congrArg Except.ok (gather_put found h.ne_nil v (leaves.filterMap id))

theorem decodeDeep_single (htypes : c.HasTypes) (pair : String × String) :
    c.decodeDeep none [pair] = do return gather none (← c.leafOf pair).toList := by
  rw [decodeDeep_apart htypes (List.pairwise_singleton ..) ?_, List.mapM_cons, List.mapM_nil]
  · cases c.leafOf pair with
    | error f => rfl
    | ok leaf? => cases leaf? <;> rfl
  · intro b hb path hspells
    exact free_empty (bracketPath?_ne_nil hspells)

theorem spells_of_leafOf (htypes : c.HasTypes) {path : List String} {v : Value}
    (h : c.leafOf pair = .ok (some (path, v))) : c.Spells pair path := by
  cases c.meaning htypes pair with
  | malformed hleaf => cases hleaf.symm.trans h
  | other hleaf => cases hleaf.symm.trans h
  | own howns =>
    rw [howns.leafOf_eq] at h
    obtain ⟨w, -, h⟩ := Outcome.bind_ok.1 h
    cases h
    exact howns.spells

theorem reordered_gather {leaves leaves' : List (List String × Value)} (hperm : leaves.Perm leaves')
    (hapart : leaves.Pairwise fun a b => Apart a.1 b.1) :
    Reordered (gather none leaves) (gather none leaves') := by
  cases leaves with
  | nil =>
    rw [List.nil_perm.1 hperm]
    exact .refl _
  | cons leaf leaves =>
    cases leaves' with
    | nil => cases List.perm_nil.1 hperm
    | cons leaf' leaves' => exact Value.reordered_putAll hperm hapart _

/-- The order of pairs with paths that lie apart is that of keys. -/
theorem agrees_of_apart (htypes : c.HasTypes) {pairs' : List (String × String)}
    (hperm : pairs'.Perm pairs) (hdecided : ∀ pair ∈ pairs, Decided (c.leafOf pair))
    (hapart : pairs.Pairwise fun a b => ∀ p q, c.Spells a p → c.Spells b q → Apart p q) :
    Agrees (c.decodeDeep none pairs) (c.decodeDeep none pairs') := by
  have hfree : ∀ pairs : List (String × String), ∀ pair ∈ pairs, ∀ path, c.Spells pair path →
      Free (.map ((none : Option Entries).getD [])) path :=
    fun _ _ _ _ hspells => free_empty (bracketPath?_ne_nil hspells)
  have hapart' := hapart.perm hperm.symm fun hab p q hp hq => (hab q p hq hp).symm
  rw [decodeDeep_apart htypes hapart (hfree pairs), decodeDeep_apart htypes hapart' (hfree pairs')]
  by_cases hrefused : ∃ pair ∈ pairs, Refused (c.leafOf pair)
  · obtain ⟨pair, hpair, h⟩ := hrefused
    have hdecided' : ∀ pair ∈ pairs', Decided (c.leafOf pair) :=
      fun pair hpair => hdecided pair (hperm.mem_iff.1 hpair)
    exact .inr ⟨(refused_mapM hdecided ⟨pair, hpair, h⟩).bind _,
      (refused_mapM hdecided' ⟨pair, hperm.mem_iff.2 hpair, h⟩).bind _⟩
  · have hread : ∀ pair ∈ pairs, ∃ leaf?, c.leafOf pair = .ok leaf? := fun pair hpair =>
      (hdecided pair hpair).resolve_right fun h => hrefused ⟨pair, hpair, h⟩
    obtain ⟨leaves, hleaves⟩ := Outcome.exists_mapM_ok hread
    have hall := Outcome.mapM_ok.1 hleaves
    obtain ⟨leaves', hall', hperm'⟩ := List.perm_comp_forall₂ hperm hall
    rw [hleaves, Outcome.mapM_ok.2 hall']
    refine .inl ⟨_, _, rfl, rfl, reordered_gather (hperm'.filterMap id).symm ?_⟩
    rw [List.pairwise_filterMap]
    refine Outcome.pairwise_of_forall₂ hall hapart fun hab ha hb x hx y hy => ?_
    cases hx
    cases hy
    exact hab _ _ (spells_of_leafOf htypes ha) (spells_of_leafOf htypes hb)

/-! ### Paths through the end of others -/

/-- An array belongs at the end of the path of a pair. -/
def ForArray (c : Codec) (a : String × String) : Prop :=
  ∃ path items t, c.Spells a path ∧ c.typeAt c.type path = .ok (.array items t)

/-- Where an array belongs that a pair is for, there is nothing or a list. -/
def HoldsLists (c : Codec) (pairs : List (String × String)) (u : Value) : Prop :=
  ∀ a ∈ pairs, ∀ path items t v, c.Spells a path → c.typeAt c.type path = .ok (.array items t) →
    u.at? path = some v → ∃ vs, v = .list vs

theorem HoldsLists.of_assign {rest : List (String × String)} {path : List String}
    {target target' : Entries} (h : c.HoldsLists rest (.map target))
    (hassign : c.assign pair.2 path c.type target = .ok target') (hspells : c.Spells pair path)
    (harrays : ∀ a ∈ rest, c.Through a pair → ¬ c.ForArray a) : c.HoldsLists rest (.map target') := by
  intro a ha p items t v hp htype hv
  rcases at?_of_assign hassign htype hv with hlist | ⟨more, hmore, rfl⟩ | hold
  · exact hlist
  · exact absurd ⟨p, items, t, hp, htype⟩ (harrays a ha ⟨p, more, hmore, hp, hspells⟩)
  · exact h a ha p items t v hp htype hold

/-- A pair that is refused alone is refused among others, unless an array meets an object first. -/
theorem refused_decodeDeep (htypes : c.HasTypes) (hdecided : ∀ pair ∈ pairs, Decided (c.leafOf pair))
    (hrefused : ∃ pair ∈ pairs, Refused (c.leafOf pair))
    (harrays : ∀ a ∈ pairs, ∀ b ∈ pairs, c.Through a b → c.ForArray a → Refused (c.leafOf b))
    (hlists : c.HoldsLists pairs (.map (found.getD []))) :
    Refused (c.decodeDeep found pairs) := by
  induction pairs generalizing found with
  | nil =>
    obtain ⟨pair, hpair, -⟩ := hrefused
    cases hpair
  | cons pair rest ih =>
    have hpair := hdecided pair List.mem_cons_self
    have hread : ∀ {leaf?}, c.leafOf pair = .ok leaf? → ¬ Refused (c.leafOf pair) := fun h hnot =>
      not_refused_ok _ (h ▸ hnot)
    -- a pair that was read is not the one that is refused
    have hlater : ∀ {leaf? found'}, c.leafOf pair = .ok leaf? →
        c.HoldsLists rest (.map (found'.getD [])) → Refused (c.decodeDeep found' rest) := by
      intro leaf? found' hleaf hlists'
      refine ih (fun a ha => hdecided a (List.mem_cons_of_mem _ ha)) ?_
        (fun a ha b hb => harrays a (List.mem_cons_of_mem _ ha) b (List.mem_cons_of_mem _ hb)) hlists'
      obtain ⟨r, hr, h⟩ := hrefused
      rcases List.mem_cons.1 hr with rfl | hr
      · exact absurd h (hread hleaf)
      · exact ⟨r, hr, h⟩
    cases c.meaning htypes pair with
    | malformed hleaf hrun =>
      rw [hrun]
      exact hpair.refused hleaf
    | other hleaf hrun =>
      rw [hrun]
      exact hlater hleaf fun a ha => hlists a (List.mem_cons_of_mem _ ha)
    | @own path e h =>
      by_cases hblocked : (Value.map (found.getD [])).Blocked path
      · exact h.blocked found rest hblocked
      rw [h.clear found rest hblocked]
      cases hv : c.leaf pair.2 e ((Value.map (found.getD [])).at? path) with
      | error f =>
        rcases h.leafOf_error hv with hleaf | ⟨-, items, t, v, rfl, hold, hlist⟩
        · exact hpair.refused hleaf
        · obtain ⟨vs, rfl⟩ := hlists pair List.mem_cons_self path items t v h.spells h.type hold
          exact absurd rfl (hlist vs)
      | ok v =>
        obtain ⟨w, hleaf⟩ := h.leafOf_ok hv
        have hassign : c.assign pair.2 path c.type (found.getD []) =
            .ok ((Value.map (found.getD [])).put path v).members := by
          rw [assign_clear h.ne_nil h.type hblocked, hv]
          rfl
        have hrest : c.HoldsLists rest (.map (found.getD [])) :=
          fun a ha => hlists a (List.mem_cons_of_mem _ ha)
        refine hlater hleaf (hrest.of_assign hassign h.spells fun a ha hthrough harray => ?_)
        exact hread hleaf (harrays a (List.mem_cons_of_mem _ ha) pair List.mem_cons_self hthrough harray)

/-- If no pair leads through the end of an earlier one, none is refused that is not refused alone. -/
theorem not_refused_decodeDeep (htypes : c.HasTypes)
    (hread : ∀ pair ∈ pairs, ∃ leaf?, c.leafOf pair = .ok leaf?)
    (horder : pairs.Pairwise fun a b => ¬ c.Through a b)
    (hclear : ∀ pair ∈ pairs, ∀ path, c.Spells pair path → ¬ (Value.map (found.getD [])).Blocked path) :
    ¬ Refused (c.decodeDeep found pairs) := by
  induction pairs generalizing found with
  | nil => cases found <;> exact not_refused_ok _
  | cons pair rest ih =>
    obtain ⟨⟨leaf?, hleaf⟩, hread⟩ := List.forall_mem_cons.1 hread
    obtain ⟨hfirst, horder⟩ := List.pairwise_cons.1 horder
    obtain ⟨hpair, hclear⟩ := List.forall_mem_cons.1 hclear
    cases c.meaning htypes pair with
    | malformed hnot => cases hnot.symm.trans hleaf
    | other _ hrun =>
      rw [hrun]
      exact ih hread horder hclear
    | @own path e h =>
      rw [h.clear found rest (hpair path h.spells)]
      cases hv : c.leaf pair.2 e ((Value.map (found.getD [])).at? path) with
      | error f =>
        rcases h.leafOf_error hv with hnot | ⟨rfl, -⟩
        · cases hnot.symm.trans hleaf
        · rintro ⟨name, cause, heq⟩
          cases heq
      | ok v =>
        refine ih hread horder fun b hb q hq hblocked => ?_
        rw [Option.getD_some, Value.map_members_put _ _ h.ne_nil] at hblocked
        refine hclear b hb q hq (hblocked.of_put fun hpre => hfirst b hb (through_iff.2 ?_))
        exact ⟨path, mem_path?_iff.2 h.spells, q, mem_path?_iff.2 hq, hpre⟩

end Codec
end OpenApi
