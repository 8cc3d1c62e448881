import OpenApi.Proofs.Wire.Brackets

/-!
Values put into nested mappings. To put a text at the end of a path is to look at what stands on the path,
to read the text, and to put what was read; the order in which values are put at paths that lie apart
changes only the order of keys.
-/
namespace OpenApi

namespace Value

variable {u u' v w : Value} {p q : List String}

/-! ### Putting values -/

/-- The entries of a mapping; nothing else has any. -/
def members : Value → Entries
  | .map entries => entries
  | _ => []

/-- Puts a value at the end of a path through nested mappings, which are begun where there are none. -/
def put : Value → List String → Value → Value
  | _, [], v => v
  | u, key :: rest, v =>
    .map (u.members.insert (.str key) (((u.members.find? (.str key)).getD (.map [])).put rest v))

theorem map_members_put (u v : Value) (hp : p ≠ []) : .map (u.put p v).members = u.put p v := by
  cases p with
  | nil => exact absurd rfl hp
  | cons key rest => rfl

theorem at?_cons (u : Value) (key : String) (rest : List String) :
    u.at? (key :: rest) = (u.members.find? (.str key)).bind (·.at? rest) := by
  cases u <;> rfl

/-- What stands under the first key of a path once a value is put there. -/
theorem find?_members_put (u : Value) (key : String) (rest : List String) (v : Value) (other : Scalar) :
    (u.put (key :: rest) v).members.find? other =
      if other = .str key then some (((u.members.find? (.str key)).getD (.map [])).put rest v)
      else u.members.find? other := by
  rw [put, members, Entries.find?_insert_str]

theorem at?_put_append (u v : Value) (p q : List String) : (u.put p v).at? (p ++ q) = v.at? q := by
  induction p generalizing u with
  | nil => rfl
  | cons key rest ih =>
    rw [List.cons_append, at?_cons, find?_members_put, if_pos rfl]
    exact ih _

theorem at?_put_self (u v : Value) (p : List String) : (u.put p v).at? p = some v := by
  simpa [at?] using at?_put_append u v p []

/-- Above the end of the path there are mappings. -/
theorem at?_put_above (u v : Value) (p : List String) (hq : q ≠ []) :
    ∃ entries, (u.put (p ++ q) v).at? p = some (.map entries) := by
  induction p generalizing u with
  | nil =>
    obtain ⟨key, rest, rfl⟩ := List.exists_cons_of_ne_nil hq
    exact ⟨_, rfl⟩
  | cons key rest ih =>
    rw [List.cons_append, at?_cons, find?_members_put, if_pos rfl]
    exact ih _

/-- Neither of two paths leads through the other's end. -/
def Apart (p q : List String) : Prop := ¬ p <+: q ∧ ¬ q <+: p

theorem Apart.symm (h : Apart p q) : Apart q p := ⟨h.2, h.1⟩

theorem apart_cons_iff {a b : String} : Apart (a :: p) (b :: q) ↔ a ≠ b ∨ Apart p q := by
  simp only [Apart, List.cons_prefix_cons]
  grind

theorem at?_put_apart (u v : Value) (h : Apart p q) : (u.put p v).at? q = u.at? q := by
  induction p generalizing u q with
  | nil => exact absurd List.nil_prefix h.1
  | cons a p ih =>
    cases q with
    | nil => exact absurd List.nil_prefix h.2
    | cons b q =>
      rw [at?_cons, at?_cons, find?_members_put]
      by_cases hab : b = a
      · subst hab
        have hpq : Apart p q := (apart_cons_iff.1 h).resolve_left fun hne => hne rfl
        rw [if_pos rfl, Option.bind_some, ih _ hpq]
        cases hfind : u.members.find? (.str b) with
        | none =>
          -- what is begun is empty
          cases q with
          | nil => exact absurd List.nil_prefix hpq.2
          | cons => rfl
        | some child => rfl
      · rw [if_neg (by simpa using hab)]

/-- A value that is no mapping stands above the end of the path. -/
def Blocked (u : Value) (p : List String) : Prop :=
  ∃ above below w, p = above ++ below ∧ below ≠ [] ∧ u.at? above = some w ∧ ∀ entries, w ≠ .map entries

theorem not_blocked_nil (u : Value) : ¬ u.Blocked [] := by
  rintro ⟨above, below, w, hp, hne, -⟩
  exact hne (List.append_eq_nil_iff.1 hp.symm).2

theorem blocked_cons_iff {target : Entries} {key : String} {rest : List String} :
    (Value.map target).Blocked (key :: rest) ↔
      ∃ child, target.find? (.str key) = some child ∧ child.Blocked rest := by
  constructor
  · rintro ⟨above, below, w, hp, hne, hw, hmap⟩
    cases above with
    | nil => exact absurd (Option.some.inj hw).symm (hmap target)
    | cons k above =>
      obtain ⟨rfl, hrest⟩ := List.cons.inj hp
      obtain ⟨child, hchild, hw⟩ := Option.bind_eq_some_iff.1 hw
      exact ⟨child, hchild, above, below, w, hrest, hne, hw, hmap⟩
  · rintro ⟨child, hchild, above, below, w, rfl, hne, hw, hmap⟩
    exact ⟨key :: above, below, w, rfl, hne, Option.bind_eq_some_iff.2 ⟨child, hchild, hw⟩, hmap⟩

/-- A mapping stands under the first key of a longer path, or is begun there. -/
theorem exists_child {target : Entries} {key : String} {rest : List String} (hrest : rest ≠ [])
    (h : ¬ (Value.map target).Blocked (key :: rest)) :
    ∃ entries, (target.find? (.str key)).getD (.map []) = .map entries ∧
      ¬ (Value.map entries).Blocked rest ∧
      (Value.map target).at? (key :: rest) = (Value.map entries).at? rest := by
  rw [blocked_cons_iff] at h
  cases hfind : target.find? (.str key) with
  | none =>
    obtain ⟨next, rest, rfl⟩ := List.exists_cons_of_ne_nil hrest
    refine ⟨[], rfl, fun hblocked => ?_, by rw [at?, hfind]; rfl⟩
    obtain ⟨child, hchild, -⟩ := blocked_cons_iff.1 hblocked
    cases hchild
  | some child =>
    have hchild : ¬ child.Blocked rest := fun hblocked => h ⟨child, hfind, hblocked⟩
    have hentries : ∃ entries, child = .map entries := by
      by_contra hnot
      exact hchild ⟨[], rest, child, rfl, hrest, rfl, fun entries heq => hnot ⟨entries, heq⟩⟩
    obtain ⟨entries, rfl⟩ := hentries
    exact ⟨entries, rfl, hchild, by rw [at?, hfind]; rfl⟩

/-- A value blocks what leads through the end of its own path and nothing else. -/
theorem Blocked.of_put (h : (u.put p v).Blocked q) (hp : ¬ (p <+: q ∧ p ≠ q)) : u.Blocked q := by
  obtain ⟨above, below, w, rfl, hne, hw, hmap⟩ := h
  have hlonger : p <+: above → False := by
    rintro ⟨more, rfl⟩
    refine hp ⟨by rw [List.append_assoc]; exact List.prefix_append .., fun heq => hne ?_⟩
    rw [List.append_assoc] at heq
    exact (List.append_eq_nil_iff.1 (List.self_eq_append_right.1 heq)).2
  have hshorter : ¬ above <+: p := by
    rintro ⟨more, rfl⟩
    by_cases hmore : more = []
    · exact hlonger ⟨[], by simp [hmore]⟩
    · obtain ⟨entries, hentries⟩ := at?_put_above u v above hmore
      exact hmap entries (Option.some.inj (hw.symm.trans hentries))
  rw [at?_put_apart u v ⟨hlonger, hshorter⟩] at hw
  exact ⟨above, below, w, rfl, hne, hw, hmap⟩

/-! ### The order of keys -/

/-- Equal but for the order of keys. -/
inductive Reordered : Value → Value → Prop
  | refl (v : Value) : Reordered v v
  | map {a b : Entries} (hkeys : ∀ key, (a.find? key).isSome = (b.find? key).isSome)
      (hvalues : ∀ key v w, a.find? key = some v → b.find? key = some w → Reordered v w) :
      Reordered (.map a) (.map b)

theorem optionRel_refl (v? : Option Value) : Option.Rel Reordered v? v? := by
  cases v? with
  | none => exact .none
  | some v => exact .some (.refl v)

theorem isSome_eq_of_rel {v? w? : Option Value} (h : Option.Rel Reordered v? w?) :
    v?.isSome = w?.isSome := by
  cases h <;> rfl

theorem reordered_getD {v? w? : Option Value} (h : Option.Rel Reordered v? w?) (d : Value) :
    Reordered (v?.getD d) (w?.getD d) := by
  cases h with
  | none => exact .refl d
  | some hvw => exact hvw

theorem reordered_map_iff {a b : Entries} : Reordered (.map a) (.map b) ↔
    ∀ key, Option.Rel Reordered (a.find? key) (b.find? key) := by
  constructor
  · intro h key
    cases h with
    | refl => exact optionRel_refl _
    | map hkeys hvalues =>
      have hkey := hkeys key
      cases ha : a.find? key with
      | none =>
        rw [ha] at hkey
        rw [show b.find? key = none by simpa using hkey.symm]
        exact .none
      | some v =>
        rw [ha] at hkey
        obtain ⟨w, hb⟩ := Option.isSome_iff_exists.1 hkey.symm
        rw [hb]
        exact .some (hvalues key v w ha hb)
  · intro h
    refine .map (fun key => isSome_eq_of_rel (h key)) fun key v w hv hw => ?_
    have hrel := h key
    rw [hv, hw] at hrel
    cases hrel with
    | some hvw => exact hvw

theorem reordered_of_members (hu : u = .map u.members) (hv : v = .map v.members)
    (h : ∀ key, Option.Rel Reordered (u.members.find? key) (v.members.find? key)) : Reordered u v := by
  rw [hu, hv]
  exact reordered_map_iff.2 h

namespace Reordered

theorem trans (huv : Reordered u v) (hvw : Reordered v w) : Reordered u w := by
  induction huv generalizing w with
  | refl => exact hvw
  | @map a b hkeys hvalues ih =>
    cases hvw with
    | refl => exact .map hkeys hvalues
    | @map _ c hkeys' hvalues' =>
      refine .map (fun key => (hkeys key).trans (hkeys' key)) fun key v w hv hw => ?_
      obtain ⟨x, hx⟩ := Option.isSome_iff_exists.1 (show (b.find? key).isSome = true by
        rw [← hkeys key, hv]
        rfl)
      exact ih key v x hv hx (hvalues' key x w hx hw)

theorem find?_members (h : Reordered u v) (key : Scalar) :
    Option.Rel Reordered (u.members.find? key) (v.members.find? key) := by
  cases h with
  | refl => exact optionRel_refl _
  | map hkeys hvalues => exact reordered_map_iff.1 (.map hkeys hvalues) key

theorem put (h : Reordered u u') (p : List String) (v : Value) :
    Reordered (u.put p v) (u'.put p v) := by
  induction p generalizing u u' with
  | nil => exact .refl v
  | cons key rest ih =>
    refine reordered_of_members rfl rfl fun other => ?_
    rw [find?_members_put, find?_members_put]
    split
    · exact .some (ih (reordered_getD (h.find?_members (.str key)) _))
    · exact h.find?_members other

end Reordered

/-- Two values that are put at paths that lie apart may be put in either order. -/
theorem reordered_put_put (u v w : Value) (h : Apart p q) :
    Reordered ((u.put p v).put q w) ((u.put q w).put p v) := by
  induction p generalizing u q with
  | nil => exact absurd List.nil_prefix h.1
  | cons a p ih =>
    cases q with
    | nil => exact absurd List.nil_prefix h.2
    | cons b q =>
      refine reordered_of_members rfl rfl fun other => ?_
      simp only [find?_members_put]
      by_cases hab : a = b
      · subst hab
        have hpq : Apart p q := (apart_cons_iff.1 h).resolve_left fun hne => hne rfl
        by_cases hother : other = .str a
        · simp only [if_pos hother, if_true, Option.getD_some]
          exact .some (ih _ hpq)
        · simp only [if_neg hother]
          exact optionRel_refl _
      · have hkeys : Scalar.str a ≠ .str b := by simpa using hab
        rw [if_neg hkeys, if_neg hkeys.symm]
        by_cases hother : other = .str b
        · rw [if_pos hother, if_pos hother, if_neg fun heq => hkeys (heq.symm.trans hother)]
          exact optionRel_refl _
        · rw [if_neg hother, if_neg hother]
          exact optionRel_refl _

/-- Puts values at the ends of their paths, one after the other. -/
def putAll (u : Value) (leaves : List (List String × Value)) : Value :=
  leaves.foldl (fun u leaf => u.put leaf.1 leaf.2) u

theorem Reordered.putAll (h : Reordered u u') (leaves : List (List String × Value)) :
    Reordered (u.putAll leaves) (u'.putAll leaves) := by
  induction leaves generalizing u u' with
  | nil => exact h
  | cons leaf leaves ih => exact ih (h.put leaf.1 leaf.2)

theorem reordered_putAll {leaves leaves' : List (List String × Value)} (hperm : leaves.Perm leaves')
    (hapart : leaves.Pairwise fun a b => Apart a.1 b.1) (u : Value) :
    Reordered (u.putAll leaves) (u.putAll leaves') := by
  induction hperm generalizing u with
  | nil => exact .refl u
  | cons leaf _ ih => exact ih (List.pairwise_cons.1 hapart).2 (u.put leaf.1 leaf.2)
  | swap a b leaves =>
    have hab : Apart b.1 a.1 := (List.pairwise_cons.1 hapart).1 a List.mem_cons_self
    exact (reordered_put_put u b.2 a.2 hab).putAll leaves
  | trans hfirst _ ih ih' =>
    exact (ih hapart u).trans (ih' (hapart.perm hfirst fun hab => hab.symm) u)

end Value

namespace Codec

variable {c : Codec} {d e : Descriptor} {raw : String} {path : List String} {target : Entries}

/-! ### Putting texts -/

/-- What is put at the end of a path where `old` stands: an array takes a value after those it has. -/
def leaf (c : Codec) (raw : String) (d : Descriptor) (old : Option Value) : Checked Value :=
  match d with
  | .array items _ =>
    match old.getD (.list []) with
    | .list found => return .list (found ++ [← c.read raw items])
    | _ => throw .wrongKind
  | d => c.read raw d

/-- What stands at the end of the path matters where it is no list and an array belongs there. -/
theorem leaf_cases (c : Codec) (raw : String) (d : Descriptor) (old : Option Value) :
    (∃ items t v, d = .array items t ∧ old = some v ∧ (∀ vs, v ≠ .list vs) ∧
      c.leaf raw d old = .error .wrongKind) ∨
    ∀ f, c.leaf raw d old = .error f ↔ c.leaf raw d none = .error f := by
  cases d with
  | array items t =>
    cases old with
    | none => exact .inr fun f => Iff.rfl
    | some v =>
      cases v with
      | list vs =>
        refine .inr fun f => ?_
        rw [leaf, leaf]
        cases c.read raw items <;> simp [bind, Except.bind, pure, Except.pure]
      | scalar s => exact .inl ⟨items, t, _, rfl, rfl, by simp, rfl⟩
      | map entries => exact .inl ⟨items, t, _, rfl, rfl, by simp, rfl⟩
  | _ => exact .inr fun f => Iff.rfl

theorem typeAt_cons {key : String} {rest : List String} (h : c.typeAt d (key :: rest) = .ok e) :
    ∃ d' e', c.behind d = .ok d' ∧ c.behind (member d' (.str key)) = .ok e' ∧
      c.typeAt e' rest = .ok e := by
  rw [typeAt] at h
  obtain ⟨d', hd, h⟩ := Outcome.bind_ok.1 h
  obtain ⟨e', he, h⟩ := Outcome.bind_ok.1 h
  exact ⟨d', e', hd, he, h⟩

/-- A text is not put through a value. -/
theorem assign_blocked (htype : c.typeAt d path = .ok e) (h : (Value.map target).Blocked path) :
    ∃ key, c.assign raw path d target = c.fail (.valueAndObject key) := by
  induction path generalizing d target with
  | nil => exact absurd h (Value.not_blocked_nil _)
  | cons key rest ih =>
    obtain ⟨child, hchild, h⟩ := Value.blocked_cons_iff.1 h
    obtain ⟨d', e', hd, he, htype⟩ := typeAt_cons htype
    cases rest with
    | nil => exact absurd h (Value.not_blocked_nil _)
    | cons next rest =>
      rw [assign, Outcome.bind_of_ok hd, Outcome.bind_of_ok he, hchild]
      cases child with
      | map entries =>
        obtain ⟨k, hk⟩ := ih htype h
        refine ⟨k, ?_⟩
        dsimp only [Option.getD_some]
        rw [hk]
        rfl
      | scalar s => exact ⟨key, rfl⟩
      | list vs => exact ⟨key, rfl⟩

/-- A text is read, and what was read is put. -/
theorem assign_clear (hpath : path ≠ []) (htype : c.typeAt d path = .ok e)
    (h : ¬ (Value.map target).Blocked path) : c.assign raw path d target = do
      return ((Value.map target).put path (← c.leaf raw e ((Value.map target).at? path))).members := by
  induction path generalizing d target with
  | nil => exact absurd rfl hpath
  | cons key rest ih =>
    obtain ⟨d', e', hd, he, htype⟩ := typeAt_cons htype
    cases rest with
    | nil =>
      obtain rfl := Except.ok.inj htype
      have hat : (Value.map target).at? [key] = target.find? (.str key) := by
        cases hfind : target.find? (.str key) <;> simp [Value.at?, hfind]
      rw [assign, Outcome.bind_of_ok hd, Outcome.bind_of_ok he, hat]
      cases e' with
      | array items t =>
        dsimp only [leaf]
        cases (target.find? (.str key)).getD (.list []) with
        | list vs => cases c.read raw items <;> rfl
        | scalar s => rfl
        | map entries => rfl
      | _ => rfl
    | cons next rest =>
      obtain ⟨entries, hentries, hclear, hat⟩ := Value.exists_child (List.cons_ne_nil next rest) h
      rw [assign, Outcome.bind_of_ok hd, Outcome.bind_of_ok he, hentries, hat]
      dsimp only
      rw [ih (List.cons_ne_nil next rest) htype hclear]
      cases c.leaf raw e ((Value.map entries).at? (next :: rest)) with
      | error f => rfl
      | ok v =>
        have hput : (Value.map target).put (key :: next :: rest) v =
            .map (target.insert (.str key) (.map ((Value.map entries).put (next :: rest) v).members)) := by
          rw [Value.put, Value.members, hentries, Value.map_members_put _ _ (List.cons_ne_nil next rest)]
        exact congrArg (Except.ok ∘ Value.members) hput.symm

end Codec
end OpenApi
