import Mathlib.Data.List.Perm.Subperm
import OpenApi.Proofs.Value
import OpenApi.Types.Order

/-!
Named types are written down depth first. Where a rank falls from each type to the types it needs, the
order has every name once, and each name behind all that its type needs: no type is found half placed.
-/
namespace OpenApi

namespace NamedTypes
open Assoc (keys)

variable {name : Scalar} {w : Visits}

/-- No two of these names are the same. -/
def Apart (names : List Scalar) : Prop := ∀ a ∈ names, ∀ b ∈ names, a.same b = true → a = b

theorem Apart.any_same {names seen : List Scalar} (h : Apart names) (hseen : ∀ s ∈ seen, s ∈ names)
    (hname : name ∈ names) :
    seen.any (·.same name) = true ↔ name ∈ seen := by
  rw [List.any_eq_true]
  constructor
  · rintro ⟨s, hs, hsame⟩
    rw [← h s (hseen s hs) name hname hsame]
    exact hs
  · intro hmem
    exact ⟨name, hmem, name.same_self⟩

theorem get?_of_mem {types : NamedTypes} (h : Apart (keys types)) (hk : (keys types).Nodup)
    {d : Descriptor} (hd : (name, d) ∈ types) : types.get? name = some d := by
  induction types with
  | nil => cases hd
  | cons e rest ih =>
    obtain ⟨k, d'⟩ := e
    obtain ⟨hnot, hrest⟩ := List.nodup_cons.1 hk
    rw [get?]
    rcases List.mem_cons.1 hd with heq | hd
    · cases heq
      rw [if_pos name.same_self]
    · have hne : ¬ k.same name = true := by
        intro hsame
        have heq := h k (by simp) name (List.mem_cons_of_mem _ (Assoc.mem_keys_of_mem hd)) hsame
        exact hnot (heq ▸ Assoc.mem_keys_of_mem hd)
      rw [if_neg hne]
      exact ih (fun a ha b hb => h a (List.mem_cons_of_mem _ ha) b (List.mem_cons_of_mem _ hb))
        hrest hd

/-- The names that the type of a name needs at once. -/
def needed (types : NamedTypes) (name : Scalar) : List Scalar :=
  ((types.get? name).map (needs types)).getD []

/-- A rank by which every type stands above the types that it needs. -/
structure Ranked (types : NamedTypes) (rank : Scalar → Nat) : Prop where
  apart : Apart (keys types)
  needed_mem : ∀ name ∈ keys types, ∀ r ∈ needed types name, r ∈ keys types
  rank_lt : ∀ name ∈ keys types, ∀ r ∈ needed types name, rank r < rank name

/-! ### Visits -/

/-- Names are entered and done once, and done behind all that they need. -/
structure Placed (types : NamedTypes) (v : Visits) : Prop where
  known : ∀ n ∈ v.entered, n ∈ keys types
  entered_nodup : v.entered.Nodup
  done_entered : ∀ n ∈ v.done, n ∈ v.entered
  done_nodup : v.done.Nodup
  behind : ∀ {before n after}, v.done = before ++ n :: after → ∀ r ∈ needed types n, r ∈ before

/-- A name that was entered and is not done: its type waits for another. -/
def Visits.Open (v : Visits) (n : Scalar) : Prop := n ∈ v.entered ∧ n ∉ v.done

/-- How the visits `w` follow `v`: whatever was open is so still, and nothing else is. -/
structure Follows (v w : Visits) : Prop where
  entered : v.entered <:+ w.entered
  done : ∀ n ∈ v.done, n ∈ w.done
  open_of_open : ∀ n, w.Open n → v.Open n
  done_cases : ∀ n ∈ w.done, n ∈ v.done ∨ n ∉ v.entered

theorem Follows.refl (v : Visits) : Follows v v :=
  ⟨List.suffix_refl _, fun _ => id, fun _ => id, fun _ => .inl⟩

theorem Follows.trans {u v : Visits} (huv : Follows u v) (hvw : Follows v w) : Follows u w where
  entered := huv.entered.trans hvw.entered
  done n hn := hvw.done n (huv.done n hn)
  open_of_open n hn := huv.open_of_open n (hvw.open_of_open n hn)
  done_cases n hn := by
    rcases hvw.done_cases n hn with hn | hn
    · exact huv.done_cases n hn
    · exact .inr fun hu => hn (huv.entered.subset hu)

/-- A name is entered, the names it needs are visited, and it is done. -/
theorem Follows.finish {v : Visits} (hnew : name ∉ v.entered)
    (h : Follows { v with entered := name :: v.entered } w) :
    Follows v { w with done := w.done ++ [name] } where
  entered := (List.suffix_cons name v.entered).trans h.entered
  done n hn := List.mem_append_left _ (h.done n hn)
  open_of_open := by
    rintro n ⟨hn, hnot⟩
    obtain ⟨hnot, hne⟩ := not_or.1 fun hor => hnot (List.mem_append.2 hor)
    have hold := h.open_of_open n ⟨hn, hnot⟩
    refine ⟨(List.mem_cons.1 hold.1).resolve_left ?_, hold.2⟩
    exact fun heq => hne (List.mem_singleton.2 heq)
  done_cases n hn := by
    rcases List.mem_append.1 hn with hn | hn
    · exact (h.done_cases n hn).imp_right fun hnot hin => hnot (List.mem_cons_of_mem _ hin)
    · exact .inr (List.mem_singleton.1 hn ▸ hnew)

variable {types : NamedTypes} {rank : Scalar → Nat} {v : Visits}

theorem Placed.enter (h : Placed types v) (hname : name ∈ keys types) (hnew : name ∉ v.entered) :
    Placed types { v with entered := name :: v.entered } where
  known := List.forall_mem_cons.2 ⟨hname, h.known⟩
  entered_nodup := List.nodup_cons.2 ⟨hnew, h.entered_nodup⟩
  done_entered n hn := List.mem_cons_of_mem _ (h.done_entered n hn)
  done_nodup := h.done_nodup
  behind := h.behind

theorem Placed.finish (h : Placed types v) (hname : name ∈ v.entered) (hopen : name ∉ v.done)
    (hneeded : ∀ r ∈ needed types name, r ∈ v.done) :
    Placed types { v with done := v.done ++ [name] } where
  known := h.known
  entered_nodup := h.entered_nodup
  done_entered n hn := by
    rcases List.mem_append.1 hn with hn | hn
    · exact h.done_entered n hn
    · exact List.mem_singleton.1 hn ▸ hname
  done_nodup := List.nodup_append.2 ⟨h.done_nodup, by simp, fun a ha b hb heq =>
    hopen (List.mem_singleton.1 hb ▸ heq ▸ ha)⟩
  behind {before n after} heq r hr := by
    rcases List.eq_nil_or_concat after with rfl | ⟨after, last, rfl⟩
    · obtain ⟨hbefore, hn⟩ := List.append_inj' heq rfl
      cases hn
      exact hbefore ▸ hneeded r hr
    · have hsplit : v.done ++ [name] = (before ++ n :: after) ++ [last] := by simpa using heq
      exact h.behind (List.append_inj' hsplit rfl).1 r hr

theorem visit_of_not_entered {fuel : Nat} (h : v.entered.any (·.same name) = false) :
    visit types (fuel + 1) v name =
      { (needed types name).foldl (visit types fuel) { v with entered := name :: v.entered } with
        done := ((needed types name).foldl (visit types fuel)
          { v with entered := name :: v.entered }).done ++ [name] } := by
  rw [visit, if_neg (by simp [h])]
  rfl

/-- What a visit must achieve, given that all open names rank above the name that is visited. -/
def Visited (types : NamedTypes) (rank : Scalar → Nat) (fuel : Nat) : Prop :=
  ∀ v name, Placed types v → name ∈ keys types → (∀ o, v.Open o → rank name < rank o) →
    types.length < fuel + v.entered.length →
      Placed types (visit types fuel v name) ∧ Follows v (visit types fuel v name) ∧
        name ∈ (visit types fuel v name).done

theorem Visited.foldl {fuel : Nat} (hvisit : Visited types rank fuel) (names : List Scalar)
    (hv : Placed types v) (hnames : ∀ n ∈ names, n ∈ keys types ∧ ∀ o, v.Open o → rank n < rank o)
    (hfuel : types.length < fuel + v.entered.length) :
    Placed types (names.foldl (visit types fuel) v) ∧
      Follows v (names.foldl (visit types fuel) v) ∧
        ∀ n ∈ names, n ∈ (names.foldl (visit types fuel) v).done := by
  induction names generalizing v with
  | nil => exact ⟨hv, .refl v, nofun⟩
  | cons name rest ih =>
    obtain ⟨⟨hname, hopen⟩, hrest⟩ := List.forall_mem_cons.1 hnames
    obtain ⟨hplaced, hfollows, hdone⟩ := hvisit v name hv hname hopen hfuel
    have hlength := hfollows.entered.length_le
    obtain ⟨hplaced', hfollows', hdone'⟩ := ih hplaced
      (fun n hn => ⟨(hrest n hn).1, fun o ho => (hrest n hn).2 o (hfollows.open_of_open o ho)⟩)
      (by omega)
    exact ⟨hplaced', hfollows.trans hfollows',
      List.forall_mem_cons.2 ⟨hfollows'.done name hdone, hdone'⟩⟩

theorem visited (h : Ranked types rank) (fuel : Nat) : Visited types rank fuel := by
  induction fuel with
  | zero =>
    -- more names would have been entered than there are types
    intro v name hv _ _ hfuel
    have hlength : v.entered.length ≤ (keys types).length :=
      (hv.entered_nodup.subperm hv.known).length_le
    simp [keys] at hlength
    omega
  | succ fuel ih =>
    intro v name hv hname hopen hfuel
    have hentered := h.apart.any_same hv.known hname
    by_cases hin : name ∈ v.entered
    · -- an open name would rank above itself
      have hdone : name ∈ v.done := by
        by_contra hnot
        exact Nat.lt_irrefl _ (hopen name ⟨hin, hnot⟩)
      rw [visit, if_pos (hentered.2 hin)]
      exact ⟨hv, .refl v, hdone⟩
    · -- what the type needs ranks below it, and so below all that is open
      have hneeds : ∀ r ∈ needed types name, r ∈ keys types ∧
          ∀ o, Visits.Open { v with entered := name :: v.entered } o → rank r < rank o := by
        intro r hr
        have hlt := h.rank_lt name hname r hr
        refine ⟨h.needed_mem name hname r hr, fun o ho => ?_⟩
        rcases List.mem_cons.1 ho.1 with rfl | hmem
        · exact hlt
        · exact Nat.lt_trans hlt (hopen o ⟨hmem, ho.2⟩)
      have hlength : types.length < fuel + (name :: v.entered).length := by
        rw [List.length_cons]
        omega
      obtain ⟨hplaced, hfollows, hdone⟩ := ih.foldl _ (hv.enter hname hin) hneeds hlength
      rw [visit_of_not_entered (Bool.eq_false_iff.2 fun hany => hin (hentered.1 hany))]
      refine ⟨hplaced.finish (hfollows.entered.subset (List.mem_cons_self ..)) ?_ hdone,
        hfollows.finish hin, by simp⟩
      intro hdone'
      rcases hfollows.done_cases name hdone' with hdone' | hnot
      · exact hin (hv.done_entered name hdone')
      · exact hnot (List.mem_cons_self ..)

/-! ### The order -/

theorem placed_dependencyOrder (h : Ranked types rank) :
    ∃ v, Placed types v ∧ v.done = dependencyOrder types ∧
      ∀ n ∈ keys types, n ∈ dependencyOrder types := by
  have hempty : Placed types {} :=
    ⟨nofun, List.nodup_nil, nofun, List.nodup_nil, fun heq => by simp at heq⟩
  obtain ⟨hplaced, -, hdone⟩ := (visited h (types.length + 1)).foldl (keys types) hempty
    (fun n hn => ⟨hn, fun o ho => nomatch ho.1⟩) (by simp)
  exact ⟨_, hplaced, rfl, hdone⟩

/-- Every name is listed once. -/
theorem dependencyOrder_perm (h : Ranked types rank) (hk : (keys types).Nodup) :
    (dependencyOrder types).Perm (keys types) := by
  obtain ⟨v, hv, hdone, hall⟩ := placed_dependencyOrder h
  rw [← hdone] at hall ⊢
  rw [List.perm_ext_iff_of_nodup hv.done_nodup hk]
  exact fun n => ⟨fun hn => hv.known n (hv.done_entered n hn), hall n⟩

/-- Every name stands behind those that its type needs. -/
theorem dependencyOrder_behind (h : Ranked types rank) {before after : List Scalar}
    (heq : dependencyOrder types = before ++ name :: after) :
    ∀ r ∈ needed types name, r ∈ before := by
  obtain ⟨v, hv, hdone, -⟩ := placed_dependencyOrder h
  exact hv.behind (hdone.trans heq)

/-! ### Any types -/

/-- What visits add, whatever the types need: names that have types, each of them once, and none that was
entered before. -/
structure Adds (types : NamedTypes) (v w : Visits) : Prop where
  entered : ∀ n ∈ v.entered, n ∈ w.entered
  done : ∃ more, w.done = v.done ++ more ∧ more.Nodup ∧
    ∀ n ∈ more, n ∉ v.entered ∧ n ∈ w.entered ∧ (types.get? n).isSome = true

theorem Adds.refl (v : Visits) : Adds types v v :=
  ⟨fun _ => id, [], (List.append_nil _).symm, List.nodup_nil, nofun⟩

theorem Adds.trans {u v : Visits} (huv : Adds types u v) (hvw : Adds types v w) : Adds types u w := by
  obtain ⟨more, hmore, hnodup, hnew⟩ := huv.done
  obtain ⟨more', hmore', hnodup', hnew'⟩ := hvw.done
  refine ⟨fun n hn => hvw.entered n (huv.entered n hn), more ++ more', ?_, ?_, fun n hn => ?_⟩
  · rw [hmore', hmore, List.append_assoc]
  · -- what was added first was entered by then
    refine List.nodup_append.2 ⟨hnodup, hnodup', fun a ha b hb heq => ?_⟩
    exact (hnew' b hb).1 (heq ▸ (hnew a ha).2.1)
  · rcases List.mem_append.1 hn with hn | hn
    · obtain ⟨hnot, hin, hsome⟩ := hnew n hn
      exact ⟨hnot, hvw.entered n hin, hsome⟩
    · obtain ⟨hnot, hin, hsome⟩ := hnew' n hn
      exact ⟨fun hu => hnot (huv.entered n hu), hin, hsome⟩

theorem Adds.finish (hnew : name ∉ v.entered) (hname : (types.get? name).isSome = true)
    (h : Adds types { v with entered := name :: v.entered } w) :
    Adds types v { w with done := w.done ++ [name] } := by
  obtain ⟨more, hmore, hnodup, hadded⟩ := h.done
  refine ⟨fun n hn => h.entered n (List.mem_cons_of_mem _ hn), more ++ [name], ?_, ?_, fun n hn => ?_⟩
  · rw [hmore, List.append_assoc]
  · refine List.nodup_append.2 ⟨hnodup, by simp, fun a ha b hb heq => ?_⟩
    rw [List.mem_singleton.1 hb] at heq
    exact (hadded a ha).1 (heq ▸ List.mem_cons_self)
  · rcases List.mem_append.1 hn with hn | hn
    · obtain ⟨hnot, hin, hsome⟩ := hadded n hn
      exact ⟨fun hv => hnot (List.mem_cons_of_mem _ hv), hin, hsome⟩
    · rw [List.mem_singleton.1 hn]
      exact ⟨hnew, h.entered name List.mem_cons_self, hname⟩

theorem Adds.foldl {visit : Visits → Scalar → Visits} {names : List Scalar}
    (h : ∀ n ∈ names, ∀ v, Adds types v (visit v n)) (v : Visits) :
    Adds types v (names.foldl visit v) := by
  induction names generalizing v with
  | nil => exact .refl v
  | cons name rest ih =>
    obtain ⟨hname, hrest⟩ := List.forall_mem_cons.1 h
    exact (hname v).trans (ih hrest _)

theorem isSome_of_mem_needed {r : Scalar} (h : r ∈ needed types name) : (types.get? r).isSome = true := by
  unfold needed needs at h
  cases hd : types.get? name with
  | none => simp [hd] at h
  | some d =>
    rw [hd, Option.map_some, Option.getD_some] at h
    obtain ⟨e, -, he⟩ := List.mem_filterMap.1 h
    split at he
    · split at he
      · next hneeded =>
        cases he
        exact (Bool.and_eq_true_iff.1 hneeded).2
      · cases he
    · cases he

theorem visit_adds (hname : (types.get? name).isSome = true) (fuel : Nat) (v : Visits) :
    Adds types v (visit types fuel v name) := by
  induction fuel generalizing v name with
  | zero => exact .refl v
  | succ fuel ih =>
    by_cases hany : v.entered.any (·.same name) = true
    · rw [visit, if_pos hany]
      exact .refl v
    · have hnew : name ∉ v.entered := fun hmem =>
        hany (List.any_eq_true.2 ⟨name, hmem, name.same_self⟩)
      rw [visit_of_not_entered (Bool.eq_false_iff.2 hany)]
      refine Adds.finish hnew hname ?_
      exact .foldl (fun r hr v => ih (isSome_of_mem_needed hr) v) _

theorem get?_eq_find? (types : NamedTypes) (name : Scalar) :
    types.get? name = (types.find? (·.1.same name)).map Prod.snd := by
  induction types with
  | nil => rfl
  | cons e rest ih =>
    rw [get?, List.find?_cons, ih]
    cases e.1.same name <;> rfl

theorem get?_isSome_of_mem_keys (h : name ∈ keys types) : (types.get? name).isSome = true := by
  obtain ⟨e, he, rfl⟩ := List.mem_map.1 h
  rw [get?_eq_find?, Option.isSome_map, List.find?_isSome]
  exact ⟨e, he, e.1.same_self⟩

/-- The order lists no name twice, and no name without a type. -/
theorem dependencyOrder_listed (types : NamedTypes) : (dependencyOrder types).Nodup ∧
    ∀ n ∈ dependencyOrder types, (types.get? n).isSome = true := by
  have hadds : Adds types {} ((keys types).foldl (visit types (types.length + 1)) {}) :=
    .foldl (fun n hn v => visit_adds (get?_isSome_of_mem_keys hn) _ v) _
  obtain ⟨more, hmore, hnodup, hnew⟩ := hadds.done
  have heq : dependencyOrder types = more := hmore
  exact heq ▸ ⟨hnodup, fun n hn => (hnew n hn).2.2⟩

theorem mem_of_get? {d : Descriptor} (h : types.get? name = some d) :
    ∃ k, (k, d) ∈ types ∧ k.same name = true := by
  rw [get?_eq_find?] at h
  obtain ⟨e, he, rfl⟩ := Option.map_eq_some_iff.1 h
  have hsame := List.find?_some he
  exact ⟨e.1, List.mem_of_find?_eq_some he, hsame⟩

end NamedTypes
end OpenApi
