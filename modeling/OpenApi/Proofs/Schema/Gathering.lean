import OpenApi.Proofs.Schema.Fragment
import OpenApi.Proofs.Schema.Limits

/-!
What merging gathers from the schemas that are merged. Properties stand in the order in which their names
first occur, and each is the one of the last schema that defines it. Required names stand in the order of
first occurrence as well. Where the value given last wins, a limit is the one of the last schema that sets
it.
-/
namespace OpenApi

/-! ### In the order of first occurrence -/

theorem Assoc.foldl_distinct_eq {α : Type} [BEq α] [LawfulBEq α] (xs acc : List α) :
    xs.foldl (fun acc x => if acc.contains x then acc else acc ++ [x]) acc =
      acc ++ (xs.filter fun x => !acc.contains x).eraseDups := by
  induction xs generalizing acc with
  | nil => simp
  | cons x rest ih =>
    rw [List.foldl_cons, ih, List.filter_cons]
    cases hx : acc.contains x with
    | true => simp
    | false =>
      -- what is left of `rest` is neither in `acc` nor `x`
      have hrest : (rest.filter fun y => !(acc ++ [x]).contains y) =
          (rest.filter fun y => !acc.contains y).filter fun y => !y == x := by
        rw [List.filter_filter]
        refine List.filter_congr fun y _ => ?_
        rw [List.contains_append, List.contains_cons, List.contains_nil, Bool.or_false, Bool.not_or,
          Bool.and_comm]
      rw [if_neg Bool.false_ne_true, hrest, Bool.not_false, if_pos rfl, List.eraseDups_cons,
        List.append_assoc, List.singleton_append]

theorem Assoc.distinct_eq_eraseDups {α : Type} [BEq α] [LawfulBEq α] (xs : List α) :
    distinct xs = xs.eraseDups := by
  rw [distinct, foldl_distinct_eq]
  simp

namespace Merge

variable {policy : MergePolicy} {p : String} {ns : List Node} {n : Node}

theorem puts_insertName : Assoc.Puts Scalar.same (fun _ name => name) insertName :=
  ⟨fun _ => rfl, fun _ _ _ => rfl⟩

/-- A name that is there keeps its place, as the name that is put in. -/
theorem insertName_of_mem {names firsts : List Scalar} {name : Scalar}
    (h : List.Forall₂ (fun a b => a.same b = true) names firsts)
    (hmem : ∃ first ∈ firsts, name.same first = true) :
    List.Forall₂ (fun a b => a.same b = true) (insertName names name) firsts := by
  induction h with
  | nil =>
    obtain ⟨_, hfirst, -⟩ := hmem
    cases hfirst
  | @cons other first names firsts hsame hrest ih =>
    rw [insertName]
    split
    · next hother => exact .cons (Scalar.same_trans (Scalar.same_symm hother) hsame) hrest
    · next hother =>
      refine .cons hsame (ih ?_)
      obtain ⟨first', hfirst', hname⟩ := hmem
      rcases List.mem_cons.1 hfirst' with rfl | hfirst'
      · exact absurd (Scalar.same_trans hsame (Scalar.same_symm hname)) hother
      · exact ⟨first', hfirst', hname⟩

theorem foldl_insertName (names : List Scalar) {acc firsts : List Scalar}
    (h : List.Forall₂ (fun a b => a.same b = true) acc firsts) :
    List.Forall₂ (fun a b => a.same b = true) (names.foldl insertName acc)
      (firsts ++ (names.filter fun name => firsts.all fun first => !name.same first).eraseDupsBy
        Scalar.same) := by
  induction names generalizing acc firsts with
  | nil => simpa using h
  | cons name rest ih =>
    rw [List.foldl_cons, List.filter_cons]
    by_cases hmem : ∃ first ∈ firsts, name.same first = true
    · have hskip : (firsts.all fun first => !name.same first) = false := by
        obtain ⟨first, hfirst, hsame⟩ := hmem
        exact List.all_eq_false.2 ⟨first, hfirst, by simp [hsame]⟩
      rw [hskip, if_neg Bool.false_ne_true]
      exact ih (insertName_of_mem h hmem)
    · have hnew : ∀ first ∈ firsts, name.same first = false := by
        intro first hfirst
        rw [← Bool.not_eq_true]
        exact fun hsame => hmem ⟨first, hfirst, hsame⟩
      have hkeep : (firsts.all fun first => !name.same first) = true := by simpa using hnew
      have happend : insertName acc name = acc ++ [name] := by
        refine puts_insertName.eq_append fun other hother => ?_
        rw [← Bool.not_eq_true]
        intro hsame
        obtain ⟨first, hfirst, hfirst'⟩ := Outcome.exists_mem_of_forall₂ h hother
        exact hmem ⟨first, hfirst, Scalar.same_trans (Scalar.same_symm hsame) hfirst'⟩
      have hlast : List.Forall₂ (fun a b => a.same b = true) (acc ++ [name]) (firsts ++ [name]) :=
        List.rel_append h (.cons (Scalar.same_self name) .nil)
      have hrest : (rest.filter fun other => (firsts ++ [name]).all fun first => !other.same first) =
          (rest.filter fun other => firsts.all fun first => !other.same first).filter
            fun other => decide (other.same name = false) := by
        rw [List.filter_filter]
        refine List.filter_congr fun other _ => ?_
        simp [Bool.and_comm]
      have hfold := ih hlast
      rw [hrest, List.append_assoc] at hfold
      rw [hkeep, if_pos rfl, happend, List.eraseDupsBy_cons]
      exact hfold

/-! ### The last that defines a property -/

theorem pairwise_insertProperty {props : List Property} {prop : Property}
    (h : props.Pairwise fun a b => a.name.same b.name = false) :
    (insertProperty props prop).Pairwise fun a b => a.name.same b.name = false :=
  puts_insertProperty.pairwise Scalar.same_trans (fun _ => id) h

theorem pairwise_foldl_insertProperty (props : List Property) {acc : List Property}
    (h : acc.Pairwise fun a b => a.name.same b.name = false) :
    (props.foldl insertProperty acc).Pairwise fun a b => a.name.same b.name = false :=
  puts_insertProperty.pairwise_foldl Scalar.same_trans (fun _ => id) props h

/-- Where names differ, a property that is put in leaves those of other names. -/
theorem mem_insertProperty_of_pairwise {props : List Property} {prop q : Property}
    (h : props.Pairwise fun a b => a.name.same b.name = false) (hq : q ∈ insertProperty props prop) :
    q = prop ∨ q ∈ props ∧ prop.name.same q.name = false := by
  induction props with
  | nil => exact .inl (List.mem_singleton.1 hq)
  | cons other rest ih =>
    obtain ⟨hother, hrest⟩ := List.pairwise_cons.1 h
    rw [insertProperty] at hq
    split at hq
    · next hsame =>
      rcases List.mem_cons.1 hq with rfl | hq
      · exact .inl rfl
      · refine .inr ⟨List.mem_cons_of_mem _ hq, ?_⟩
        rw [← Bool.not_eq_true]
        intro hprop
        have hcontra := hother q hq
        rw [Scalar.same_trans hsame hprop] at hcontra
        cases hcontra
    · next hsame =>
      rcases List.mem_cons.1 hq with rfl | hq
      · refine .inr ⟨List.mem_cons_self, ?_⟩
        rw [← Bool.not_eq_true]
        exact fun hprop => hsame (Scalar.same_symm hprop)
      · exact (ih hrest hq).imp_right fun hold => ⟨List.mem_cons_of_mem _ hold.1, hold.2⟩

/-- A property that is left at the end is behind all others of its name. -/
theorem mem_foldl_insertProperty_last {props acc : List Property} {q : Property}
    (h : acc.Pairwise fun a b => a.name.same b.name = false)
    (hq : q ∈ props.foldl insertProperty acc) :
    (q ∈ acc ∧ ∀ r ∈ props, r.name.same q.name = false) ∨
      ∃ before behind, props = before ++ q :: behind ∧ ∀ r ∈ behind, r.name.same q.name = false := by
  induction props generalizing acc with
  | nil => exact .inl ⟨hq, nofun⟩
  | cons prop rest ih =>
    rcases ih (pairwise_insertProperty h) hq with ⟨hmem, hrest⟩ | ⟨before, behind, rfl, hbehind⟩
    · rcases mem_insertProperty_of_pairwise h hmem with rfl | ⟨hold, hprop⟩
      · exact .inr ⟨[], rest, rfl, hrest⟩
      · exact .inl ⟨hold, List.forall_mem_cons.2 ⟨hprop, hrest⟩⟩
    · exact .inr ⟨prop :: before, behind, rfl, hbehind⟩

/-- A place in the properties of several nodes is a place in the properties of one of them. -/
theorem exists_split_of_flatMap {before behind : List Property} {q : Property}
    (h : ns.flatMap (·.properties) = before ++ q :: behind) :
    ∃ earlier f later, ns = earlier ++ f :: later ∧ q ∈ f.properties ∧
      ∀ g ∈ later, ∀ r ∈ g.properties, r ∈ behind := by
  induction ns generalizing before with
  | nil => simp at h
  | cons f rest ih =>
    rw [List.flatMap_cons, List.append_eq_append_iff] at h
    -- `q` stands behind the properties of `f`, or among them
    have hrest : ∀ {before}, rest.flatMap (·.properties) = before ++ q :: behind →
        ∃ earlier g later, f :: rest = earlier ++ g :: later ∧ q ∈ g.properties ∧
          ∀ g ∈ later, ∀ r ∈ g.properties, r ∈ behind := by
      intro before hsplit
      obtain ⟨earlier, g, later, rfl, hg, hlater⟩ := ih hsplit
      exact ⟨f :: earlier, g, later, rfl, hg, hlater⟩
    rcases h with ⟨between, -, hsplit⟩ | ⟨tail, hf, htail⟩
    · exact hrest hsplit
    · rcases List.cons_eq_append_iff.1 htail with ⟨-, hsplit⟩ | ⟨others, rfl, rfl⟩
      · exact hrest (show _ = [] ++ q :: behind from hsplit)
      · refine ⟨[], f, rest, rfl, by simp [hf], fun g hg r hr => ?_⟩
        exact List.mem_append_right _ (List.mem_flatMap.2 ⟨g, hg, hr⟩)

/-! ### What merging gathers -/

/-- How the properties and the required names of `n` come from `ns`. -/
structure Gathers (ns : List Node) (n : Node) : Prop where
  /-- Names stand in the order of first occurrence, each once. -/
  names : List.Forall₂ (fun q name => q.name.same name = true) n.properties
    ((ns.flatMap fun f => f.properties.map (·.name)).eraseDupsBy Scalar.same)
  /-- A property is the one of the last node that defines its name. -/
  node : ∀ q ∈ n.properties, ∃ earlier f later, ns = earlier ++ f :: later ∧
    (∃ r ∈ f.properties, r.name = q.name ∧ r.node = q.node) ∧
    ∀ g ∈ later, ∀ r ∈ g.properties, r.name.same q.name = false
  required : n.required = (ns.flatMap (·.required)).eraseDups
  flag : ∀ q ∈ n.properties, q.required = true ↔ ∃ name ∈ n.required, q.name = .str name

theorem gathers_assembled (type : Value) (constraints : Constraints) :
    Gathers ns (assembled p ns type constraints) := by
  have hrequired : (assembled p ns type constraints).required = required ns := rfl
  have hproperties : (assembled p ns type constraints).properties = properties ns := rfl
  constructor
  case names =>
    have hnames := foldl_insertName (ns.flatMap fun f => f.properties.map (·.name)) .nil
    have hkeep : ((ns.flatMap fun f => f.properties.map (·.name)).filter fun name =>
        ([] : List Scalar).all fun first => !name.same first) =
          ns.flatMap fun f => f.properties.map (·.name) := List.filter_eq_self.2 fun _ _ => rfl
    have hmap := map_name_foldl_insertProperty (ns.flatMap (·.properties)) []
    rw [List.map_flatMap, List.map_nil] at hmap
    rw [hkeep, List.nil_append, ← hmap, List.forall₂_map_left_iff] at hnames
    rw [hproperties, properties, List.forall₂_map_left_iff]
    exact hnames
  case node =>
    intro q hq
    obtain ⟨r, hr, rfl⟩ := List.mem_map.1 (hproperties ▸ hq)
    rcases mem_foldl_insertProperty_last .nil hr with ⟨hnil, -⟩ | ⟨before, behind, hsplit, hbehind⟩
    · cases hnil
    · obtain ⟨earlier, f, later, hns, hf, hlater⟩ := exists_split_of_flatMap hsplit
      exact ⟨earlier, f, later, hns, ⟨r, hf, rfl, rfl⟩, fun g hg s hs => hbehind s (hlater g hg s hs)⟩
  case required =>
    rw [hrequired, required, Assoc.distinct_eq_eraseDups]
  case flag =>
    intro q hq
    obtain ⟨r, -, rfl⟩ := List.mem_map.1 (hproperties ▸ hq)
    rw [hrequired]
    simp only [List.any_eq_true, Scalar.same_str_iff]

/-! ### The value given last -/

theorem pickLimit_lastWins (l : Limit) (v w : Value) : pickLimit .lastWins l v w = .ok w := by
  unfold pickLimit
  split <;> rfl

theorem pickType_lastWins (v w : Value) : pickType .lastWins v w = .ok w := by
  unfold pickType
  split <;> rfl

theorem limit_lastWins (ns : List Node) (l : Limit) : limit .lastWins ns l =
    .ok ((ns.reverse.findSome? fun f => f.constraints.get? l).getD .null) := by
  rw [limit, combine_last (pickLimit_lastWins l), List.getLast?_filterMap]

theorem get?_constraints_lastWins {cs : Constraints} (hns : ∀ f ∈ ns, f.constraints.Normal)
    (h : constraints .lastWins ns = .ok cs) (l : Limit) :
    cs.get? l = ns.reverse.findSome? fun f => f.constraints.get? l := by
  obtain ⟨value, hvalue, rfl⟩ := constraints_ok_iff.1 h
  have hlast : value l = (ns.reverse.findSome? fun f => f.constraints.get? l).getD .null :=
    Except.ok.inj ((hvalue l).symm.trans (limit_lastWins ns l))
  rw [Constraints.get?_ofFunction, hlast]
  cases hfind : ns.reverse.findSome? fun f => f.constraints.get? l with
  | none => rfl
  | some v =>
    obtain ⟨f, hf, hv⟩ := List.exists_of_findSome?_eq_some hfind
    have hnull := (hns f (List.mem_reverse.1 hf)).isNull_eq_false hv
    rw [Option.getD_some, hnull]
    rfl

/-- What merging makes of the properties, the required names and, where the value given last wins, the
limits of the schemas that are merged. By that policy it always succeeds. -/
theorem merge_gathers (policy : MergePolicy) (p : String) (hns : ∀ f ∈ ns, f.constraints.Normal) :
    (∀ n, merge policy p ns = .ok n → Gathers ns n ∧ (policy = .lastWins →
      ∀ l, n.constraints.get? l = ns.reverse.findSome? fun f => f.constraints.get? l)) ∧
    (policy = .lastWins → ∃ n, merge policy p ns = .ok n) := by
  constructor
  · intro n h
    obtain ⟨type, cs, -, hcs, rfl⟩ := merge_ok h
    refine ⟨gathers_assembled type cs, ?_⟩
    rintro rfl
    exact get?_constraints_lastWins hns hcs
  · rintro rfl
    have htype := combine_last pickType_lastWins ((ns.filter (declares .type)).map (·.type))
    have hcs : constraints .lastWins ns = .ok _ :=
      constraints_ok_iff.2 ⟨_, fun l => limit_lastWins ns l, rfl⟩
    exact ⟨_, Outcome.bind_ok.2 ⟨_, htype, Outcome.bind_ok.2 ⟨_, hcs, rfl⟩⟩⟩

/-- The second schema defines `id` anew, which keeps its place, and requires the `name` of the first. -/
theorem merge_gathers_redefined :
    let parts : List Node :=
      [{ id := "#/a", kind := .object, required := ["id"], constraints := [(.maxProperties, .int 9)],
         properties := [⟨.str "id", "#/a/id", true⟩, ⟨.str "name", "#/a/name", false⟩] },
       { id := "#/b", kind := .object, required := ["name", "id"],
         constraints := [(.maxProperties, .int 12)], properties := [⟨.str "id", "#/b/id", true⟩] }]
    ∃ n, merge .lastWins "#/c" parts = .ok n ∧ Gathers parts n ∧
      n.properties = [⟨.str "id", "#/b/id", true⟩, ⟨.str "name", "#/a/name", true⟩] ∧
      n.required = ["id", "name"] ∧ n.constraints.get? .maxProperties = some (.int 12) := by
  intro parts
  have hnormal : ∀ f ∈ parts, f.constraints.Normal := by
    refine List.forall_mem_cons.2 ⟨?_, List.forall_mem_cons.2 ⟨?_, List.forall_mem_nil _⟩⟩
    · exact ⟨fun | .maxProperties => .int 9 | _ => .null, rfl⟩
    · exact ⟨fun | .maxProperties => .int 12 | _ => .null, rfl⟩
  have hmerge := merge_gathers .lastWins "#/c" hnormal
  obtain ⟨n, hn⟩ := hmerge.2 rfl
  obtain ⟨hgathers, hlimits⟩ := hmerge.1 n hn
  obtain ⟨_, _, -, -, rfl⟩ := merge_ok hn
  exact ⟨_, hn, hgathers, rfl, rfl, hlimits rfl .maxProperties⟩

end Merge
end OpenApi
