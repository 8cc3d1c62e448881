import Mathlib.Algebra.Order.Field.Rat
import Mathlib.Algebra.Order.Field.Basic
import Mathlib.Order.WithBot
import OpenApi.Proofs.Schema.Fragment
import OpenApi.Proofs.Schema.Limits

/-!
Bounds as sets of numbers. Where the narrower of two bounds wins, what a merged bound admits is what every
schema admits that is merged, so the order in which they are merged does not matter.
-/
namespace OpenApi

/-- The number line with both ends. -/
abbrev Line := WithBot (WithTop ℚ)

/-- The place of a number on the line. -/
def Magnitude.place? : Magnitude → Option Line
  | .unordered => none
  | .bottom => some ⊥
  | .ratio n d => some (((n / d : ℚ) : WithTop ℚ) : Line)
  | .top => some ((⊤ : WithTop ℚ) : Line)

def Value.number? : Value → Option Line
  | .scalar s => s.magnitude?.bind Magnitude.place?
  | _ => none

namespace Magnitude

variable {x y : Magnitude} {a b : Line}

theorem lt_of_place? (hx : ∀ n d, x = .ratio n d → 0 < d) (hy : ∀ n d, y = .ratio n d → 0 < d)
    (ha : x.place? = some a) (hb : y.place? = some b) : x.lt y = decide (a < b) := by
  cases x with
  | unordered => cases ha
  | bottom =>
    cases ha
    cases y with
    | unordered => cases hb
    | bottom => cases hb; simp [lt]
    | ratio n d => cases hb; simp [lt]
    | top => cases hb; simp [lt]
  | ratio n d =>
    cases ha
    cases y with
    | unordered => cases hb
    | bottom => cases hb; simp [lt]
    | ratio m e =>
      cases hb
      have hd : (0 : ℚ) < d := by exact_mod_cast hx n d rfl
      have he : (0 : ℚ) < e := by exact_mod_cast hy m e rfl
      rw [lt]
      refine decide_eq_decide.2 ?_
      rw [WithBot.coe_lt_coe, WithTop.coe_lt_coe, div_lt_div_iff₀ hd he]
      exact_mod_cast Iff.rfl
    | top =>
      cases hb
      exact (decide_eq_true (WithBot.coe_lt_coe.2 (WithTop.coe_lt_top _))).symm
  | top =>
    cases ha
    cases y with
    | unordered => cases hb
    | bottom => cases hb; simp [lt]
    | ratio n d => cases hb; simp [lt]
    | top => cases hb; simp [lt]

theorem place?_eq_of_eq (hx : ∀ n d, x = .ratio n d → 0 < d) (hy : ∀ n d, y = .ratio n d → 0 < d)
    (h : x.eq y = true) : x.place? = y.place? := by
  cases x with
  | unordered => cases h
  | bottom =>
    cases y with
    | bottom => rfl
    | _ => cases h
  | ratio n d =>
    cases y with
    | ratio m e =>
      have hd : (d : ℚ) ≠ 0 := by exact_mod_cast (hx n d rfl).ne'
      have he : (e : ℚ) ≠ 0 := by exact_mod_cast (hy m e rfl).ne'
      have hcross : (n * e : ℚ) = m * d := by
        rw [Magnitude.eq, beq_iff_eq] at h
        exact_mod_cast h
      rw [place?, place?, (div_eq_div_iff hd he).2 hcross]
    | _ => cases h
  | top =>
    cases y with
    | top => rfl
    | _ => cases h

end Magnitude

theorem Scalar.denominator_pos_of_magnitude? {s : Scalar} {x : Magnitude} (h : s.magnitude? = some x)
    (n : Int) (d : Nat) (hx : x = .ratio n d) : 0 < d := denominator_pos (hx ▸ h)

namespace Value

variable {v w : Value} {a b : Line}

theorem number?_eq_some_iff : v.number? = some a ↔
    ∃ s x, v = .scalar s ∧ s.magnitude? = some x ∧ x.place? = some a := by
  constructor
  · intro h
    cases v with
    | scalar s =>
      obtain ⟨x, hx, ha⟩ := Option.bind_eq_some_iff.1 h
      exact ⟨s, x, rfl, hx, ha⟩
    | _ => cases h
  · rintro ⟨s, x, rfl, hx, ha⟩
    exact Option.bind_eq_some_iff.2 ⟨x, hx, ha⟩

theorem isNull_of_number? (h : v.number? = some a) : v.isNull = false := by
  obtain ⟨s, x, rfl, hx, -⟩ := number?_eq_some_iff.1 h
  cases s with
  | null => cases hx
  | _ => rfl

/-- Numbers come in the order of their places. -/
theorem before_of_number? (hv : v.number? = some a) (hw : w.number? = some b) :
    v.before w = .ok (decide (a < b)) := by
  obtain ⟨s, x, rfl, hx, ha⟩ := number?_eq_some_iff.1 hv
  obtain ⟨t, y, rfl, hy, hb⟩ := number?_eq_some_iff.1 hw
  rw [before]
  unfold scalarBefore
  split
  · cases hx
  · cases hx
  · rw [hx, hy]
    exact congrArg Except.ok (Magnitude.lt_of_place? (Scalar.denominator_pos_of_magnitude? hx)
      (Scalar.denominator_pos_of_magnitude? hy) ha hb)

theorem number?_eq_of_equal (hv : v.number? = some a) (hw : w.number? = some b)
    (h : v.equal w = true) : a = b := by
  have hsame : v.same w = true := by
    unfold equal at h
    split at h
    · cases h
    · exact h
  obtain ⟨s, x, rfl, hx, ha⟩ := number?_eq_some_iff.1 hv
  obtain ⟨t, y, rfl, hy, hb⟩ := number?_eq_some_iff.1 hw
  rw [same, Scalar.same_iff] at hsame
  rcases hsame with rfl | ⟨x', y', hx', hy', heq⟩
  · exact Option.some.inj (hv.symm.trans hw)
  · rw [hx] at hx'
    rw [hy] at hy'
    cases hx'
    cases hy'
    have hplace := Magnitude.place?_eq_of_eq (Scalar.denominator_pos_of_magnitude? hx)
      (Scalar.denominator_pos_of_magnitude? hy) heq
    rw [ha, hb] at hplace
    exact Option.some.inj hplace

end Value

/-! ### What a bound admits -/

/-- Is the limit a bound for a number: the value, its length, or how many items or properties it has? -/
def Limit.isBound : Limit → Bool
  | .multipleOf | .pattern | .uniqueItems => false
  | _ => true

/-- Does the number `x` keep to the bound? -/
def Limit.Admits (l : Limit) (bound x : Line) : Prop :=
  match l with
  | .minimum | .minLength | .minItems | .minProperties => bound ≤ x
  | .exclusiveMinimum => bound < x
  | .maximum | .maxLength | .maxItems | .maxProperties => x ≤ bound
  | .exclusiveMaximum => x < bound
  | .multipleOf | .pattern | .uniqueItems => True

namespace Constraints

/-- The number that is set as a limit. -/
def bound? (cs : Constraints) (l : Limit) : Option Line := (cs.get? l).bind Value.number?

/-- Does the number `x` keep to the bound, if it is set? -/
def Admits (cs : Constraints) (l : Limit) (x : Line) : Prop := ∀ b ∈ cs.bound? l, l.Admits b x

/-- All bounds that are set are numbers. -/
def Numeric (cs : Constraints) : Prop :=
  ∀ l, l.isBound = true → ∀ v, cs.get? l = some v → v.number?.isSome = true

end Constraints

/-- Of two bounds the narrower. -/
def Limit.narrower (l : Limit) (a b : Line) : Line := if l.isLower then max a b else min a b

namespace Limit

variable {l : Limit} {a b : Line}

theorem admits_narrower (hl : l.isBound = true) (a b x : Line) :
    l.Admits (l.narrower a b) x ↔ l.Admits a x ∧ l.Admits b x := by
  cases l with
  | minimum | minLength | minItems | minProperties => exact max_le_iff
  | exclusiveMinimum => exact max_lt_iff
  | maximum | maxLength | maxItems | maxProperties => exact le_min_iff
  | exclusiveMaximum => exact lt_min_iff
  | _ => cases hl

/-- A bound is decided by what it admits. -/
theorem eq_of_admits (hl : l.isBound = true) (h : ∀ x, l.Admits a x ↔ l.Admits b x) : a = b := by
  cases l with
  | minimum | minLength | minItems | minProperties => exact eq_of_forall_ge_iff h
  | exclusiveMinimum => exact eq_of_forall_gt_iff h
  | maximum | maxLength | maxItems | maxProperties => exact eq_of_forall_le_iff h
  | exclusiveMaximum => exact eq_of_forall_lt_iff h
  | _ => cases hl

end Limit

namespace Merge

variable {p : String} {ns ms : List Node} {n m : Node} {l : Limit}

theorem pickLimit_lower (hl : l.isLower = true) {v w : Value} (hequal : v.equal w = false) {less : Bool}
    (hless : v.before w = .ok less) :
    pickLimit .strictestWins l v w = .ok (if less then w else v) := by
  unfold pickLimit
  rw [hequal, hless, if_neg Bool.false_ne_true]
  simp only [beq_self_eq_true, if_true, hl]
  rfl

theorem pickLimit_upper (hl : l.isUpper = true) {v w : Value} (hequal : v.equal w = false) {less : Bool}
    (hless : w.before v = .ok less) :
    pickLimit .strictestWins l v w = .ok (if less then w else v) := by
  have hlower : l.isLower = false := by
    cases l with
    | maximum | exclusiveMaximum | maxLength | maxItems | maxProperties => rfl
    | _ => cases hl
  unfold pickLimit
  rw [hequal, hless, if_neg Bool.false_ne_true]
  simp only [beq_self_eq_true, if_true, hl, hlower, if_neg Bool.false_ne_true]
  rfl

theorem pickLimit_strictestWins (hl : l.isBound = true) {v w : Value} {a b : Line}
    (hv : v.number? = some a) (hw : w.number? = some b) :
    ∃ u, pickLimit .strictestWins l v w = .ok u ∧ u.number? = some (l.narrower a b) := by
  cases hequal : v.equal w with
  | true =>
    have hab : a = b := Value.number?_eq_of_equal hv hw hequal
    refine ⟨w, by unfold pickLimit; rw [if_pos hequal]; rfl, ?_⟩
    rw [hw, hab, Limit.narrower, max_self, min_self, ite_self]
  | false =>
    rw [Limit.narrower]
    cases hlower : l.isLower with
    | true =>
      refine ⟨_, pickLimit_lower hlower hequal (Value.before_of_number? hv hw), ?_⟩
      rw [if_pos rfl]
      by_cases hlt : a < b
      · rw [decide_eq_true hlt, if_pos rfl, hw, max_eq_right hlt.le]
      · rw [decide_eq_false hlt, if_neg Bool.false_ne_true, hv, max_eq_left (not_lt.1 hlt)]
    | false =>
      have hupper : l.isUpper = true := by
        cases l with
        | maximum | exclusiveMaximum | maxLength | maxItems | maxProperties => rfl
        | multipleOf | pattern | uniqueItems => cases hl
        | _ => cases hlower
      refine ⟨_, pickLimit_upper hupper hequal (Value.before_of_number? hw hv), ?_⟩
      rw [if_neg Bool.false_ne_true]
      by_cases hlt : b < a
      · rw [decide_eq_true hlt, if_pos rfl, hw, min_eq_right hlt.le]
      · rw [decide_eq_false hlt, if_neg Bool.false_ne_true, hv, min_eq_left (not_lt.1 hlt)]

/-- The bound that a first value and further ones are combined into admits what all of them admit. -/
theorem foldlM_pickLimit (hl : l.isBound = true) {v : Value} {a : Line} (hv : v.number? = some a)
    {rest : List Value} (hrest : ∀ w ∈ rest, w.number?.isSome = true) :
    ∃ u b, rest.foldlM (pickLimit .strictestWins l) v = .ok u ∧ u.number? = some b ∧
      ∀ x, l.Admits b x ↔ l.Admits a x ∧ ∀ w ∈ rest, ∀ c ∈ w.number?, l.Admits c x := by
  induction rest generalizing v a with
  | nil => exact ⟨v, a, rfl, hv, by simp⟩
  | cons w rest ih =>
    obtain ⟨hw, hrest⟩ := List.forall_mem_cons.1 hrest
    obtain ⟨c, hc⟩ := Option.isSome_iff_exists.1 hw
    obtain ⟨t, hpick, ht⟩ := pickLimit_strictestWins hl hv hc
    obtain ⟨u, b, hfold, hu, hb⟩ := ih ht hrest
    refine ⟨u, b, ?_, hu, fun x => ?_⟩
    · rw [List.foldlM_cons, hpick]
      exact hfold
    · rw [hb x, Limit.admits_narrower hl, List.forall_mem_cons, and_assoc, hc]
      simp

theorem limit_bound (hns : ∀ f ∈ ns, f.constraints.Numeric) (hl : l.isBound = true) :
    (limit .strictestWins ns l = .ok .null ∧ ∀ f ∈ ns, f.constraints.get? l = none) ∨
    ∃ u b, limit .strictestWins ns l = .ok u ∧ u.number? = some b ∧
      (∃ f ∈ ns, (f.constraints.get? l).isSome = true) ∧
      ∀ x, l.Admits b x ↔ ∀ f ∈ ns, f.constraints.Admits l x := by
  have hset : ∀ v ∈ ns.filterMap fun f => f.constraints.get? l, v.number?.isSome = true := by
    intro v hv
    obtain ⟨f, hf, hget⟩ := List.mem_filterMap.1 hv
    exact hns f hf l hl v hget
  have hadmits : ∀ x, (∀ v ∈ ns.filterMap fun f => f.constraints.get? l, ∀ c ∈ v.number?,
      l.Admits c x) ↔ ∀ f ∈ ns, f.constraints.Admits l x := by
    intro x
    simp only [List.mem_filterMap, Constraints.Admits, Constraints.bound?, Option.mem_def,
      Option.bind_eq_some_iff]
    exact ⟨fun h f hf c ⟨v, hv, hc⟩ => h v ⟨f, hf, hv⟩ c hc,
      fun h v ⟨f, hf, hv⟩ c hc => h f hf c ⟨v, hv, hc⟩⟩
  unfold limit
  cases hvalues : ns.filterMap fun f => f.constraints.get? l with
  | nil => exact .inl ⟨rfl, List.filterMap_eq_nil_iff.1 hvalues⟩
  | cons v rest =>
    rw [hvalues] at hset hadmits
    obtain ⟨hv, hrest⟩ := List.forall_mem_cons.1 hset
    obtain ⟨a, ha⟩ := Option.isSome_iff_exists.1 hv
    obtain ⟨u, b, hfold, hu, hb⟩ := foldlM_pickLimit hl ha hrest
    obtain ⟨f, hf, hget⟩ := List.mem_filterMap.1 (hvalues ▸ List.mem_cons_self)
    refine .inr ⟨u, b, hfold, hu, ⟨f, hf, by rw [hget]; rfl⟩, fun x => ?_⟩
    rw [hb x, ← hadmits x, List.forall_mem_cons, ha]
    simp

theorem pickLimit_of_not_isBound (hl : l.isBound = false) (v w : Value) :
    pickLimit .strictestWins l v w = .ok w := by
  unfold pickLimit
  cases l with
  | multipleOf | pattern | uniqueItems => split <;> rfl
  | _ => cases hl

theorem exists_constraints (hns : ∀ f ∈ ns, f.constraints.Numeric) :
    ∃ cs, constraints .strictestWins ns = .ok cs := by
  have hlimit : ∀ l, ∃ v, limit .strictestWins ns l = .ok v := by
    intro l
    cases hl : l.isBound with
    | false => exact ⟨_, combine_last (pickLimit_of_not_isBound hl) _⟩
    | true =>
      rcases limit_bound hns hl with ⟨hlimit, -⟩ | ⟨u, -, hlimit, -⟩
      · exact ⟨_, hlimit⟩
      · exact ⟨u, hlimit⟩
  choose value hvalue using hlimit
  exact ⟨_, constraints_ok_iff.2 ⟨value, hvalue, rfl⟩⟩

theorem pickType_scalar (a b : Scalar) :
    ∃ c, pickType .strictestWins (.scalar a) (.scalar b) = .ok (.scalar c) := by
  unfold pickType
  split
  · exact ⟨b, rfl⟩
  · rw [if_pos (by rfl)]
    dsimp only
    split
    · exact ⟨.str "integer", rfl⟩
    · exact ⟨b, rfl⟩

theorem exists_combine_pickType {types : List Value} (h : ∀ t ∈ types, ∃ a, t = .scalar a) :
    ∃ t, combine (pickType .strictestWins) types = .ok t := by
  cases types with
  | nil => exact ⟨_, rfl⟩
  | cons t rest =>
    rw [combine]
    induction rest generalizing t with
    | nil => exact ⟨t, rfl⟩
    | cons u rest ih =>
      obtain ⟨⟨a, rfl⟩, ⟨b, rfl⟩, hrest⟩ : (∃ a, t = .scalar a) ∧ (∃ b, u = .scalar b) ∧
        ∀ t ∈ rest, ∃ a, t = .scalar a := by simpa using h
      obtain ⟨c, hc⟩ := pickType_scalar a b
      rw [List.foldlM_cons, hc]
      exact ih (.scalar c) (List.forall_mem_cons.2 ⟨⟨c, rfl⟩, hrest⟩)

/-- How the bounds in `cs` come from those in `ns`. -/
structure Intersects (ns : List Node) (cs : Constraints) : Prop where
  numeric : cs.Numeric
  /-- A bound is set if one of `ns` sets it. -/
  isSome : ∀ l, l.isBound = true →
    ((cs.get? l).isSome = true ↔ ∃ f ∈ ns, (f.constraints.get? l).isSome = true)
  /-- A number keeps to the bound just if it keeps to those of all of `ns`. -/
  admits : ∀ l, l.isBound = true → ∀ x, cs.Admits l x ↔ ∀ f ∈ ns, f.constraints.Admits l x

theorem intersects_constraints (hns : ∀ f ∈ ns, f.constraints.Numeric) {cs : Constraints}
    (h : constraints .strictestWins ns = .ok cs) : Intersects ns cs := by
  obtain ⟨value, hvalue, rfl⟩ := constraints_ok_iff.1 h
  have hbound : ∀ l, l.isBound = true →
      ((Constraints.ofFunction value).get? l = none ∧ ∀ f ∈ ns, f.constraints.get? l = none) ∨
      ∃ u b, (Constraints.ofFunction value).get? l = some u ∧ u.number? = some b ∧
        (∃ f ∈ ns, (f.constraints.get? l).isSome = true) ∧
        ∀ x, l.Admits b x ↔ ∀ f ∈ ns, f.constraints.Admits l x := by
    intro l hl
    rw [Constraints.get?_ofFunction]
    rcases limit_bound hns hl with ⟨hlimit, hnone⟩ | ⟨u, b, hlimit, hu, hsome, hadmits⟩
    · rw [Except.ok.inj ((hvalue l).symm.trans hlimit)]
      exact .inl ⟨rfl, hnone⟩
    · rw [Except.ok.inj ((hvalue l).symm.trans hlimit), Value.isNull_of_number? hu]
      exact .inr ⟨u, b, rfl, hu, hsome, hadmits⟩
  constructor
  case numeric =>
    intro l hl v hv
    rcases hbound l hl with ⟨hget, -⟩ | ⟨u, b, hget, hu, -⟩ <;> rw [hget] at hv <;> cases hv
    rw [hu]
    rfl
  case isSome =>
    intro l hl
    rcases hbound l hl with ⟨hget, hnone⟩ | ⟨u, b, hget, -, hsome, -⟩
    · rw [hget]
      refine iff_of_false Bool.false_ne_true ?_
      rintro ⟨f, hf, hset⟩
      rw [hnone f hf] at hset
      cases hset
    · rw [hget]
      exact iff_of_true rfl hsome
  case admits =>
    intro l hl x
    rcases hbound l hl with ⟨hget, hnone⟩ | ⟨u, b, hget, hu, -, hadmits⟩
    · refine iff_of_true (fun b hb => ?_) fun f hf b hb => ?_
      · rw [Constraints.bound?, hget] at hb
        cases hb
      · rw [Constraints.bound?, hnone f hf] at hb
        cases hb
    · rw [← hadmits x, Constraints.Admits, Constraints.bound?, hget, Option.bind_some, hu]
      simp

/-- The nodes alone decide, not their order. -/
theorem Intersects.bound?_eq {cs ds : Constraints} (hc : Intersects ns cs) (hd : Intersects ms ds)
    (hperm : ms.Perm ns) (hl : l.isBound = true) : ds.bound? l = cs.bound? l := by
  have hsome : (ds.get? l).isSome = true ↔ (cs.get? l).isSome = true := by
    rw [hc.isSome l hl, hd.isSome l hl]
    simp only [hperm.mem_iff]
  have hadmits : ∀ x, ds.Admits l x ↔ cs.Admits l x := by
    intro x
    rw [hc.admits l hl, hd.admits l hl]
    simp only [hperm.mem_iff]
  unfold Constraints.Admits at hadmits
  -- an infinite bound admits as much as none, so whether it is set is compared first
  cases hcs : cs.get? l with
  | none =>
    rw [hcs, Option.isSome_none] at hsome
    have hds : ds.get? l = none := by simpa using hsome
    rw [Constraints.bound?, Constraints.bound?, hcs, hds]
  | some v =>
    obtain ⟨w, hds⟩ := Option.isSome_iff_exists.1 (hsome.2 (by rw [hcs]; rfl))
    obtain ⟨b, hb⟩ := Option.isSome_iff_exists.1 (hc.numeric l hl v hcs)
    obtain ⟨c, hc'⟩ := Option.isSome_iff_exists.1 (hd.numeric l hl w hds)
    have hcsb : cs.bound? l = some b := by rw [Constraints.bound?, hcs, Option.bind_some, hb]
    have hdsc : ds.bound? l = some c := by rw [Constraints.bound?, hds, Option.bind_some, hc']
    rw [hcsb, hdsc] at hadmits ⊢
    exact congrArg some (Limit.eq_of_admits hl fun x => by simpa using hadmits x)

/-- Where the narrower bound wins, merging intersects bounds. It succeeds if bounds are numbers and types
are no collections, and the order of the schemas that are merged does not matter for the bounds. -/
theorem merge_intersects_bounds (p : String) (hns : ∀ f ∈ ns, f.constraints.Numeric) :
    ((∀ f ∈ ns, ∃ type, f.type = .scalar type) → ∃ n, merge .strictestWins p ns = .ok n) ∧
    ∀ n, merge .strictestWins p ns = .ok n → Intersects ns n.constraints ∧
      ∀ ms m, ms.Perm ns → merge .strictestWins p ms = .ok m →
        ∀ l, l.isBound = true → m.constraints.bound? l = n.constraints.bound? l := by
  constructor
  · intro htypes
    have hscalar : ∀ t ∈ (ns.filter (declares .type)).map (·.type), ∃ a, t = .scalar a := by
      intro t ht
      obtain ⟨f, hf, rfl⟩ := List.mem_map.1 ht
      exact htypes f (List.mem_filter.1 hf).1
    obtain ⟨t, ht⟩ := exists_combine_pickType hscalar
    obtain ⟨cs, hcs⟩ := exists_constraints hns
    exact ⟨_, Outcome.bind_ok.2 ⟨t, ht, Outcome.bind_ok.2 ⟨cs, hcs, rfl⟩⟩⟩
  · intro n hn
    obtain ⟨_, cs, -, hcs, rfl⟩ := merge_ok hn
    have hint : Intersects ns cs := intersects_constraints hns hcs
    refine ⟨hint, fun ms m hperm hm l hl => ?_⟩
    obtain ⟨_, ds, -, hds, rfl⟩ := merge_ok hm
    have hnums : ∀ f ∈ ms, f.constraints.Numeric := fun f hf => hns f (hperm.mem_iff.1 hf)
    exact hint.bound?_eq (intersects_constraints hnums hds) hperm hl

/-- The last schema raises the minimum, the one before it lowers the maximum, and an exclusive bound is kept
apart from them. -/
theorem merge_intersects_bounds_three :
    let parts : List Node :=
      [{ id := "#/a", kind := .primitive, constraints := [(.minimum, .int 1), (.maximum, .int 9)] },
       { id := "#/b", kind := .primitive, constraints := [(.maximum, .int 5)] },
       { id := "#/c", kind := .primitive,
         constraints := [(.minimum, .int 3), (.exclusiveMaximum, .int 7)] }]
    ∃ n m, merge .strictestWins "#/d" parts = .ok n ∧
      merge .strictestWins "#/d" parts.reverse = .ok m ∧
      n.constraints = [(.minimum, .int 3), (.maximum, .int 5), (.exclusiveMaximum, .int 7)] ∧
      Intersects parts n.constraints ∧
      ∀ l, l.isBound = true → m.constraints.bound? l = n.constraints.bound? l := by
  intro parts
  have hnumeric : ∀ f ∈ parts, f.constraints.Numeric := by
    intro f hf l hl v hv
    have hints : ∀ f ∈ parts, ∀ e ∈ f.constraints, ∃ k, e.2 = .int k := by
      simp [parts, -Prod.forall]
    obtain ⟨before, after, hcs, -⟩ := List.lookup_eq_some_iff.1 hv
    obtain ⟨k, rfl⟩ := hints f hf (l, v) (by simp [hcs])
    rfl
  have htypes : ∀ f ∈ parts, ∃ type, f.type = .scalar type := by simp [parts]
  have hreverse := (@merge_intersects_bounds parts.reverse "#/d" fun f hf =>
    hnumeric f (List.mem_reverse.1 hf)).1 fun f hf => htypes f (List.mem_reverse.1 hf)
  obtain ⟨hexists, hall⟩ := merge_intersects_bounds "#/d" hnumeric
  obtain ⟨n, hn⟩ := hexists htypes
  obtain ⟨m, hm⟩ := hreverse
  obtain ⟨hint, hperm⟩ := hall n hn
  obtain ⟨_, cs, -, hcs, rfl⟩ := merge_ok hn
  have hvalue : constraints .strictestWins parts =
      .ok [(.minimum, .int 3), (.maximum, .int 5), (.exclusiveMaximum, .int 7)] := by rfl
  exact ⟨_, m, hn, hm, Except.ok.inj (hcs.symm.trans hvalue), hint,
    hperm _ m (List.reverse_perm parts) hm⟩

end Merge
end OpenApi
