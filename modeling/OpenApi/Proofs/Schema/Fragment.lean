import OpenApi.Proofs.Schema.Merge
import OpenApi.Proofs.Schema.Reading

/-!
What a schema says, whatever the places of its parts. The outline of a node is what it says about
values, and its fragment adds what merging goes by besides. Merging depends on nothing else of the nodes
that are merged. One more node in front of them is noticed only where it says something that no other
repeats.
-/
namespace OpenApi

/-- What a schema says about values. A property is given by its name and whether it is required. -/
structure Outline where
  kind : NodeKind
  type : Value
  format : Value
  constraints : Constraints
  nullable : Bool
  default : Option Value
  enum : List Value
  required : List String
  properties : List (Scalar × Bool)
  deprecated : Bool
  readOnly : Bool
  writeOnly : Bool
  sample : Value

/-- What merging goes by: of `items` and `additional` only whether they are there. -/
structure Fragment extends Outline where
  items : Bool
  additional : Bool
  declared : List Attribute

namespace Node

def outline (n : Node) : Outline where
  kind := n.kind
  type := n.type
  format := n.format
  constraints := n.constraints
  nullable := n.nullable
  default := n.default
  enum := n.enum
  required := n.required
  properties := n.properties.map fun p => (p.name, p.required)
  deprecated := n.deprecated
  readOnly := n.readOnly
  writeOnly := n.writeOnly
  sample := n.sample

def fragment (n : Node) : Fragment :=
  { n.outline with
    items := n.items.any fun id => !id.isEmpty
    additional := Merge.isSpecified n.additional
    declared := n.declared }

/-- Is a node a union or an intersection? Such a part keeps a composition from being merged. -/
def isComposed (n : Node) : Bool := n.kind == .union || n.kind == .intersection

end Node

namespace Fragment

def declares (a : Attribute) (f : Fragment) : Bool :=
  f.declared.contains a || (a == .items && f.items)

/-- A fragment that has no say in the kind, type, limits, values and properties of a merge. -/
structure Bare (f : Fragment) : Prop where
  declares : ∀ a ∈ [Attribute.type, .format, .enum, .items, .additional], f.declares a = false
  constraints : f.constraints = []
  required : f.required = []
  properties : f.properties = []

/-- A fragment that says nothing of what it does not spell out. -/
structure Explicit (f : Fragment) : Prop where
  nullable : f.declares .nullable = false → f.nullable = false
  deprecated : f.declares .deprecated = false → f.deprecated = false
  readOnly : f.declares .readOnly = false → f.readOnly = false
  writeOnly : f.declares .writeOnly = false → f.writeOnly = false
  sample : f.declares .sample = false → f.sample = .null

/-- Some of `fragments` spells an attribute out. -/
def Spelled (a : Attribute) (fragments : List Fragment) : Prop := ∃ f ∈ fragments, f.declares a = true

/-- Of what else a fragment may set, some of `fragments` sets everything again. To spell a default out is
not enough, since it may have been lost. -/
structure Repeated (f : Fragment) (fragments : List Fragment) : Prop where
  default : f.default ≠ none → ∃ g ∈ fragments, g.default ≠ none
  nullable : f.nullable ≠ false → Spelled .nullable fragments
  deprecated : f.deprecated ≠ false → Spelled .deprecated fragments
  readOnly : f.readOnly ≠ false → Spelled .readOnly fragments
  writeOnly : f.writeOnly ≠ false → Spelled .writeOnly fragments
  sample : f.sample ≠ .null → Spelled .sample fragments

end Fragment

namespace Merge

variable {policy : MergePolicy} {p q : String} {x : Node} {ns ms : List Node} {a : Attribute}

/-- What the last node that spells an attribute out says of it. -/
def settled {β : Type} (ns : List Node) (a : Attribute) (get : Node → β) (blank : β) : β :=
  ((lastDeclaring? ns a).map get).getD blank

/-- The node that merging comes to, with its type and limits. -/
def assembled (pointer : String) (ns : List Node) (type : Value) (constraints : Constraints) : Node :=
  let properties := properties ns
  let items := (lastDeclaring? ns .items).bind (·.items)
  let additional := settled ns .additional (·.additional) .unspecified
  let enum := settled ns .enum (·.enum) []
  let kind := kind type properties items additional enum
  { id := pointer
    kind, constraints, properties, items, additional, enum
    type := if kind == .object then .str "object" else type
    format := settled ns .format (·.format) .null
    nullable := settled ns .nullable (·.nullable) false
    default := default? ns
    required := required ns
    title := settled ns .title (·.title) .null
    description := settled ns .description (·.description) .null
    sample := settled ns .sample (·.sample) .null
    deprecated := settled ns .deprecated (·.deprecated) false
    readOnly := settled ns .readOnly (·.readOnly) false
    writeOnly := settled ns .writeOnly (·.writeOnly) false
    declared := Attribute.all.filter fun a => ns.any (declares a) }

theorem merge_ok {n : Node} (h : merge policy p ns = .ok n) :
    ∃ t cs, type policy ns = .ok t ∧ constraints policy ns = .ok cs ∧ n = assembled p ns t cs := by
  obtain ⟨t, ht, h⟩ := Outcome.bind_ok.1 h
  obtain ⟨cs, hcs, h⟩ := Outcome.bind_ok.1 h
  exact ⟨t, cs, ht, hcs, (Outcome.pure_ok.1 h).symm⟩

/-! ### Lists of nodes with the same fragments -/

theorem declares_eq (a : Attribute) (n : Node) : declares a n = n.fragment.declares a := rfl

theorem filter_declares (a : Attribute) (ns : List Node) :
    (ns.filter (declares a)).map Node.fragment =
      (ns.map Node.fragment).filter (Fragment.declares a) := by
  rw [List.filter_map]
  rfl

section
variable (h : ns.map Node.fragment = ms.map Node.fragment)
include h

theorem settled_congr {β : Type} (a : Attribute) (get : Fragment → β) (blank : β) :
    settled ns a (fun n => get n.fragment) blank = settled ms a (fun n => get n.fragment) blank := by
  have hlast : (lastDeclaring? ns a).map Node.fragment = (lastDeclaring? ms a).map Node.fragment := by
    unfold lastDeclaring?
    rw [← List.getLast?_map, ← List.getLast?_map, filter_declares, filter_declares, h]
  have hget := congrArg (Option.map get) hlast
  rw [Option.map_map, Option.map_map] at hget
  exact congrArg (·.getD blank) hget

theorem any_congr (g : Fragment → Bool) :
    (ns.any fun n => g n.fragment) = ms.any fun n => g n.fragment := by
  have hany : (ns.map Node.fragment).any g = (ms.map Node.fragment).any g := by rw [h]
  rwa [List.any_map, List.any_map] at hany

theorem flatMap_congr {β : Type} (g : Fragment → List β) :
    (ns.flatMap fun n => g n.fragment) = ms.flatMap fun n => g n.fragment := by
  have hflat : (ns.map Node.fragment).flatMap g = (ms.map Node.fragment).flatMap g := by rw [h]
  rwa [List.flatMap_map, List.flatMap_map] at hflat

theorem type_congr : type policy ns = type policy ms := by
  have hall : ∀ ks : List Node, (ks.filter (declares .type)).map (·.type) =
      ((ks.map Node.fragment).filter (Fragment.declares .type)).map (·.type) := by
    intro ks
    rw [← filter_declares, List.map_map]
    rfl
  unfold type
  rw [hall, hall, h]

theorem constraints_congr : constraints policy ns = constraints policy ms := by
  have hlimit : ∀ l, limit policy ns l = limit policy ms l := by
    intro l
    have hget := congrArg (List.filterMap fun f : Fragment => f.constraints.get? l) h
    rw [List.filterMap_map, List.filterMap_map] at hget
    exact congrArg (combine (pickLimit policy l)) hget
  unfold constraints
  rw [funext hlimit]

end

/-- Puts a name in; the same name gives way but keeps its place. -/
def insertName (names : List Scalar) (name : Scalar) : List Scalar :=
  match names with
  | [] => [name]
  | other :: rest => if other.same name then name :: rest else other :: insertName rest name

theorem map_name_insertProperty (props : List Property) (prop : Property) :
    (insertProperty props prop).map (·.name) = insertName (props.map (·.name)) prop.name := by
  induction props with
  | nil => rfl
  | cons other rest ih =>
    rw [insertProperty, List.map_cons, insertName]
    split
    · rfl
    · rw [List.map_cons, ih]

theorem map_name_foldl_insertProperty (props acc : List Property) :
    (props.foldl insertProperty acc).map (·.name) =
      (props.map (·.name)).foldl insertName (acc.map (·.name)) := by
  induction props generalizing acc with
  | nil => rfl
  | cons prop rest ih =>
    rw [List.foldl_cons, ih, map_name_insertProperty]
    rfl

/-- The names of the properties that merging comes to, each with whether it is required. -/
theorem map_properties (ns : List Node) :
    (properties ns).map (fun prop => (prop.name, prop.required)) =
      ((ns.flatMap fun n => n.fragment.properties.map Prod.fst).foldl insertName []).map
        fun name => (name, (required ns).any fun r => name.same (.str r)) := by
  have hnames : ((ns.flatMap (·.properties)).foldl insertProperty []).map (·.name) =
      (ns.flatMap fun n => n.fragment.properties.map Prod.fst).foldl insertName [] := by
    rw [map_name_foldl_insertProperty, List.map_flatMap]
    congr 2
    funext n
    rw [Node.fragment, Node.outline, List.map_map]
    rfl
  rw [← hnames, properties, List.map_map, List.map_map]
  rfl

/-- Two lists of nodes whose merges are of one kind, with the same properties and values. -/
structure SameShape (ns ms : List Node) : Prop where
  required : required ns = required ms
  properties : (properties ns).map (fun prop => (prop.name, prop.required)) =
    (Merge.properties ms).map fun prop => (prop.name, prop.required)
  items : (((lastDeclaring? ns .items).bind (·.items)).any fun id => !id.isEmpty) =
    ((lastDeclaring? ms .items).bind (·.items)).any fun id => !id.isEmpty
  additional : isSpecified (settled ns .additional (·.additional) .unspecified) =
    isSpecified (settled ms .additional (·.additional) .unspecified)
  enum : settled ns .enum (·.enum) [] = settled ms .enum (·.enum) []
  format : settled ns .format (·.format) .null = settled ms .format (·.format) .null

/-- Two lists of nodes whose merges say the same of everything else. -/
structure SameFlags (ns ms : List Node) : Prop where
  default : default? ns = default? ms
  nullable : settled ns .nullable (·.nullable) false = settled ms .nullable (·.nullable) false
  deprecated : settled ns .deprecated (·.deprecated) false =
    settled ms .deprecated (·.deprecated) false
  readOnly : settled ns .readOnly (·.readOnly) false = settled ms .readOnly (·.readOnly) false
  writeOnly : settled ns .writeOnly (·.writeOnly) false = settled ms .writeOnly (·.writeOnly) false
  sample : settled ns .sample (·.sample) .null = settled ms .sample (·.sample) .null

/-- Where the shape is the same, the rest decides. -/
theorem SameShape.outline_eq_iff (h : SameShape ns ms) {t : Value} {cs : Constraints} :
    (assembled p ns t cs).outline = (assembled q ms t cs).outline ↔ SameFlags ns ms := by
  have hempty : (Merge.properties ns).isEmpty = (Merge.properties ms).isEmpty := by
    have hmap := congrArg List.isEmpty h.properties
    rwa [List.isEmpty_map, List.isEmpty_map] at hmap
  have hkind : (assembled p ns t cs).kind = (assembled q ms t cs).kind := by
    dsimp only [assembled]
    unfold kind
    rw [hempty, h.items, h.additional, h.enum]
  constructor
  · intro heq
    exact ⟨congrArg Outline.default heq, congrArg Outline.nullable heq,
      congrArg Outline.deprecated heq, congrArg Outline.readOnly heq,
      congrArg Outline.writeOnly heq, congrArg Outline.sample heq⟩
  · intro hflags
    dsimp only [assembled, Node.outline] at hkind ⊢
    rw [hkind, h.required, h.properties, h.enum, h.format, hflags.default, hflags.nullable,
      hflags.deprecated, hflags.readOnly, hflags.writeOnly, hflags.sample]

/-! ### Merging depends on fragments only -/

section
variable (h : ns.map Node.fragment = ms.map Node.fragment)
include h

theorem sameShape_of_fragments : SameShape ns ms := by
  have hrequired : required ns = required ms := congrArg Assoc.distinct (flatMap_congr h (·.required))
  constructor
  case required => exact hrequired
  case properties =>
    rw [map_properties, map_properties, hrequired, flatMap_congr h fun f => f.properties.map Prod.fst]
  case items =>
    have hall : ∀ ks, (((lastDeclaring? ks .items).bind (·.items)).any fun id => !id.isEmpty) =
        settled ks .items (·.fragment.items) false := by
      intro ks
      unfold settled
      cases lastDeclaring? ks .items <;> rfl
    rw [hall, hall]
    exact settled_congr h .items (·.items) false
  case additional =>
    have hall : ∀ ks, isSpecified (settled ks .additional (·.additional) .unspecified) =
        settled ks .additional (·.fragment.additional) false := by
      intro ks
      unfold settled
      cases lastDeclaring? ks .additional <;> rfl
    rw [hall, hall]
    exact settled_congr h .additional (·.additional) false
  case enum => exact settled_congr h .enum (·.enum) []
  case format => exact settled_congr h .format (·.format) .null

theorem sameFlags_of_fragments : SameFlags ns ms := by
  constructor
  case default =>
    have hlast : ∀ ks, (lastDeclaring? ks .default).bind (·.default) =
        settled ks .default (·.fragment.default) none := by
      intro ks
      unfold settled
      cases lastDeclaring? ks .default <;> rfl
    have hany : (ns.any fun n => n.default.isSome) = ms.any fun n => n.default.isSome :=
      any_congr h (·.default.isSome)
    unfold default?
    rw [hany, hlast, hlast, settled_congr h .default (·.default) none]
  case nullable => exact settled_congr h .nullable (·.nullable) false
  case deprecated => exact settled_congr h .deprecated (·.deprecated) false
  case readOnly => exact settled_congr h .readOnly (·.readOnly) false
  case writeOnly => exact settled_congr h .writeOnly (·.writeOnly) false
  case sample => exact settled_congr h .sample (·.sample) .null

theorem fragment_assembled (t : Value) (cs : Constraints) :
    (assembled p ns t cs).fragment = (assembled q ms t cs).fragment := by
  have hshape := sameShape_of_fragments h
  have houtline : (assembled p ns t cs).outline = (assembled q ms t cs).outline :=
    hshape.outline_eq_iff.2 (sameFlags_of_fragments h)
  have hdeclared : ∀ a, ns.any (declares a) = ms.any (declares a) :=
    fun a => any_congr h (Fragment.declares a)
  unfold Node.fragment
  rw [houtline]
  simp only [assembled, hshape.items, hshape.additional, hdeclared]

theorem fragment_eq_of_merge {n m : Node} (hn : merge policy p ns = .ok n)
    (hm : merge policy q ms = .ok m) : n.fragment = m.fragment := by
  obtain ⟨t, cs, ht, hcs, rfl⟩ := merge_ok hn
  obtain ⟨t', cs', ht', hcs', rfl⟩ := merge_ok hm
  rw [type_congr h] at ht
  rw [constraints_congr h] at hcs
  obtain rfl := Except.ok.inj (ht.symm.trans ht')
  obtain rfl := Except.ok.inj (hcs.symm.trans hcs')
  exact fragment_assembled h t cs

end

/-! ### One more node in front -/

theorem lastDeclaring?_cons (x : Node) (ns : List Node) (a : Attribute) :
    lastDeclaring? (x :: ns) a =
      if declares a x then some ((lastDeclaring? ns a).getD x) else lastDeclaring? ns a := by
  unfold lastDeclaring?
  rw [List.filter_cons]
  split
  · exact List.getLast?_cons
  · rfl

theorem lastDeclaring?_eq_none_iff :
    lastDeclaring? ns a = none ↔ ∀ n ∈ ns, declares a n = false := by
  simp [lastDeclaring?]

theorem settled_cons {β : Type} {get : Node → β} {blank : β}
    (hblank : declares a x = false → get x = blank) :
    settled (x :: ns) a get blank = settled ns a get (get x) := by
  unfold settled
  rw [lastDeclaring?_cons]
  cases hx : declares a x with
  | true => cases lastDeclaring? ns a <;> rfl
  | false =>
    rw [hblank hx]
    rfl

/-- What stands in front is noticed where no other node spells the attribute out. -/
theorem settled_eq_iff {β : Type} {get : Node → β} {front blank : β} :
    settled ns a get front = settled ns a get blank ↔
      (front ≠ blank → Fragment.Spelled a (ns.map Node.fragment)) := by
  have hspelled : Fragment.Spelled a (ns.map Node.fragment) ↔ ∃ n ∈ ns, declares a n = true := by
    simp [Fragment.Spelled, declares_eq]
  rw [hspelled]
  unfold settled
  cases hlast : lastDeclaring? ns a with
  | none =>
    have hnone := lastDeclaring?_eq_none_iff.1 hlast
    constructor
    · exact fun heq hne => absurd heq hne
    · intro himp
      by_contra hne
      obtain ⟨n, hn, hdeclares⟩ := himp hne
      rw [hnone n hn] at hdeclares
      cases hdeclares
  | some n =>
    refine ⟨fun _ _ => ⟨n, mem_of_lastDeclaring hlast, ?_⟩, fun _ => rfl⟩
    exact (List.mem_filter.1 (List.mem_of_getLast? hlast)).2

theorem sameShape_cons (hx : x.fragment.Bare) : SameShape (x :: ns) ns := by
  have hlast : ∀ a ∈ [Attribute.type, .format, .enum, .items, .additional],
      lastDeclaring? (x :: ns) a = lastDeclaring? ns a := by
    intro a ha
    rw [lastDeclaring?_cons, declares_eq, hx.declares a ha]
    rfl
  have hrequired : required (x :: ns) = required ns := by
    unfold required
    rw [List.flatMap_cons, show x.required = [] from hx.required]
    rfl
  constructor
  case required => exact hrequired
  case properties =>
    rw [map_properties, map_properties, hrequired, List.flatMap_cons, hx.properties]
    rfl
  case items => rw [hlast .items (by simp)]
  case additional =>
    unfold settled
    rw [hlast .additional (by simp)]
  case enum =>
    unfold settled
    rw [hlast .enum (by simp)]
  case format =>
    unfold settled
    rw [hlast .format (by simp)]

/-- A default is noticed unless another node has one: a node that spells a default out need not have
it. -/
theorem default?_cons_eq_iff
    (hns : ∀ n ∈ ns, n.default.isSome = true → declares .default n = true) :
    default? (x :: ns) = default? ns ↔ (x.default ≠ none → ∃ n ∈ ns, n.default ≠ none) := by
  unfold default?
  rw [List.any_cons, lastDeclaring?_cons]
  by_cases hany : ∃ n ∈ ns, n.default ≠ none
  · -- the last node that spells a default out is not the one in front
    obtain ⟨n, hn, hdefault⟩ := hany
    have hsome := Option.isSome_iff_ne_none.2 hdefault
    have hnone : lastDeclaring? ns .default ≠ none := by
      intro hlast
      have hfalse := lastDeclaring?_eq_none_iff.1 hlast n hn
      rw [hns n hn hsome] at hfalse
      cases hfalse
    obtain ⟨last, hlast⟩ := Option.ne_none_iff_exists'.1 hnone
    have htrue : (ns.any fun n => n.default.isSome) = true := List.any_eq_true.2 ⟨n, hn, hsome⟩
    rw [hlast, htrue, Bool.or_true, if_pos rfl, if_pos rfl, Option.getD_some, ite_self]
    exact iff_of_true rfl fun _ => ⟨n, hn, hdefault⟩
  · have hfalse : (ns.any fun n => n.default.isSome) = false := by
      rw [List.any_eq_false]
      intro n hn hsome
      exact hany ⟨n, hn, Option.isSome_iff_ne_none.1 hsome⟩
    rw [hfalse, Bool.or_false, if_neg Bool.false_ne_true]
    cases hdefault : x.default with
    | none => exact iff_of_true rfl fun hne => absurd rfl hne
    | some v => exact iff_of_false nofun fun himp => hany (himp nofun)

theorem declares_default_of_merge {n : Node} (hn : merge policy p ns = .ok n)
    (hns : ∀ k ∈ ns, k.default.isSome = true → declares .default k = true)
    (hdefault : n.default.isSome = true) : n.declared.contains .default = true := by
  obtain ⟨t, cs, -, -, rfl⟩ := merge_ok hn
  have hsome : (default? ns).isSome = true := hdefault
  unfold default? at hsome
  split at hsome
  · next hany =>
    obtain ⟨k, hk, hk'⟩ := List.any_eq_true.1 hany
    rw [List.contains_iff_mem]
    exact List.mem_filter.2 ⟨by decide, List.any_eq_true.2 ⟨k, hk, hns k hk hk'⟩⟩
  · cases hsome

theorem sameFlags_cons_iff (hns : ∀ n ∈ ns, n.default.isSome = true → declares .default n = true)
    (hx : x.fragment.Explicit) :
    SameFlags (x :: ns) ns ↔ x.fragment.Repeated (ns.map Node.fragment) := by
  have hdefault : default? (x :: ns) = default? ns ↔
      (x.default ≠ none → ∃ f ∈ ns.map Node.fragment, f.default ≠ none) := by
    rw [default?_cons_eq_iff hns]
    simp [Node.fragment, Node.outline]
  have hsettled : ∀ {β : Type} (a : Attribute) (get : Node → β) (blank : β),
      (declares a x = false → get x = blank) →
        (settled (x :: ns) a get blank = settled ns a get blank ↔
          (get x ≠ blank → Fragment.Spelled a (ns.map Node.fragment))) := by
    intro β a get blank hblank
    rw [settled_cons hblank, settled_eq_iff]
  have hnullable := hsettled .nullable (·.nullable) false hx.nullable
  have hdeprecated := hsettled .deprecated (·.deprecated) false hx.deprecated
  have hreadOnly := hsettled .readOnly (·.readOnly) false hx.readOnly
  have hwriteOnly := hsettled .writeOnly (·.writeOnly) false hx.writeOnly
  have hsample := hsettled .sample (·.sample) .null hx.sample
  constructor
  · intro h
    exact ⟨hdefault.1 h.default, hnullable.1 h.nullable, hdeprecated.1 h.deprecated,
      hreadOnly.1 h.readOnly, hwriteOnly.1 h.writeOnly, hsample.1 h.sample⟩
  · intro h
    exact ⟨hdefault.2 h.default, hnullable.2 h.nullable, hdeprecated.2 h.deprecated,
      hreadOnly.2 h.readOnly, hwriteOnly.2 h.writeOnly, hsample.2 h.sample⟩

/-- Merging with one more node in front. It comes to the same just when others repeat what that node
says. -/
theorem outline_eq_iff_repeated {n m : Node} (hx : x.fragment.Bare) (hexplicit : x.fragment.Explicit)
    (hms : ∀ k ∈ ms, k.default.isSome = true → declares .default k = true)
    (hsame : ns.map Node.fragment = ms.map Node.fragment)
    (hn : merge policy p (x :: ns) = .ok n) (hm : merge policy q ms = .ok m) :
    m.outline = n.outline ↔ x.fragment.Repeated (ms.map Node.fragment) := by
  have hfront : (x :: ns).map Node.fragment = (x :: ms).map Node.fragment := by
    rw [List.map_cons, List.map_cons, hsame]
  obtain ⟨t, cs, ht, hcs, rfl⟩ := merge_ok hn
  obtain ⟨t', cs', ht', hcs', rfl⟩ := merge_ok hm
  have htype : type policy (x :: ms) = type policy ms := by
    unfold type
    rw [List.filter_cons, declares_eq, hx.declares .type (by simp)]
    rfl
  have hconstraints : constraints policy (x :: ms) = constraints policy ms := by
    have hlimit : ∀ l, limit policy (x :: ms) l = limit policy ms l := by
      intro l
      unfold limit
      rw [List.filterMap_cons, show x.constraints = [] from hx.constraints]
      rfl
    unfold constraints
    rw [funext hlimit]
  rw [type_congr hfront, htype] at ht
  rw [constraints_congr hfront, hconstraints] at hcs
  obtain rfl := Except.ok.inj (ht.symm.trans ht')
  obtain rfl := Except.ok.inj (hcs.symm.trans hcs')
  have houtline : (assembled p (x :: ns) t cs).outline = (assembled q (x :: ms) t cs).outline :=
    congrArg Fragment.toOutline (fragment_assembled hfront t cs)
  rw [houtline, eq_comm, (sameShape_cons hx).outline_eq_iff, sameFlags_cons_iff hms hexplicit]

end Merge
end OpenApi
