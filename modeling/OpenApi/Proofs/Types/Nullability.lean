import OpenApi.Proofs.Types.References
import OpenApi.Proofs.Types.Totality

/-!
Null among the values of a field. A schema takes null if it says so, is the type of null, refers to a
schema that takes null, or has an alternative that does. A field is told nullable if null is in plain
sight: along the references from its schema, or as an alternative of the union that they end at. An
alternative that takes null besides other values is passed over.
-/
namespace OpenApi
namespace SchemaTable

/-- A schema takes null: the least relation that holds where a schema says so or is the type of null,
and goes from the target of a reference and from a member of a union to the whole. -/
inductive AdmitsNull (table : SchemaTable) : String → Prop
  | nullable {id : String} {n : Node} (hn : (id, n) ∈ table.nodes) (h : n.nullable = true) :
      AdmitsNull table id
  | null {id : String} {n : Node} (hn : (id, n) ∈ table.nodes) (h : Mapper.isNullNode n = true) :
      AdmitsNull table id
  | target {id target : String} {n : Node} (hn : (id, n) ∈ table.nodes)
      (hkind : n.kind = .reference ∨ n.kind = .recursive) (ht : n.target = some target)
      (h : AdmitsNull table target) : AdmitsNull table id
  | member {id member : String} {n : Node} (hn : (id, n) ∈ table.nodes) (hkind : n.kind = .union)
      (hmember : member ∈ n.members) (h : AdmitsNull table member) : AdmitsNull table id

/-- A node that stands at an id, or that references lead to from there. -/
inductive Behind (table : SchemaTable) : String → Node → Prop
  | here {id : String} {n : Node} (hn : (id, n) ∈ table.nodes) : Behind table id n
  | next {id target : String} {n c : Node} (hn : (id, n) ∈ table.nodes) (ht : n.target = some target)
      (h : Behind table target c) : Behind table id c

/-- References lead to the type of null. -/
def StandsForNull (table : SchemaTable) (id : String) : Prop :=
  ∃ n, table.Behind id n ∧ Mapper.isNullNode n = true

/-- Null is in plain sight: references lead to a schema that says so, to the type of null, or to a
union with an alternative that stands for null. -/
def ShowsNull (table : SchemaTable) (id : String) : Prop :=
  ∃ n, table.Behind id n ∧ (n.nullable = true ∨ Mapper.isNullNode n = true ∨
    n.kind = .union ∧ ∃ member ∈ n.members, table.StandsForNull member)

variable {table : SchemaTable} {id : String} {n c : Node} {steps : Nat}

/-- References and markers have targets, and no other nodes do. -/
def Targeted (table : SchemaTable) : Prop :=
  ∀ {id n}, (id, n) ∈ table.nodes →
    (n.target.isSome = true ↔ n.kind = .reference ∨ n.kind = .recursive)

theorem targeted_of_completed {setting : Resolve.Setting} {a : Resolve.Arena}
    (h : Resolve.Completed setting a table) : table.Targeted :=
  fun hn => (h.sound.origin (h.nodes ▸ hn)).target_isSome_iff

/-- What holds of a node behind references holds of where they start. -/
theorem AdmitsNull.of_behind (htarget : table.Targeted) (h : table.Behind id n)
    (hn : ∀ {id}, (id, n) ∈ table.nodes → table.AdmitsNull id) : table.AdmitsNull id := by
  induction h with
  | here hmem => exact hn hmem
  | next hmem ht _ ih =>
    exact .target hmem ((htarget hmem).1 (by simp [ht])) ht (ih hn)

theorem StandsForNull.admitsNull (htarget : table.Targeted) (h : table.StandsForNull id) :
    table.AdmitsNull id := by
  obtain ⟨n, hn, hnull⟩ := h
  exact .of_behind htarget hn fun hmem => .null hmem hnull

/-- What is in plain sight is there. -/
theorem ShowsNull.admitsNull (htarget : table.Targeted) (h : table.ShowsNull id) :
    table.AdmitsNull id := by
  obtain ⟨n, hn, hnull⟩ := h
  refine .of_behind htarget hn fun hmem => ?_
  rcases hnull with hnullable | hnull | ⟨hkind, member, hmember, hnull⟩
  · exact .nullable hmem hnullable
  · exact .null hmem hnull
  · exact .member hmem hkind hmember (hnull.admitsNull htarget)

/-- Alternatives take null only by standing for it, unless their union says that it takes null. -/
def Direct (table : SchemaTable) : Prop :=
  ∀ {id n member}, (id, n) ∈ table.nodes → n.kind = .union → n.nullable = false → member ∈ n.members →
    table.AdmitsNull member → table.StandsForNull member

theorem Direct.showsNull (hdirect : table.Direct) (h : table.AdmitsNull id) : table.ShowsNull id := by
  induction h with
  | nullable hn hnull => exact ⟨_, .here hn, .inl hnull⟩
  | null hn hnull => exact ⟨_, .here hn, .inr (.inl hnull)⟩
  | target hn _ ht _ ih =>
    obtain ⟨o, ho, hnull⟩ := ih
    exact ⟨o, .next hn ht ho, hnull⟩
  | @member _ member n hn hkind hmember h _ =>
    cases hnull : n.nullable with
    | true => exact ⟨n, .here hn, .inl hnull⟩
    | false =>
      exact ⟨n, .here hn, .inr (.inr ⟨hkind, member, hmember, hdirect hn hkind hnull hmember h⟩)⟩

/-- No kind that takes null through others, not said to take it, and not its type. -/
def RefusesNull (n : Node) : Prop :=
  n.kind ∉ [.reference, .recursive, .union] ∧ n.nullable = false ∧ Mapper.isNullNode n = false

instance (n : Node) : Decidable (RefusesNull n) := inferInstanceAs (Decidable (_ ∧ _))

theorem RefusesNull.not_admitsNull (h : RefusesNull n) (hclosed : table.Closed)
    (hn : (id, n) ∈ table.nodes) : ¬ table.AdmitsNull id := by
  obtain ⟨hkind, hnullable, hnull⟩ := h
  intro hadmits
  cases hadmits with
  | nullable hn' h =>
    obtain rfl := hclosed.node_unique hn hn'
    simp [hnullable] at h
  | null hn' h =>
    obtain rfl := hclosed.node_unique hn hn'
    simp [hnull] at h
  | target hn' h _ _ =>
    obtain rfl := hclosed.node_unique hn hn'
    rcases h with h | h <;> simp [h] at hkind
  | member hn' h _ _ =>
    obtain rfl := hclosed.node_unique hn hn'
    simp [h] at hkind

theorem behind_iff (hclosed : table.Closed) (hn : (id, n) ∈ table.nodes) :
    table.Behind id c ↔ c = n ∨ ∃ target, n.target = some target ∧ table.Behind target c := by
  constructor
  · intro h
    cases h with
    | here hc => exact .inl (hclosed.node_unique hc hn)
    | next hn' ht h =>
      obtain rfl := hclosed.node_unique hn hn'
      exact .inr ⟨_, ht, h⟩
  · rintro (rfl | ⟨target, ht, h⟩)
    · exact .here hn
    · exact .next hn ht h

theorem Ends.behind (h : table.Ends steps n c) (hn : (id, n) ∈ table.nodes) : table.Behind id c := by
  induction h generalizing id with
  | here _ => exact .here hn
  | next ht hnext _ ih => exact .next hn ht (ih (Assoc.mem_of_lookup (node_ok_iff.1 hnext)))

/-- A node without a target that stands behind an id is where its references end. -/
theorem Behind.eq_of_ends (hclosed : table.Closed) {o : Node} (h : table.Behind id o)
    (ho : o.target = none) (hn : (id, n) ∈ table.nodes) (hends : table.Ends steps n c) : o = c := by
  induction hends generalizing id with
  | here ht =>
    rcases (behind_iff hclosed hn).1 h with rfl | ⟨target, ht', -⟩
    · rfl
    · cases ht.symm.trans ht'
  | next ht hnext _ ih =>
    rcases (behind_iff hclosed hn).1 h with rfl | ⟨target, ht', h⟩
    · cases ho.symm.trans ht
    · obtain rfl := Option.some.inj (ht.symm.trans ht')
      exact ih h (Assoc.mem_of_lookup (node_ok_iff.1 hnext))

theorem Behind.mem (h : table.Behind id n) : ∃ id', (id', n) ∈ table.nodes := by
  induction h with
  | here hn => exact ⟨_, hn⟩
  | next _ _ _ ih => exact ih

theorem Targeted.eq_of_behind (htarget : table.Targeted) (hclosed : table.Closed) {o : Node}
    (h : table.Behind id o) (hkind : o.kind = .primitive ∨ o.kind = .union)
    (hn : (id, n) ∈ table.nodes) (hends : table.Ends steps n c) : o = c := by
  refine h.eq_of_ends hclosed ?_ hn hends
  obtain ⟨id', ho⟩ := h.mem
  rw [← Option.not_isSome_iff_eq_none, htarget ho]
  rcases hkind with hkind | hkind <;> simp [hkind]

end SchemaTable

namespace Mapper
open Outcome (Gives bind_ok bind_pure_ok pure_ok exists_ok)

variable {m : Mapper} {id : String} {n c : Node} {b : Bool} {steps : Nat}

theorem isNullNode_kind (h : isNullNode n = true) : n.kind = .primitive := by
  simpa using (Bool.and_eq_true_iff.1 h).1

/-! ### Questions about schemas -/

section
variable (hclosed : m.table.Closed) (htarget : m.table.Targeted)
include hclosed htarget

theorem isNull_iff (h : m.isNull id = .ok b) : b = true ↔ m.table.StandsForNull id := by
  obtain ⟨c, hc, rfl⟩ := bind_pure_ok.1 h
  obtain ⟨n, hn, hc⟩ := bind_ok.1 hc
  obtain ⟨steps, hends⟩ := SchemaTable.ends_of_chase hc
  have hn := Assoc.mem_of_lookup (SchemaTable.node_ok_iff.1 hn)
  constructor
  · exact fun hnull => ⟨c, hends.behind hn, hnull⟩
  · rintro ⟨o, ho, hnull⟩
    rwa [← htarget.eq_of_behind hclosed ho (.inl (isNullNode_kind hnull)) hn hends]

theorem anyNull_iff {ids : List String} (h : m.anyNull ids = .ok b) :
    b = true ↔ ∃ id ∈ ids, m.table.StandsForNull id := by
  induction ids with
  | nil =>
    cases h
    simp
  | cons id rest ih =>
    obtain ⟨first, hfirst, h⟩ := bind_ok.1 h
    have hid := isNull_iff hclosed htarget hfirst
    rw [List.exists_mem_cons_iff, ← hid]
    cases first with
    | true =>
      obtain rfl := pure_ok.1 h
      simp
    | false => simpa using ih h

omit htarget in
/-- Following references stops at the first schema that says it takes null, or at the last if none
does. -/
theorem behind_of_firstNullable {fuel : Nat} {seen : List String} {found : Node}
    (hn : (id, n) ∈ m.table.nodes) (hends : m.table.Ends steps n c)
    (hlonger : m.table.Longer steps seen) (h : m.firstNullable fuel seen n = .ok found) :
    m.table.Behind id found ∧
      (found.nullable = true ∨ found = c ∧ ∀ o, m.table.Behind id o → o.nullable = false) := by
  obtain rfl := hclosed.id_eq hn
  induction fuel generalizing n seen steps with
  | zero => cases h
  | succ fuel ih =>
    rw [firstNullable] at h
    split at h
    · next hnull =>
      obtain rfl := Except.ok.inj h
      exact ⟨.here hn, .inl hnull⟩
    · next hnull =>
      rw [Bool.not_eq_true] at hnull
      cases hends with
      | here ht =>
        rw [ht] at h
        obtain rfl := Except.ok.inj h
        refine ⟨.here hn, .inr ⟨rfl, fun o ho => ?_⟩⟩
        rcases (SchemaTable.behind_iff hclosed hn).1 ho with rfl | ⟨target, ht', -⟩
        · exact hnull
        · cases ht.symm.trans ht'
      | @next steps target _ next _ ht hnext hrest =>
        have hwhole : m.table.Ends (steps + 1) n c := .next ht hnext hrest
        have hnew : ¬ seen.contains n.id = true := by simpa using hlonger.not_mem hwhole hn
        rw [ht] at h
        dsimp only at h
        rw [if_neg hnew, hnext] at h
        have hmem := hclosed.mem_of_node hnext
        have hid : next.id = target :=
          hclosed.id_eq (Assoc.mem_of_lookup (SchemaTable.node_ok_iff.1 hnext))
        obtain ⟨hbehind, hfound⟩ := ih hrest (hlonger.step hclosed hwhole hn) h hmem
        rw [hid] at hbehind hfound
        refine ⟨.next hn ht hbehind, hfound.imp_right fun hlast => ⟨hlast.1, fun o ho => ?_⟩⟩
        rcases (SchemaTable.behind_iff hclosed hn).1 ho with rfl | ⟨target', ht', ho⟩
        · exact hnull
        · obtain rfl := Option.some.inj (ht.symm.trans ht')
          exact hlast.2 o ho

/-- Unless a schema on the way takes null, it is the last one that shows it. -/
theorem showsNull_iff_of_ends (hn : (id, n) ∈ m.table.nodes) (hends : m.table.Ends steps n c)
    (hall : ∀ o, m.table.Behind id o → o.nullable = false) :
    m.table.ShowsNull id ↔ isNullNode c = true ∨
      c.kind = .union ∧ ∃ member ∈ c.members, m.table.StandsForNull member := by
  constructor
  · rintro ⟨o, ho, hnullable | hnull | hunion⟩
    · rw [hall o ho] at hnullable
      cases hnullable
    · rw [← htarget.eq_of_behind hclosed ho (.inl (isNullNode_kind hnull)) hn hends]
      exact .inl hnull
    · rw [← htarget.eq_of_behind hclosed ho (.inr hunion.1) hn hends]
      exact .inr hunion
  · exact fun h => ⟨c, hends.behind hn, .inr h⟩

end

theorem acceptsNull_iff (hfollow : m.table.Followable) (htarget : m.table.Targeted)
    (h : m.acceptsNull id = .ok b) : b = true ↔ m.table.ShowsNull id := by
  obtain ⟨n, hn, h⟩ := bind_ok.1 h
  obtain ⟨found, hfound, h⟩ := bind_ok.1 h
  have hclosed := hfollow.closed
  have hmem := Assoc.mem_of_lookup (SchemaTable.node_ok_iff.1 hn)
  obtain ⟨steps, c, hends⟩ := hfollow.exists_ends (hclosed.mem_of_node hn)
  obtain ⟨hbehind, hcases⟩ := behind_of_firstNullable hclosed hmem hends
    (List.forall_mem_nil _) hfound
  split at h
  · next hnull =>
    obtain rfl := pure_ok.1 h
    exact iff_of_true rfl ⟨found, hbehind, .inl hnull⟩
  · next hnull =>
    obtain ⟨rfl, hall⟩ := hcases.resolve_left hnull
    rw [showsNull_iff_of_ends hclosed htarget hmem hends hall]
    split at h
    · next hkind =>
      have hunion : found.kind = .union := by simpa using hkind
      have hprimitive : isNullNode found = false := by simp [isNullNode, hunion]
      simp [anyNull_iff hclosed htarget h, hunion, hprimitive]
    · next hkind =>
      obtain rfl := pure_ok.1 h
      have hunion : found.kind ≠ .union := by simpa using hkind
      simp [hunion]

/-! ### Fields -/

/-- A field is made of a property, and is nullable if null is in plain sight. -/
structure Tells (table : SchemaTable) (p : Property) (f : Field) : Prop where
  name : f.name = p.name
  nullable : f.optionality = .nullable ↔ table.ShowsNull p.node

/-- The type of an object has a field for each of its properties, in their order. -/
def FieldsTell (table : SchemaTable) (id : String) (d : Descriptor) : Prop :=
  ∀ n, (id, n) ∈ table.nodes → n.kind = .object →
    ∃ fields additional t, d = .object fields additional t ∧
      List.Forall₂ (Tells table) n.properties fields

variable {inv : MapState → Prop} {use : Use}

theorem field_tells (hfollow : m.table.Followable) (htarget : m.table.Targeted) {p : Property}
    (huse : Gives inv (use p.node) fun _ => True) : Gives inv (m.field use p) (Tells m.table p) := by
  refine (Gives.lift fun _ hnull => acceptsNull_iff hfollow htarget hnull).bind
    fun nullable hnull => ?_
  refine (Gives.lift fun _ _ => trivial).bind fun _ _ => huse.bind fun _ _ => ?_
  refine (Gives.lift fun _ _ => trivial).bind fun _ _ => .pure ⟨rfl, ?_⟩
  rw [← hnull]
  cases nullable with
  | true => exact iff_of_true rfl rfl
  | false => cases p.required <;> simp

theorem node_fieldsTell (hfollow : m.table.Followable) (htarget : m.table.Targeted)
    (hn : (id, n) ∈ m.table.nodes) (hinv : ∀ s notices, inv s → inv { s with notices })
    (huse : ∀ j, Gives inv (use j) fun _ => True) :
    Gives inv (m.node use n) (FieldsTell m.table id) := by
  by_cases hkind : n.kind = .object
  · unfold node
    rw [hkind]
    refine (Gives.mapM fun p _ => field_tells hfollow htarget (huse p.node)).bind
      fun fields hfields => ?_
    refine (additional_gives fun j _ => huse j).bind fun additional _ => .pure ?_
    intro n' hn' _
    obtain rfl := hfollow.closed.node_unique hn hn'
    exact ⟨fields, additional, _, rfl, hfields⟩
  · refine (node_gives (fun _ _ => trivial) (fun _ _ => trivial) (fun _ => hinv) (fun _ j _ => huse j)
      fun _ _ _ _ => trivial).mono ?_
    intro d _ n' hn' hobject
    obtain rfl := hfollow.closed.node_unique hn hn'
    exact absurd hobject hkind

/-- What the fields of objects tell about null, whatever is mapped before them. A field that is
nullable takes null. The converse holds unless a union has an alternative that takes null and other
values. -/
theorem field_nullable_iff {doc : Value} {policy : MergePolicy} {table : SchemaTable}
    (htable : SchemaTable.ofDocument doc policy = .ok table) (hm : ofTable table = .ok m)
    {ids : List String} {ds : List Descriptor} {st : MapState}
    (hrun : (ids.mapM m.mapType).run.run {} = (.ok ds, st)) :
    List.Forall₂ (fun id d => ∀ n, (id, n) ∈ table.nodes → n.kind = .object →
      ∃ fields additional t, d = .object fields additional t ∧
        List.Forall₂ (fun p f => f.name = p.name ∧
          (f.optionality = .nullable ↔ table.ShowsNull p.node) ∧
          (f.optionality = .nullable → table.AdmitsNull p.node) ∧
          (table.Direct → (f.optionality = .nullable ↔ table.AdmitsNull p.node)))
          n.properties fields) ids ds := by
  obtain ⟨names, a, hc⟩ := SchemaTable.ofDocument_ok htable
  obtain rfl := (ofTable_names hc hm).table_eq
  have htarget : m.table.Targeted := SchemaTable.targeted_of_completed hc
  have hmap : ∀ id, Gives (MemoHolds (FieldsTell m.table)) (m.mapType id) (FieldsTell m.table id) :=
    mapWithin_holds (fun structural id n hn huse =>
      node_fieldsTell hc.followable htarget hn (fun _ _ hs => hs)
        fun j => useWith_keeps fun j => (huse j).mono fun _ _ => trivial) _
  have hnone : MemoHolds (FieldsTell m.table) {} := List.forall_mem_nil _
  have hall := ((Gives.mapM fun id _ => hmap id) {} ds st hnone hrun).2
  refine hall.imp fun id d hd n hn hkind => ?_
  obtain ⟨fields, additional, t, rfl, hfields⟩ := hd n hn hkind
  refine ⟨fields, additional, t, rfl, hfields.imp fun p f hf => ⟨hf.name, hf.nullable, ?_, ?_⟩⟩
  · exact fun hnull => (hf.nullable.1 hnull).admitsNull htarget
  · intro hdirect
    rw [hf.nullable]
    exact ⟨fun hnull => hnull.admitsNull htarget, hdirect.showsNull⟩

/-- Notes whose author may be null behind two references, and whose tag may be null as one of two
alternatives. -/
def notes : Value :=
  .record [("components", .record [("schemas", .record [
    ("Nothing", .record [("type", .str "null")]),
    ("Person", .record [("type", .list [.str "string", .str "null"])]),
    ("Author", .record [("$ref", .str "#/components/schemas/Person")]),
    ("Note", .record [("type", .str "object"), ("required", .list [.str "text"]),
      ("properties", .record [
        ("author", .record [("$ref", .str "#/components/schemas/Author")]),
        ("tag", .record [("oneOf", .list [.record [("type", .str "integer")],
          .record [("$ref", .str "#/components/schemas/Nothing")]])]),
        ("text", .record [("type", .str "string")]),
        ("reply", .record [("$ref", .str "#/components/schemas/Note")])])])])])]

theorem notes_fields_nullable : ∃ table m ds st,
    SchemaTable.ofDocument notes .lastWins = .ok table ∧ ofTable table = .ok m ∧
    (["#/components/schemas/Note"].mapM m.mapType).run.run {} = (.ok ds, st) ∧
    ds.map (fun d => d.fields.map (·.optionality)) = [[.nullable, .nullable, .required, .optional]] ∧
    List.Forall₂ (fun id d => ∀ n, (id, n) ∈ table.nodes → n.kind = .object →
      ∃ fields additional t, d = .object fields additional t ∧
        List.Forall₂ (fun p f => f.name = p.name ∧
          (f.optionality = .nullable ↔ table.AdmitsNull p.node)) n.properties fields)
      ["#/components/schemas/Note"] ds := by
  have hfields : ∃ table ∈ (SchemaTable.ofDocument notes .lastWins).toOption,
      ∃ m ∈ (ofTable table).toOption,
        ∃ ds ∈ ((["#/components/schemas/Note"].mapM m.mapType).run.run {}).1.toOption,
          ds.map (fun d => d.fields.map (·.optionality)) =
            [[.nullable, .nullable, .required, .optional]] := by
    decide +kernel
  have hunions : ∃ table ∈ (SchemaTable.ofDocument notes .lastWins).toOption,
      ∃ m ∈ (ofTable table).toOption,
        ∀ e ∈ table.nodes, e.2.kind = .union → ∀ member ∈ e.2.members,
          (m.isNull member).toOption = some true ∨
            ∃ n ∈ table.nodes.lookup member, SchemaTable.RefusesNull n := by
    decide +kernel
  obtain ⟨table, htable, hfields⟩ := exists_ok.2 hfields
  obtain ⟨m, hm, hfields⟩ := exists_ok.2 hfields
  obtain ⟨ds, hds, htold⟩ := exists_ok.2 hfields
  obtain ⟨table', htable', hunions⟩ := exists_ok.2 hunions
  obtain rfl := Except.ok.inj (htable.symm.trans htable')
  obtain ⟨m', hm', hunions⟩ := exists_ok.2 hunions
  obtain rfl := Except.ok.inj (hm.symm.trans hm')
  obtain ⟨names, a, hc⟩ := SchemaTable.ofDocument_ok htable
  obtain rfl := (ofTable_names hc hm).table_eq
  have htarget : m.table.Targeted := SchemaTable.targeted_of_completed hc
  -- each alternative stands for null or does not take it
  have hdirect : m.table.Direct := by
    intro id n member hn hkind _ hmember hadmits
    rcases hunions _ hn hkind member hmember with hnull | ⟨o, ho, hrefuses⟩
    · obtain ⟨b, hb, rfl⟩ := exists_ok.2 ⟨true, hnull, rfl⟩
      exact (isNull_iff hc.closed htarget hb).1 rfl
    · exact absurd hadmits (hrefuses.not_admitsNull hc.closed (Assoc.mem_of_lookup ho))
  obtain ⟨st, hrun⟩ : ∃ st, (["#/components/schemas/Note"].mapM m.mapType).run.run {} = (.ok ds, st) :=
    ⟨_, Prod.ext hds rfl⟩
  refine ⟨m.table, m, ds, st, htable, hm, hrun, htold, ?_⟩
  refine (field_nullable_iff htable hm hrun).imp fun id d hd n hn hkind => ?_
  obtain ⟨fields, additional, t, rfl, hfields⟩ := hd n hn hkind
  exact ⟨fields, additional, t, rfl, hfields.imp fun p f hf => ⟨hf.1, hf.2.2.2 hdirect⟩⟩

/-- A choice between a number and a text that may be null. -/
def choices : Value :=
  .record [("components", .record [("schemas", .record [
    ("Choice", .record [("type", .str "object"), ("required", .list [.str "value"]),
      ("properties", .record [("value", .record [("anyOf", .list [
        .record [("type", .list [.str "string", .str "null"])],
        .record [("type", .str "integer")]])])])])])])]

/-- The choice takes null, and its field is told not to. -/
theorem choices_value_required : ∃ table m d st n,
    SchemaTable.ofDocument choices .lastWins = .ok table ∧ ofTable table = .ok m ∧
    (m.mapType "#/components/schemas/Choice").run.run {} = (.ok d, st) ∧
    table.node "#/components/schemas/Choice" = .ok n ∧ n.kind = .object ∧
    ∃ p ∈ n.properties, ∃ f ∈ d.fields, f.name = p.name ∧ table.AdmitsNull p.node ∧
      f.optionality = .required := by
  have hfields : ∃ table ∈ (SchemaTable.ofDocument choices .lastWins).toOption,
      ∃ m ∈ (ofTable table).toOption,
        ∃ d ∈ ((m.mapType "#/components/schemas/Choice").run.run {}).1.toOption,
          ∃ f ∈ d.fields, f.name = .str "value" ∧ f.optionality = .required := by
    decide +kernel
  have hnode : ∃ table ∈ (SchemaTable.ofDocument choices .lastWins).toOption,
      ∃ n ∈ (table.node "#/components/schemas/Choice").toOption, n.kind = .object ∧
        ∃ p ∈ n.properties, p.name = .str "value" ∧ ∃ u ∈ table.nodes.lookup p.node,
          u.kind = .union ∧ ∃ id ∈ u.members, ∃ o ∈ table.nodes.lookup id, o.nullable = true := by
    decide +kernel
  obtain ⟨table, htable, hfields⟩ := exists_ok.2 hfields
  obtain ⟨m, hm, hfields⟩ := exists_ok.2 hfields
  obtain ⟨d, hd, f, hf, hfname, htold⟩ := exists_ok.2 hfields
  obtain ⟨table', htable', hnode⟩ := exists_ok.2 hnode
  obtain rfl := Except.ok.inj (htable.symm.trans htable')
  obtain ⟨n, hn, hkind, p, hp, hpname, u, hu, hunion, id, hid, o, ho, hnull⟩ :=
    exists_ok.2 hnode
  have hadmits : table.AdmitsNull p.node :=
    .member (Assoc.mem_of_lookup hu) hunion hid (.nullable (Assoc.mem_of_lookup ho) hnull)
  exact ⟨table, m, d, _, n, htable, hm, Prod.ext hd rfl, hn, hkind, p, hp, f, hf,
    hfname.trans hpname.symm, hadmits, htold⟩

end Mapper
end OpenApi
