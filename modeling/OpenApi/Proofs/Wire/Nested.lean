import Mathlib.Algebra.Group.Int.Defs
import OpenApi.Proofs.Json.RoundTrip
import OpenApi.Proofs.Wire.Brackets

/-!
Objects in objects pass the wire in brackets. What is written of a value are its leaves, each with the
keys on the way to it, and whoever reads puts one leaf after the other where it belongs. The leaves of a
member stand together, so a member is complete before the next one is begun, however deep it goes.
-/
namespace OpenApi

open Outcome (bind_ok pure_ok)

theorem Outcome.forall₂_append_left_iff {α β : Type} {R : α → β → Prop} {xs xs' : List α} {ys : List β} :
    List.Forall₂ R (xs ++ xs') ys ↔
      ∃ zs zs', List.Forall₂ R xs zs ∧ List.Forall₂ R xs' zs' ∧ zs ++ zs' = ys := by
  induction xs generalizing ys with
  | nil => simp
  | cons x xs ih =>
    rw [List.cons_append, List.forall₂_cons_left_iff]
    constructor
    · rintro ⟨y, rest, hy, hrest, rfl⟩
      obtain ⟨zs, zs', hzs, hzs', rfl⟩ := ih.1 hrest
      exact ⟨y :: zs, zs', .cons hy hzs, hzs', rfl⟩
    · rintro ⟨_, zs', hzs, hzs', rfl⟩
      cases hzs with
      | cons hy hzs => exact ⟨_, _, hy, ih.2 ⟨_, zs', hzs, hzs', rfl⟩, rfl⟩

namespace Entries

variable {target : Entries} {key : String}

theorem same_of_not_mem (h : .str key ∉ target.map Prod.fst) :
    ∀ e ∈ target, e.1.same (.str key) = false := by
  intro e he
  rw [Bool.eq_false_iff]
  intro hsame
  exact h (Scalar.same_str_iff.1 hsame ▸ List.mem_map_of_mem he)

theorem insert_new (h : .str key ∉ target.map Prod.fst) (v : Value) :
    target.insert (.str key) v = target ++ [(.str key, v)] :=
  puts_insert.eq_append (x := (.str key, v)) (same_of_not_mem h)

theorem find?_new (h : .str key ∉ target.map Prod.fst) : target.find? (.str key) = none := by
  rw [find?_eq, List.find?_eq_none.2 fun e he => by simp [same_of_not_mem h e he]]
  rfl

theorem insert_last (h : .str key ∉ target.map Prod.fst) (u v : Value) :
    Entries.insert (target ++ [(.str key, u)]) (.str key) v = target ++ [(.str key, v)] := by
  have hsame := same_of_not_mem h
  clear h
  induction target with
  | nil => simp [insert, Scalar.same]
  | cons e rest ih =>
    obtain ⟨he, hrest⟩ := List.forall_mem_cons.1 hsame
    rw [List.cons_append, insert, if_neg (by simp [he]), ih hrest, List.cons_append]

theorem find?_last (h : .str key ∉ target.map Prod.fst) (u : Value) :
    Entries.find? (target ++ [(.str key, u)]) (.str key) = some u := by
  rw [find?_append, find?_new h, Option.none_or, find?, if_pos (Scalar.same_self _)]

end Entries

namespace Codec

variable {entries : List (Scalar × Value)} {pairs : List (String × String)}

/-- A text, an integer or a truth value. -/
inductive IsPlain : Value → Prop
  | str (s : String) : IsPlain (.str s)
  | int (n : Int) : IsPlain (.int n)
  | bool (b : Bool) : IsPlain (.bool b)

/-- The values of a type that objects in brackets carry: objects that are not empty and have no bracket
in a key, lists of scalars that are not empty, and scalars. -/
inductive HasDeep (c : Codec) : Descriptor → Value → Prop
  | scalar {d : Descriptor} {v : Value} (hv : c.HasScalar d v) (hplain : IsPlain v) : HasDeep c d v
  | array {d items : Descriptor} {t : Traits} {vs : List Value}
      (hd : c.behind d = .ok (.array items t)) (hne : vs ≠ [])
      (hvs : ∀ v ∈ vs, c.HasScalar items v ∧ IsPlain v) : HasDeep c d (.list vs)
  | object {d : Descriptor} {fields : List Field} {additional : Additional Descriptor} {t : Traits}
      {entries : List (Scalar × Value)} (hd : c.behind d = .ok (.object fields additional t))
      (hne : entries ≠ []) (hkeys : ∀ e ∈ entries, ∃ key, e.1 = .str key ∧ BracketFree key.toList)
      (hnodup : (entries.map Prod.fst).Nodup)
      (h : ∀ e ∈ entries, HasDeep c (member (.object fields additional t) e.1) e.2) :
      HasDeep c d (.map entries)

/-! ### Leaves -/

/-- A scalar, and the keys on the way to it. -/
abbrev Leaf := List String × Value

/-- A leaf of a member. -/
def under (key : String) (l : Leaf) : Leaf := (key :: l.1, l.2)

mutual

/-- The scalars in a value. The items of a list stand at the same place. -/
def leaves : Value → List Leaf
  | .scalar s => [([], .scalar s)]
  | .list vs => vs.map fun v => ([], v)
  | .map entries => entryLeaves entries

def entryLeaves : List (Scalar × Value) → List Leaf
  | [] => []
  | (k, v) :: rest => (leaves v).map (under ((Value.scalar k).str?.getD "")) ++ entryLeaves rest

end

theorem entryLeaves_cons {key : String} {v : Value} {rest : List (Scalar × Value)} :
    entryLeaves ((.str key, v) :: rest) = (leaves v).map (under key) ++ entryLeaves rest := by
  rw [entryLeaves]
  rfl

variable {c : Codec} {d d' : Descriptor} {v : Value} {key : String}

theorem HasDeep.leaves_ne_nil (h : c.HasDeep d v) : leaves v ≠ [] := by
  induction h with
  | scalar _ hplain => cases hplain <;> simp [leaves]
  | array _ hne _ => simpa [leaves] using hne
  | @object _ _ _ _ entries _ hne hkeys _ _ ih =>
    cases entries with
    | nil => exact absurd rfl hne
    | cons e rest =>
      rw [leaves, entryLeaves]
      simp [ih e (List.mem_cons_self ..)]

/-- What is said of the leaves of members is said of those of their object. -/
theorem forall_entryLeaves {P : Leaf → Prop}
    (h : ∀ e ∈ entries, ∃ key, e.1 = .str key ∧ ∀ l ∈ leaves e.2, P (under key l)) :
    ∀ l ∈ entryLeaves entries, P l := by
  induction entries with
  | nil => exact nofun
  | cons e rest ih =>
    obtain ⟨⟨key, hkey, hfirst⟩, hrest⟩ := List.forall_mem_cons.1 h
    obtain ⟨k, v⟩ := e
    cases hkey
    rw [entryLeaves_cons]
    intro l hl
    rcases List.mem_append.1 hl with hl | hl
    · obtain ⟨below, hbelow, rfl⟩ := List.mem_map.1 hl
      exact hfirst below hbelow
    · exact ih hrest l hl

/-- There are leaves only behind keys without brackets. -/
theorem HasDeep.bracketFree (h : c.HasDeep d v) :
    ∀ l ∈ leaves v, ∀ part ∈ l.1, BracketFree part.toList := by
  induction h with
  | scalar _ hplain => cases hplain <;> simp [leaves]
  | array _ _ _ => simp [leaves]
  | object _ _ hkeys _ _ ih =>
    rw [leaves]
    apply forall_entryLeaves
    intro e he
    obtain ⟨key, hkey, hfree⟩ := hkeys e he
    exact ⟨key, hkey, fun l hl => List.forall_mem_cons.2 ⟨hfree, ih e he l hl⟩⟩

theorem under_mem_entryLeaves {e : Scalar × Value} (he : e ∈ entries) (hkey : e.1 = .str key) {l : Leaf}
    (hl : l ∈ leaves e.2) :
    under key l ∈ entryLeaves entries := by
  induction entries with
  | nil => cases he
  | cons first rest ih =>
    obtain ⟨k, v⟩ := first
    rw [entryLeaves, List.mem_append]
    rcases List.mem_cons.1 he with rfl | he
    · obtain rfl : k = .str key := hkey
      exact .inl (List.mem_map_of_mem hl)
    · exact .inr (ih he)

theorem path_ne_nil_of_mem_entryLeaves {l : Leaf} (h : l ∈ entryLeaves entries) : l.1 ≠ [] := by
  induction entries with
  | nil => cases h
  | cons e rest ih =>
    rw [entryLeaves] at h
    rcases List.mem_append.1 h with h | h
    · obtain ⟨l, -, rfl⟩ := List.mem_map.1 h
      exact List.cons_ne_nil _ _
    · exact ih h

/-! ### Writing -/

/-- The pairs of some leaves: their ways in brackets behind a key, and their texts. -/
def Writes (c : Codec) (key : String) (ls : List Leaf) (pairs : List (String × String)) : Prop :=
  List.Forall₂ (fun l p => p.1 = keyAt key l.1 ∧ c.wireText l.2 = .ok p.2) ls pairs

theorem deepPairs_scalar_iff (hv : c.HasScalar d v) (hplain : IsPlain v) :
    c.deepPairs key d v = .ok pairs ↔ c.Writes key [([], v)] pairs := by
  obtain ⟨e, he, -⟩ := hv.behind
  obtain ⟨s, rfl⟩ : ∃ s, v = .scalar s := by cases hplain <;> exact ⟨_, rfl⟩
  have hpairs : c.deepPairs key d (.scalar s) = do return [(key, ← c.wireText (.scalar s))] := by
    rw [deepPairs, he]
    rfl
  rw [hpairs, bind_ok, Writes, List.forall₂_cons_left_iff]
  constructor
  · rintro ⟨w, hw, h⟩
    exact ⟨(key, w), [], ⟨rfl, hw⟩, .nil, (pure_ok.1 h).symm⟩
  · rintro ⟨p, rest, ⟨hkey, hw⟩, hrest, rfl⟩
    cases hrest
    exact ⟨p.2, hw, pure_ok.2 (by rw [← show p.1 = key from hkey])⟩

theorem deepItems_iff {vs : List Value} (hvs : ∀ v ∈ vs, c.HasScalar d v ∧ IsPlain v) :
    c.deepItems key d vs = .ok pairs ↔ c.Writes key (vs.map fun v => ([], v)) pairs := by
  induction vs generalizing pairs with
  | nil =>
    rw [deepItems, Writes, List.map_nil, List.forall₂_nil_left_iff, Except.ok.injEq]
    exact eq_comm
  | cons v rest ih =>
    obtain ⟨⟨hv, hplain⟩, hrest⟩ := List.forall_mem_cons.1 hvs
    rw [deepItems, List.map_cons, ← List.singleton_append, Writes, Outcome.forall₂_append_left_iff,
      bind_ok]
    simp only [bind_ok, pure_ok, deepPairs_scalar_iff hv hplain, ih hrest]
    exact exists_congr fun first => exists_and_left.symm

theorem writes_under {ls : List Leaf} {part : String} :
    c.Writes key (ls.map (under part)) pairs ↔
      c.Writes (key ++ "[" ++ Percent.encode part false ++ "]") ls pairs :=
  List.forall₂_map_left_iff

theorem deepEntries_iff
    (h : ∀ e ∈ entries, ∃ name, e.1 = .str name ∧ ∀ key pairs,
      c.deepPairs key (member d e.1) e.2 = .ok pairs ↔ c.Writes key (leaves e.2) pairs) :
    c.deepEntries key d entries = .ok pairs ↔ c.Writes key (entryLeaves entries) pairs := by
  induction entries generalizing pairs with
  | nil =>
    rw [deepEntries, entryLeaves, Writes, List.forall₂_nil_left_iff, Except.ok.injEq]
    exact eq_comm
  | cons e rest ih =>
    obtain ⟨⟨name, hname, hfirst⟩, hrest⟩ := List.forall_mem_cons.1 h
    obtain ⟨k, v⟩ := e
    cases hname
    have htext : (Scalar.str name).text = .ok name := rfl
    rw [deepEntries, htext, entryLeaves_cons, Writes, Outcome.forall₂_append_left_iff]
    change (do
      let first ← c.deepPairs (key ++ "[" ++ Percent.encode name false ++ "]") (member d (.str name)) v
      return first ++ (← c.deepEntries key d rest)) = _ ↔ _
    simp only [bind_ok, pure_ok, hfirst, ih hrest, ← writes_under]
    exact exists_congr fun first => exists_and_left.symm

/-- A value is written as its leaves. -/
theorem HasDeep.deepPairs_iff (h : c.HasDeep d v) :
    c.deepPairs key d v = .ok pairs ↔ c.Writes key (leaves v) pairs := by
  induction h generalizing key pairs with
  | scalar hv hplain =>
    rw [deepPairs_scalar_iff hv hplain]
    cases hplain <;> rfl
  | array hd _ hvs =>
    rw [deepPairs, hd, leaves, ← deepItems_iff hvs]
    rfl
  | object hd _ hkeys _ _ ih =>
    rw [deepPairs, hd, leaves, ← deepEntries_iff fun e he => ?_]
    · rfl
    · obtain ⟨name, hname, -⟩ := hkeys e he
      exact ⟨name, hname, fun _ _ => ih e he⟩

/-! ### Reading -/

/-- Puts leaves one after the other where they belong. -/
def fill (c : Codec) (d : Descriptor) : Entries → List Leaf → Checked Entries
  | target, [] => .ok target
  | target, l :: ls => do fill c d (← c.assign (← c.wireText l.2) l.1 d target) ls

theorem fill_cons {target next : Entries} {path : List String} {ls : List Leaf} {w : String}
    (hw : c.wireText v = .ok w) (hnext : c.assign w path d target = .ok next) :
    c.fill d target ((path, v) :: ls) = c.fill d next ls := by
  rw [fill, hw]
  change (c.assign w path d target >>= fun next => c.fill d next ls) = _
  rw [hnext]
  rfl

theorem fill_append {target next : Entries} {ls ls' : List Leaf} (h : c.fill d target ls = .ok next) :
    c.fill d target (ls ++ ls') = c.fill d next ls' := by
  induction ls generalizing target with
  | nil =>
    cases h
    rfl
  | cons l ls ih =>
    rw [fill] at h
    obtain ⟨w, hw, h⟩ := bind_ok.1 h
    obtain ⟨mid, hmid, h⟩ := bind_ok.1 h
    rw [List.cons_append, ← ih h]
    exact fill_cons hw hmid

/-- Reading the pairs of leaves puts the leaves where they belong. -/
theorem decodeDeep_of_writes (hname : BracketFree c.name.toList) {ls : List Leaf}
    (h : c.Writes c.wireName ls pairs)
    (hpath : ∀ l ∈ ls, l.1 ≠ [] ∧ ∀ part ∈ l.1, BracketFree part.toList) {found : Option Entries}
    (hfound : found ≠ none ∨ ls ≠ []) {entries : Entries}
    (hfill : c.fill c.type (found.getD []) ls = .ok entries) :
    c.decodeDeep found pairs = .ok (.map entries) := by
  induction h generalizing found with
  | nil =>
    cases found with
    | none => simp at hfound
    | some found =>
      cases hfill
      rfl
  | @cons l p ls pairs hp _ ih =>
    obtain ⟨⟨hne, hfree⟩, hrest⟩ := List.forall_mem_cons.1 hpath
    obtain ⟨key, raw⟩ := p
    obtain ⟨rfl, hw⟩ : key = keyAt c.wireName l.1 ∧ c.wireText l.2 = .ok raw := hp
    rw [fill] at hfill
    obtain ⟨raw', hw', hfill⟩ := bind_ok.1 hfill
    obtain rfl := Except.ok.inj (hw.symm.trans hw')
    obtain ⟨next, hnext, hfill⟩ := bind_ok.1 hfill
    rw [decodeDeep, bracketPath?_keyAt hname hfree hne]
    refine bind_ok.2 ⟨some l.1, rfl, bind_ok.2 ⟨next, hnext, ?_⟩⟩
    exact ih hrest (.inl (by simp)) hfill

/-- Every leaf has a text. -/
def Written (c : Codec) (ls : List Leaf) : Prop := ∀ l ∈ ls, ∃ w, c.wireText l.2 = .ok w

/-- Entries in which nothing stands behind a key; `v?` is what stands under the key. -/
structure Slot (target : Entries) (key : String) (v? : Option Value) (whole : Entries) : Prop where
  find?_eq : whole.find? (.str key) = v?
  insert_eq : ∀ v, whole.insert (.str key) v = target ++ [(.str key, v)]

section
variable {target whole : Entries} {v? : Option Value}

theorem Slot.new (h : .str key ∉ target.map Prod.fst) : Slot target key none target :=
  ⟨Entries.find?_new h, Entries.insert_new h⟩

theorem Slot.last (h : .str key ∉ target.map Prod.fst) (u : Value) :
    Slot target key (some u) (target ++ [(.str key, u)]) :=
  ⟨Entries.find?_last h u, Entries.insert_last h u⟩

variable (hd : c.behind d = .ok d') (hnew : .str key ∉ target.map Prod.fst)
  (hslot : Slot target key v? whole)
include hd hnew hslot

/-- The items of a list go to the end of it. -/
theorem fill_items {items : Descriptor} {t : Traits}
    (harray : c.behind (member d' (.str key)) = .ok (.array items t)) {vs found : List Value}
    (hfound : v?.getD (.list []) = .list found) (hne : vs ≠ [])
    (hvs : ∀ v ∈ vs, c.HasScalar items v) (hok : ∀ v ∈ vs, ∃ w, c.wireText v = .ok w) :
    c.fill d whole (vs.map fun v => ([key], v)) =
      .ok (target ++ [(.str key, .list (found ++ vs))]) := by
  induction vs generalizing v? whole found with
  | nil => exact absurd rfl hne
  | cons v rest ih =>
    obtain ⟨hv, hrest⟩ := List.forall_mem_cons.1 hvs
    obtain ⟨⟨w, hw⟩, hok⟩ := List.forall_mem_cons.1 hok
    have hstep : c.assign w [key] d whole = .ok (target ++ [(.str key, .list (found ++ [v]))]) := by
      rw [assign]
      refine bind_ok.2 ⟨d', hd, bind_ok.2 ⟨_, harray, ?_⟩⟩
      rw [hslot.find?_eq, hfound]
      refine bind_ok.2 ⟨v, read_wireText hv hw, ?_⟩
      rw [hslot.insert_eq]
      rfl
    rw [List.map_cons, fill_cons hw hstep, List.append_cons found v rest]
    cases rest with
    | nil => simp [fill]
    | cons next rest => exact ih (.last hnew _) rfl (List.cons_ne_nil _ _) hrest hok

/-- The leaves of an object are put where they belong in it. -/
theorem fill_under {e : Descriptor} (he : c.behind (member d' (.str key)) = .ok e) {ls : List Leaf}
    {child child' : Entries} (hchild : v?.getD (.map []) = .map child) (hne : ls ≠ [])
    (hpath : ∀ l ∈ ls, l.1 ≠ []) (h : c.fill e child ls = .ok child') :
    c.fill d whole (ls.map (under key)) = .ok (target ++ [(.str key, .map child')]) := by
  induction ls generalizing v? whole child with
  | nil => exact absurd rfl hne
  | cons l rest ih =>
    obtain ⟨hpart, hrest⟩ := List.forall_mem_cons.1 hpath
    rw [fill] at h
    obtain ⟨w, hw, h⟩ := bind_ok.1 h
    obtain ⟨next, hnext, h⟩ := bind_ok.1 h
    have hstep : c.assign w (key :: l.1) d whole = .ok (target ++ [(.str key, .map next)]) := by
      obtain ⟨part, more, hl⟩ := List.exists_cons_of_ne_nil hpart
      rw [hl] at hnext ⊢
      rw [assign]
      refine bind_ok.2 ⟨d', hd, bind_ok.2 ⟨e, he, ?_⟩⟩
      rw [hslot.find?_eq, hchild]
      refine bind_ok.2 ⟨next, hnext, ?_⟩
      rw [hslot.insert_eq]
      rfl
    rw [List.map_cons, under, fill_cons hw hstep]
    cases rest with
    | nil =>
      cases h
      rfl
    | cons following rest => exact ih (.last hnew _) rfl (List.cons_ne_nil _ _) hrest h

end

/-- A value that is put under a new key is put there as it is. -/
def Fills (c : Codec) (dm : Descriptor) (v : Value) : Prop :=
  ∀ d d' key target, c.behind d = .ok d' → member d' (.str key) = dm → .str key ∉ target.map Prod.fst →
    c.fill d target ((leaves v).map (under key)) = .ok (target ++ [(.str key, v)])

/-- Members with new keys follow one another. -/
theorem fill_entries (hd : c.behind d = .ok d')
    (h : ∀ e ∈ entries, ∃ key, e.1 = .str key ∧ c.Fills (member d' e.1) e.2) {target : Entries}
    (hnodup : ((target ++ entries).map Prod.fst).Nodup) :
    c.fill d target (entryLeaves entries) = .ok (target ++ entries) := by
  induction entries generalizing target with
  | nil => simp [entryLeaves, fill]
  | cons e rest ih =>
    obtain ⟨⟨key, hkey, hfills⟩, hrest⟩ := List.forall_mem_cons.1 h
    obtain ⟨k, v⟩ := e
    cases hkey
    have hnew : .str key ∉ target.map Prod.fst := by
      rw [List.map_append, List.nodup_append] at hnodup
      exact fun hmem => hnodup.2.2 _ hmem _ (by simp) rfl
    rw [List.append_cons target (.str key, v) rest] at hnodup ⊢
    rw [entryLeaves_cons, fill_append (hfills d d' key target hd rfl hnew)]
    exact ih hrest hnodup

theorem HasDeep.fills (h : c.HasDeep d v) (hok : c.Written (leaves v)) : c.Fills d v := by
  induction h with
  | @scalar d v hv hplain =>
    intro d₀ d' key target hd hmember hnew
    have hleaves : leaves v = [([], v)] := by cases hplain <;> rfl
    rw [hleaves] at hok ⊢
    obtain ⟨w, hw⟩ := hok _ (List.mem_singleton_self _)
    have hstep : c.assign w [key] d₀ target = .ok (target ++ [(.str key, v)]) := by
      rw [assign_scalar hd (hmember ▸ hv) hw, Entries.insert_new hnew]
    exact fill_cons hw hstep
  | @array d items t vs harray hne hvs =>
    intro d₀ d' key target hd hmember hnew
    rw [leaves, List.map_map]
    have hslot : Slot target key none target := .new hnew
    exact fill_items hd hnew hslot (hmember ▸ harray) rfl hne (fun v hv => (hvs v hv).1)
      fun v hv => hok ([], v) (List.mem_map_of_mem hv)
  | @object d fields additional t entries hobject hne hkeys hnodup hdeep ih =>
    intro d₀ d' key target hd hmember hnew
    rw [leaves] at hok ⊢
    have hself : c.behind (.object fields additional t) = .ok (.object fields additional t) :=
      NamedTypes.behind_self (by simp)
    have hchild : c.fill (.object fields additional t) [] (entryLeaves entries) = .ok entries := by
      refine fill_entries hself (fun e he => ?_) hnodup
      obtain ⟨name, hname, -⟩ := hkeys e he
      refine ⟨name, hname, ih e he fun l hl => ?_⟩
      exact hok (under name l) (under_mem_entryLeaves he hname hl)
    refine fill_under hd hnew (.new hnew) (hmember ▸ hobject) rfl ?_ ?_ hchild
    · simpa [leaves] using leaves_ne_nil (.object hobject hne hkeys hnodup hdeep)
    · exact fun l hl => path_ne_nil_of_mem_entryLeaves hl

/-! ### Texts of leaves -/

theorem wireText_int_ok_iff {n : Int} : (∃ w, c.wireText (.int n) = .ok w) ↔ Json.Bounded (.int n) := by
  have hbounded : Json.Bounded (.int n) ↔ n.natAbs < 10 ^ Text.maxDigits := by
    simp [Json.Bounded, Value.subvalues]
  have hdigits : (Nat.toDigits 10 n.natAbs).length ≤ Text.maxDigits ↔ n.natAbs < 10 ^ Text.maxDigits :=
    Nat.length_toDigits_le_iff (by omega) (by decide)
  rw [hbounded, ← hdigits]
  constructor
  · rintro ⟨w, hw⟩
    obtain ⟨text, htext, -⟩ := wireText_ok hw
    have hint := written_ok (show written (intText? n) = .ok text from htext)
    unfold intText? at hint
    split at hint
    · next hmax => exact hmax
    · cases hint
  · intro hmax
    have hint : intText? n = some (intText n) := if_pos hmax
    refine ⟨_, bind_ok.2 ⟨intText n, ?_, rfl⟩⟩
    change written (intText? n) = _
    rw [hint]
    rfl

theorem IsPlain.wireText_ok_iff (h : IsPlain v) : (∃ w, c.wireText v = .ok w) ↔ Json.Bounded v := by
  cases h with
  | str s => exact iff_of_true ⟨_, rfl⟩ (by simp [Json.Bounded, Value.subvalues])
  | int n => exact wireText_int_ok_iff
  | bool b => exact iff_of_true ⟨_, rfl⟩ (by simp [Json.Bounded, Value.subvalues])

/-- The leaves of a value have texts just if no integer in it has too many digits. -/
theorem HasDeep.written_iff (h : c.HasDeep d v) : c.Written (leaves v) ↔ Json.Bounded v := by
  induction h with
  | @scalar _ v _ hplain =>
    have hleaves : leaves v = [([], v)] := by cases hplain <;> rfl
    rw [hleaves, ← hplain.wireText_ok_iff (c := c)]
    exact List.forall_mem_singleton
  | array _ _ hvs =>
    rw [leaves, Json.bounded_list_iff, Written, List.forall_mem_map]
    exact forall₂_congr fun v hv => (hvs v hv).2.wireText_ok_iff
  | object _ _ hkeys _ _ ih =>
    rw [leaves, Json.bounded_map_iff]
    constructor
    · intro hok e he
      obtain ⟨name, hname, -⟩ := hkeys e he
      exact (ih e he).1 fun l hl => hok (under name l) (under_mem_entryLeaves he hname hl)
    · intro hbounded
      apply forall_entryLeaves
      intro e he
      obtain ⟨name, hname, -⟩ := hkeys e he
      exact ⟨name, hname, (ih e he).2 (hbounded e he)⟩

/-! ### The whole way -/

/-- The values of an object are objects. -/
theorem HasDeep.of_object {fields : List Field} {additional : Additional Descriptor} {t : Traits}
    (h : c.HasDeep d v) (hd : c.behind d = .ok (.object fields additional t)) :
    ∃ entries, v = .map entries ∧ (entries.map Prod.fst).Nodup ∧ ∀ e ∈ entries, ∃ key,
      e.1 = .str key ∧ c.HasDeep (member (.object fields additional t) e.1) e.2 := by
  cases h with
  | scalar hv _ =>
    obtain ⟨e, he, -, hscalar⟩ := hv.behind
    cases hd.symm.trans he
    have hself : c.behind (.object fields additional t) = .ok (.object fields additional t) :=
      NamedTypes.behind_self (by simp)
    cases hscalar with
    | text he _ _ _ | integer he _ _ _ | boolean he _ _ | literal he _ _ _ _ _ =>
      cases hself.symm.trans he
  | array harray _ _ => cases hd.symm.trans harray
  | object hobject _ hkeys hnodup h =>
    cases hd.symm.trans hobject
    refine ⟨_, rfl, hnodup, fun e he => ?_⟩
    obtain ⟨key, hkey, -⟩ := hkeys e he
    exact ⟨key, hkey, h e he⟩

theorem HasDeep.ne_null (h : c.HasDeep d v) : v ≠ .null := by
  cases h with
  | scalar hv _ => exact hv.ne_null
  | array _ _ _ | object _ _ _ _ _ => simp

theorem Writes.written {ls : List Leaf} (h : c.Writes key ls pairs) : c.Written ls := by
  intro l hl
  obtain ⟨p, -, -, hw⟩ := Outcome.exists_mem_of_forall₂ h hl
  exact ⟨p.2, hw⟩

theorem Written.exists_writes {ls : List Leaf} (h : c.Written ls) (key : String) :
    ∃ pairs, c.Writes key ls pairs := by
  induction ls with
  | nil => exact ⟨[], .nil⟩
  | cons l ls ih =>
    obtain ⟨⟨w, hw⟩, hrest⟩ := List.forall_mem_cons.1 h
    obtain ⟨pairs, hpairs⟩ := ih hrest
    exact ⟨(keyAt key l.1, w) :: pairs, .cons ⟨rfl, hw⟩ hpairs⟩

theorem HasDeep.bounded_of_encode (h : c.HasDeep c.type v) (hshape : c.shape = .deepObject)
    {w : String} (hw : c.encode v = .ok w) : Json.Bounded v := by
  rw [encode_deep hshape h.ne_null] at hw
  obtain ⟨pairs, hpairs, -⟩ := bind_ok.1 hw
  exact h.written_iff.1 (h.deepPairs_iff.1 hpairs).written

/-- The pairs of leaves, alone in a query string. -/
theorem decode_of_writes (hshape : c.shape = .deepObject) (hlocation : c.parameter.location = .query)
    {ls : List Leaf} (h : c.Writes c.wireName ls pairs) (hne : ls ≠ []) :
    c.decode (some (Text.join "&" (pairs.map fun p => pair p.1 p.2))) = c.decodeDeep none pairs := by
  have hpair : ∀ p ∈ pairs, IsKeyText p.1 ∧ IsPairText p.2 := by
    intro p hp
    obtain ⟨l, -, hkey, hw⟩ := Outcome.exists_mem_of_forall₂ h.flip hp
    exact ⟨hkey ▸ isKeyText_keyAt (isKeyText_encode c.name) l.1, isPairText_wireText hw⟩
  have hpairs : pairs ≠ [] := by
    rintro rfl
    cases h
    exact hne rfl
  exact decode_join_pairs hshape hlocation hpairs (fun p hp => (hpair p hp).1) fun p hp => (hpair p hp).2

/-- Objects in objects come back from the wire, however deep they go, just when no integer in them has too
many digits to be written. -/
theorem decode_encode_deep_iff {p : Parameter} {m : Mapper} {st st' : MapState}
    (hcodec : (p.codec m).run.run st = (.ok c, st')) (hshape : c.shape = .deepObject)
    (hname : BracketFree c.name.toList) (hv : c.HasDeep c.type v) :
    (∃ w, c.encode v = .ok w ∧ c.decode (some w) = .ok v) ↔ Json.Bounded v := by
  obtain ⟨hlocation, fields, additional, t, hd⟩ := Parameter.deep_of_codec hcodec hshape
  constructor
  · rintro ⟨w, hw, -⟩
    exact hv.bounded_of_encode hshape hw
  · intro hbounded
    have hok := hv.written_iff.2 hbounded
    obtain ⟨pairs, hpairs⟩ := hok.exists_writes c.wireName
    refine ⟨_, encode_of_deepPairs hshape hv.ne_null (hv.deepPairs_iff.2 hpairs), ?_⟩
    rw [decode_of_writes hshape hlocation hpairs hv.leaves_ne_nil]
    obtain ⟨entries, rfl, hnodup, hentries⟩ := hv.of_object hd
    rw [leaves] at hok hpairs
    refine decodeDeep_of_writes hname hpairs (fun l hl => ?_) (.inr ?_) ?_
    · exact ⟨path_ne_nil_of_mem_entryLeaves hl, hv.bracketFree l (by rwa [leaves])⟩
    · simpa [leaves] using hv.leaves_ne_nil
    · refine fill_entries hd (fun e he => ?_) hnodup
      obtain ⟨key, hkey, hmember⟩ := hentries e he
      refine ⟨key, hkey, hmember.fills fun l hl => ?_⟩
      exact hok (under key l) (under_mem_entryLeaves he hkey hl)

/-- A parameter whose type goes as deep as one likes. -/
def outline : Parameter :=
  { name := "in outline", location := .query, style := .deepObject, explode := true, required := false,
    schema := some "#/Outline" }

def outlineMapper : Mapper :=
  { table := { nodes := [
      ("#/label", { id := "#/label", kind := .primitive, type := .str "string" }),
      ("#/size", { id := "#/size", kind := .primitive, type := .str "integer" }),
      ("#/mark", { id := "#/mark", kind := .primitive, type := .str "boolean" }),
      ("#/marks", { id := "#/marks", kind := .array, items := some "#/mark" }),
      ("#/below", { id := "#/below", kind := .recursive, target := some "#/Outline" }),
      ("#/Outline", { id := "#/Outline", kind := .object, properties := [
        { name := .str "label", node := "#/label" }, { name := .str "size", node := "#/size" },
        { name := .str "marks", node := "#/marks" }, { name := .str "below", node := "#/below" }] })] }
    recursive := ["#/Outline"]
    names := [("#/Outline", .str "Outline")] }

def outlineType : Descriptor :=
  .object [
    { name := .str "label", type := .primitive .string { source := some "#/label" },
      optionality := .optional, required := false },
    { name := .str "size", type := .primitive .integer { source := some "#/size" },
      optionality := .optional, required := false },
    { name := .str "marks",
      type := .array (.primitive .boolean { source := some "#/mark" }) { source := some "#/marks" },
      optionality := .optional, required := false },
    { name := .str "below",
      type := .reference (.str "Outline") { recursive := true, source := some "#/below" },
      optionality := .optional, required := false }] .unspecified
    { recursive := true, source := some "#/Outline" }

def outlineCodec : Codec :=
  { parameter := outline
    shape := .deepObject
    type := .reference (.str "Outline") { recursive := true, source := some "#/Outline" }
    types := [(.str "Outline", outlineType)] }

/-- An outline with another below it, which has a third. -/
def outlineValue : Value :=
  .map [(.str "label", .str "a=[b]&c"),
    (.str "below", .map [(.str "marks", .list [.bool true, .bool false]),
      (.str "below", .map [(.str "size", .int (-7))])])]

theorem outline_size (hd : outlineCodec.behind d = .ok outlineType) (n : Int) :
    outlineCodec.HasDeep d (.map [(.str "size", .int n)]) := by
  refine .object hd (by simp) ?_ (by simp) ?_
  · exact List.forall_mem_singleton.2 ⟨"size", rfl, by decide⟩
  · exact List.forall_mem_singleton.2 (.scalar (.integer rfl rfl (.inl rfl) n) (.int n))

theorem outline_hasDeep : outlineCodec.HasDeep outlineCodec.type outlineValue := by
  refine .object rfl (by simp) ?_ (by simp) ?_
  · simp only [List.forall_mem_cons]
    exact ⟨⟨"label", rfl, by decide⟩, ⟨"below", rfl, by decide⟩, List.forall_mem_nil _⟩
  · simp only [List.forall_mem_cons]
    refine ⟨.scalar (.text rfl rfl rfl _) (.str _), .object rfl (by simp) ?_ (by simp) ?_,
      List.forall_mem_nil _⟩
    · simp only [List.forall_mem_cons]
      exact ⟨⟨"marks", rfl, by decide⟩, ⟨"below", rfl, by decide⟩, List.forall_mem_nil _⟩
    · simp only [List.forall_mem_cons]
      refine ⟨.array rfl (by simp) ?_, outline_size rfl (-7), List.forall_mem_nil _⟩
      simp only [List.forall_mem_cons]
      exact ⟨⟨.boolean rfl rfl _, .bool _⟩, ⟨.boolean rfl rfl _, .bool _⟩, List.forall_mem_nil _⟩

theorem outline_decode_encode_deep :
    (∃ st, (outline.codec outlineMapper).run.run {} = (.ok outlineCodec, st)) ∧
    outlineCodec.encode outlineValue =
      .ok ("in%20outline[label]=a%3D%5Bb%5D%26c&in%20outline[below][marks]=true" ++
        "&in%20outline[below][marks]=false&in%20outline[below][below][size]=-7") ∧
    outlineCodec.decode
      (some ("in%20outline[label]=a%3D%5Bb%5D%26c&in%20outline[below][marks]=true" ++
        "&in%20outline[below][marks]=false&in%20outline[below][below][size]=-7")) =
      .ok outlineValue := by
  have hcodec : (outline.codec outlineMapper).run.run {} = (.ok outlineCodec, _) := rfl
  have hbounded : Json.Bounded outlineValue := by
    intro n hn
    have hseven : n = -7 := by
      simpa [outlineValue, Value.subvalues, Value.itemSubvalues, Value.entrySubvalues] using hn
    rw [hseven]
    exact Nat.lt_of_lt_of_le (show 7 < 10 ^ 1 by decide) (Nat.pow_le_pow_right (by decide) (by decide))
  obtain ⟨w, hw, hdecode⟩ :=
    (decode_encode_deep_iff hcodec rfl (by decide) outline_hasDeep).2 hbounded
  have hencode : outlineCodec.encode outlineValue =
    .ok ("in%20outline[label]=a%3D%5Bb%5D%26c&in%20outline[below][marks]=true" ++
      "&in%20outline[below][marks]=false&in%20outline[below][below][size]=-7") := rfl
  obtain rfl := Except.ok.inj (hw.symm.trans hencode)
  exact ⟨⟨_, hcodec⟩, hencode, hdecode⟩

theorem outline_decode_size {text : String} (h : Text.readInt? text = none) :
    outlineCodec.decode (some (pair (keyAt outlineCodec.wireName ["size"]) (Percent.encode text false))) =
      outlineCodec.fail (.notInteger text) := by
  have hmember : outlineCodec.behind (member outlineType (.str "size")) =
    .ok (.primitive .integer { source := some "#/size" }) := rfl
  have hread : outlineCodec.read (Percent.encode text false)
      (.primitive .integer { source := some "#/size" }) = outlineCodec.fail (.notInteger text) := by
    have hprimitive : outlineCodec.read (Percent.encode text false)
        (.primitive .integer { source := some "#/size" }) = outlineCodec.readPrimitive text .integer := by
      rw [read, Percent.decode?_encode]
      rfl
    rw [hprimitive, readPrimitive, h]
  have hkey : IsKeyText (keyAt outlineCodec.wireName ["size"]) := isKeyText_keyAt (isKeyText_encode _) _
  have hpair : outlineCodec.decode (some (Text.join "&" ([(keyAt outlineCodec.wireName ["size"],
      Percent.encode text false)].map fun p => pair p.1 p.2))) = _ :=
    decode_join_pairs rfl rfl (by simp) (List.forall_mem_singleton.2 hkey)
      (List.forall_mem_singleton.2 (isPairText_encode _ _))
  rw [decodeDeep_pair, bracketPath?_keyAt (by decide) (by decide) (by simp),
    Outcome.bind_of_ok rfl] at hpair
  dsimp only at hpair
  rw [assign_last rfl hmember (by simp), hread] at hpair
  exact hpair

/-- A number of one digit too many is neither written nor read. -/
theorem outline_large_integer :
    outlineCodec.HasDeep outlineCodec.type (.map [(.str "size", .int (10 ^ Text.maxDigits))]) ∧
    (∀ w, outlineCodec.encode (.map [(.str "size", .int (10 ^ Text.maxDigits))]) ≠ .ok w) ∧
    outlineCodec.decode (some (pair (keyAt outlineCodec.wireName ["size"])
      (Percent.encode (intText (10 ^ Text.maxDigits)) false))) =
        outlineCodec.fail (.notInteger (intText (10 ^ Text.maxDigits))) := by
  have habs : (10 ^ Text.maxDigits : Int).natAbs = 10 ^ Text.maxDigits := by
    rw [Int.natAbs_pow, show Int.natAbs 10 = 10 from rfl]
  have hv : outlineCodec.HasDeep outlineCodec.type (.map [(.str "size", .int (10 ^ Text.maxDigits))]) :=
    outline_size rfl _
  refine ⟨hv, fun w hw => ?_, ?_⟩
  · have hbounded := Json.bounded_map_iff.1 (hv.bounded_of_encode rfl hw) _ (List.mem_singleton_self _)
    have hlt := hbounded _ (Value.mem_subvalues_self _)
    rw [habs] at hlt
    exact absurd hlt (Nat.lt_irrefl _)
  · apply outline_decode_size
    rw [readInt?_intText_eq, habs, if_neg]
    rw [Nat.length_toDigits_le_iff (by omega) (by decide)]
    exact Nat.lt_irrefl _

end Codec
end OpenApi
