import Mathlib.Algebra.Group.Nat.Defs
import OpenApi.Proofs.Operation.Keys
import OpenApi.Proofs.Pointer
import OpenApi.Proofs.Text.Number

/-!
Where pointers lead. A pointer that is put together step by step, on a way through mappings, lists and
references of a document whose keys are texts, leads back to the value at the end of the way.
-/
namespace OpenApi

open Document (walk step? tokenNumber)
open Pointer (child)

variable {doc v w : Value} {pointer : String}

/-- The keys of all mappings in a value are texts, none of them twice. -/
structure Value.Keyed (v : Value) : Prop where
  text : ∀ w ∈ v.subvalues, ∀ k ∈ w.keys, (Value.scalar k).str?.isSome = true
  apart : v.KeysApart

theorem Value.Keyed.exists_str (h : doc.Keyed) {entries : Entries} (hmem : .map entries ∈ doc.subvalues)
    {e : Scalar × Value} (he : e ∈ entries) : ∃ s, e.1 = .str s := by
  have htext := h.text _ hmem e.1 (List.mem_map_of_mem he)
  cases hkey : e.1 with
  | str s => exact ⟨s, rfl⟩
  | _ =>
    rw [hkey] at htext
    cases htext

namespace Document

theorem decimalValue?_of_isDigit {c : Char} (h : c.isDigit = true) :
    Text.decimalValue? c = some (c.toNat - '0'.toNat) := by
  obtain ⟨hlow, hhigh⟩ := Text.toNat_of_isDigit h
  rw [Text.decimalValue?, if_pos (by omega), if_pos h]
  rfl

theorem tokenNumber_repr {n : Nat} (h : (Nat.toDigits 10 n).length ≤ Text.maxDigits) :
    tokenNumber (Nat.repr n) = .ok n := by
  have hfold : ∀ (f : Nat → Char → Checked Nat) (ds : List Char) (init : Nat),
      (∀ c ∈ ds, ∀ n, f n c = .ok (10 * n + (c.toNat - '0'.toNat))) →
        ds.foldlM f init = .ok (Nat.ofDigitChars 10 ds init) := by
    intro f ds
    induction ds with
    | nil => exact fun _ _ => rfl
    | cons c ds ih =>
      intro init hf
      obtain ⟨hc, hds⟩ := List.forall_mem_cons.1 hf
      rw [List.foldlM_cons, hc]
      exact ih _ hds
  unfold tokenNumber
  rw [Nat.toList_repr]
  dsimp only
  rw [if_neg (by omega)]
  refine (hfold _ _ 0 fun c hc n => ?_).trans (congrArg Except.ok Nat.ofDigitChars_ten_toDigits)
  rw [decimalValue?_of_isDigit (isDigit_of_mem_toDigits hc)]

theorem isNumeral_repr (n : Nat) : Text.isNumeral (Nat.repr n) = true := by
  have hall : (Nat.repr n).toList.all Text.isDigit = true := by
    rw [Nat.toList_repr, List.all_eq_true]
    intro c hc
    rw [Text.isDigit, isDecimal_of_isDigit (isDigit_of_mem_toDigits hc), Bool.true_or]
  have hne : (Nat.repr n).isEmpty = false := by
    rw [Bool.eq_false_iff, ne_eq, String.isEmpty_iff]
    intro heq
    have hnil := congrArg String.toList heq
    rw [Nat.toList_repr] at hnil
    exact Nat.toDigits_ne_nil hnil
  rw [Text.isNumeral, hne, hall]
  rfl

/-- An index leads to its item. -/
theorem step?_index {items : List Value} {i : Nat} (hi : items[i]? = some w)
    (hdigits : (Nat.toDigits 10 i).length ≤ Text.maxDigits) :
    step? (.list items) (Nat.repr i) = .ok (some w) := by
  rw [step?, if_pos (isNumeral_repr i), tokenNumber_repr hdigits]
  exact congrArg Except.ok hi

theorem step?_key {entries : Entries} {key : String} (h : entries.get? key = some w) :
    step? (.map entries) key = .ok (some w) := by
  rw [step?, h]

theorem walk_append (pointer : String) (v : Value) (ts us : List String) :
    walk pointer v (ts ++ us) = walk pointer v ts >>= fun w => walk pointer w us := by
  induction ts generalizing v with
  | nil => rfl
  | cons t ts ih =>
    rw [List.cons_append, walk, walk]
    cases step? v t with
    | error e => rfl
    | ok next =>
      cases next with
      | none => rfl
      | some next => exact ih next

/-- The pointer is for the message of a fault. -/
theorem walk_ok_congr {ts : List String} (h : walk pointer v ts = .ok w) (q : String) :
    walk q v ts = .ok w := by
  induction ts generalizing v with
  | nil => exact h
  | cons t ts ih =>
    rw [walk] at h ⊢
    obtain ⟨next, hnext, h⟩ := Outcome.bind_ok.1 h
    rw [hnext]
    cases next with
    | none => cases h
    | some next => exact ih h

/-- A pointer with one more token leads one step further. -/
theorem resolve_child {token : String} : resolve doc (child pointer token) = .ok w ↔
    ∃ v, resolve doc pointer = .ok v ∧ step? v token = .ok (some w) := by
  have hone : ∀ q v, walk q v [token] = .ok w ↔ step? v token = .ok (some w) := by
    intro q v
    rw [walk]
    cases step? v token with
    | error e => exact iff_of_false (by rintro ⟨⟩) (by rintro ⟨⟩)
    | ok next =>
      cases next with
      | none => exact iff_of_false (by rintro ⟨⟩) (by rintro ⟨⟩)
      | some next => exact ⟨fun h => congrArg _ (congrArg _ (Except.ok.inj h)), fun h => by cases h; rfl⟩
  simp only [resolve, Outcome.bind_ok, Pointer.tokens_child]
  constructor
  · rintro ⟨_, ⟨us, hus, rfl⟩, hwalk⟩
    rw [walk_append, Outcome.bind_ok] at hwalk
    obtain ⟨v, hv, hstep⟩ := hwalk
    exact ⟨v, ⟨us, hus, walk_ok_congr hv pointer⟩, (hone _ v).1 hstep⟩
  · rintro ⟨v, ⟨us, hus, hv⟩, hstep⟩
    refine ⟨us ++ [token], ⟨us, hus, rfl⟩, ?_⟩
    rw [walk_append, walk_ok_congr hv]
    exact (hone _ v).2 hstep

/-- Pointers are paths of tokens. Escaping a token is one replacement after the other, and so is undoing it. The
tokens of a pointer are those that it was joined of. The canonical pointer of a reference has the tokens of the
reference, so references are spelt alike if and only if their tokens are the same. One more token is one more
step: it fails if and only if the step fails, or the pointer before it. -/
theorem pointers_are_paths :
    (∀ token, Pointer.escape token = Text.replace (Text.replace token "~" "~0") "/" "~1" ∧
      Pointer.unescape token = Text.replace (Text.replace token "~1" "/") "~0" "~") ∧
    (∀ ts, Pointer.tokens (Pointer.join "#" ts) = .ok ts) ∧
    (∀ ref, (Pointer.normalize ref >>= Pointer.tokens) = Pointer.refTokens ref) ∧
    (∀ ref ref', Pointer.normalize ref = Pointer.normalize ref' ↔
      Pointer.refTokens ref = Pointer.refTokens ref') ∧
    ∀ doc pointer token,
      (∀ w, resolve doc (child pointer token) = .ok w ↔
        ∃ v, resolve doc pointer = .ok v ∧ step? v token = .ok (some w)) ∧
      ((∃ e, resolve doc (child pointer token) = .error e) ↔
        (∃ e, resolve doc pointer = .error e) ∨
          ∃ v, resolve doc pointer = .ok v ∧ ∀ w, step? v token ≠ .ok (some w)) := by
  refine ⟨fun token => ⟨Pointer.escape_eq_replace token, Pointer.unescape_eq_replace token⟩,
    Pointer.tokens_join, Pointer.tokens_normalize, fun ref ref' => ⟨fun h => ?_, fun h => ?_⟩,
    fun doc pointer token => ⟨fun w => resolve_child, ?_⟩⟩
  · rw [← Pointer.tokens_normalize ref, h, Pointer.tokens_normalize]
  · rw [Pointer.normalize, Pointer.normalize, h]
  · -- what does not fail leads somewhere
    have hchild : ∀ w, resolve doc (child pointer token) = .ok w ↔ _ := fun w => resolve_child
    cases hfound : resolve doc (child pointer token) with
    | ok w =>
      obtain ⟨v, hv, hstep⟩ := (hchild w).1 hfound
      rw [hv]
      simp [hstep]
    | error e =>
      rw [hfound] at hchild
      cases hv : resolve doc pointer with
      | error e => simp
      | ok v =>
        have hfails : ∀ w, step? v token ≠ .ok (some w) :=
          fun w hstep => nomatch (hchild w).2 ⟨v, hv, hstep⟩
        simp [hfails]

end Document

/-- The value that stands in a document at the end of a pointer. -/
def At (doc : Value) (pointer : String) (v : Value) : Prop :=
  ∃ ts, pointer = Pointer.join "#" ts ∧ walk pointer doc ts = .ok v

namespace At

theorem root (doc : Value) : At doc "#" doc := ⟨[], rfl, rfl⟩

theorem resolve (h : At doc pointer v) : Document.resolve doc pointer = .ok v := by
  obtain ⟨ts, rfl, hwalk⟩ := h
  exact Outcome.bind_ok.2 ⟨ts, Pointer.tokens_join ts, hwalk⟩

theorem of_resolve {ref : String} (hnormalize : Pointer.normalize ref = .ok pointer)
    (h : Document.resolve doc pointer = .ok v) : At doc pointer v := by
  obtain ⟨ts, -, rfl⟩ := Outcome.bind_pure_ok.1 hnormalize
  obtain ⟨us, hus, hwalk⟩ := Outcome.bind_ok.1 h
  obtain rfl := Except.ok.inj ((Pointer.tokens_join ts).symm.trans hus)
  exact ⟨ts, rfl, hwalk⟩

theorem mem (h : At doc pointer v) : v ∈ doc.subvalues := Document.mem_of_resolve h.resolve

theorem step {token : String} (h : At doc pointer v) (hstep : step? v token = .ok (some w)) :
    At doc (child pointer token) w := by
  obtain ⟨ts, rfl, hwalk⟩ := h
  refine ⟨ts ++ [token], (List.foldl_append ..).symm, ?_⟩
  rw [Document.walk_append, Document.walk_ok_congr hwalk, Outcome.bind_of_ok rfl, walk, hstep]
  rfl

theorem getD {key : String} {default : Value} (h : At doc pointer v) (hv : v.getD key default = .ok w) :
    At doc (child pointer key) w ∨ w = default := by
  obtain ⟨entries, hentries, rfl⟩ := Outcome.bind_pure_ok.1 hv
  obtain rfl := Value.entries_ok hentries
  cases hfound : entries.get? key with
  | none => exact .inr rfl
  | some x => exact .inl (h.step (Document.step?_key hfound))

/-- References lead to values that stand where their pointers lead. -/
theorem deref {q : String} (h : At doc pointer v) (hd : Document.deref doc v pointer = .ok (w, q)) :
    At doc q w := by
  obtain ⟨-, trail, hforwards⟩ := Document.follow_ok hd
  rcases hforwards.resolve_end with ⟨rfl, rfl⟩ | ⟨⟨ref, hnormalize⟩, hresolve⟩
  · exact h
  · exact .of_resolve hnormalize hresolve

theorem index {items : List Value} {i : Nat} (h : At doc pointer (.list items))
    (hsize : doc.size ≤ 10 ^ Text.maxDigits) (hi : items[i]? = some w) :
    At doc (child pointer (Nat.repr i)) w := by
  refine h.step (Document.step?_index hi ?_)
  have hlength : items.length < doc.size := by
    have hle := Value.size_le_of_mem h.mem
    have hitems := Value.length_le_sizeItems items
    rw [Value.size] at hle
    omega
  have hlt : i < items.length := (List.getElem?_eq_some_iff.1 hi).1
  rw [Nat.length_toDigits_le_iff (by decide) (by decide)]
  omega

theorem entry {entries : Entries} {e : Scalar × Value} {name : String} (hkeyed : doc.Keyed)
    (h : At doc pointer (.map entries)) (he : e ∈ entries) (hname : e.1.text = .ok name) :
    At doc (child pointer name) e.2 := by
  obtain ⟨s, hs⟩ := hkeyed.exists_str h.mem he
  obtain ⟨k, x⟩ := e
  obtain rfl : k = .str s := hs
  obtain rfl : s = name := Except.ok.inj hname
  exact h.step (Document.step?_key (Entries.get?_of_mem (hkeyed.apart _ h.mem) he))

end At

theorem Value.nth_of_nonneg {items : List Value} {n : Int} (hn : 0 ≤ n) (h : nth items n = .ok w) :
    items[n.toNat]? = some w := by
  simp only [nth, if_neg (Int.not_lt.2 hn)] at h
  split at h
  · next hfound =>
    cases h
    exact hfound
  · cases h

theorem Value.text_of_nonneg {n : Int} {text : String} (hn : 0 ≤ n) (h : (Value.int n).text = .ok text) :
    text = Nat.repr n.toNat := by
  change written (intText? n) = .ok text at h
  unfold intText? at h
  split at h
  · obtain rfl := Except.ok.inj h
    rw [intText, if_neg (Int.not_lt.2 hn), show n.natAbs = n.toNat by omega]
  · cases h

/-- A text or number leads to what is found by it, unless the number counts from the end. -/
theorem At.item {key : Value} {text : String} (hkeyed : doc.Keyed)
    (hsize : doc.size ≤ 10 ^ Text.maxDigits) (h : At doc pointer v) (hitem : v.item key = .ok w)
    (htext : key.text = .ok text) (hbool : v.isMap = false → ∀ b, key ≠ .bool b)
    (hint : v.isMap = false → ∀ n : Int, key = .int n → 0 ≤ n) :
    At doc (child pointer text) w := by
  unfold Value.item at hitem
  split at hitem
  · next entries k =>
    split at hitem
    · next hfound =>
      cases hitem
      obtain ⟨k', hk', hsame⟩ := Entries.mem_of_find? hfound
      obtain ⟨s, rfl⟩ : ∃ s, k' = .str s := hkeyed.exists_str h.mem hk'
      obtain rfl := Scalar.str_same_iff.1 hsame
      obtain rfl : s = text := Except.ok.inj htext
      exact h.step (Document.step?_key hfound)
    · cases hitem
  · next items n =>
    have hn := hint rfl n rfl
    rw [Value.text_of_nonneg hn htext]
    exact h.index hsize (Value.nth_of_nonneg hn hitem)
  · exact absurd rfl (hbool rfl _)
  · cases hitem

end OpenApi
