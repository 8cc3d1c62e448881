import Mathlib.Data.List.SplitBy
import Mathlib.Data.List.Pairwise
import OpenApi.Parameter.Style
import OpenApi.Proofs.Text.Utf8
import OpenApi.Text.Percent

/-!
Percent encoding: a text that was encoded is read back, and its encoded form holds none of the
characters that delimit texts on the wire. It is made of unreserved characters and whole triples, so
what looks like the triple of a space is one.
-/
namespace OpenApi

theorem Utf8.octet_cases {c : Char} {b : Nat} (h : b ∈ Utf8.octets c) :
    b = c.toNat ∧ b < 0x80 ∨ 0x80 ≤ b ∧ b < 256 := by
  have hvalid := Utf8.toNat_valid c
  unfold Utf8.octets at h
  dsimp only at h
  split at h
  · simp only [List.mem_singleton] at h
    omega
  · split at h
    · simp only [List.mem_cons, List.not_mem_nil, or_false] at h
      omega
    · split at h <;> simp only [List.mem_cons, List.not_mem_nil, or_false] at h <;> omega

theorem Utf8.octets_lt {c : Char} {b : Nat} (h : b ∈ Utf8.octets c) : b < 256 := by
  have hcases := octet_cases h
  omega

/-- Among the characters only a space has the octet of a space. -/
theorem Utf8.eq_space_of_mem_octets {c : Char} (h : 0x20 ∈ Utf8.octets c) : c = ' ' := by
  have hcases := octet_cases h
  have hn : c.toNat = 0x20 := by omega
  rw [← Char.ofNat_toNat c, hn]

namespace Percent

variable {dot : Bool} {c : Char} {octet : Nat} {s : String}

/-! ### Characters of encoded text -/

/-- The characters of encoded text. -/
def isWire (dotDelimits : Bool) (c : Char) : Bool :=
  (isUnreserved c && !(c == '.' && dotDelimits)) || c == '%'

theorem ne_percent_of_kept (h : (isUnreserved c && !(c == '.' && dot)) = true) : c ≠ '%' := by
  rintro rfl
  revert h
  cases dot <;> decide

theorem hexDigit_isAlphanum : ∀ n < 16, (hexDigit n).isAlphanum = true := by decide

theorem isWire_of_isAlphanum (h : c.isAlphanum = true) : isWire dot c = true := by
  have hdot : c ≠ '.' := by
    rintro rfl
    revert h
    decide
  simp [isWire, isUnreserved, h, hdot]

theorem isWire_of_mem_triple (h : octet < 256) (hc : c ∈ triple octet) : isWire dot c = true := by
  simp only [triple, List.mem_cons, List.not_mem_nil, or_false] at hc
  rcases hc with rfl | rfl | rfl
  · simp [isWire]
  · exact isWire_of_isAlphanum (hexDigit_isAlphanum _ (by omega))
  · exact isWire_of_isAlphanum (hexDigit_isAlphanum _ (by omega))

theorem isWire_of_mem_encodeChar {d : Char} (h : d ∈ encodeChar dot c) : isWire dot d = true := by
  unfold encodeChar at h
  split at h
  · next hc =>
    rw [List.mem_singleton] at h
    rw [h, isWire, hc, Bool.true_or]
  · obtain ⟨octet, hoctet, hd⟩ := List.mem_flatMap.1 h
    exact isWire_of_mem_triple (Utf8.octets_lt hoctet) hd

theorem isWire_of_mem_encode (h : c ∈ (encode s dot).toList) : isWire dot c = true := by
  rw [encode, String.toList_ofList] at h
  obtain ⟨d, -, hc⟩ := List.mem_flatMap.1 h
  exact isWire_of_mem_encodeChar hc

theorem isWire_true (h : isWire true c = true) : isWire dot c = true := by
  revert h
  unfold isWire
  cases dot
  · simp
    tauto
  · simp

theorem isAlphanum_iff : c.isAlphanum = true ↔
    (48 ≤ c.toNat ∧ c.toNat ≤ 57) ∨ (65 ≤ c.toNat ∧ c.toNat ≤ 90) ∨
      (97 ≤ c.toNat ∧ c.toNat ≤ 122) := by
  change ((decide (65 ≤ c.val ∧ c.val ≤ 90) || (decide (97 ≤ c.val) && decide (c.val ≤ 122))) ||
    (decide (48 ≤ c.val) && decide (c.val ≤ 57))) = true ↔ _
  simp only [Bool.or_eq_true, Bool.and_eq_true, decide_eq_true_eq, UInt32.le_iff_toNat_le]
  change (((65 ≤ c.toNat ∧ c.toNat ≤ 90) ∨ (97 ≤ c.toNat ∧ c.toNat ≤ 122)) ∨
    (48 ≤ c.toNat ∧ c.toNat ≤ 57)) ↔ _
  tauto

/-- Characters of encoded text lie between the first and the last visible character of ASCII. -/
theorem toNat_of_isWire (h : isWire dot c = true) : 0x21 ≤ c.toNat ∧ c.toNat ≤ 0x7e := by
  have hcases : c.isAlphanum = true ∨ c = '-' ∨ c = '_' ∨ c = '.' ∨ c = '~' ∨ c = '%' := by
    simp only [isWire, isUnreserved, Bool.or_eq_true, Bool.and_eq_true, beq_iff_eq] at h
    tauto
  rcases hcases with h | rfl | rfl | rfl | rfl | rfl
  · rw [isAlphanum_iff] at h
    omega
  all_goals decide

theorem isAscii_of_isWire (h : isWire dot c = true) : isAscii c = true := by
  have hc := toNat_of_isWire h
  simp only [isAscii, decide_eq_true_eq]
  omega

/-! ### Reading back -/

theorem hexValue?_hexDigit : ∀ n < 16, hexValue? (hexDigit n) = some n := by decide

theorem octets_triple (h : octet < 256) (rest : List Char) :
    octets (triple octet ++ rest) = octet :: octets rest := by
  have hhigh := hexValue?_hexDigit (octet / 16) (by omega)
  have hlow := hexValue?_hexDigit (octet % 16) (by omega)
  have hvalue : 16 * (octet / 16) + octet % 16 = octet := by omega
  simp only [triple, List.cons_append, List.nil_append]
  rw [octets, hhigh, hlow]
  simp only [hvalue]

theorem octets_flatMap_triple {os : List Nat} (h : ∀ o ∈ os, o < 256) (rest : List Char) :
    octets (os.flatMap triple ++ rest) = os ++ octets rest := by
  induction os with
  | nil => rfl
  | cons o os ih =>
    obtain ⟨ho, hos⟩ := List.forall_mem_cons.1 h
    rw [List.flatMap_cons, List.append_assoc, octets_triple ho, ih hos, List.cons_append]

theorem octets_cons (h : c ≠ '%') (rest : List Char) : octets (c :: rest) = c.toNat :: octets rest := by
  rw [octets]
  intro a b rest' hc
  exact absurd hc h

theorem octets_encodeChar (dot : Bool) (c : Char) (rest : List Char) :
    octets (encodeChar dot c ++ rest) = Utf8.octets c ++ octets rest := by
  unfold encodeChar
  split
  · next hc =>
    have hwire : isWire dot c = true := by rw [isWire, hc, Bool.true_or]
    have hrange := toNat_of_isWire hwire
    have hone : Utf8.octets c = [c.toNat] := by
      unfold Utf8.octets
      exact if_pos (by omega)
    rw [hone, List.singleton_append, List.singleton_append,
      octets_cons (ne_percent_of_kept hc)]
  · exact octets_flatMap_triple (fun o ho => Utf8.octets_lt ho) rest

theorem octets_encode (dot : Bool) (cs : List Char) :
    octets (cs.flatMap (encodeChar dot)) = cs.flatMap Utf8.octets := by
  induction cs with
  | nil => rfl
  | cons c cs ih => rw [List.flatMap_cons, octets_encodeChar, ih, List.flatMap_cons]

/-- A text that is ASCII throughout is one run. -/
theorem scan_of_ascii (h : ∀ c ∈ s.toList, isAscii c = true) : scan s = Utf8.scan (octets s.toList) := by
  unfold scan
  by_cases hnil : s.toList = []
  · rw [hnil]
    rfl
  · have hchain : s.toList.IsChain fun a b => (isAscii a == isAscii b) = true := by
      apply List.Pairwise.isChain
      apply List.pairwise_of_forall_mem_list
      intro a ha b hb
      rw [h a ha, h b hb, beq_self_eq_true]
    rw [List.splitBy_of_isChain hnil hchain, List.flatMap_singleton, scanRun,
      if_pos (List.all_eq_true.2 h)]

theorem decode?_encode (s : String) (dot : Bool) : decode? (encode s dot) = some s := by
  have hascii : ∀ c ∈ (encode s dot).toList, isAscii c = true :=
    fun c hc => isAscii_of_isWire (isWire_of_mem_encode hc)
  rw [decode?, scan_of_ascii hascii, encode, String.toList_ofList, octets_encode,
    Utf8.scan_flatMap_octets, Utf8.collect?_map_some, Option.map_some, String.ofList_toList]

theorem decodeLossy_encode (s : String) (dot : Bool) : decodeLossy (encode s dot) = s := by
  have hcollect : ∀ {marks cs}, Utf8.collect? marks = some cs → Utf8.collectLossy marks = cs := by
    intro marks
    induction marks with
    | nil =>
      intro cs h
      exact Option.some.inj h
    | cons mark rest ih =>
      intro cs h
      cases mark with
      | none => cases h
      | some c =>
        obtain ⟨ds, hds, rfl⟩ := Option.map_eq_some_iff.1 h
        exact congrArg (c :: ·) (ih hds)
  obtain ⟨cs, hcs, hs⟩ := Option.map_eq_some_iff.1 (decode?_encode s dot)
  rw [decodeLossy, hcollect hcs, hs]

theorem encode_inj {t : String} (h : encode s dot = encode t dot) : s = t := by
  have hs := decode?_encode s dot
  rw [h, decode?_encode] at hs
  exact (Option.some.inj hs).symm

theorem encode_eq_empty_iff : encode s dot = "" ↔ s = "" := by
  constructor
  · intro h
    exact encode_inj (h.trans rfl)
  · rintro rfl
    rfl

/-! ### Whole triples -/

/-- Two characters follow every `%`. -/
def Whole (cs : List Char) : Prop :=
  ∀ before behind, cs = before ++ '%' :: behind → 2 ≤ behind.length

theorem Whole.append {a b : List Char} (ha : Whole a) (hb : Whole b) : Whole (a ++ b) := by
  intro before behind h
  rcases List.append_eq_append_iff.1 h with ⟨mid, -, hmid⟩ | ⟨mid, hmid, hrest⟩
  · exact hb mid behind hmid
  · cases mid with
    | nil => exact hb [] behind hrest.symm
    | cons c mid =>
      rw [List.cons_append, List.cons.injEq] at hrest
      obtain ⟨rfl, rfl⟩ := hrest
      have hlen := ha before mid hmid
      rw [List.length_append]
      omega

theorem Whole.flatMap {α : Type} {f : α → List Char} {xs : List α} (h : ∀ x ∈ xs, Whole (f x)) :
    Whole (xs.flatMap f) := by
  induction xs with
  | nil =>
    intro before behind hnil
    simp at hnil
  | cons x xs ih =>
    obtain ⟨hx, hxs⟩ := List.forall_mem_cons.1 h
    exact hx.append (ih hxs)

theorem whole_singleton (h : c ≠ '%') : Whole [c] := by
  intro before behind heq
  have hmem : '%' ∈ [c] := by
    rw [heq]
    simp
  exact absurd (List.mem_singleton.1 hmem).symm h

theorem hexDigit_ne_percent : ∀ n < 16, hexDigit n ≠ '%' := by decide

theorem whole_triple (h : octet < 256) : Whole (triple octet) := by
  intro before behind heq
  rw [triple] at heq
  cases before with
  | nil =>
    rw [List.nil_append, List.cons.injEq] at heq
    rw [← heq.2]
    exact Nat.le_refl 2
  | cons c before =>
    have hrest := (whole_singleton (hexDigit_ne_percent (octet / 16) (by omega))).append
      (whole_singleton (hexDigit_ne_percent (octet % 16) (by omega)))
    exact hrest before behind (List.cons.inj heq).2

theorem whole_encode (s : String) (dot : Bool) : Whole (encode s dot).toList := by
  rw [encode, String.toList_ofList]
  apply Whole.flatMap
  intro c _
  unfold encodeChar
  split
  · next hc => exact whole_singleton (ne_percent_of_kept hc)
  · exact Whole.flatMap fun o ho => whole_triple (Utf8.octets_lt ho)

/-! ### The form of encoded text -/

/-- A hexadecimal digit in capitals. -/
def isUpperHex (c : Char) : Bool := c.isDigit || ('A' ≤ c && c ≤ 'F')

/-- Unreserved characters and triples, one after the other. -/
inductive Escaped : List Char → Prop
  | nil : Escaped []
  | unreserved {c : Char} {rest : List Char} (hc : isUnreserved c = true) (h : Escaped rest) :
      Escaped (c :: rest)
  | triple {a b : Char} {rest : List Char} (ha : isUpperHex a = true) (hb : isUpperHex b = true)
      (h : Escaped rest) : Escaped ('%' :: a :: b :: rest)

theorem Escaped.append {a b : List Char} (ha : Escaped a) (hb : Escaped b) : Escaped (a ++ b) := by
  induction ha with
  | nil => exact hb
  | unreserved hc _ ih => exact .unreserved hc ih
  | triple hx hy _ ih => exact .triple hx hy ih

theorem Escaped.flatMap {α : Type} {f : α → List Char} {xs : List α} (h : ∀ x ∈ xs, Escaped (f x)) :
    Escaped (xs.flatMap f) := by
  induction xs with
  | nil => exact .nil
  | cons x xs ih =>
    obtain ⟨hx, hxs⟩ := List.forall_mem_cons.1 h
    exact hx.append (ih hxs)

theorem isUpperHex_hexDigit : ∀ n < 16, isUpperHex (hexDigit n) = true := by decide

theorem escaped_triple (h : octet < 256) : Escaped (triple octet) :=
  .triple (isUpperHex_hexDigit _ (by omega)) (isUpperHex_hexDigit _ (by omega)) .nil

theorem escaped_encode (s : String) (dot : Bool) : Escaped (encode s dot).toList := by
  rw [encode, String.toList_ofList]
  apply Escaped.flatMap
  intro c _
  unfold encodeChar
  split
  · next hc => exact .unreserved (Bool.and_eq_true_iff.1 hc).1 .nil
  · exact Escaped.flatMap fun o ho => escaped_triple (Utf8.octets_lt ho)

/-! ### Where characters come from -/

theorem encode_append (s t : String) (dot : Bool) : encode (s ++ t) dot = encode s dot ++ encode t dot := by
  simp [encode]

theorem dot_not_mem_triple (h : octet < 256) : '.' ∉ triple octet :=
  fun hmem => absurd (isWire_of_mem_triple h hmem : isWire true '.' = true) (by decide)

theorem dot_mem_encodeChar_iff : '.' ∈ encodeChar dot c ↔ c = '.' ∧ dot = false := by
  unfold encodeChar
  split
  · next hc =>
    rw [List.mem_singleton, eq_comm]
    refine (and_iff_left_of_imp ?_).symm
    rintro rfl
    simpa [isUnreserved] using hc
  · next hc =>
    have hnot : '.' ∉ (Utf8.octets c).flatMap triple := by
      intro hmem
      obtain ⟨octet, hoctet, hdot⟩ := List.mem_flatMap.1 hmem
      exact dot_not_mem_triple (Utf8.octets_lt hoctet) hdot
    refine iff_of_false hnot ?_
    rintro ⟨rfl, rfl⟩
    exact hc rfl

/-- A point is left as it is, unless points are delimiters. -/
theorem dot_mem_encode_iff : '.' ∈ (encode s dot).toList ↔ '.' ∈ s.toList ∧ dot = false := by
  simp [encode, dot_mem_encodeChar_iff]

theorem triple_inj {p o : Nat} (hp : p < 256) (ho : o < 256) (h : triple p = triple o) : p = o := by
  have hoctets := congrArg octets h
  rw [← List.append_nil (triple p), ← List.append_nil (triple o), octets_triple hp,
    octets_triple ho] at hoctets
  exact (List.cons.inj hoctets).1

/-- A triple that stands in a row of triples, or behind it, is not put together of parts of others. -/
theorem flatMap_triple_eq_append {os : List Nat} {o : Nat} {rest before behind : List Char}
    (hos : ∀ p ∈ os, p < 256) (ho : o < 256)
    (h : os.flatMap triple ++ rest = before ++ (triple o ++ behind)) :
    (∃ l r, os = l ++ o :: r ∧ before = l.flatMap triple ∧ behind = r.flatMap triple ++ rest) ∨
      ∃ more, before = os.flatMap triple ++ more ∧ rest = more ++ (triple o ++ behind) := by
  induction os generalizing before with
  | nil => exact .inr ⟨before, rfl, h⟩
  | cons p os ih =>
    obtain ⟨hp, hos⟩ := List.forall_mem_cons.1 hos
    have hhigh := hexDigit_ne_percent (p / 16) (by omega)
    have hlow := hexDigit_ne_percent (p % 16) (by omega)
    rw [List.flatMap_cons, List.append_assoc] at h
    match before with
    | [] =>
      rw [List.nil_append] at h
      obtain ⟨htriple, hrest⟩ := List.append_inj h rfl
      exact .inl ⟨[], os, by rw [triple_inj hp ho htriple, List.nil_append], rfl, hrest.symm⟩
    | [x] =>
      simp only [triple, List.cons_append, List.nil_append, List.cons.injEq] at h
      exact absurd h.2.1 hhigh
    | [x, y] =>
      simp only [triple, List.cons_append, List.nil_append, List.cons.injEq] at h
      exact absurd h.2.2.1 hlow
    | x :: y :: z :: before =>
      obtain ⟨htriple, h⟩ := List.append_inj (show triple p ++ (os.flatMap triple ++ rest) =
        [x, y, z] ++ (before ++ (triple o ++ behind)) from h) rfl
      rcases ih hos h with ⟨l, r, rfl, rfl, hbehind⟩ | ⟨more, rfl, hrest⟩
      · exact .inl ⟨p :: l, r, rfl, by rw [List.flatMap_cons, htriple]; rfl, hbehind⟩
      · exact .inr ⟨more, by rw [List.flatMap_cons, htriple]; rfl, hrest⟩

/-- The triple of a space stands only where a space was. -/
theorem flatMap_encodeChar_eq_append {cs before behind : List Char}
    (h : cs.flatMap (encodeChar dot) = before ++ (triple 0x20 ++ behind)) :
    ∃ u v, cs = u ++ ' ' :: v ∧ u.flatMap (encodeChar dot) = before ∧
      v.flatMap (encodeChar dot) = behind := by
  induction cs generalizing before with
  | nil => simp [triple] at h
  | cons c cs ih =>
    rw [List.flatMap_cons] at h
    by_cases hc : (isUnreserved c && !(c == '.' && dot)) = true
    · have hself : encodeChar dot c = [c] := if_pos hc
      rw [hself] at h
      cases before with
      | nil =>
        exact absurd (List.cons.inj h).1 (ne_percent_of_kept hc)
      | cons d before =>
        obtain ⟨rfl, hrest⟩ := List.cons.inj h
        obtain ⟨u, v, rfl, hu, hv⟩ := ih hrest
        exact ⟨c :: u, v, rfl, by rw [List.flatMap_cons, hself, hu]; rfl, hv⟩
    · have htriples : encodeChar dot c = (Utf8.octets c).flatMap triple := if_neg hc
      rw [htriples] at h
      rcases flatMap_triple_eq_append (fun _ => Utf8.octets_lt) (by decide) h with
        ⟨l, r, hoctets, rfl, rfl⟩ | ⟨more, rfl, hrest⟩
      · obtain rfl := Utf8.eq_space_of_mem_octets (hoctets ▸ List.mem_append_right l List.mem_cons_self)
        -- a space is one octet, so nothing is beside it
        obtain ⟨rfl, rfl⟩ : l = [] ∧ r = [] := by
          have hlength := congrArg List.length hoctets
          rw [show (Utf8.octets ' ').length = 1 from rfl, List.length_append, List.length_cons] at hlength
          exact ⟨List.length_eq_zero_iff.1 (by omega), List.length_eq_zero_iff.1 (by omega)⟩
        exact ⟨[], cs, rfl, rfl, rfl⟩
      · obtain ⟨u, v, rfl, hu, hv⟩ := ih hrest
        exact ⟨c :: u, v, rfl, by rw [List.flatMap_cons, htriples, hu], hv⟩

theorem encode_eq_append_iff {before behind : String} :
    encode s dot = before ++ "%20" ++ behind ↔
      ∃ u v, s = u ++ " " ++ v ∧ encode u dot = before ∧ encode v dot = behind := by
  constructor
  · intro h
    have hlist := congrArg String.toList h
    simp only [encode, String.toList_ofList, String.toList_append, List.append_assoc] at hlist
    obtain ⟨u, v, hs, hu, hv⟩ := flatMap_encodeChar_eq_append hlist
    refine ⟨String.ofList u, String.ofList v, ?_, ?_, ?_⟩
    · rw [← String.toList_inj, hs]
      simp
    · rw [encode, String.toList_ofList, hu, String.ofList_toList]
    · rw [encode, String.toList_ofList, hv, String.ofList_toList]
  · rintro ⟨u, v, rfl, rfl, rfl⟩
    have hspace : encode " " dot = "%20" := by
      cases dot <;> decide
    rw [encode_append, encode_append, hspace]

/-- What is written in any style, or outside of all styles, reads back as it was, and so no two texts are
written alike. It is made of unreserved characters and triples; a point is among them only outside of the
style that points delimit, and a space is all that is written as `%20`. -/
theorem encode_faithful (style : Option Style) :
    (∀ s, decode? (encode s (style == some .label)) = some s) ∧
      (∀ s, Escaped (encode s (style == some .label)).toList) ∧
      (∀ s, '.' ∈ (encode s (style == some .label)).toList ↔ '.' ∈ s.toList ∧ style ≠ some .label) ∧
      (∀ s before behind, encode s (style == some .label) = before ++ "%20" ++ behind ↔
        ∃ u v, s = u ++ " " ++ v ∧ encode u (style == some .label) = before ∧
          encode v (style == some .label) = behind) ∧
      Function.Injective fun s => encode s (style == some .label) := by
  refine ⟨fun s => decode?_encode s _, fun s => escaped_encode s _, fun s => ?_,
    fun s before behind => encode_eq_append_iff, fun s t => encode_inj⟩
  rw [dot_mem_encode_iff, beq_eq_false_iff_ne]

end Percent
end OpenApi
