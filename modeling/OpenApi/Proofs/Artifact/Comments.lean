import Mathlib.Data.List.TakeWhile
import OpenApi.Proofs.Artifact.Aliases

/-!
Text of a document inside of comments. A comment between marks goes on to the first closing mark, and one
behind two slashes to the first line end. Texts are kept from closing the former; nothing keeps a title or
a version with a line end from ending the latter.
-/
namespace OpenApi.Artifact

open Text (Clear)
open Outcome (bind_ok bind_pure_ok pure_ok exists_ok mapM_ok exists_mem_of_forall₂)

variable {cs : List Char} {line : String} {api : Api} {names : NameTable} {config : Config}

/-! ### Reading comments -/

/-- Does a character end a line? -/
def isLineEnd (c : Char) : Bool := c == '\n' || c == '\r' || c == '\u2028' || c == '\u2029'

/-- A text without line ends. -/
def OneLine (s : String) : Prop := ∀ c ∈ s.toList, isLineEnd c = false

instance (s : String) : Decidable (OneLine s) :=
  decidable_of_iff (s.toList.all (fun c => !isLineEnd c) = true) (by simp [OneLine])

/-- What follows a comment that goes on to the end of the line. -/
def behindLine (cs : List Char) : List Char := (cs.dropWhile fun c => !isLineEnd c).tail

/-- What follows a comment that goes on to its closing mark. -/
def behindBlock : List Char → Option (List Char)
  | '*' :: '/' :: rest => some rest
  | _ :: rest => behindBlock rest
  | [] => none

abbrev closingMark : List Char := ['*', '/']

theorem behindLine_eq_iff {rest : List Char} :
    behindLine (cs ++ '\n' :: rest) = rest ↔ ∀ c ∈ cs, isLineEnd c = false := by
  rw [behindLine, List.dropWhile_append]
  constructor
  · -- what is left of the line would stand in front
    intro h c hc
    by_contra hend
    have hne : cs.dropWhile (fun c => !isLineEnd c) ≠ [] := by
      rw [ne_eq, List.dropWhile_eq_nil_iff]
      exact fun hall => hend (by simpa using hall c hc)
    rw [if_neg (by simpa using hne)] at h
    have hlength := congrArg List.length h
    simp only [List.length_tail, List.length_append, List.length_cons] at hlength
    have hpos := List.length_pos_iff.2 hne
    omega
  · intro h
    have hnil : cs.dropWhile (fun c => !isLineEnd c) = [] :=
      List.dropWhile_eq_nil_iff.2 fun c hc => by rw [h c hc]; rfl
    rw [hnil, List.isEmpty_nil, if_pos rfl, List.dropWhile_cons_of_neg (by decide)]
    rfl

theorem behindBlock_append (h : Clear closingMark cs) (rest : List Char) :
    behindBlock (cs ++ rest) = behindBlock rest := by
  induction cs with
  | nil => rfl
  | cons c cs ih =>
    rw [← ih h.tail, List.cons_append, behindBlock.eq_def]
    split
    · next heq =>
      have hhead := h.head rest
      rw [List.cons_append, heq] at hhead
      simp [List.isPrefixOf] at hhead
    · next heq => rw [(List.cons.inj heq).2]
    · next heq => cases heq

theorem toList_ofLines_cons (line : String) (rest : List String) :
    (ofLines (line :: rest)).toList = line.toList ++ '\n' :: (ofLines rest).toList := by
  simp [ofLines, String.join_cons]

/-! ### Texts that are kept from closing a comment -/

theorem clear_cons {c d : Char} (h : Clear closingMark (d :: cs)) (hc : c ≠ '*' ∨ d ≠ '/') :
    Clear closingMark (c :: d :: cs) := by
  refine h.cons fun rest hpre => ?_
  rw [List.cons_append, List.cons_append, List.cons_prefix_cons, List.cons_prefix_cons] at hpre
  exact hc.elim (· hpre.1.symm) (· hpre.2.1.symm)

theorem head_replaceList {skip : Nat} {rest : List Char}
    (h : Text.replaceList closingMark ['*', '\\', '/'] skip cs ++ ['\n'] = '/' :: rest) :
    ∃ tail, cs.drop skip = '/' :: tail := by
  induction cs generalizing skip with
  | nil => simp [Text.replaceList] at h
  | cons c tail ih =>
    cases skip with
    | succ skip => exact ih h
    | zero =>
      rw [Text.replaceList] at h
      split at h
      · simp at h
      · rw [List.cons_append] at h
        rw [(List.cons.inj h).1]
        exact ⟨tail, rfl⟩

/-- No closing mark is left, and none arises where texts meet. -/
theorem clear_replaceList (skip : Nat) (cs : List Char) :
    Clear closingMark (Text.replaceList closingMark ['*', '\\', '/'] skip cs ++ ['\n']) := by
  fun_induction Text.replaceList closingMark ['*', '\\', '/'] skip cs with
  | case1 => exact Text.clear_of_not_mem (by decide)
  | case2 skip c rest ih => exact ih
  | case3 c rest hpre ih =>
    have hmark : Clear closingMark ['*', '\\', '/'] :=
      clear_cons (Text.clear_of_not_mem (by decide)) (.inr (by decide))
    rw [List.append_assoc]
    exact hmark.append ih
  | case4 c rest hpre ih =>
    refine ih.cons fun more hmark => hpre ?_
    -- a slash behind the star would be one of the text
    obtain ⟨rfl, hslash⟩ := List.cons_prefix_cons.1 hmark
    obtain ⟨d, tail, hd⟩ := List.exists_cons_of_ne_nil (List.append_ne_nil_of_right_ne_nil
      (Text.replaceList closingMark ['*', '\\', '/'] 0 rest) (List.cons_ne_nil '\n' []))
    rw [hd] at hslash
    obtain ⟨rfl, -⟩ := List.cons_prefix_cons.1 hslash
    obtain ⟨tail, htail⟩ := head_replaceList hd
    rw [show rest = '/' :: tail from htail]
    rfl

theorem toList_commentText (s : String) : (commentText s).toList =
    Text.replaceList closingMark ['*', '\\', '/'] 0 s.toList := by
  simp [commentText, Text.replace]

theorem clear_commentText (s : String) : Clear closingMark ((commentText s).toList ++ ['\n']) := by
  rw [toList_commentText]
  exact clear_replaceList 0 s.toList

/-- Characters that are in neither text are left alone. -/
theorem mem_replaceList {o c : Char} {old new : List Char} (hold : c ∉ o :: old) (hnew : c ∉ new)
    {skip : Nat} (hskip : ∀ d ∈ cs.take skip, d ∈ o :: old) :
    c ∈ Text.replaceList (o :: old) new skip cs ↔ c ∈ cs := by
  fun_induction Text.replaceList (o :: old) new skip cs with
  | case1 => rfl
  | case2 skip d rest ih =>
    rw [List.take_succ_cons] at hskip
    obtain ⟨hd, hrest⟩ := List.forall_mem_cons.1 hskip
    have hne : c ≠ d := fun heq => hold (heq ▸ hd)
    rw [ih hrest, List.mem_cons, or_iff_right hne]
  | case3 d rest hpre ih =>
    obtain ⟨more, hmore⟩ := List.isPrefixOf_iff_prefix.1 hpre
    obtain ⟨rfl, rfl⟩ := List.cons.inj hmore
    have hne : c ≠ o := fun heq => hold (heq ▸ List.mem_cons_self)
    have hpassed : ∀ d ∈ (old ++ more).take ((o :: old).length - 1), d ∈ o :: old := by
      rw [List.length_cons, Nat.add_sub_cancel, List.take_left]
      exact fun d => List.mem_cons_of_mem o
    rw [List.mem_append, or_iff_right hnew, ih hpassed, List.mem_cons, or_iff_right hne]
  | case4 d rest hpre ih => rw [List.mem_cons, List.mem_cons, ih (by simp)]

theorem oneLine_append {s t : String} : OneLine (s ++ t) ↔ OneLine s ∧ OneLine t := by
  simp [OneLine, or_imp, forall_and]

theorem oneLine_commentText {s : String} : OneLine (commentText s) ↔ OneLine s := by
  have hmem : ∀ c, isLineEnd c = true → (c ∈ (commentText s).toList ↔ c ∈ s.toList) := by
    intro c hc
    have hmarks : c ∉ closingMark ∧ c ∉ ['*', '\\', '/'] := by
      simp only [isLineEnd, Bool.or_eq_true, beq_iff_eq] at hc
      rcases hc with ((rfl | rfl) | rfl) | rfl <;> decide
    rw [toList_commentText]
    exact mem_replaceList hmarks.1 hmarks.2 (by simp)
  constructor
  · intro h c hc
    by_contra hend
    exact hend (h c ((hmem c (by simpa using hend)).2 hc))
  · intro h c hc
    by_contra hend
    exact hend (h c ((hmem c (by simpa using hend)).1 hc))

/-- The header is a line unless the title or the version holds a line end. -/
theorem oneLine_headerLine {title version : String} {n : Nat} :
    OneLine (headerLine title version n) ↔ OneLine title ∧ OneLine version := by
  have hnumber : OneLine (Nat.repr n) := by
    have hdigits : OneLine "0123456789" := by decide
    intro c hc
    rw [Nat.toList_repr] at hc
    have hdigit : c.isDigit = true := Nat.isDigit_of_mem_toDigits (by omega) (by omega) hc
    exact hdigits c (Text.mem_digits_of_isDigit hdigit)
  have hfirst : OneLine "// Generated by oasgen from " ∧ OneLine " " := by decide
  have hlast : OneLine " (" ∧ OneLine " operations). Do not edit." := by decide
  have htail : OneLine s!" ({n} operations). Do not edit." :=
    oneLine_append.2 ⟨oneLine_append.2 ⟨hlast.1, hnumber⟩, hlast.2⟩
  unfold headerLine
  simp only [oneLine_append, oneLine_commentText, hfirst, htail, true_and, and_true]

/-! ### The lines of an artifact -/

/-- A line inside of a comment. -/
structure Kept (line : String) : Prop where
  starts : line.toList.head? = some ' '
  clear : Clear closingMark (line.toList ++ ['\n'])

theorem Kept.contains (h : Kept line) : Text.contains line "*/" = false :=
  h.clear.containsList (List.cons_ne_nil _ _)

/-- The front of a line inside of a comment, without text of the document. -/
def Opens (s : String) : Prop := ∃ cs, s.toList = ' ' :: '*' :: ' ' :: cs ∧ '*' ∉ cs

theorem opens_ofList (h : '*' ∉ cs) : Opens (String.ofList (' ' :: '*' :: ' ' :: cs)) :=
  ⟨cs, String.toList_ofList, h⟩

namespace Opens

variable {s : String} (h : Opens s)
include h

theorem append {t : String} (ht : '*' ∉ t.toList) : Opens (s ++ t) := by
  obtain ⟨cs, hs, hcs⟩ := h
  exact ⟨cs ++ t.toList, by rw [String.toList_append, hs]; rfl, by simp [hcs, ht]⟩

theorem kept_text (text : String) : Kept (s ++ commentText text) := by
  obtain ⟨cs, hs, hcs⟩ := h
  have hstar : Clear closingMark [' ', '*', ' '] :=
    clear_cons (clear_cons (Text.clear_of_not_mem (by decide)) (.inr (by decide))) (.inl (by decide))
  have hall := (hstar.append (Text.clear_of_not_mem hcs)).append (clear_commentText text)
  constructor
  · simp [hs]
  · simpa [hs] using hall

theorem kept : Kept s := by
  have hempty := h.kept_text ""
  rwa [show commentText "" = "" from rfl, String.append_empty] at hempty

theorem kept_title {op : OperationView} (hmethod : '*' ∉ (Text.upper op.method).toList) :
    Kept (s ++ Client.title op) := by
  rw [Client.title, ← String.append_assoc, ← String.append_assoc]
  exact ((h.append hmethod).append (by decide)).kept_text op.path

end Opens

theorem kept_blank : Kept " *" := ⟨rfl, clear_cons (clear_cons (Text.clear_of_not_mem (by decide))
  (.inr (by decide))) (.inl (by decide))⟩

/-- Lines that open no comment. -/
def Code (ls : List String) : Prop := ∀ line ∈ ls, line.toList.head? ≠ some '/'

/-- Lines of code, and comments that are closed by a line of their own. -/
inductive Laid : List String → Prop
  | nil : Laid []
  | code {line : String} {rest : List String} (hline : line.toList.head? ≠ some '/') (h : Laid rest) :
      Laid (line :: rest)
  | comment {body rest : List String} (hbody : ∀ line ∈ body, Kept line) (h : Laid rest) :
      Laid ("/**" :: body ++ " */" :: rest)

namespace Laid

variable {ls more : List String}

theorem of_code (h : Code ls) : Laid ls := by
  induction ls with
  | nil => exact .nil
  | cons line rest ih =>
    obtain ⟨hline, hrest⟩ := List.forall_mem_cons.1 h
    exact .code hline (ih hrest)

theorem blank (h : Laid ls) : Laid ("" :: ls) := .code (by simp) h

theorem append (h : Laid ls) (hmore : Laid more) : Laid (ls ++ more) := by
  induction h with
  | nil => exact hmore
  | code hline _ ih => exact .code hline ih
  | comment hbody _ ih =>
    rw [List.append_assoc, List.cons_append]
    exact .comment hbody ih

theorem of_avoids (h : Avoids '/' ls) : Laid ls := .of_code h.head_ne

theorem append_code (h : Laid ls) (hmore : Avoids '/' more) : Laid (ls ++ more) := h.append (.of_avoids hmore)

theorem flatten {blocks : List (List String)} (h : ∀ b ∈ blocks, Laid b) : Laid blocks.flatten := by
  induction blocks with
  | nil => exact .nil
  | cons b rest ih =>
    obtain ⟨hb, hrest⟩ := List.forall_mem_cons.1 h
    exact hb.append (ih hrest)

/-- Whatever comment is opened, it goes on to a line that closes it. -/
theorem closed {before after : List String} (h : Laid ls) (hls : ls = before ++ "/**" :: after) :
    ∃ body rest, after = body ++ " */" :: rest ∧ ∀ line ∈ body, Kept line := by
  induction h generalizing before with
  | nil => simp at hls
  | code hline _ ih =>
    cases before with
    | nil =>
      obtain ⟨rfl, -⟩ := List.cons.inj hls
      exact absurd rfl hline
    | cons _ before => exact ih (List.cons.inj hls).2
  | @comment body rest hbody _ ih =>
    cases before with
    | nil => exact ⟨body, rest, (List.cons.inj hls).2.symm, hbody⟩
    | cons _ before =>
      -- the lines of a comment open none
      rcases List.append_eq_append_iff.1 (List.cons.inj hls).2 with ⟨as, -, heq⟩ | ⟨bs, rfl, heq⟩
      · cases as with
        | nil => simp at heq
        | cons _ as => exact ih (List.cons.inj heq).2
      · cases bs with
        | nil => simp at heq
        | cons line bs =>
          obtain ⟨rfl, -⟩ := List.cons.inj heq
          have hstarts := (hbody "/**" (by simp)).starts
          simp at hstarts

end Laid

/-- The text of a comment ends with the line that closes it. -/
theorem behindBlock_ofLines {body rest : List String} (h : ∀ line ∈ body, Kept line) :
    behindBlock (ofLines (body ++ " */" :: rest)).toList = some ('\n' :: (ofLines rest).toList) := by
  induction body with
  | nil =>
    rw [List.nil_append, toList_ofLines_cons]
    rfl
  | cons line body ih =>
    obtain ⟨hline, hbody⟩ := List.forall_mem_cons.1 h
    rw [List.cons_append, toList_ofLines_cons, ← List.singleton_append, ← List.append_assoc,
      behindBlock_append hline.clear, ih hbody]

/-! ### The lines of each target -/

variable {v : View} {op : OperationView} {doc ls : List String} {library : String}

theorem laid_comment {values : List Value} (h : comment values = .ok doc) : Laid doc := by
  obtain ⟨lines, -, rfl⟩ := bind_pure_ok.1 h
  refine .comment (fun line hline => ?_) .nil
  rcases mem_commentLines hline with rfl | ⟨text, rfl⟩
  · exact kept_blank
  · exact (opens_ofList (by decide)).kept_text text

theorem laid_each {α : Type} {items : List α} {print : α → Checked (List String)}
    (h : each items print = .ok ls) (hprint : ∀ x ∈ items, ∀ b, print x = .ok b → Laid b) : Laid ls := by
  obtain ⟨blocks, hblocks, rfl⟩ := bind_pure_ok.1 h
  refine .flatten fun b hb => ?_
  obtain ⟨x, hx, hb⟩ := exists_mem_of_forall₂ (mapM_ok.1 hblocks).flip hb
  exact hprint x hx b hb

/-- The header, and lines that are laid out behind it. -/
def Headed (v : View) (ls : List String) : Prop :=
  ∃ first rest, header v = .ok first ∧ ls = first :: rest ∧ Laid rest

/-- Methods are words. -/
def Worded (v : View) : Prop := ∀ op ∈ v.operations, '*' ∉ (Text.upper op.method).toList

namespace Client

theorem laid_fetcher (op : OperationView) (hdoc : Laid doc) : Laid (fetcher doc op) :=
  hdoc.append_code (by repeat' constructor)

theorem laid_keyFunction (hlibrary : '*' ∉ library.toList) (hmethod : '*' ∉ (Text.upper op.method).toList) :
    Laid (keyFunction library op) := by
  have hargs : '*' ∉ (ifKeyed op ", args").toList := by
    unfold ifKeyed
    split <;> simp
  refine .comment (List.forall_mem_cons.2 ⟨?_, List.forall_mem_singleton.2 ?_⟩)
    (.of_avoids (by repeat' constructor))
  · exact (((opens_ofList (by decide)).append hlibrary).append (by decide)).kept_title hmethod
  · exact (((opens_ofList (by decide)).append hargs).append (by decide)).kept

theorem laid_functions (hlibrary : '*' ∉ library.toList) (hmethod : '*' ∉ (Text.upper op.method).toList)
    (hdoc : Laid doc) : Laid ("" :: keyFunction library op ++ "" :: fetcher doc op) :=
  (laid_keyFunction hlibrary hmethod).blank.append (laid_fetcher op hdoc).blank

theorem laid_lines {own : List String} {operation : List String → OperationView → List String}
    (h : lines v own operation = .ok ls) (hown : Avoids '/' own)
    (hoperation : ∀ op ∈ v.operations, ∀ doc, Laid doc → Laid (operation doc op)) : Headed v ls := by
  obtain ⟨operations, hoperations, h⟩ := bind_ok.1 h
  obtain ⟨first, hfirst, rfl⟩ := bind_pure_ok.1 h
  have hall : Laid operations := laid_each hoperations fun op hop b hb => by
    obtain ⟨doc, hdoc, rfl⟩ := bind_pure_ok.1 hb
    exact hoperation op hop doc (laid_comment hdoc)
  have hfront : Code ("" :: own ++ imports v) :=
    List.forall_mem_append.2 ⟨hown.blank.head_ne, heads_imports (by decide) (by decide) (by decide)⟩
  exact ⟨first, _, hfirst, by simp, (Laid.of_code hfront).append hall⟩

end Client

namespace Query

variable {hook opening closing : String}

theorem laid_options (hlibrary : '*' ∉ library.toList) (hhook : '*' ∉ hook.toList)
    (hmethod : '*' ∉ (Text.upper op.method).toList) : Laid (options library hook opening closing op) := by
  refine .blank (.comment (List.forall_mem_cons.2 ⟨?_, List.forall_mem_cons.2 ⟨kept_blank,
    List.forall_mem_singleton.2 ?_⟩⟩) (.of_avoids (by repeat' constructor)))
  · exact (((opens_ofList (by decide)).append hlibrary).append (by decide)).kept_title hmethod
  · exact (((opens_ofList (by decide)).append hhook).append (by decide)).kept

theorem headed {own : List String} {query : List String → OperationView → List String}
    {mutation : OperationView → List String} (hv : Worded v) (hlibrary : '*' ∉ library.toList)
    (hhook : '*' ∉ hook.toList) (h : Client.lines v own (operation library query mutation) = .ok ls)
    (hown : Avoids '/' own) (hmutation : ∀ op, Avoids '/' (mutation op))
    (hquery : ∀ op doc, Laid (options library hook opening closing op ++ doc) → Laid (query doc op)) :
    Headed v ls := by
  refine Client.laid_lines h hown fun op hop doc hdoc => ?_
  unfold operation
  refine (Client.laid_functions hlibrary (hv op hop) hdoc).append ?_
  split
  · exact hquery op doc ((laid_options hlibrary hhook (hv op hop)).append hdoc)
  · exact (hdoc.append_code (hmutation op)).blank

end Query

theorem Rpc.headed (h : lines v = .ok ls) : Headed v ls :=
  Client.laid_lines h .nil fun op _ _ hdoc => (Client.laid_fetcher op hdoc).blank

theorem Swr.headed (hv : Worded v) (h : lines v = .ok ls) : Headed v ls := by
  refine Client.laid_lines h (by repeat' constructor) fun op hop doc hdoc => ?_
  unfold operation
  refine ((Client.laid_functions (by simp) (hv op hop) hdoc).append hdoc.blank).append_code ?_
  split
  · repeat' constructor
  · have hmutator : Starts ' ' (mutator op) := by
      unfold mutator
      split <;> repeat' constructor
    repeat' first | constructor | exact hmutator

theorem TanstackQuery.headed (hv : Worded v) (h : lines v = .ok ls) : Headed v ls := by
  refine Query.headed hv (by simp) (by simp) h ?_ (fun _ => ?_) fun _ _ hfront => ((hfront.append_code
    ?_).append_code ?_).append_code ?_
  all_goals repeat' constructor

theorem VueQuery.headed (hv : Worded v) (h : lines v = .ok ls) : Headed v ls := by
  refine Query.headed hv (by simp) (by simp) h ?_ (fun _ => ?_) fun _ _ hfront => ((hfront.append_code
    ?_).append_code ?_).append_code ?_
  all_goals repeat' constructor

theorem SvelteQuery.headed (hv : Worded v) (h : lines v = .ok ls) : Headed v ls := by
  refine Query.headed hv (by simp) (by simp) h ?_ (fun _ => ?_) fun _ _ hfront => ((hfront.append_code
    ?_).append (.of_code (by simp [Code, toString]))).append_code ?_
  all_goals repeat' constructor

theorem Handlers.headed (h : lines v = .ok ls) : Headed v ls := by
  obtain ⟨first, hfirst, h⟩ := bind_ok.1 h
  obtain ⟨operations, hoperations, rfl⟩ := bind_pure_ok.1 h
  have himports : Code (imports v) := by
    unfold imports
    split
    · exact List.forall_mem_nil _
    · simp [Code, toString, or_imp, forall_and]
  have hall : Laid operations := laid_each hoperations fun op _ b hb => by
    obtain ⟨doc, hdoc, rfl⟩ := bind_pure_ok.1 hb
    refine ((laid_comment hdoc).append (.of_code ?_)).blank
    split
    · simp [Code, toString]
    · simp [Code, toString, or_imp, forall_and]
  exact ⟨first, _, hfirst, rfl,
    ((Laid.of_avoids (by repeat' constructor)).append (.of_code himports)).append hall⟩

theorem Types.headed (h : lines v = .ok ls) : Headed v ls := by
  have htype : ∀ {t b}, type t = .ok b → Laid b := by
    intro t b hb
    have hdeclaration : Laid [s!"export type {t.identifier} = {t.ts}"] :=
      .of_avoids (by repeat' constructor)
    unfold type at hb
    split at hb
    · obtain ⟨doc, hdoc, rfl⟩ := bind_pure_ok.1 hb
      exact (laid_comment hdoc).append hdeclaration
    · obtain rfl := pure_ok.1 hb
      exact hdeclaration
  have hseparated : ∀ {types b}, separated types = .ok b → Laid b := by
    intro types b hb
    cases types with
    | nil =>
      cases hb
      exact .nil
    | cons t rest =>
      obtain ⟨first, hfirst, hb⟩ := bind_ok.1 hb
      obtain ⟨others, hothers, rfl⟩ := bind_pure_ok.1 hb
      refine (htype hfirst).append (laid_each hothers fun t _ b hb => ?_)
      obtain ⟨b, hb', rfl⟩ := bind_pure_ok.1 hb
      exact (htype hb').blank
  obtain ⟨first, hfirst, h⟩ := bind_ok.1 h
  obtain ⟨types, htypes, rfl⟩ := bind_pure_ok.1 h
  exact ⟨first, _, hfirst, rfl, (hseparated htypes).blank⟩

namespace Routes

theorem code_type {t : TypeView} (h : type t = .ok ls) : Code ls := by
  obtain ⟨name, -, rfl⟩ := bind_pure_ok.1 h
  cases t.annotated <;> simp [Code, toString]

theorem code_operation (h : operation op = .ok ls) : Code ls := by
  obtain ⟨inner, hinner, rfl⟩ := operation_indented h
  refine List.forall_mem_append.2 ⟨List.forall_mem_cons.2 ⟨by simp [toString], ?_⟩, by simp⟩
  intro line hline
  rw [hinner line hline]
  decide

theorem headed (h : lines v = .ok ls) : Headed v ls := by
  obtain ⟨types, htypes, h⟩ := bind_ok.1 h
  obtain ⟨operations, hoperations, h⟩ := bind_ok.1 h
  obtain ⟨first, hfirst, rfl⟩ := bind_pure_ok.1 h
  have htypes : Laid types.flatten := .flatten fun b hb => by
    obtain ⟨t, -, hb⟩ := exists_mem_of_forall₂ (mapM_ok.1 htypes).flip hb
    exact .of_code (code_type hb)
  have hoperations : Laid operations.flatten := .flatten fun b hb => by
    obtain ⟨op, -, hb⟩ := exists_mem_of_forall₂ (mapM_ok.1 hoperations).flip hb
    exact .of_code (code_operation hb)
  have hschemes : Code (v.securitySchemes.toList.map fun s =>
      s!"export const securitySchemes = {s} as const") := by
    simp [Code, toString]
  exact ⟨first, _, hfirst, rfl,
    (((Laid.of_avoids (by repeat' constructor)).append htypes).append hoperations).append (.of_code hschemes)⟩

end Routes

/-! ### Artifacts of a document -/

theorem ofApi_info (h : View.ofApi api names config = .ok v) :
    v.title = (api.info.get? "title").getD (.str "") ∧
      v.version = (api.info.get? "version").getD (.str "unknown") := by
  obtain ⟨operations, -, h⟩ := bind_ok.1 h
  obtain ⟨types, -, h⟩ := bind_ok.1 h
  dsimp only at h
  split at h <;>
  · obtain ⟨schemes, -, h⟩ := bind_ok.1 h
    cases h
    exact ⟨rfl, rfl⟩

theorem worded_of_build {document : Value} {settings : Config}
    (hapi : (Api.build document config).result = .ok api)
    (hview : View.ofApi api names settings = .ok v) :
    Worded v := by
  have hmethods : ∀ m ∈ Document.methods, '*' ∉ (Text.upper m).toList := by decide +kernel
  obtain ⟨ops, m, hops, hmapped, -⟩ := Api.build_ok hapi
  intro op hop
  obtain ⟨e, he, hshow⟩ := exists_mem_of_forall₂ (View.ofApi_ok hview).1.flip hop
  obtain ⟨o, ho, hmade⟩ := exists_mem_of_forall₂ hmapped.made.flip he
  rw [(View.operation_ok hshow).2, hmade.operation_eq]
  exact hmethods _ (Operation.parseAll_methods hops ho)

theorem headed_lines {target : Target} (htarget : target ≠ .docs)
    (hworded : ∀ v, View.ofApi api names config = .ok v → Worded v)
    (h : lines target api names config = .ok ls) :
    ∃ v, View.ofApi api names config = .ok v ∧ Headed v ls := by
  cases target
  case docs => exact absurd rfl htarget
  all_goals
    obtain ⟨v, hv, h⟩ := bind_ok.1 h
    refine ⟨v, hv, ?_⟩
  case routes => exact Routes.headed h
  case handlers => exact Handlers.headed h
  case types => exact Types.headed h
  case rpc => exact Rpc.headed h
  case swr => exact Swr.headed (hworded v hv) h
  case tanstackQuery => exact TanstackQuery.headed (hworded v hv) h
  case vueQuery => exact VueQuery.headed (hworded v hv) h
  case svelteQuery => exact SvelteQuery.headed (hworded v hv) h

/-- How far the comments of an artifact go. The header is a comment up to the end of its line, and all of it is
one if and only if neither the title nor the version holds a line end. Any other comment goes on to the line that
was written to close it. -/
structure Commented (api : Api) (ls : List String) (title version : String) (rest : List String) : Prop where
  title_text : ((api.info.get? "title").getD (.str "")).text = .ok title
  version_text : ((api.info.get? "version").getD (.str "unknown")).text = .ok version
  lines_eq : ls = headerLine title version api.endpoints.length :: rest
  opens : "//".toList <+: (ofLines ls).toList
  header_iff : behindLine (ofLines ls).toList = (ofLines rest).toList ↔ OneLine title ∧ OneLine version
  closes : ∀ before after, ls = before ++ "/**" :: after → ∃ body rest, after = body ++ " */" :: rest ∧
    (∀ line ∈ body, Text.contains line "*/" = false) ∧
      behindBlock (ofLines after).toList = some ('\n' :: (ofLines rest).toList)

/-- No text of a document closes the comment that it stands in, but a title or a version can end the line of the
header. -/
theorem comments_closed {document : Value} {config settings : Config} {api : Api} {names : NameTable}
    {target : Target} (hapi : (Api.build document config).result = .ok api) (htarget : target ≠ .docs)
    (h : lines target api names settings = .ok ls) :
    (∀ s, Text.contains (commentText s) "*/" = false) ∧
      ∃ title version rest, Commented api ls title version rest := by
  refine ⟨fun s => (clear_commentText s).containsList (List.cons_ne_nil _ _), ?_⟩
  obtain ⟨v, hv, first, rest, hfirst, rfl, hlaid⟩ :=
    headed_lines htarget (fun _ => worded_of_build hapi) h
  obtain ⟨title, htitle, hfirst⟩ := bind_ok.1 hfirst
  obtain ⟨version, hversion, rfl⟩ := bind_pure_ok.1 hfirst
  rw [(ofApi_info hv).1] at htitle
  rw [(ofApi_info hv).2] at hversion
  rw [← (View.ofApi_ok hv).1.length_eq]
  have hslashes : ∀ n, "//".toList <+: (headerLine title version n).toList := by
    intro n
    unfold headerLine
    simp
  refine ⟨title, version, rest, htitle, hversion, rfl, ?_, ?_, ?_⟩
  · rw [toList_ofLines_cons]
    exact (hslashes _).trans (List.prefix_append _ _)
  · rw [toList_ofLines_cons, behindLine_eq_iff]
    exact oneLine_headerLine
  · intro before after hls
    cases before with
    | nil =>
      obtain ⟨heq, -⟩ := List.cons.inj hls
      exact absurd (heq ▸ hslashes api.endpoints.length) (by decide)
    | cons _ before =>
      obtain ⟨body, rest, rfl, hbody⟩ := hlaid.closed (List.cons.inj hls).2
      exact ⟨body, rest, rfl, fun line hline => (hbody line hline).contains, behindBlock_ofLines hbody⟩

/-- A description with closing marks wherever text of it comes into a comment. -/
def marked (title : String) : Value :=
  .record [("info", .record [("title", .str title), ("version", .str "1")]),
    ("paths", .record [("/a*/b", .record [("get", .record [
      ("summary", .str "Lists */ all"), ("description", .str "*/*/"), ("responses", .record [])])])])]

theorem marked_comments_closed : ∃ api ls, (Api.build (marked "Marks */") {}).result = .ok api ∧
    lines .handlers api api.names {} = .ok ls ∧
    ls.drop 7 = ["/**", " * GET /a*\\/b", " *", " * Lists *\\/ all", " * *\\/*\\/", " */",
      "export const getA_BRouteHandler: RouteHandler<typeof getA_BRoute> = async (c) => \x7b\x7d"] ∧
    (∀ s, Text.contains (commentText s) "*/" = false) ∧
      ∃ title version rest, Commented api ls title version rest := by
  have hok : ∃ api, (Api.build (marked "Marks */") {}).result = .ok api ∧
      ∃ ls, lines .handlers api api.names {} = .ok ls ∧
        ls.drop 7 = ["/**", " * GET /a*\\/b", " *", " * Lists *\\/ all", " * *\\/*\\/", " */",
          "export const getA_BRouteHandler: RouteHandler<typeof getA_BRoute> = async (c) => \x7b\x7d"] := by
    simp only [exists_ok]
    decide +kernel
  obtain ⟨api, hapi, ls, hls, hdrop⟩ := hok
  exact ⟨api, ls, hapi, hls, hdrop, comments_closed hapi (by decide) hls⟩

/-- A line end in the title: what is behind it is no comment any more. -/
theorem title_ends_header : ∃ api ls, (Api.build (marked "Marks\nalert(1)") {}).result = .ok api ∧
    lines .types api api.names {} = .ok ls ∧
    behindLine (ofLines ls).toList = "alert(1) 1 (1 operations). Do not edit.\n\n".toList := by
  have hok : ∃ api, (Api.build (marked "Marks\nalert(1)") {}).result = .ok api ∧
      ∃ ls, lines .types api api.names {} = .ok ls ∧
        behindLine (ofLines ls).toList = "alert(1) 1 (1 operations). Do not edit.\n\n".toList := by
    simp only [exists_ok]
    decide +kernel
  obtain ⟨api, hapi, ls, hls, hbehind⟩ := hok
  exact ⟨api, ls, hapi, hls, hbehind⟩

end OpenApi.Artifact
