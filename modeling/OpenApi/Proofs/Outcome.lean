import Mathlib.Logic.Basic
import Mathlib.Data.List.Forall2

/-!
What it takes for a computation that may fail, with or without state, to succeed, and what it can fail
with. Each lemma takes one step of a computation apart.
-/
namespace OpenApi.Outcome

variable {ε σ α β : Type}
  {x : Except ε α} {f : α → Except ε β} {b a : α} {e : ε} {xs : List α} {ys : List β} {t : σ}

/-! ### Computations without state -/

theorem bind_ok {b : β} : (x >>= f) = .ok b ↔ ∃ a, x = .ok a ∧ f a = .ok b := by
  cases x with
  | error e => simp [bind, Except.bind]
  | ok a => simp [bind, Except.bind]

theorem bind_of_ok (h : x = .ok a) (f : α → Except ε β) : (x >>= f) = f a := by
  rw [h]
  rfl

theorem pure_ok : (pure a : Except ε α) = .ok b ↔ a = b := by
  simp [pure, Except.pure]

theorem throw_ok : (throw e : Except ε α) = .ok b ↔ False := by
  simp [throw, throwThe, MonadExceptOf.throw]

theorem bind_pure_ok {f : α → β} {b : β} :
    (x >>= fun a => pure (f a)) = .ok b ↔ ∃ a, x = .ok a ∧ f a = b := by
  simp only [bind_ok, pure_ok]

theorem exists_bind_pure_ok {f : α → β} :
    (∃ b, (x >>= fun a => pure (f a)) = .ok b) ↔ ∃ a, x = .ok a := by
  simp only [bind_pure_ok]
  exact ⟨fun ⟨_, a, ha, _⟩ => ⟨a, ha⟩, fun ⟨a, ha⟩ => ⟨f a, a, ha, rfl⟩⟩

/-- A test that ends a computation. -/
theorem guard_ok {test : Bool} {f : PUnit → Except ε β} {b : β}
    (h : (if test = true then Except.error e >>= f else f ⟨⟩) = .ok b) :
    test = false ∧ f ⟨⟩ = .ok b := by
  cases test with
  | true => cases h
  | false => exact ⟨rfl, h⟩

theorem exists_ok {P : α → Prop} : (∃ a, x = .ok a ∧ P a) ↔ ∃ a ∈ x.toOption, P a := by
  cases x with
  | error e => simp [Except.toOption]
  | ok a => simp [Except.toOption]

/-- A list of computations succeeds if each of them does. -/
theorem mapM_ok : xs.mapM f = .ok ys ↔ List.Forall₂ (fun x y => f x = .ok y) xs ys := by
  induction xs generalizing ys with
  | nil =>
    rw [List.mapM_nil, pure_ok, List.forall₂_nil_left_iff]
    exact eq_comm
  | cons x xs ih =>
    rw [List.mapM_cons, bind_ok, List.forall₂_cons_left_iff]
    constructor
    · rintro ⟨y, hy, h⟩
      obtain ⟨zs, hzs, h⟩ := bind_ok.1 h
      exact ⟨y, zs, hy, ih.1 hzs, (pure_ok.1 h).symm⟩
    · rintro ⟨y, zs, hy, hzs, rfl⟩
      exact ⟨y, hy, bind_ok.2 ⟨zs, ih.2 hzs, rfl⟩⟩

theorem exists_mapM_ok (h : ∀ x ∈ xs, ∃ y, f x = .ok y) : ∃ ys, xs.mapM f = .ok ys := by
  induction xs with
  | nil => exact ⟨[], rfl⟩
  | cons x xs ih =>
    obtain ⟨⟨y, hy⟩, hxs⟩ := List.forall_mem_cons.1 h
    obtain ⟨ys, hys⟩ := ih hxs
    exact ⟨y :: ys, mapM_ok.2 (.cons hy (mapM_ok.1 hys))⟩

theorem forM_ok {f : α → Except ε Unit} : xs.forM f = .ok () ↔ ∀ x ∈ xs, f x = .ok () := by
  induction xs with
  | nil => simp [pure, Except.pure]
  | cons x xs ih =>
    change (f x >>= fun _ => xs.forM f) = _ ↔ _
    rw [bind_ok, List.forall_mem_cons]
    constructor
    · rintro ⟨_, hx, hxs⟩
      exact ⟨hx, ih.1 hxs⟩
    · rintro ⟨hx, hxs⟩
      exact ⟨(), hx, ih.2 hxs⟩

theorem foldlM_inv (P : β → Prop) {f : β → α → Except ε β} {a b : β}
    (step : ∀ a, ∀ x ∈ xs, ∀ b, P a → f a x = .ok b → P b) (ha : P a) (h : xs.foldlM f a = .ok b) :
    P b := by
  induction xs generalizing a with
  | nil =>
    obtain rfl := pure_ok.1 h
    exact ha
  | cons x xs ih =>
    rw [List.foldlM_cons] at h
    obtain ⟨c, hc, h⟩ := bind_ok.1 h
    exact ih (fun a y hy => step a y (List.mem_cons_of_mem _ hy)) (step a x List.mem_cons_self c ha hc) h

/-- The faults that a computation may meet are among `P`. -/
def Faults (P : ε → Prop) (x : Except ε α) : Prop := ∀ e, x = .error e → P e

namespace Faults
variable {P : ε → Prop} {x : Except ε α} {f : α → Except ε β} {xs : List α}

theorem ok {a : α} : Faults P (.ok a : Except ε α) := nofun

theorem error {e : ε} (h : P e) : Faults P (.error e : Except ε α) := by
  rintro _ ⟨⟩
  exact h

theorem mono {Q : ε → Prop} (h : Faults P x) (hPQ : ∀ e, P e → Q e) : Faults Q x :=
  fun e he => hPQ e (h e he)

theorem bind (hx : Faults P x) (hf : ∀ a, x = .ok a → Faults P (f a)) : Faults P (x >>= f) := by
  cases x with
  | error e => exact .error (hx e rfl)
  | ok a => exact hf a rfl

theorem mapM (h : ∀ x ∈ xs, Faults P (f x)) : Faults P (xs.mapM f) := by
  induction xs with
  | nil => exact .ok
  | cons x xs ih =>
    obtain ⟨hx, hxs⟩ := List.forall_mem_cons.1 h
    rw [List.mapM_cons]
    exact hx.bind fun y _ => (ih hxs).bind fun ys _ => .ok

theorem forM {g : α → Except ε PUnit} (h : ∀ x ∈ xs, Faults P (g x)) : Faults P (xs.forM g) := by
  induction xs with
  | nil => exact .ok
  | cons x xs ih =>
    obtain ⟨hx, hxs⟩ := List.forall_mem_cons.1 h
    exact hx.bind fun _ _ => ih hxs

/-- A test that ends a computation. -/
theorem guard {test : Prop} [Decidable test] {e : ε} {g : PUnit → Except ε β} (he : P e)
    (hg : Faults P (g ⟨⟩)) : Faults P (if test then Except.error e >>= g else g ⟨⟩) := by
  split
  · exact .error he
  · exact hg

theorem forIn {g : α → β → Except ε (ForInStep β)} {b : β} (h : ∀ x b, Faults P (g x b)) :
    Faults P (forIn xs b g) := by
  induction xs generalizing b with
  | nil => exact .ok
  | cons x xs ih =>
    rw [List.forIn_cons]
    refine (h x b).bind fun step _ => ?_
    cases step with
    | done b => exact .ok
    | yield b => exact ih

theorem foldlM {g : β → α → Except ε β} {b : β} (h : ∀ x ∈ xs, ∀ b, Faults P (g b x)) :
    Faults P (xs.foldlM g b) := by
  induction xs generalizing b with
  | nil => exact .ok
  | cons x xs ih =>
    obtain ⟨hx, hxs⟩ := List.forall_mem_cons.1 h
    rw [List.foldlM_cons]
    exact (hx b).bind fun c _ => ih hxs

end Faults

theorem forall_mem_of_forall₂ {P : β → Prop} (h : List.Forall₂ (fun _ y => P y) xs ys) :
    ∀ y ∈ ys, P y := by
  induction h with
  | nil => exact nofun
  | cons hy _ ih => exact List.forall_mem_cons.2 ⟨hy, ih⟩

theorem exists_mem_of_forall₂ {R : α → β → Prop} (h : List.Forall₂ R xs ys) {x : α} (hx : x ∈ xs) :
    ∃ y ∈ ys, R x y := by
  induction h with
  | nil => cases hx
  | cons hr _ ih =>
    rcases List.mem_cons.1 hx with rfl | hx
    · exact ⟨_, List.mem_cons_self .., hr⟩
    · obtain ⟨y, hy, hr⟩ := ih hx
      exact ⟨y, List.mem_cons_of_mem _ hy, hr⟩

theorem exists_mapM_ok_iff : (∃ ys, xs.mapM f = .ok ys) ↔ ∀ x ∈ xs, ∃ y, f x = .ok y := by
  refine ⟨fun ⟨ys, h⟩ x hx => ?_, exists_mapM_ok⟩
  obtain ⟨y, -, hy⟩ := exists_mem_of_forall₂ (mapM_ok.1 h) hx
  exact ⟨y, hy⟩

theorem filterMap_eq_of_forall₂ {f : α → Option β} (h : List.Forall₂ (fun x y => f x = some y) xs ys) :
    xs.filterMap f = ys := by
  induction h with
  | nil => rfl
  | cons hy _ ih => rw [List.filterMap_cons_some hy, ih]

/-- Relations that are the same for all that are apart hold alike between members that are. -/
theorem pairwise_iff {l : List α} {R S T : α → α → Prop} (hapart : l.Pairwise R)
    (hiff : ∀ a ∈ l, ∀ b ∈ l, R a b → (S a b ↔ T a b)) : l.Pairwise S ↔ l.Pairwise T := by
  constructor
  · exact fun h => (hapart.and h).imp_of_mem fun ha hb hab => (hiff _ ha _ hb hab.1).1 hab.2
  · exact fun h => (hapart.and h).imp_of_mem fun ha hb hab => (hiff _ ha _ hb hab.1).2 hab.2

theorem pairwise_of_forall₂ {P : α → β → Prop} {R : α → α → Prop} {S : β → β → Prop}
    (h : List.Forall₂ P xs ys) (hxs : xs.Pairwise R) (hRS : ∀ {a b c d}, R a b → P a c → P b d → S c d) :
    ys.Pairwise S := by
  induction h with
  | nil => exact .nil
  | cons hp hrest ih =>
    obtain ⟨hhead, htail⟩ := List.pairwise_cons.1 hxs
    refine List.pairwise_cons.2 ⟨fun y hy => ?_, ih htail⟩
    obtain ⟨x, hx, hxy⟩ := exists_mem_of_forall₂ hrest.flip hy
    exact hRS (hhead x hx) hp hxy

/-! ### Computations with state -/

variable {s s' : σ}

theorem run_bind {x : StateT σ (Except ε) α} {f : α → StateT σ (Except ε) β} {b : β} :
    (x >>= f) s = .ok (b, s') ↔ ∃ a t, x s = .ok (a, t) ∧ f a t = .ok (b, s') := by
  change (x s >>= fun p => f p.1 p.2) = _ ↔ _
  rw [bind_ok]
  constructor
  · rintro ⟨⟨a, t⟩, h, hf⟩
    exact ⟨a, t, h, hf⟩
  · rintro ⟨a, t, h, hf⟩
    exact ⟨(a, t), h, hf⟩

theorem run_pure : (pure a : StateT σ (Except ε) α) s = .ok (b, s') ↔ a = b ∧ s = s' := by
  change Except.ok (a, s) = _ ↔ _
  simp

theorem run_get : (get : StateT σ (Except ε) σ) s = .ok (t, s') ↔ s = t ∧ s = s' := by
  change Except.ok (s, s) = _ ↔ _
  simp

theorem run_set {u : PUnit} : (set t : StateT σ (Except ε) PUnit) s = .ok (u, s') ↔ t = s' := by
  change Except.ok (PUnit.unit, t) = _ ↔ _
  simp

theorem run_modify {f : σ → σ} {u : PUnit} :
    (modify f : StateT σ (Except ε) PUnit) s = .ok (u, s') ↔ f s = s' := by
  change Except.ok (PUnit.unit, f s) = _ ↔ _
  simp

theorem run_lift : (liftM x : StateT σ (Except ε) α) s = .ok (b, s') ↔ x = .ok b ∧ s = s' := by
  change (x >>= fun a => Except.ok (a, s)) = _ ↔ _
  rw [bind_ok]
  simp

theorem run_throw : (throw e : StateT σ (Except ε) α) s = .ok (b, s') ↔ False := by
  change Except.error e = _ ↔ _
  simp

/-- What holds of every step of a list of computations holds of the whole list: an invariant of the
state, a preorder that the states go up by, and what each step says of its result, as long as going
up does not undo it. -/
theorem run_mapM {f : α → StateT σ (Except ε) β} (inv : σ → Prop) (le : σ → σ → Prop)
    (post : α → β → σ → Prop) (refl : ∀ t, le t t) (trans : ∀ t u v, le t u → le u v → le t v)
    (mono : ∀ x y t u, le t u → post x y t → post x y u)
    (step : ∀ x ∈ xs, ∀ t y u, inv t → f x t = .ok (y, u) → inv u ∧ le t u ∧ post x y u) (hs : inv s)
    (h : xs.mapM f s = .ok (ys, s')) :
    inv s' ∧ le s s' ∧ List.Forall₂ (fun x y => post x y s') xs ys := by
  induction xs generalizing s ys with
  | nil =>
    rw [List.mapM_nil, run_pure] at h
    obtain ⟨rfl, rfl⟩ := h
    exact ⟨hs, refl _, .nil⟩
  | cons x xs ih =>
    rw [List.mapM_cons, run_bind] at h
    obtain ⟨y, t, hy, h⟩ := h
    obtain ⟨zs, u, hzs, h⟩ := run_bind.1 h
    obtain ⟨rfl, rfl⟩ := run_pure.1 h
    obtain ⟨ht, hle, hp⟩ := step x (by simp) s y t hs hy
    obtain ⟨hu, hle', hps⟩ :=
      ih (fun x hx => step x (List.mem_cons_of_mem _ hx)) ht hzs
    exact ⟨hu, trans _ _ _ hle hle', .cons (mono _ _ _ _ hle' hp) hps⟩

/-- Started in a state that satisfies `pre`, two computations come to the same: to a fault in `fault`,
or to a result and a state that satisfy `post`. -/
def Agree (pre : σ → Prop) (x y : StateT σ (Except ε) α) (post : α → σ → Prop) (fault : ε → Prop) :
    Prop :=
  ∀ s, pre s → x s = y s ∧ Faults fault (y s) ∧ ∀ a t, y s = .ok (a, t) → post a t

namespace Agree
variable {pre : σ → Prop} {fault : ε → Prop} {post : α → σ → Prop} {post' : β → σ → Prop}
  {x y : StateT σ (Except ε) α} {f g : α → StateT σ (Except ε) β}

theorem bind (hx : Agree pre x y post fault) (hf : ∀ a, Agree (post a) (f a) (g a) post' fault) :
    Agree pre (x >>= f) (y >>= g) post' fault := by
  intro s hs
  obtain ⟨heq, hfault, hpost⟩ := hx s hs
  change (x s >>= fun p => f p.1 p.2) = (y s >>= fun p => g p.1 p.2) ∧
    Faults fault (y s >>= fun p => g p.1 p.2) ∧
      ∀ b t, (y s >>= fun p => g p.1 p.2) = .ok (b, t) → post' b t
  rw [heq]
  cases hy : y s with
  | error e => exact ⟨rfl, .error (hfault e hy), nofun⟩
  | ok p => exact hf p.1 p.2 (hpost p.1 p.2 hy)

theorem mono {pre₂ : σ → Prop} {post₂ : α → σ → Prop} (h : Agree pre x y post fault)
    (hpre : ∀ s, pre₂ s → pre s) (hpost : ∀ a s, post a s → post₂ a s) :
    Agree pre₂ x y post₂ fault := by
  intro s hs
  obtain ⟨heq, hfault, hp⟩ := h s (hpre s hs)
  exact ⟨heq, hfault, fun a t ht => hpost a t (hp a t ht)⟩

theorem pure {a : α} (h : ∀ s, pre s → post a s) :
    Agree pre (pure a) (pure a : StateT σ (Except ε) α) post fault := by
  intro s hs
  refine ⟨rfl, .ok, fun b t ht => ?_⟩
  obtain ⟨rfl, rfl⟩ := run_pure.1 ht
  exact h s hs

theorem lift {c : Except ε α} (h : Faults fault c) :
    Agree pre (liftM c) (liftM c : StateT σ (Except ε) α) (fun a t => c = .ok a ∧ pre t) fault := by
  intro s hs
  refine ⟨rfl, h.bind fun a _ => .ok, fun a t ht => ?_⟩
  obtain ⟨hc, rfl⟩ := run_lift.1 ht
  exact ⟨hc, hs⟩

theorem throw {e : ε} (h : fault e) :
    Agree pre (throw e) (throw e : StateT σ (Except ε) α) post fault :=
  fun _ _ => ⟨rfl, .error h, nofun⟩

theorem get : Agree pre get (get : StateT σ (Except ε) σ) (fun a t => a = t ∧ pre t) fault := by
  intro s hs
  refine ⟨rfl, .ok, fun a t ht => ?_⟩
  obtain ⟨rfl, rfl⟩ := run_get.1 ht
  exact ⟨rfl, hs⟩

theorem set {t : σ} :
    Agree pre (set t) (set t : StateT σ (Except ε) PUnit) (fun _ u => t = u) fault :=
  fun _ _ => ⟨rfl, .ok, fun _ _ hu => run_set.1 hu⟩

theorem modify {change : σ → σ} :
    Agree pre (modify change) (modify change : StateT σ (Except ε) PUnit)
      (fun _ t => ∃ s, pre s ∧ change s = t) fault :=
  fun s hs => ⟨rfl, .ok, fun _ _ ht => ⟨s, hs, run_modify.1 ht⟩⟩

/-- A list of computations, one after the other; `R` is what is said of each result. -/
theorem mapM {R : α → β → Prop} {xs : List α}
    (h : ∀ x ∈ xs, Agree pre (f x) (g x) (fun b t => pre t ∧ R x b) fault) :
    Agree pre (xs.mapM f) (xs.mapM g) (fun bs t => pre t ∧ List.Forall₂ R xs bs) fault := by
  induction xs with
  | nil =>
    rw [List.mapM_nil, List.mapM_nil]
    exact .pure fun s hs => ⟨hs, .nil⟩
  | cons x xs ih =>
    obtain ⟨hx, hxs⟩ := List.forall_mem_cons.1 h
    rw [List.mapM_cons, List.mapM_cons]
    refine hx.bind fun b => ?_
    -- what is known of the first result does not depend on the state
    have hrest : R x b → Agree pre (xs.mapM f >>= fun bs => Pure.pure (b :: bs))
        (xs.mapM g >>= fun bs => Pure.pure (b :: bs))
        (fun bs t => pre t ∧ List.Forall₂ R (x :: xs) bs) fault :=
      fun hb => (ih hxs).bind fun bs => .pure fun s hs => ⟨hs.1, .cons hb hs.2⟩
    exact fun s hs => hrest hs.2 s hs.1

end Agree

/-! ### Computations that keep their state when they fail -/

theorem ran_bind {x : ExceptT ε (StateM σ) α} {f : α → ExceptT ε (StateM σ) β} {b : β} :
    (x >>= f).run.run s = (.ok b, s') ↔
      ∃ a t, x.run.run s = (.ok a, t) ∧ (f a).run.run t = (.ok b, s') := by
  rw [ExceptT.run_bind, StateT.run_bind]
  cases hx : x.run.run s with
  | mk o t =>
    cases o with
    | ok a =>
      change (f a).run.run t = _ ↔ _
      constructor
      · exact fun h => ⟨a, t, rfl, h⟩
      · rintro ⟨a', t', heq, h⟩
        cases heq
        exact h
    | error e =>
      change (Except.error e, t) = _ ↔ _
      constructor
      · exact fun h => by cases h
      · rintro ⟨a', t', heq, -⟩
        cases heq

theorem ran_bind_of_ok {x : ExceptT ε (StateM σ) α} (h : x.run.run s = (.ok a, s'))
    (f : α → ExceptT ε (StateM σ) β) : (x >>= f).run.run s = (f a).run.run s' := by
  rw [ExceptT.run_bind, StateT.run_bind, h]
  rfl

theorem ran_pure : (pure a : ExceptT ε (StateM σ) α).run.run s = (.ok b, s') ↔ a = b ∧ s = s' := by
  change (Except.ok a, s) = _ ↔ _
  simp

theorem ran_lift : (liftM x : ExceptT ε (StateM σ) α).run.run s = (.ok b, s') ↔ x = .ok b ∧ s = s' := by
  change (x, s) = _ ↔ _
  simp

theorem ran_get : (get : ExceptT ε (StateM σ) σ).run.run s = (.ok t, s') ↔ s = t ∧ s = s' := by
  change (Except.ok s, s) = _ ↔ _
  simp

theorem ran_throw : (throw e : ExceptT ε (StateM σ) α).run.run s = (.ok b, s') ↔ False := by
  change (Except.error e, s) = _ ↔ _
  simp

/-- A computation keeps `inv` even if it fails, and what it gives satisfies `post`. -/
structure Gives (inv : σ → Prop) (x : ExceptT ε (StateM σ) α) (post : α → Prop) : Prop where
  ok : ∀ s a t, inv s → x.run.run s = (.ok a, t) → inv t ∧ post a
  error : ∀ s e t, inv s → x.run.run s = (.error e, t) → inv t

namespace Gives
variable {inv : σ → Prop} {x : ExceptT ε (StateM σ) α} {f : α → ExceptT ε (StateM σ) β}
  {post : α → Prop} {post' : β → Prop}

instance : CoeFun (Gives inv x post)
    fun _ => ∀ s a t, inv s → x.run.run s = (.ok a, t) → inv t ∧ post a := ⟨ok⟩

theorem bind (hx : Gives inv x post) (hf : ∀ a, post a → Gives inv (f a) post') :
    Gives inv (x >>= f) post' where
  ok s b u hs h := by
    obtain ⟨a, t, hxa, hfb⟩ := ran_bind.1 h
    obtain ⟨ht, ha⟩ := hx s a t hs hxa
    exact hf a ha t b u ht hfb
  error s e u hs h := by
    rw [ExceptT.run_bind, StateT.run_bind] at h
    cases hrun : x.run.run s with
    | mk o t =>
      rw [hrun] at h
      cases o with
      | error e' =>
        cases h
        exact hx.error s e t hs hrun
      | ok a =>
        obtain ⟨ht, ha⟩ := hx s a t hs hrun
        exact (hf a ha).error t e u ht h

theorem pure {a : α} (h : post a) : Gives inv (pure a : ExceptT ε (StateM σ) α) post where
  ok s b t hs hrun := by
    obtain ⟨rfl, rfl⟩ := ran_pure.1 hrun
    exact ⟨hs, h⟩
  error _ _ _ _ hrun := by cases hrun

theorem throw {e : ε} : Gives inv (throw e : ExceptT ε (StateM σ) α) post where
  ok _ _ _ _ hrun := (ran_throw.1 hrun).elim
  error s e t hs hrun := by
    cases hrun
    exact hs

theorem lift {c : Except ε α} (h : ∀ a, c = .ok a → post a) :
    Gives inv (liftM c : ExceptT ε (StateM σ) α) post where
  ok s a t hs hrun := by
    obtain ⟨hc, rfl⟩ := ran_lift.1 hrun
    exact ⟨hs, h a hc⟩
  error s e t hs hrun := by
    cases hrun
    exact hs

theorem get : Gives inv (get : ExceptT ε (StateM σ) σ) inv where
  ok s a t hs hrun := by
    obtain ⟨rfl, rfl⟩ := ran_get.1 hrun
    exact ⟨hs, hs⟩
  error _ _ _ _ hrun := by cases hrun

theorem modify {g : σ → σ} (h : ∀ s, inv s → inv (g s)) :
    Gives inv (modify g : ExceptT ε (StateM σ) PUnit) fun _ => True where
  ok s a t hs hrun := by
    cases hrun
    exact ⟨h s hs, trivial⟩
  error _ _ _ _ hrun := by cases hrun

theorem keeps (hx : Gives inv x post) {s : σ} (hs : inv s) : inv (x.run.run s).2 := by
  cases hrun : x.run.run s with
  | mk o t =>
    cases o with
    | ok a => exact (hx s a t hs hrun).1
    | error e => exact hx.error s e t hs hrun

theorem of_keeps (h : ∀ s, inv s → inv (x.run.run s).2) : Gives inv x fun _ => True where
  ok s a t hs hrun := by
    have ht := h s hs
    rw [hrun] at ht
    exact ⟨ht, trivial⟩
  error s e t hs hrun := by
    have ht := h s hs
    rwa [hrun] at ht

theorem mono {post₂ : α → Prop} (hx : Gives inv x post) (h : ∀ a, post a → post₂ a) :
    Gives inv x post₂ where
  ok s a t hs hrun := (hx s a t hs hrun).imp_right (h a)
  error := hx.error

theorem and {inv₂ : σ → Prop} {post₂ : α → Prop} (hx : Gives inv x post) (hx₂ : Gives inv₂ x post₂) :
    Gives (fun s => inv s ∧ inv₂ s) x fun a => post a ∧ post₂ a where
  ok s a t hs hrun :=
    and_and_and_comm.1 ⟨hx s a t hs.1 hrun, hx₂ s a t hs.2 hrun⟩
  error s e t hs hrun := ⟨hx.error s e t hs.1 hrun, hx₂.error s e t hs.2 hrun⟩

theorem mapM {xs : List α} {post : α → β → Prop} (h : ∀ x ∈ xs, Gives inv (f x) (post x)) :
    Gives inv (xs.mapM f) (List.Forall₂ post xs) := by
  induction xs with
  | nil =>
    rw [List.mapM_nil]
    exact .pure .nil
  | cons x xs ih =>
    obtain ⟨hx, hxs⟩ := List.forall_mem_cons.1 h
    rw [List.mapM_cons]
    exact hx.bind fun b hb => (ih hxs).bind fun bs hbs => .pure (.cons hb hbs)

end Gives

/-- Whatever the state, the faults that a computation may meet are among `P`. -/
def Risks (P : ε → Prop) (x : ExceptT ε (StateM σ) α) : Prop := ∀ s, Faults P (x.run.run s).1

namespace Risks
variable {P : ε → Prop} {x : ExceptT ε (StateM σ) α} {f : α → ExceptT ε (StateM σ) β}

theorem bind (hx : Risks P x) (hf : ∀ a, Risks P (f a)) : Risks P (x >>= f) := by
  intro s
  have hfault := hx s
  rw [ExceptT.run_bind, StateT.run_bind]
  cases hrun : x.run.run s with
  | mk o t =>
    rw [hrun] at hfault
    cases o with
    | error e => exact .error (hfault e rfl)
    | ok a => exact hf a t

theorem pure {a : α} : Risks P (pure a : ExceptT ε (StateM σ) α) := fun _ => .ok

theorem throw {e : ε} (h : P e) : Risks P (throw e : ExceptT ε (StateM σ) α) := fun _ => .error h

theorem throw_bind {e : ε} {f : β → ExceptT ε (StateM σ) α} (h : P e) :
    Risks P ((MonadExcept.throw e : ExceptT ε (StateM σ) β) >>= f) := fun _ => .error h

theorem lift {c : Except ε α} (h : Faults P c) : Risks P (liftM c : ExceptT ε (StateM σ) α) :=
  fun _ => h

theorem map {g : α → β} (hx : Risks P x) : Risks P (g <$> x) := by
  rw [map_eq_pure_bind]
  exact hx.bind fun _ => .pure

theorem lift_bind {c : Except ε α} {a : α} (hc : c = .ok a) (hf : Risks P (f a)) :
    Risks P (liftM c >>= f) := by
  subst hc
  exact fun s => hf s

theorem get : Risks P (get : ExceptT ε (StateM σ) σ) := fun _ => .ok

theorem modify {g : σ → σ} : Risks P (modify g : ExceptT ε (StateM σ) PUnit) := fun _ => .ok

theorem mapM {xs : List α} (h : ∀ x ∈ xs, Risks P (f x)) : Risks P (xs.mapM f) := by
  induction xs with
  | nil =>
    rw [List.mapM_nil]
    exact .pure
  | cons x xs ih =>
    obtain ⟨hx, hxs⟩ := List.forall_mem_cons.1 h
    rw [List.mapM_cons]
    exact hx.bind fun b => (ih hxs).bind fun bs => .pure

end Risks

/-- A computation that does not fail, whatever the state. -/
def Succeeds (x : ExceptT ε (StateM σ) α) : Prop := ∀ s, ∃ a t, x.run.run s = (.ok a, t)

namespace Succeeds
variable {x : ExceptT ε (StateM σ) α}

theorem of_risks (h : Risks (fun _ => False) x) : Succeeds x := by
  intro s
  have hfault := h s
  cases hrun : x.run.run s with
  | mk o t =>
    rw [hrun] at hfault
    cases o with
    | ok a => exact ⟨a, t, rfl⟩
    | error e => exact (hfault e rfl).elim

theorem risks {P : ε → Prop} (h : Succeeds x) : Risks P x := by
  intro s
  obtain ⟨a, t, hrun⟩ := h s
  rw [hrun]
  exact .ok

end Succeeds

end OpenApi.Outcome
