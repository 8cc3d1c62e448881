import OpenApi.Notice
import OpenApi.Proofs.Outcome

/-!
Traced computations are computations with a result, and their notices do not change it.
-/
namespace OpenApi
namespace Traced
open Outcome (Faults)

variable {α β : Type} {x : Traced α} {f : α → Traced β}

theorem result_bind (x : Traced α) (f : α → Traced β) :
    (x >>= f).result = x.result >>= fun a => (f a).result := by
  obtain ⟨notices, result⟩ := x
  cases result with
  | error fault => rfl
  | ok a => rfl

theorem bind_ok {b : β} : (x >>= f).result = .ok b ↔ ∃ a, x.result = .ok a ∧ (f a).result = .ok b := by
  rw [result_bind, Outcome.bind_ok]

/-- One of two computations, and then the rest. -/
theorem ite_bind_ok {test : Bool} {y : Traced α} {b : β}
    (h : (if test = true then x >>= f else y >>= f).result = .ok b) :
    ∃ a, (test = true ∧ x.result = .ok a ∨ y.result = .ok a) ∧ (f a).result = .ok b := by
  cases test with
  | true =>
    obtain ⟨a, ha, h⟩ := bind_ok.1 h
    exact ⟨a, .inl ⟨rfl, ha⟩, h⟩
  | false =>
    obtain ⟨a, ha, h⟩ := bind_ok.1 h
    exact ⟨a, .inr ha, h⟩

theorem faults_bind {P : Fault → Prop} (hx : Faults P x.result)
    (hf : ∀ a, x.result = .ok a → Faults P (f a).result) : Faults P (x >>= f).result := by
  rw [result_bind]
  exact hx.bind hf

theorem faults_ite_bind {P : Fault → Prop} {test : Bool} {y : Traced α} (hx : Faults P x.result)
    (hy : Faults P y.result) (hf : ∀ a, Faults P (f a).result) :
    Faults P (if test = true then x >>= f else y >>= f).result := by
  cases test with
  | true => exact faults_bind hx fun a _ => hf a
  | false => exact faults_bind hy fun a _ => hf a

theorem id_map (x : Traced α) : id <$> x = x := by
  obtain ⟨notices, result⟩ := x
  cases result with
  | error fault => rfl
  | ok a => exact congrArg (Traced.mk · (.ok a)) (List.append_nil notices)

theorem bind_assoc {γ : Type} (x : Traced α) (f : α → Traced β) (g : β → Traced γ) :
    x >>= f >>= g = x >>= fun a => f a >>= g := by
  obtain ⟨notices, result⟩ := x
  cases result with
  | error fault => rfl
  | ok a =>
    cases hf : f a with
    | mk notices' result =>
      cases result with
      | error fault => simp only [bind, hf]
      | ok b => simp only [bind, hf, List.append_assoc]

instance : LawfulMonad Traced := .mk' Traced id_map (fun _ _ => rfl) bind_assoc

theorem result_mapM (f : α → Traced β) (xs : List α) :
    (xs.mapM f).result = xs.mapM fun x => (f x).result := by
  induction xs with
  | nil =>
    rw [List.mapM_nil, List.mapM_nil]
    rfl
  | cons x xs ih =>
    rw [List.mapM_cons, List.mapM_cons, result_bind]
    congr
    funext y
    rw [result_bind, ih]
    rfl

end Traced
end OpenApi
