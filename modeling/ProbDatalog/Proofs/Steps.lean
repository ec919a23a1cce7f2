import ProbDatalog.Search.Query
import ProbDatalog.Proofs.Contents
import Mathlib.Tactic.Tauto

/-!
# Reasoning about steps of a search

`After x s Q` says that what the step `x` leads to from the state `s`, its result or the reason why
it stops together with the state that it leaves, satisfies `Q`. A step is taken apart by one lemma
for each way in which steps are made.

* `after_bind`: one step after another.
* `after_onTables`, `after_readTables`: an operation on the tables.
-/

namespace ProbDatalog

theorem Except.exists_of_bind_eq_ok {ε α β : Type} {x : Except ε α} {f : α → Except ε β} {b : β}
    (h : x >>= f = .ok b) : ∃ a, x = .ok a ∧ f a = .ok b := by
  cases x with
  | error e => cases h
  | ok a => exact ⟨a, rfl, h⟩

theorem Except.exists_of_map_eq_ok {ε α β : Type} {x : Except ε α} {f : α → β} {b : β}
    (h : x.map f = .ok b) : ∃ a, x = .ok a ∧ f a = b := by
  cases x with
  | error e => cases h
  | ok a => exact ⟨a, rfl, Except.ok.inj h⟩

theorem Except.eq_error_of_map_eq_error {ε α β : Type} {x : Except ε α} {f : α → β} {e : ε}
    (h : x.map f = .error e) : x = .error e := by
  cases x with
  | error e' => exact congrArg Except.error (Except.error.inj h)
  | ok a => cases h

namespace Searching

variable {σ α β : Type}

/-- What a step leads to from a state satisfies `Q`. -/
def After (x : Searching σ α) (s : Search σ) (Q : Except Halt α → Search σ → Prop) : Prop :=
  Q (x s).1 (x s).2

variable {s : Search σ} {Q Q' : Except Halt α → Search σ → Prop}

theorem After.mono {x : Searching σ α} (h : After x s Q) (hQ : ∀ r t, Q r t → Q' r t) :
    After x s Q' := hQ _ _ h

theorem After.of_run {x : Searching σ α} {r : Except Halt α} {t : Search σ} (h : After x s Q)
    (hr : x s = (r, t)) : Q r t := by
  unfold After at h
  rwa [hr] at h

@[simp] theorem after_pure (a : α) : After (pure a) s Q ↔ Q (.ok a) s := Iff.rfl

@[simp] theorem after_throw (h : Halt) : After (throw h : Searching σ α) s Q ↔ Q (.error h) s :=
  Iff.rfl

@[simp] theorem after_fail (e : Error) : After (fail e) s Q ↔ Q (.error (.failed e)) s := Iff.rfl

theorem bind_eq_ok {x : Searching σ α} {f : α → Searching σ β} {s t : Search σ} {b : β}
    (h : (x >>= f) s = (.ok b, t)) : ∃ a u, x s = (.ok a, u) ∧ f a u = (.ok b, t) := by
  rw [bind_run] at h
  cases hx : x s with
  | mk r u =>
    rw [hx] at h
    cases r with
    | ok a => exact ⟨a, u, rfl, h⟩
    | error e => cases h

/-- **One step after another.** -/
theorem after_bind {x : Searching σ α} {f : α → Searching σ β}
    {Q : Except Halt β → Search σ → Prop} :
    After (x >>= f) s Q ↔ After x s fun r t =>
      match r with
      | .ok a => After (f a) t Q
      | .error h => Q (.error h) t := by
  unfold After
  rw [bind_run]
  cases x s with
  | mk r t => cases r <;> rfl

@[simp] theorem after_get {Q : Except Halt (Search σ) → Search σ → Prop} :
    After get s Q ↔ Q (.ok s) s := Iff.rfl

@[simp] theorem after_modify (f : Search σ → Search σ) {Q : Except Halt PUnit → Search σ → Prop} :
    After (modify f) s Q ↔ Q (.ok ⟨⟩) (f s) := Iff.rfl

theorem after_ofExcept (x : Except Error α) :
    After (ofExcept x) s Q ↔
      (∀ a, x = .ok a → Q (.ok a) s) ∧ ∀ e, x = .error e → Q (.error (.failed e)) s := by
  cases x <;> simp [ofExcept]

theorem after_ofOption (x : Option α) :
    After (ofOption x) s Q ↔
      (∀ a, x = some a → Q (.ok a) s) ∧ (x = none → Q (.error .exhausted) s) := by
  cases x <;> simp [ofOption]

/-- **An operation on the tables.** -/
theorem after_onTables (f : σ → Except StoreFault α × σ) :
    After (onTables f) s Q ↔
      (∀ a t, f s.tables = (.ok a, t) → Q (.ok a) { s with tables := t }) ∧
        ∀ e t, f s.tables = (.error e, t) →
          Q (.error (.failed (.storage e))) { s with tables := t } := by
  unfold After onTables
  cases h : f s.tables with
  | mk r t => cases r <;> simp

theorem after_readTables (f : σ → Except StoreFault α) :
    After (readTables f) s Q ↔
      (∀ a, f s.tables = .ok a → Q (.ok a) s) ∧
        ∀ e, f s.tables = .error e → Q (.error (.failed (.storage e))) s := by
  unfold readTables
  rw [after_onTables]
  simp only [Prod.mk.injEq, and_imp]
  constructor
  · rintro ⟨hok, herr⟩
    exact ⟨fun a h => hok a _ h rfl, fun e h => herr e _ h rfl⟩
  · rintro ⟨hok, herr⟩
    refine ⟨fun a t h ht => ?_, fun e t h ht => ?_⟩
    · subst ht
      exact hok a h
    · subst ht
      exact herr e h

theorem after_enter (p : CallPattern) {Q : Except Halt Bool → Search σ → Prop} :
    After (enter p) s Q ↔
      ((p ∈ s.complete ∨ p ∈ s.expanded) → Q (.ok false) s) ∧
        (p ∉ s.complete → p ∉ s.expanded →
          Q (.ok true) { s with expanded := p :: s.expanded }) := by
  unfold After enter
  by_cases h : p ∈ s.complete ∨ p ∈ s.expanded
  · have hc : (s.complete.contains p || s.expanded.contains p) = true := by simpa using h
    rw [if_pos hc]
    tauto
  · have hc : ¬(s.complete.contains p || s.expanded.contains p) = true := by simpa using h
    rw [if_neg hc]
    tauto

end Searching

end ProbDatalog
