import ProbDatalog.Clause
import Mathlib.Data.Set.Basic
import Mathlib.Tactic.Tauto

/-!
# Valuations and ground instances

A valuation gives every variable a constant, and so makes a fact of every positive literal.

* `ground_congr_iff`: an instance depends on the variables that occur.
* `ground_of_isGround`: a literal without variables is its only instance.
* `ground_eq_ground_iff`: when two literals have the same instance.
-/

namespace ProbDatalog

/-- A constant for every variable. -/
abbrev Valuation := Variable → Constant

namespace Term

/-- The constant that a term stands for. -/
def value (t : Term) (θ : Valuation) : Constant :=
  match t with
  | const c => c
  | var v => θ v

@[simp] theorem value_const (c : Constant) (θ : Valuation) : (const c).value θ = c := rfl

@[simp] theorem value_var (v : Variable) (θ : Valuation) : (var v).value θ = θ v := rfl

theorem value_rescoped (t : Term) (n : UInt32) (θ : Valuation) :
    (t.rescoped n).value θ = t.value fun v => θ (v.rescoped n) := by
  cases t <;> rfl

theorem eq_const_of_isGround {t : Term} (h : t.isGround = true) (θ : Valuation) :
    t = const (t.value θ) := by
  cases t with
  | const c => rfl
  | var v => exact absurd h (by simp [isGround])

theorem map_value_eq_iff (ts us : List Term) (θ η : Valuation) :
    ts.map (fun t => const (t.value θ)) = us.map (fun t => const (t.value η)) ↔
      ts.length = us.length ∧ ∀ p ∈ ts.zip us, p.1.value θ = p.2.value η := by
  induction ts generalizing us with
  | nil => cases us <;> simp
  | cons t ts ih =>
    cases us with
    | nil => simp
    | cons u us =>
      simp only [List.map_cons, List.cons.injEq, const.injEq, ih, List.length_cons,
        Nat.add_right_cancel_iff, List.zip_cons_cons, List.forall_mem_cons]
      tauto

end Term

namespace Literal

/-- The instance of a literal under a valuation. -/
def ground (l : Literal) (θ : Valuation) : Literal :=
  { l with terms := l.terms.map fun t => .const (t.value θ) }

section Fields

variable (l : Literal) (θ : Valuation)

@[simp] theorem ground_predicate : (l.ground θ).predicate = l.predicate := rfl

@[simp] theorem ground_negated : (l.ground θ).negated = l.negated := rfl

@[simp] theorem ground_arity : (l.ground θ).arity = l.arity := by simp [ground, arity]

@[simp] theorem isGround_ground : (l.ground θ).isGround = true := by
  simp [ground, isGround, Term.isGround]

@[simp] theorem positive_ground : (l.ground θ).positive = l.positive.ground θ := rfl

@[simp] theorem positive_negated : l.positive.negated = false := rfl

@[simp] theorem positive_predicate : l.positive.predicate = l.predicate := rfl

@[simp] theorem positive_arity : l.positive.arity = l.arity := rfl

@[simp] theorem positive_isGround : l.positive.isGround = l.isGround := rfl

@[simp] theorem positive_vars : l.positive.vars = l.vars := rfl

@[simp] theorem positive_terms : l.positive.terms = l.terms := rfl

@[simp] theorem rescoped_predicate (n : UInt32) : (l.rescoped n).predicate = l.predicate := rfl

@[simp] theorem rescoped_negated (n : UInt32) : (l.rescoped n).negated = l.negated := rfl

@[simp] theorem rescoped_arity (n : UInt32) : (l.rescoped n).arity = l.arity := by
  simp [rescoped, arity]

end Fields

variable {l m : Literal} {θ η : Valuation}

theorem mem_vars {v : Variable} : v ∈ l.vars ↔ .var v ∈ l.terms := by
  simp only [vars, List.mem_filterMap]
  constructor
  · rintro ⟨t, ht, hv⟩
    cases t with
    | const c => cases hv
    | var u => cases hv; exact ht
  · intro h
    exact ⟨_, h, rfl⟩

/-- **An instance depends on the variables that occur**, and tells their values. -/
theorem ground_congr_iff : l.ground θ = l.ground η ↔ ∀ v ∈ l.vars, θ v = η v := by
  simp only [ground, Literal.mk.injEq, List.map_inj_left, Term.const.injEq, true_and, and_true]
  constructor
  · intro h v hv
    exact h _ (mem_vars.1 hv)
  · intro h t ht
    cases t with
    | const c => rfl
    | var v => exact h v (mem_vars.2 ht)

theorem ground_congr (h : ∀ v ∈ l.vars, θ v = η v) : l.ground θ = l.ground η :=
  ground_congr_iff.2 h

theorem ground_rescoped (l : Literal) (n : UInt32) (θ : Valuation) :
    (l.rescoped n).ground θ = l.ground fun v => θ (v.rescoped n) := by
  simp [ground, rescoped, Term.value_rescoped]

/-- A literal without variables is its only instance. -/
theorem ground_of_isGround (h : l.isGround = true) (θ : Valuation) : l.ground θ = l := by
  have ht : l.terms.map (fun t => Term.const (t.value θ)) = l.terms := by
    conv_rhs => rw [← List.map_id l.terms]
    refine List.map_congr_left fun t ht => ?_
    exact (Term.eq_const_of_isGround (List.all_eq_true.1 h t ht) θ).symm
  unfold ground
  rw [ht]

theorem ground_eq_ground_iff :
    l.ground θ = m.ground η ↔
      l.predicate = m.predicate ∧ l.negated = m.negated ∧ l.arity = m.arity ∧
        ∀ p ∈ l.terms.zip m.terms, p.1.value θ = p.2.value η := by
  simp only [ground, Literal.mk.injEq, Term.map_value_eq_iff, arity]
  tauto

end Literal

end ProbDatalog
