import ProbDatalog.Proofs.Valuation
import ProbDatalog.Substitution

/-!
# Solutions of substitutions

A valuation solves a substitution if every bound variable has the value of its term. Bindings whose
chains end, `Acyclic`, have solutions, and unification describes the common solutions of what it
started from and of the equations it was given.

* `SolvedBy.value_resolve`, `SolvedBy.ground_apply`: following bindings keeps values.
* `Acyclic.exists_solvedBy`: unbound variables are free.
* `unifyTerms_spec`, `unifyPairs_spec`, `Literal.unify?_spec`: **unification finds the common
  solutions**, or there are none.
* `Acyclic.isGround_apply`: a literal with the same value in all solutions becomes ground.
-/

namespace ProbDatalog

namespace Substitution

variable {s s' : Substitution} {θ : Valuation} {t : Term} {v : Variable}

/-- Every bound variable has the value of its term. -/
def SolvedBy (s : Substitution) (θ : Valuation) : Prop := ∀ v t, s.get? v = some t → θ v = t.value θ

/-- The rank of a variable, and zero for a constant. -/
def height (rank : Variable → Nat) : Term → Nat
  | .const _ => 0
  | .var v => rank v

@[simp] theorem height_const (rank : Variable → Nat) (c : Constant) :
    height rank (.const c) = 0 := rfl

@[simp] theorem height_var (rank : Variable → Nat) (v : Variable) :
    height rank (.var v) = rank v := rfl

/-- Along every binding the rank falls. -/
def Ranks (s : Substitution) (rank : Variable → Nat) : Prop :=
  ∀ v t, s.get? v = some t → height rank t < rank v

/-- No chain of bindings is longer than the number of bindings. -/
def Acyclic (s : Substitution) : Prop := ∃ rank, s.Ranks rank ∧ ∀ v, rank v ≤ s.size

/-! ## Chains -/

@[simp] theorem get?_empty (v : Variable) : empty.get? v = none := rfl

theorem acyclic_empty : empty.Acyclic :=
  ⟨fun _ => 0, fun v t h => by simp at h, fun _ => Nat.le_refl 0⟩

theorem solvedBy_empty (θ : Valuation) : empty.SolvedBy θ := fun v t h => by simp at h

theorem SolvedBy.value_follow (h : s.SolvedBy θ) (steps : Nat) (t : Term) :
    (s.follow steps t).value θ = t.value θ := by
  induction steps generalizing t with
  | zero => rfl
  | succ steps ih =>
    unfold follow
    cases t with
    | const c => rfl
    | var v =>
      cases hv : s.get? v with
      | none => simp [hv]
      | some next =>
        simp only [hv]
        rw [ih next]
        exact (h v next hv).symm

/-- Following bindings keeps values. -/
theorem SolvedBy.value_resolve (h : s.SolvedBy θ) (t : Term) :
    (s.resolve t).value θ = t.value θ := h.value_follow s.size t

theorem Ranks.follow_eq {rank : Variable → Nat} (hr : s.Ranks rank) {m n : Nat} {t : Term}
    (hm : height rank t ≤ m) (hn : height rank t ≤ n) : s.follow m t = s.follow n t := by
  -- a step costs rank, so by induction on the shorter walk both end where the rank is used up
  induction m generalizing n t with
  | zero =>
    cases t with
    | const c => cases n <;> rfl
    | var v =>
      have hv : s.get? v = none := by
        cases h : s.get? v with
        | none => rfl
        | some t' =>
          have := hr v t' h
          simp only [height_var] at this hm
          omega
      cases n with
      | zero => rfl
      | succ n => simp [follow, hv]
  | succ m ih =>
    cases t with
    | const c => cases n <;> rfl
    | var v =>
      cases hv : s.get? v with
      | none => cases n <;> simp [follow, hv]
      | some next =>
        have hlt := hr v next hv
        simp only [height_var] at hlt hm hn
        cases n with
        | zero => omega
        | succ n =>
          simp only [follow, hv]
          exact ih (by omega) (by omega)

theorem Ranks.get?_eq_none_of_follow {rank : Variable → Nat} (hr : s.Ranks rank) {steps : Nat}
    {t : Term} (ht : height rank t ≤ steps) (h : s.follow steps t = .var v) : s.get? v = none := by
  -- the rank falls with each step, so the steps that are left suffice for the rest of the chain
  induction steps generalizing t with
  | zero =>
    have : t = .var v := h
    subst this
    cases hv : s.get? v with
    | none => rfl
    | some t' =>
      have := hr v t' hv
      simp only [height_var] at this ht
      omega
  | succ steps ih =>
    cases t with
    | const c => cases h
    | var u =>
      cases hu : s.get? u with
      | none =>
        simp only [follow, hu, Term.var.injEq] at h
        exact h ▸ hu
      | some next =>
        simp only [follow, hu] at h
        have hlt := hr u next hu
        simp only [height_var] at hlt ht
        exact ih (by omega) h

theorem Acyclic.height_le {rank : Variable → Nat} (hle : ∀ v, rank v ≤ s.size) (t : Term) :
    height rank t ≤ s.size := by
  cases t with
  | const c => exact Nat.zero_le _
  | var v => exact hle v

/-- The variable at the end of a chain is not bound. -/
theorem Acyclic.get?_eq_none_of_resolve (hs : s.Acyclic) (h : s.resolve t = .var v) :
    s.get? v = none := by
  obtain ⟨rank, hr, hle⟩ := hs
  exact hr.get?_eq_none_of_follow (Acyclic.height_le hle t) h

theorem resolve_of_get?_eq_none (h : s.get? v = none) : s.resolve (.var v) = .var v := by
  unfold resolve
  cases s.size with
  | zero => rfl
  | succ n => simp [follow, h]

theorem resolve_const (c : Constant) : s.resolve (.const c) = .const c := by
  unfold resolve
  cases s.size <;> rfl

theorem Acyclic.resolve_of_get?_eq_some (hs : s.Acyclic) (h : s.get? v = some t) :
    s.resolve (.var v) = s.resolve t := by
  obtain ⟨rank, hr, hle⟩ := hs
  have hlt := hr v t h
  have hv := hle v
  unfold resolve
  obtain ⟨n, hn⟩ : ∃ n, s.size = n + 1 := ⟨s.size - 1, by omega⟩
  have hstep : s.follow s.size (.var v) = s.follow n t := by simp [hn, follow, h]
  rw [hstep]
  exact hr.follow_eq (by omega) (by omega)

/-- **Unbound variables are free**: any values of them are part of a solution. -/
theorem Acyclic.exists_solvedBy (hs : s.Acyclic) (η : Valuation) :
    ∃ θ, s.SolvedBy θ ∧ ∀ v, s.get? v = none → θ v = η v := by
  -- a bound variable takes the value of the end of its chain
  refine ⟨fun v => (s.resolve (.var v)).value η, ?_, ?_⟩
  · intro v t h
    simp only [hs.resolve_of_get?_eq_some h]
    cases t with
    | const c => rw [resolve_const]; rfl
    | var u => rfl
  · intro v h
    simp [resolve_of_get?_eq_none h]

/-! ## New bindings -/

theorem get?_bind (s : Substitution) (a v : Variable) (t : Term) :
    (s.bind a t).get? v = if a = v then some t else s.get? v :=
  Assoc.get?_insert s.bindings a v t

theorem solvedBy_bind_iff {a : Variable} (ha : s.get? a = none) :
    (s.bind a t).SolvedBy θ ↔ s.SolvedBy θ ∧ θ a = t.value θ := by
  constructor
  · intro h
    refine ⟨fun v u hv => h v u ?_, h a t (by simp [get?_bind])⟩
    rw [get?_bind, if_neg, hv]
    intro hav
    simp [← hav, ha] at hv
  · rintro ⟨h, hat⟩ v u hv
    rw [get?_bind] at hv
    split at hv
    next hav =>
      cases hv
      exact hav ▸ hat
    · exact h v u hv

/-- An unbound variable may be bound to the end of another chain. -/
theorem Acyclic.bind (hs : s.Acyclic) {a : Variable} (ha : s.get? a = none) (hne : t ≠ .var a)
    (ht : ∀ b, t = .var b → s.get? b = none) : (s.bind a t).Acyclic := by
  obtain ⟨rank, hr, hle⟩ := hs
  -- every rank goes up by one, and the new end of the chains through `a` goes to the bottom
  refine ⟨fun x => if t = .var x then 0 else rank x + 1, ?_, ?_⟩
  · intro v u hv
    rw [get?_bind] at hv
    split at hv
    next hav =>
      cases hv
      subst hav
      simp only [if_neg hne]
      cases t with
      | const c => exact Nat.succ_pos _
      | var b => simp [height]
    · have hlt := hr v u hv
      have htv : t ≠ .var v := fun h => by simp [ht v h] at hv
      simp only [if_neg htv]
      cases u with
      | const c => exact Nat.succ_pos _
      | var b =>
        simp only [height_var] at hlt ⊢
        split <;> omega
  · intro v
    have hsize : (s.bind a t).size = s.size + 1 := Assoc.size_insert_of_get?_eq_none ha t
    have := hle v
    simp only
    split <;> omega

/-! ## Unification -/

/-- **Unification of two terms** finds the solutions that make them equal. -/
theorem unifyTerms_spec (hs : s.Acyclic) (l r : Term) :
    (∃ s', s.unifyTerms l r = some s' ∧ s'.Acyclic ∧
      ∀ θ, s'.SolvedBy θ ↔ s.SolvedBy θ ∧ l.value θ = r.value θ) ∨
    (s.unifyTerms l r = none ∧ ∀ θ, s.SolvedBy θ → l.value θ ≠ r.value θ) := by
  -- the equation between the terms says the same as the one between the ends of their chains
  have key : ∀ θ, s.SolvedBy θ →
      (l.value θ = r.value θ ↔ (s.resolve l).value θ = (s.resolve r).value θ) := by
    intro θ h
    rw [h.value_resolve, h.value_resolve]
  unfold unifyTerms
  cases hl : s.resolve l with
  | const a =>
    cases hr : s.resolve r with
    | const b =>
      simp only [hl, hr, Term.value_const] at key
      by_cases hab : a = b
      · refine .inl ⟨s, by simp [hab], hs, fun θ => ?_⟩
        constructor
        · intro h
          exact ⟨h, (key θ h).2 hab⟩
        · exact fun h => h.1
      · refine .inr ⟨by simp [hab], fun θ h heq => hab ((key θ h).1 heq)⟩
    | var b =>
      have hb := hs.get?_eq_none_of_resolve hr
      simp only [hl, hr, Term.value_const, Term.value_var] at key
      refine .inl ⟨_, rfl, hs.bind hb (by simp) (by simp), fun θ => ?_⟩
      rw [solvedBy_bind_iff hb]
      refine and_congr_right fun h => ?_
      rw [key θ h, Term.value_const, eq_comm]
  | var a =>
    have ha := hs.get?_eq_none_of_resolve hl
    cases hr : s.resolve r with
    | const b =>
      simp only [hl, hr, Term.value_const, Term.value_var] at key
      refine .inl ⟨_, rfl, hs.bind ha (by simp) (by simp), fun θ => ?_⟩
      rw [solvedBy_bind_iff ha]
      refine and_congr_right fun h => ?_
      rw [key θ h, Term.value_const]
    | var b =>
      have hb := hs.get?_eq_none_of_resolve hr
      simp only [hl, hr, Term.value_var] at key
      by_cases hab : a = b
      · refine .inl ⟨s, by simp [hab], hs, fun θ => ?_⟩
        constructor
        · intro h
          exact ⟨h, (key θ h).2 (by rw [hab])⟩
        · exact fun h => h.1
      · refine .inl ⟨s.bind a (.var b), by simp [hab], hs.bind ha ?_ ?_, fun θ => ?_⟩
        · simpa using Ne.symm hab
        · intro c hc
          cases hc
          exact hb
        · rw [solvedBy_bind_iff ha]
          refine and_congr_right fun h => ?_
          rw [key θ h, Term.value_var]

/-- **Unification of several pairs** finds the solutions that make all of them equal. -/
theorem unifyPairs_spec (hs : s.Acyclic) (pairs : List (Term × Term)) :
    (∃ s', s.unifyPairs pairs = (true, s') ∧ s'.Acyclic ∧
      ∀ θ, s'.SolvedBy θ ↔ s.SolvedBy θ ∧ ∀ p ∈ pairs, p.1.value θ = p.2.value θ) ∨
    ((s.unifyPairs pairs).1 = false ∧
      ∀ θ, s.SolvedBy θ → ¬∀ p ∈ pairs, p.1.value θ = p.2.value θ) := by
  induction pairs generalizing s with
  | nil => exact .inl ⟨s, rfl, hs, by simp⟩
  | cons p rest ih =>
    obtain ⟨l, r⟩ := p
    simp only [unifyPairs, List.forall_mem_cons]
    rcases unifyTerms_spec hs l r with ⟨s₁, h₁, hs₁, hsol₁⟩ | ⟨hnone, hne⟩
    · simp only [h₁]
      rcases ih hs₁ with ⟨s₂, h₂, hs₂, hsol₂⟩ | ⟨hfalse, hne⟩
      · refine .inl ⟨s₂, h₂, hs₂, fun θ => ?_⟩
        rw [hsol₂, hsol₁, and_assoc]
      · refine .inr ⟨hfalse, fun θ h hall => hne θ ((hsol₁ θ).2 ⟨h, hall.1⟩) hall.2⟩
    · refine .inr ⟨by simp [hnone], fun θ h hall => hne θ h hall.1⟩

/-- **Merging** finds the solutions that satisfy the other bindings. -/
theorem merge_spec (hs : s.Acyclic) (other : Substitution) :
    (∃ s', s.merge other = (true, s') ∧ s'.Acyclic ∧
      ∀ θ, s'.SolvedBy θ ↔ s.SolvedBy θ ∧ ∀ b ∈ other.toList, θ b.1 = b.2.value θ) ∨
    ((s.merge other).1 = false ∧
      ∀ θ, s.SolvedBy θ → ¬∀ b ∈ other.toList, θ b.1 = b.2.value θ) := by
  have h := unifyPairs_spec hs (other.toList.map fun b => (.var b.1, b.2))
  simpa only [merge, List.forall_mem_map, Term.value_var] using h

/-! ## Literals under substitutions -/

@[simp] theorem apply_predicate (l : Literal) : (s.apply l).predicate = l.predicate := rfl

@[simp] theorem apply_negated (l : Literal) : (s.apply l).negated = l.negated := rfl

@[simp] theorem apply_arity (l : Literal) : (s.apply l).arity = l.arity := by
  simp [apply, Literal.arity]

variable {l : Literal}

/-- A literal with all bindings applied has the same values. -/
theorem SolvedBy.ground_apply (h : s.SolvedBy θ) (l : Literal) :
    (s.apply l).ground θ = l.ground θ := by
  simp [Literal.ground, apply, h.value_resolve]

theorem SolvedBy.apply_eq_ground (h : s.SolvedBy θ) (hg : (s.apply l).isGround = true) :
    s.apply l = l.ground θ := by
  rw [← h.ground_apply, Literal.ground_of_isGround hg]

theorem Acyclic.get?_eq_none_of_mem_vars_apply (hs : s.Acyclic) (h : v ∈ (s.apply l).vars) :
    s.get? v = none := by
  obtain ⟨t, -, ht⟩ := List.mem_map.1 (Literal.mem_vars.1 h)
  exact hs.get?_eq_none_of_resolve ht

/-- The instances of a literal with all bindings applied are those under the solutions. -/
theorem Acyclic.exists_ground_apply_iff (hs : s.Acyclic) (g : Literal) :
    (∃ η, (s.apply l).ground η = g) ↔ ∃ θ, s.SolvedBy θ ∧ l.ground θ = g := by
  constructor
  · rintro ⟨η, rfl⟩
    obtain ⟨θ, hθ, hfree⟩ := hs.exists_solvedBy η
    refine ⟨θ, hθ, ?_⟩
    rw [← hθ.ground_apply]
    exact Literal.ground_congr fun v hv => hfree v (hs.get?_eq_none_of_mem_vars_apply hv)
  · rintro ⟨θ, hθ, rfl⟩
    exact ⟨θ, hθ.ground_apply l⟩

/-- A term with the same value in all solutions becomes a constant. -/
theorem Acyclic.isGround_resolve (hs : s.Acyclic)
    (h : ∀ θ η, s.SolvedBy θ → s.SolvedBy η → t.value θ = t.value η) :
    (s.resolve t).isGround = true := by
  cases hv : s.resolve t with
  | const c => rfl
  | var v =>
    have hnone := hs.get?_eq_none_of_resolve hv
    -- an unbound variable at the end of the chain is free to take two values
    obtain ⟨θ, hθ, hfalse⟩ := hs.exists_solvedBy fun _ => .boolean false
    obtain ⟨η, hη, htrue⟩ := hs.exists_solvedBy fun _ => .boolean true
    have := h θ η hθ hη
    rw [← hθ.value_resolve, ← hη.value_resolve, hv] at this
    simp [hfalse v hnone, htrue v hnone] at this

/-- A literal with the same value in all solutions becomes ground. -/
theorem Acyclic.isGround_apply (hs : s.Acyclic)
    (h : ∀ θ η, s.SolvedBy θ → s.SolvedBy η → l.ground θ = l.ground η) :
    (s.apply l).isGround = true := by
  refine List.all_eq_true.2 fun u hu => ?_
  obtain ⟨t, ht, rfl⟩ := List.mem_map.1 hu
  refine hs.isGround_resolve fun θ η hθ hη => ?_
  cases t with
  | const c => rfl
  | var v => exact Literal.ground_congr_iff.1 (h θ η hθ hη) v (Literal.mem_vars.2 ht)

end Substitution

/-- **Unification of two literals** finds the solutions under which they have the same instance. -/
theorem Literal.unify?_spec {base : Substitution} (hs : base.Acyclic) (l r : Literal) :
    (∃ s, l.unify? r base = some s ∧ s.Acyclic ∧
      ∀ θ, s.SolvedBy θ ↔ base.SolvedBy θ ∧ l.ground θ = r.ground θ) ∨
    (l.unify? r base = none ∧ ∀ θ, base.SolvedBy θ → l.ground θ ≠ r.ground θ) := by
  unfold unify?
  simp only [ne_eq, Literal.ground_eq_ground_iff]
  -- names, arities and signs are compared first, and the pairs of arguments settle the rest
  by_cases hsame : l.predicate = r.predicate ∧ l.arity = r.arity ∧ l.negated = r.negated
  · rw [if_pos hsame]
    obtain ⟨hp, ha, hn⟩ := hsame
    simp only [hp, ha, hn, true_and]
    rcases Substitution.unifyPairs_spec hs (l.terms.zip r.terms) with ⟨s, h, hac, hsol⟩ | ⟨hf, hne⟩
    · exact .inl ⟨s, by simp [h], hac, hsol⟩
    · refine .inr ⟨?_, hne⟩
      cases hu : base.unifyPairs (l.terms.zip r.terms) with
      | mk ok s =>
        rw [hu] at hf
        cases hf
        rfl
  · rw [if_neg hsame]
    exact .inr ⟨rfl, fun θ _ h => hsame ⟨h.1, h.2.2.1, h.2.1⟩⟩

/-- A literal unifies with its ground instances and with no other ground literals. -/
theorem Literal.unify?_isSome_iff {q f : Literal} (hf : f.isGround = true) :
    (q.unify? f .empty).isSome = true ↔ ∃ θ, q.ground θ = f := by
  have hff : ∀ θ, f.ground θ = f := Literal.ground_of_isGround hf
  rcases Literal.unify?_spec Substitution.acyclic_empty q f with ⟨s, hs, hac, hsol⟩ | ⟨hnone, hne⟩
  · obtain ⟨θ, hθ, -⟩ := hac.exists_solvedBy fun _ => .boolean false
    have heq := ((hsol θ).1 hθ).2
    rw [hff] at heq
    simp only [hs, Option.isSome_some, true_iff]
    exact ⟨θ, heq⟩
  · simp only [hnone, Option.isSome_none, Bool.false_eq_true, false_iff]
    rintro ⟨θ, hθ⟩
    exact hne θ (Substitution.solvedBy_empty θ) (by rw [hθ, hff])

end ProbDatalog
