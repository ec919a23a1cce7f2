import ProbDatalog.Proofs.Solutions
import Mathlib.Data.Finset.Card
import Mathlib.Logic.Relation

/-!
# Chains of bindings

A bound variable stands for what it is bound to, so bindings are followed until a constant or an
unbound variable comes up. Bindings that lead back to themselves are followed for ever. `LeadsTo`,
`Joins` and `JoinsAll` say where following bindings, making two terms equal and making pairs of
terms equal come to an end, whatever number of steps it takes.

* `acyclic_iff_alwaysEnds`: **following bindings always ends just where no chain is longer than the
  number of bindings.**
* `Joins.acyclic`, `Joins.keeps`: one step of unification adds bindings that still end.
* `Acyclic.joinsAll_unifyPairs`: **unification comes to an end** where it starts from such bindings.
-/

namespace ProbDatalog.Substitution

variable {s s' : Substitution} {t u l r : Term} {v w : Variable}

/-! ## Following bindings -/

/-- Following bindings from one term on ends at another one. -/
inductive LeadsTo (s : Substitution) : Term → Term → Prop
  | const (c : Constant) : LeadsTo s (.const c) (.const c)
  | free {v : Variable} (h : s.get? v = none) : LeadsTo s (.var v) (.var v)
  | bound {v : Variable} {t u : Term} (h : s.get? v = some t) (rest : LeadsTo s t u) :
      LeadsTo s (.var v) u

/-- Following bindings ends, wherever it starts. -/
def AlwaysEnds (s : Substitution) : Prop := ∀ t, ∃ u, s.LeadsTo t u

/-- A variable is bound to another one. -/
def Next (s : Substitution) (v w : Variable) : Prop := s.get? v = some (.var w)

theorem LeadsTo.get?_eq_none (h : s.LeadsTo t (.var v)) : s.get? v = none := by
  generalize hu : Term.var v = u at h
  induction h with
  | const c => cases hu
  | free h =>
    cases hu
    exact h
  | bound _ _ ih => exact ih hu

/-- Where the steps suffice for the rank of a term, they come to the end of its chain. -/
theorem Ranks.leadsTo_follow {rank : Variable → Nat} (hr : s.Ranks rank) {steps : Nat} {t : Term}
    (ht : height rank t ≤ steps) : s.LeadsTo t (s.follow steps t) := by
  -- the rank falls with each step, as in `Ranks.get?_eq_none_of_follow`
  induction steps generalizing t with
  | zero =>
    cases t with
    | const c => exact .const c
    | var v =>
      refine .free (Option.eq_none_iff_forall_not_mem.2 fun t hv => ?_)
      have := hr v t hv
      simp only [height_var] at ht
      omega
  | succ steps ih =>
    cases t with
    | const c => exact .const c
    | var v =>
      cases hv : s.get? v with
      | none =>
        simp only [follow, hv]
        exact .free hv
      | some next =>
        have hlt := hr v next hv
        simp only [height_var] at hlt ht
        simp only [follow, hv]
        exact .bound hv (ih (by omega))

/-- The value of a term is where following bindings ends. -/
theorem Acyclic.leadsTo_resolve (hs : s.Acyclic) (t : Term) : s.LeadsTo t (s.resolve t) := by
  obtain ⟨rank, hr, hle⟩ := hs
  exact hr.leadsTo_follow (Acyclic.height_le hle t)

/-- Where following bindings ends, no variable is passed twice. -/
theorem LeadsTo.not_transGen_self (h : s.LeadsTo (.var v) u) :
    ¬Relation.TransGen s.Next v v := by
  generalize ht : Term.var v = t at h
  induction h generalizing v with
  | const c => cases ht
  | free hfree =>
    cases ht
    intro hcycle
    obtain ⟨w, hvw, -⟩ := Relation.TransGen.head'_iff.1 hcycle
    exact nomatch hfree.symm.trans hvw
  | bound hbound _ ih =>
    cases ht
    intro hcycle
    -- a cycle through the variable goes through the next one, too
    obtain ⟨w, hvw, hwv⟩ := Relation.TransGen.head'_iff.1 hcycle
    cases hbound.symm.trans hvw
    exact ih rfl (Relation.TransGen.tail' hwv hvw)

/-- **Following bindings always ends just where no chain is longer than the number of bindings.** -/
theorem acyclic_iff_alwaysEnds : s.Acyclic ↔ s.AlwaysEnds := by
  classical
  refine ⟨fun hs t => ⟨_, hs.leadsTo_resolve t⟩, fun hs => ?_⟩
  -- the rank of a variable is the number of bound variables on its chain
  let passed (v : Variable) : Finset Variable :=
    s.bindings.keys.toFinset.filter (Relation.ReflTransGen s.Next v)
  have hself : ∀ v t, s.get? v = some t → v ∈ passed v := fun v t hv => by
    refine Finset.mem_filter.2 ⟨List.mem_toFinset.2 ?_, .refl⟩
    by_contra hkey
    exact nomatch ((Assoc.get?_eq_none_iff _ _).2 hkey).symm.trans hv
  refine ⟨fun v => (passed v).card, fun v t hv => ?_, fun v => ?_⟩
  · cases t with
    | const c => exact Finset.card_pos.2 ⟨v, hself v _ hv⟩
    | var w =>
      refine Finset.card_lt_card (Finset.ssubset_iff_of_subset ?_ |>.2 ⟨v, hself v _ hv, ?_⟩)
      · intro x hx
        obtain ⟨hkey, hwx⟩ := Finset.mem_filter.1 hx
        exact Finset.mem_filter.2 ⟨hkey, .head hv hwx⟩
      · intro hvw
        obtain ⟨e, he⟩ := hs (.var v)
        exact he.not_transGen_self (.head' hv (Finset.mem_filter.1 hvw).2)
  · calc (passed v).card ≤ s.bindings.keys.toFinset.card := Finset.card_filter_le _ _
      _ ≤ s.bindings.keys.length := List.toFinset_card_le _
      _ = s.size := by simp [Assoc.keys, size, Assoc.size]

/-! ## One pair of terms -/

/-- What making two terms equal comes to. If the ends of both chains are the same, nothing has to be
done; if one end is a variable, it is bound to the other end; different constants stay different. -/
inductive Joins (s : Substitution) (l r : Term) : Option Substitution → Prop
  | same {t : Term} (hl : s.LeadsTo l t) (hr : s.LeadsTo r t) : Joins s l r (some s)
  | left {a : Variable} {t : Term} (hl : s.LeadsTo l (.var a)) (hr : s.LeadsTo r t)
      (hne : t ≠ .var a) : Joins s l r (some (s.bind a t))
  | right {c : Constant} {b : Variable} (hl : s.LeadsTo l (.const c)) (hr : s.LeadsTo r (.var b)) :
      Joins s l r (some (s.bind b (.const c)))
  | clash {c d : Constant} (hl : s.LeadsTo l (.const c)) (hr : s.LeadsTo r (.const d))
      (hne : c ≠ d) : Joins s l r none

/-- Making two terms equal comes to an end, with the result that it computes. -/
theorem Acyclic.joins_unifyTerms (hs : s.Acyclic) (l r : Term) :
    s.Joins l r (s.unifyTerms l r) := by
  have hleft := hs.leadsTo_resolve l
  have hright := hs.leadsTo_resolve r
  unfold unifyTerms
  generalize s.resolve l = a at hleft ⊢
  generalize s.resolve r = b at hright ⊢
  cases a with
  | const c =>
    cases b with
    | const d =>
      dsimp only
      split
      next heq => exact .same (heq ▸ hleft) hright
      next hne => exact .clash hleft hright hne
    | var b => exact .right hleft hright
  | var a =>
    cases b with
    | const d => exact .left hleft hright (by simp)
    | var b =>
      dsimp only
      split
      next heq => exact .same (heq ▸ hleft) hright
      next hne => exact .left hleft hright (by simpa using Ne.symm hne)

/-- All bindings are still there, as they were. -/
def KeptBy (s s' : Substitution) : Prop := ∀ v t, s.get? v = some t → s'.get? v = some t

theorem KeptBy.refl (s : Substitution) : s.KeptBy s := fun _ _ h => h

theorem KeptBy.trans {s₁ s₂ s₃ : Substitution} (h : s₁.KeptBy s₂) (h' : s₂.KeptBy s₃) :
    s₁.KeptBy s₃ := fun v t hv => h' v t (h v t hv)

/-- To bind an unbound variable overwrites nothing. -/
theorem keptBy_bind (hv : s.get? v = none) (t : Term) : s.KeptBy (s.bind v t) := by
  intro w u hw
  rw [get?_bind, if_neg, hw]
  rintro rfl
  exact nomatch hv.symm.trans hw

/-- What is bound in one step was unbound. -/
theorem Joins.keeps (h : s.Joins l r (some s')) : s.KeptBy s' := by
  cases h with
  | same => exact .refl s
  | left hl _ _ => exact keptBy_bind hl.get?_eq_none _
  | right _ hr => exact keptBy_bind hr.get?_eq_none _

/-- What one step binds leads to no cycle. -/
theorem Joins.acyclic (hs : s.Acyclic) (h : s.Joins l r (some s')) : s'.Acyclic := by
  cases h with
  | same => exact hs
  | left hl hr hne =>
    refine hs.bind hl.get?_eq_none hne fun b hb => ?_
    subst hb
    exact hr.get?_eq_none
  | right _ hr => exact hs.bind hr.get?_eq_none (by simp) (by simp)

/-! ## Several pairs of terms -/

/-- What making pairs of terms equal comes to, one after the other and up to the first clash. -/
inductive JoinsAll : Substitution → List (Term × Term) → Bool × Substitution → Prop
  | nil (s : Substitution) : JoinsAll s [] (true, s)
  | cons {s s' : Substitution} {l r : Term} {rest : List (Term × Term)} {o : Bool × Substitution}
      (first : s.Joins l r (some s')) (others : JoinsAll s' rest o) : JoinsAll s ((l, r) :: rest) o
  | clash {s : Substitution} {l r : Term} (rest : List (Term × Term)) (first : s.Joins l r none) :
      JoinsAll s ((l, r) :: rest) (false, s)

variable {pairs : List (Term × Term)} {o : Bool × Substitution}

/-- **Unification comes to an end** where it starts from bindings that end, with the result that it
computes. -/
theorem Acyclic.joinsAll_unifyPairs (hs : s.Acyclic) (pairs : List (Term × Term)) :
    JoinsAll s pairs (s.unifyPairs pairs) := by
  induction pairs generalizing s with
  | nil => exact .nil s
  | cons pair rest ih =>
    obtain ⟨l, r⟩ := pair
    have hfirst := hs.joins_unifyTerms l r
    unfold unifyPairs
    cases hunify : s.unifyTerms l r with
    | none => exact .clash rest (hunify ▸ hfirst)
    | some s' =>
      rw [hunify] at hfirst
      exact .cons hfirst (ih (hfirst.acyclic hs))

/-- Up to the end or the first clash no binding is overwritten. -/
theorem JoinsAll.keeps (h : JoinsAll s pairs o) : s.KeptBy o.2 := by
  induction h with
  | nil s => exact .refl s
  | cons first _ ih => exact first.keeps.trans ih
  | clash => exact .refl _

/-- Up to the end or the first clash there are no cycles. -/
theorem JoinsAll.acyclic (hs : s.Acyclic) (h : JoinsAll s pairs o) : o.2.Acyclic := by
  induction h with
  | nil => exact hs
  | cons first _ ih => exact ih (first.acyclic hs)
  | clash => exact hs

end ProbDatalog.Substitution
