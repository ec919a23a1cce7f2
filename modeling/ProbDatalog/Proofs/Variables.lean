import ProbDatalog.Evaluable.Standard
import ProbDatalog.Proofs.Evaluables
import ProbDatalog.Proofs.Instances

/-!
# Renaming variables

A permutation of the variables renames all that occur in a term, a literal or bindings. Everything
that a search does with these commutes with it: looking up and merging bindings, unifying, telling
patterns apart, and evaluating. Two uses of a clause in scopes of their own differ by such a
renaming, which leaves patterns alone.

* `Literal.unify?_renameVars`: unification commutes with renaming.
* `CallPattern.of_renameVars`: the pattern of a literal does not depend on the names of variables.
* `Registry.equivariant_standard`: all standard predicates commute with renaming.
* `Clause.renameVars_rescoped`: **two uses of a clause differ by an exchange of scopes.**
-/

namespace ProbDatalog

/-! ## Lists -/

theorem idxOf_map_of_injective {α β : Type} [DecidableEq α] [DecidableEq β] {f : α → β}
    (hf : Function.Injective f) (l : List α) (a : α) : (l.map f).idxOf (f a) = l.idxOf a := by
  induction l with
  | nil => rfl
  | cons b rest ih =>
    have hbeq : (f b == f a) = (b == a) := by simp [hf.eq_iff, beq_eq_decide]
    rw [List.map_cons, List.idxOf_cons, List.idxOf_cons, ih, hbeq]

theorem eraseDups_map_of_injective {α β : Type} [DecidableEq α] [DecidableEq β] {f : α → β}
    (hf : Function.Injective f) (l : List α) : (l.map f).eraseDups = l.eraseDups.map f := by
  induction h : l.length using Nat.strongRecOn generalizing l with
  | _ n ih =>
    cases l with
    | nil => rfl
    | cons a rest =>
      have hfilter : (rest.map f).filter (fun b => !b == f a) =
          (rest.filter fun b => !b == a).map f := by
        rw [List.filter_map]
        refine congrArg _ (List.filter_congr fun b _ => ?_)
        simp [hf.eq_iff]
      have hlt : (rest.filter fun b => !b == a).length < n := by
        rw [← h, List.length_cons]
        exact Nat.lt_succ_of_le (List.length_filter_le _ _)
      rw [List.map_cons, List.eraseDups_cons, List.eraseDups_cons, hfilter, ih _ hlt _ rfl,
        List.map_cons]

variable (ρ : Equiv.Perm Variable)

/-! ## Terms and literals -/

/-- Rename the variable, if the term is one. -/
def Term.renameVars : Term → Term
  | const c => const c
  | var v => var (ρ v)

/-- Rename all variables of a literal. -/
def Literal.renameVars (l : Literal) : Literal := { l with terms := l.terms.map (.renameVars ρ) }

/-- Rename all variables of a clause. -/
def Clause.renameVars (c : Clause) : Clause :=
  { c with head := c.head.renameVars ρ, body := c.body.map (.renameVars ρ) }

variable {ρ}

namespace Term

@[simp] theorem renameVars_const (c : Constant) : (const c).renameVars ρ = const c := rfl

@[simp] theorem renameVars_var (v : Variable) : (var v).renameVars ρ = var (ρ v) := rfl

@[simp] theorem isGround_renameVars (t : Term) : (t.renameVars ρ).isGround = t.isGround := by
  cases t <;> rfl

end Term

namespace Literal

variable (l : Literal)

@[simp] theorem renameVars_predicate : (l.renameVars ρ).predicate = l.predicate := rfl

@[simp] theorem renameVars_negated : (l.renameVars ρ).negated = l.negated := rfl

@[simp] theorem renameVars_arity : (l.renameVars ρ).arity = l.arity := by
  simp [renameVars, arity]

@[simp] theorem renameVars_terms : (l.renameVars ρ).terms = l.terms.map (.renameVars ρ) := rfl

@[simp] theorem isGround_renameVars : (l.renameVars ρ).isGround = l.isGround := by
  simp [renameVars, isGround, List.all_map, Function.comp_def]

theorem vars_renameVars : (l.renameVars ρ).vars = l.vars.map ρ := by
  unfold vars
  rw [renameVars_terms, List.filterMap_map, List.map_filterMap]
  refine List.filterMap_congr fun t _ => ?_
  cases t <;> rfl

variable {l}

/-- A literal whose variables are all left alone stays as it is. -/
theorem renameVars_eq_self (h : ∀ v ∈ l.vars, ρ v = v) : l.renameVars ρ = l := by
  have hterms : l.terms.map (.renameVars ρ) = l.terms := by
    conv_rhs => rw [← List.map_id l.terms]
    refine List.map_congr_left fun t ht => ?_
    cases t with
    | const c => rfl
    | var v => exact congrArg Term.var (h v (mem_vars.2 ht))
  unfold renameVars
  rw [hterms]

/-- There is nothing to rename in a fact. -/
theorem renameVars_of_isGround (h : l.isGround = true) : l.renameVars ρ = l :=
  renameVars_eq_self fun v hv => by simp [(isGround_iff l).1 h] at hv

end Literal

/-! ## Errors -/

/-- The renaming that leaves all variables alone. -/
@[simp] theorem Term.renameVars_refl (t : Term) : t.renameVars (Equiv.refl Variable) = t := by
  cases t <;> rfl

@[simp] theorem Literal.renameVars_refl (l : Literal) : l.renameVars (Equiv.refl Variable) = l :=
  renameVars_eq_self fun _ _ => rfl

@[simp] theorem Clause.renameVars_refl (c : Clause) : c.renameVars (Equiv.refl Variable) = c := by
  simp [renameVars, show Literal.renameVars (Equiv.refl Variable) = id from
    funext Literal.renameVars_refl]

variable (ρ) in
/-- Rename all variables that an error shows. Its kind and all else stay as they are. -/
def Error.renameVars : Error → Error
  | openNegation l => openNegation (l.renameVars ρ)
  | arity l expected => arity (l.renameVars ρ) expected
  | kind predicate argument expected => kind predicate (argument.renameVars ρ) expected
  | openFact l => openFact (l.renameVars ρ)
  | unboundHead v c => unboundHead (ρ v) (c.renameVars ρ)
  | negatedHead l => negatedHead (l.renameVars ρ)
  | improbable x => improbable x
  | unstratified l => unstratified (l.renameVars ρ)
  | storage fault => storage fault

@[simp] theorem Error.renameVars_refl (e : Error) : e.renameVars (Equiv.refl Variable) = e := by
  cases e <;> simp [renameVars]

/-! ## Call patterns -/

/-- **The pattern of a literal does not depend on the names of variables.** -/
@[simp] theorem CallPattern.of_renameVars (l : Literal) : of (l.renameVars ρ) = of l := by
  have hvars : (l.renameVars ρ).vars.eraseDups = l.vars.eraseDups.map ρ := by
    rw [Literal.vars_renameVars, eraseDups_map_of_injective ρ.injective]
  unfold of
  rw [hvars, Literal.renameVars_terms, List.map_map]
  refine congrArg (fun ts => CallPattern.mk (.of l.predicate ts))
    (List.map_congr_left fun t _ => ?_)
  cases t with
  | const c => rfl
  | var v =>
    simp only [Function.comp, Term.renameVars, canonicalTerm,
      idxOf_map_of_injective ρ.injective]

/-! ## Bindings -/

namespace Substitution

variable (ρ) in
/-- Rename all variables of bindings. -/
def renameVars (s : Substitution) : Substitution :=
  ⟨⟨s.bindings.entries.map fun b => (ρ b.1, b.2.renameVars ρ)⟩⟩

variable (s : Substitution)

@[simp] theorem renameVars_empty : (empty : Substitution).renameVars ρ = empty := rfl

@[simp] theorem renameVars_size : (s.renameVars ρ).size = s.size := by
  simp [renameVars, size, Assoc.size]

@[simp] theorem toList_renameVars :
    (s.renameVars ρ).toList = s.toList.map fun b => (ρ b.1, b.2.renameVars ρ) := rfl

theorem get?_renameVars (v : Variable) :
    (s.renameVars ρ).get? (ρ v) = (s.get? v).map (.renameVars ρ) := by
  unfold renameVars get? Assoc.get?
  induction s.bindings.entries with
  | nil => rfl
  | cons b rest ih =>
    rw [List.map_cons, Assoc.find?, Assoc.find?, ih]
    simp only [ρ.injective.eq_iff]
    split <;> rfl

theorem bind_renameVars (v : Variable) (t : Term) :
    (s.bind v t).renameVars ρ = (s.renameVars ρ).bind (ρ v) (t.renameVars ρ) := by
  unfold renameVars bind Assoc.insert Assoc.alter
  refine congrArg (fun entries => Substitution.mk ⟨entries⟩) ?_
  induction s.bindings.entries with
  | nil => rfl
  | cons b rest ih =>
    rw [Assoc.alterEntries, List.map_cons, Assoc.alterEntries]
    simp only [ρ.injective.eq_iff]
    split
    · rfl
    · rw [List.map_cons, ih]

theorem resolve_renameVars (t : Term) :
    (s.renameVars ρ).resolve (t.renameVars ρ) = (s.resolve t).renameVars ρ := by
  have hfollow : ∀ n t,
      (s.renameVars ρ).follow n (t.renameVars ρ) = (s.follow n t).renameVars ρ := fun n => by
    induction n with
    | zero => exact fun t => rfl
    | succ n ih =>
      rintro (c | v)
      · rfl
      · unfold follow
        simp only [Term.renameVars_var, get?_renameVars]
        cases s.get? v with
        | none => rfl
        | some next => exact ih next
  unfold resolve
  rw [renameVars_size, hfollow]

theorem apply_renameVars (l : Literal) :
    (s.renameVars ρ).apply (l.renameVars ρ) = (s.apply l).renameVars ρ := by
  unfold apply Literal.renameVars
  simp only [List.map_map]
  congr 1
  exact List.map_congr_left fun t _ => s.resolve_renameVars t

theorem unifyTerms_renameVars (t u : Term) :
    (s.renameVars ρ).unifyTerms (t.renameVars ρ) (u.renameVars ρ) =
      (s.unifyTerms t u).map (.renameVars ρ) := by
  unfold unifyTerms
  rw [resolve_renameVars, resolve_renameVars]
  rcases s.resolve t with a | a <;> rcases s.resolve u with b | b
  · simp only [Term.renameVars]
    split <;> rfl
  · simp [Term.renameVars, bind_renameVars]
  · simp [Term.renameVars, bind_renameVars]
  · simp only [Term.renameVars, ρ.injective.eq_iff]
    split
    · rfl
    · simp [bind_renameVars]

theorem unifyPairs_renameVars (pairs : List (Term × Term)) :
    (s.renameVars ρ).unifyPairs (pairs.map (Prod.map (.renameVars ρ) (.renameVars ρ))) =
      (s.unifyPairs pairs).map id (.renameVars ρ) := by
  induction pairs generalizing s with
  | nil => rfl
  | cons pair rest ih =>
    obtain ⟨t, u⟩ := pair
    rw [List.map_cons]
    unfold unifyPairs
    simp only [Prod.map_apply, unifyTerms_renameVars]
    cases s.unifyTerms t u with
    | none => rfl
    | some next => exact ih next

theorem merge_renameVars (other : Substitution) :
    (s.renameVars ρ).merge (other.renameVars ρ) = (s.merge other).map id (.renameVars ρ) := by
  unfold merge
  rw [← unifyPairs_renameVars, toList_renameVars, List.map_map, List.map_map]
  rfl

end Substitution

/-- **Unification commutes with renaming.** -/
theorem Literal.unify?_renameVars (l r : Literal) (base : Substitution) :
    (l.renameVars ρ).unify? (r.renameVars ρ) (base.renameVars ρ) =
      (l.unify? r base).map (.renameVars ρ) := by
  unfold unify?
  simp only [renameVars_predicate, renameVars_arity, renameVars_negated, renameVars_terms,
    List.zip_map, Substitution.unifyPairs_renameVars]
  split
  · rcases base.unifyPairs (l.terms.zip r.terms) with ⟨_ | _, s⟩ <;> rfl
  · rfl

/-! ## Evaluable predicates -/

variable (ρ) in
/-- Rename all variables of an outcome. -/
def Outcome.renameVars : Outcome → Outcome
  | reject => reject
  | accept => accept
  | bind b => bind (b.renameVars ρ)

@[simp] theorem Outcome.renameVars_ofBool (holds : Bool) :
    (Outcome.ofBool holds).renameVars ρ = .ofBool holds := by
  cases holds <;> rfl

namespace Evaluable

/-- A predicate whose outcomes do not depend on the names of variables. -/
def Equivariant (e : Evaluable) : Prop :=
  ∀ (ρ : Equiv.Perm Variable) args,
    e.evaluate (args.map (.renameVars ρ)) = (e.evaluate args).map (.renameVars ρ)

theorem settle_renameVars (t : Term) (c : Constant) :
    settle (t.renameVars ρ) c = (settle t c).renameVars ρ := by
  cases t with
  | const d => simp [settle]
  | var v => rfl

theorem numberInput_renameVars (name : String) (t : Term) :
    numberInput name (t.renameVars ρ) = numberInput name t := by
  cases t <;> rfl

theorem stringInput_renameVars (name : String) (t : Term) :
    stringInput name (t.renameVars ρ) = stringInput name t := by
  cases t <;> rfl

theorem stringInputs_renameVars (name : String) (ts : List Term) :
    stringInputs name (ts.map (.renameVars ρ)) = stringInputs name ts := by
  induction ts with
  | nil => rfl
  | cons t rest ih =>
    rw [List.map_cons]
    unfold stringInputs
    rw [stringInput_renameVars, ih]

theorem equivariant_comparison (name : String) (r : Relation) :
    (comparison name r).Equivariant := by
  rintro ρ (_ | ⟨a | a, _ | ⟨b | b, _ | ⟨t, rest⟩⟩⟩) <;> try rfl
  simp [comparison, Except.map]

theorem equivariant_kindTest : kindTest.Equivariant := by
  rintro ρ (_ | ⟨a | a, _ | ⟨b, _ | ⟨t, rest⟩⟩⟩) <;> try rfl
  simp only [kindTest, List.map_cons, List.map_nil, Term.renameVars_const, stringInput_renameVars,
    settle_renameVars]
  cases stringInput "is" b <;> rfl

theorem equivariant_arithmetic (name : String) (operation : Number → Number → Option Number) :
    (arithmetic name operation).Equivariant := by
  rintro ρ (_ | ⟨result, _ | ⟨left, _ | ⟨right, _ | ⟨t, rest⟩⟩⟩⟩) <;> try rfl
  simp only [arithmetic, List.map_cons, List.map_nil, numberInput_renameVars, settle_renameVars]
  rcases numberInput name left with e | _ | a <;> rcases numberInput name right with e | _ | b <;>
    try rfl
  cases hop : operation a b with
  | none => simp [hop, bind, Except.bind, Except.map, pure, Except.pure, Outcome.renameVars]
  | some x =>
    by_cases hx : x.isFinite = true <;>
      simp [hop, hx, bind, Except.bind, Except.map, pure, Except.pure, Outcome.renameVars]

theorem equivariant_stringFunction (name : String) (inputs : Nat)
    (function : List String → Constant) : (stringFunction name inputs function).Equivariant := by
  rintro ρ (_ | ⟨result, arguments⟩)
  · rfl
  simp only [stringFunction, List.map_cons, stringInputs_renameVars, settle_renameVars]
  rcases stringInputs name arguments with e | _ | strings <;> rfl

theorem Computed.equivariant {e : Evaluable} (h : e.Computed) : e.Equivariant := by
  cases h with
  | comparison name r => exact equivariant_comparison name r
  | kindTest => exact equivariant_kindTest
  | arithmetic name operation => exact equivariant_arithmetic name operation
  | stringFunction name inputs function => exact equivariant_stringFunction name inputs function

end Evaluable

/-- A call resolves to the same predicate under other names of its variables. -/
theorem Registry.resolve_renameVars {r : Registry} {l : Literal} {o : Option Evaluable}
    (h : r.resolve l = .ok o) : r.resolve (l.renameVars ρ) = .ok o := by
  unfold resolve at h ⊢
  simp only [Literal.renameVars_predicate, Literal.renameVars_arity]
  split at h
  · exact h
  · split at h
    next harity => rwa [if_pos harity]
    next => cases h

/-- A call that does not resolve does not do so under other names of its variables. -/
theorem Registry.resolve_renameVars_error {r : Registry} {l : Literal} {e : Error}
    (h : r.resolve l = .error e) : r.resolve (l.renameVars ρ) = .error (e.renameVars ρ) := by
  unfold resolve at h ⊢
  simp only [Literal.renameVars_predicate, Literal.renameVars_arity]
  split at h
  · cases h
  · split at h
    next => cases h
    next harity =>
      cases h
      rw [if_neg harity]
      rfl

/-- **All standard predicates commute with renaming.** -/
theorem Registry.equivariant_standard {name : String} {e : Evaluable}
    (h : standard.get? name = some e) : e.Equivariant :=
  (computed_standard h).equivariant

/-! ## Scopes -/

/-- Exchange two scopes. -/
def Variable.swapScopes (n m : UInt32) : Equiv.Perm Variable where
  toFun v := { v with scope := Equiv.swap n m v.scope }
  invFun v := { v with scope := Equiv.swap n m v.scope }
  left_inv v := by simp
  right_inv v := by simp

section Scopes

variable {n m : UInt32}

theorem Literal.renameVars_rescoped (l : Literal) :
    (l.rescoped n).renameVars (Variable.swapScopes n m) = l.rescoped m := by
  unfold Literal.renameVars Literal.rescoped
  simp only [List.map_map]
  congr 1
  refine List.map_congr_left fun t _ => ?_
  cases t with
  | const c => rfl
  | var v => simp [Term.renameVars, Term.rescoped, Variable.rescoped, Variable.swapScopes]

/-- **Two uses of a clause differ by an exchange of scopes.** -/
theorem Clause.renameVars_rescoped (c : Clause) :
    (c.rescoped n).renameVars (Variable.swapScopes n m) = c.rescoped m := by
  unfold Clause.renameVars Clause.rescoped
  simp only [List.map_map, Literal.renameVars_rescoped]
  congr 1
  exact List.map_congr_left fun l _ => l.renameVars_rescoped

/-- Patterns have no variables in the scopes of clauses. -/
theorem CallPattern.literal_renameVars (hn : n ≠ 0) (hm : m ≠ 0) (l : Literal) :
    (of l).literal.renameVars (Variable.swapScopes n m) = (of l).literal := by
  refine Literal.renameVars_eq_self fun v hv => ?_
  have hscope := scope_of_mem_vars_of hv
  obtain ⟨name, scope⟩ := v
  obtain rfl : scope = 0 := hscope
  simp [Variable.swapScopes, Equiv.swap_apply_of_ne_of_ne hn.symm hm.symm]

end Scopes

end ProbDatalog
