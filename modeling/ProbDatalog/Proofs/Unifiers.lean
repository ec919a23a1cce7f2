import ProbDatalog.Proofs.Chains

/-!
# Most general unifiers

An assignment gives every variable a constant or a variable. It satisfies bindings if every bound
variable has what its term has, and it makes two literals equal if they have the same arguments
under it. Unification finds bindings that are satisfied by just the assignments that satisfy the
ones it started from and make the literals equal.

* `satisfiedBy_iff`: an assignment satisfies bindings if all valuations of what it gives solve them.
* `Acyclic.satisfiedBy_ends`: bindings are satisfied by the ends of their chains.
* `Acyclic.unifyPairs_satisfiedBy`: unification of pairs.
* `Literal.unify?_most_general`: **unification finds the most general unifier**, or there is none.
-/

namespace ProbDatalog

/-- A constant or a variable for every variable. -/
abbrev Assignment := Variable → Term

variable {τ : Assignment} {η : Valuation}

namespace Term

/-- What a term has under an assignment. -/
def assign (t : Term) (τ : Assignment) : Term :=
  match t with
  | const c => const c
  | var v => τ v

@[simp] theorem assign_const (c : Constant) (τ : Assignment) : (const c).assign τ = const c := rfl

@[simp] theorem assign_var (v : Variable) (τ : Assignment) : (var v).assign τ = τ v := rfl

theorem value_assign (t : Term) (τ : Assignment) (η : Valuation) :
    (t.assign τ).value η = t.value fun v => (τ v).value η := by
  cases t <;> rfl

/-- Terms that stand for the same constant under all valuations are the same. -/
theorem eq_of_value_eq {t u : Term} (h : ∀ η, t.value η = u.value η) : t = u := by
  have hother : ∀ c : Constant, ∃ d, d ≠ c := fun c => by
    by_cases hc : c = .boolean true
    · exact ⟨.boolean false, by simp [hc]⟩
    · exact ⟨.boolean true, Ne.symm hc⟩
  -- a valuation can tell a variable from a constant, and from any other variable
  cases t with
  | const c =>
    cases u with
    | const d => exact congrArg const (h fun _ => c)
    | var v =>
      obtain ⟨d, hd⟩ := hother c
      exact absurd (h fun _ => d).symm hd
  | var v =>
    cases u with
    | const c =>
      obtain ⟨d, hd⟩ := hother c
      exact absurd (h fun _ => d) hd
    | var w =>
      by_contra hne
      have hvw : v ≠ w := fun heq => hne (congrArg var heq)
      have := h fun x => .boolean (decide (x = v))
      simp [Ne.symm hvw] at this

theorem assign_eq_assign_iff {t u : Term} : t.assign τ = u.assign τ ↔
    ∀ η, t.value (fun v => (τ v).value η) = u.value fun v => (τ v).value η := by
  constructor
  · intro h η
    rw [← value_assign, ← value_assign, h]
  · intro h
    refine eq_of_value_eq fun η => ?_
    rw [value_assign, value_assign, h]

end Term

/-- What a literal has under an assignment. -/
def Literal.assign (l : Literal) (τ : Assignment) : Literal :=
  { l with terms := l.terms.map (·.assign τ) }

namespace Substitution

variable {s s' : Substitution}

/-- Every bound variable has what its term has. -/
def SatisfiedBy (s : Substitution) (τ : Assignment) : Prop :=
  ∀ v t, s.get? v = some t → τ v = t.assign τ

/-- **An assignment satisfies bindings if all valuations of what it gives solve them.** -/
theorem satisfiedBy_iff : s.SatisfiedBy τ ↔ ∀ η, s.SolvedBy fun v => (τ v).value η := by
  constructor
  · intro h η v t hv
    exact (congrArg (·.value η) (h v t hv)).trans (Term.value_assign t τ η)
  · intro h v t hv
    refine Term.eq_of_value_eq fun η => ?_
    rw [Term.value_assign]
    exact h η v t hv

/-- Following bindings changes nothing under an assignment that satisfies them. -/
theorem SatisfiedBy.assign_resolve (h : s.SatisfiedBy τ) (t : Term) :
    (s.resolve t).assign τ = t.assign τ :=
  Term.assign_eq_assign_iff.2 fun η => (satisfiedBy_iff.1 h η).value_resolve t

theorem SatisfiedBy.assign_apply (h : s.SatisfiedBy τ) (l : Literal) :
    (s.apply l).assign τ = l.assign τ := by
  simp [Literal.assign, apply, h.assign_resolve]

/-- The assignment that gives every variable the end of its chain. -/
def ends (s : Substitution) : Assignment := fun v => s.resolve (.var v)

@[simp] theorem assign_ends (s : Substitution) (t : Term) : t.assign s.ends = s.resolve t := by
  cases t with
  | const c => exact (resolve_const c).symm
  | var v => rfl

theorem assign_ends_eq_apply (s : Substitution) (l : Literal) : l.assign s.ends = s.apply l := by
  simp [Literal.assign, apply]

/-- **Bindings are satisfied by the ends of their chains.** -/
theorem Acyclic.satisfiedBy_ends (hs : s.Acyclic) : s.SatisfiedBy s.ends := by
  intro v t hv
  rw [assign_ends]
  exact hs.resolve_of_get?_eq_some hv

/-- **Unification of several pairs** succeeds where some assignment satisfies the bindings and makes
all pairs equal, and then just those assignments satisfy what it has found. -/
theorem Acyclic.unifyPairs_satisfiedBy (hs : s.Acyclic) (pairs : List (Term × Term)) :
    ((s.unifyPairs pairs).1 = true ↔
      ∃ τ, s.SatisfiedBy τ ∧ ∀ p ∈ pairs, p.1.assign τ = p.2.assign τ) ∧
    ((s.unifyPairs pairs).1 = true → ∀ τ, (s.unifyPairs pairs).2.SatisfiedBy τ ↔
      s.SatisfiedBy τ ∧ ∀ p ∈ pairs, p.1.assign τ = p.2.assign τ) := by
  rcases unifyPairs_spec hs pairs with ⟨s', hunify, hac, hsol⟩ | ⟨hfalse, hne⟩
  · have hiff : ∀ τ, s'.SatisfiedBy τ ↔
        s.SatisfiedBy τ ∧ ∀ p ∈ pairs, p.1.assign τ = p.2.assign τ := fun τ => by
      simp only [satisfiedBy_iff, hsol, forall_and, Term.assign_eq_assign_iff]
      exact and_congr_right fun _ => ⟨fun h p hp η => h η p hp, fun h η p hp => h p hp η⟩
    rw [hunify]
    exact ⟨iff_of_true rfl ⟨s'.ends, (hiff _).1 hac.satisfiedBy_ends⟩, fun _ => hiff⟩
  · refine ⟨iff_of_false (by simp [hfalse]) ?_, fun htrue => by simp [hfalse] at htrue⟩
    rintro ⟨τ, hτ, hpairs⟩
    -- any constants for the variables that are left make of the assignment a solution
    let η : Valuation := fun _ => .boolean false
    exact hne _ (satisfiedBy_iff.1 hτ η) fun p hp => Term.assign_eq_assign_iff.1 (hpairs p hp) η

/-- The assignments that satisfy bindings and under which two literals have the same arguments. -/
def Unifies (s : Substitution) (l r : Literal) (τ : Assignment) : Prop :=
  s.SatisfiedBy τ ∧ l.terms.map (·.assign τ) = r.terms.map (·.assign τ)

/-- Outcomes of unification that both fail, or both succeed with bindings that the same assignments
satisfy. -/
def SameSolutions (o o' : Option Substitution) : Prop :=
  o.isSome = o'.isSome ∧
    ∀ s s', o = some s → o' = some s' → ∀ τ, s.SatisfiedBy τ ↔ s'.SatisfiedBy τ

end Substitution

open Substitution

namespace Literal

variable {base : Substitution} {l r l' r' : Literal}

/-- The predicates, the arities and the signs of two literals are the same. -/
def Comparable (l r : Literal) : Prop :=
  l.predicate = r.predicate ∧ l.arity = r.arity ∧ l.negated = r.negated

theorem Comparable.symm (h : l.Comparable r) : r.Comparable l :=
  ⟨h.1.symm, h.2.1.symm, h.2.2.symm⟩

theorem map_assign_eq_iff {ts us : List Term} (h : ts.length = us.length) :
    ts.map (·.assign τ) = us.map (·.assign τ) ↔
      ∀ p ∈ ts.zip us, p.1.assign τ = p.2.assign τ := by
  induction ts generalizing us with
  | nil =>
    obtain rfl : us = [] := List.length_eq_zero_iff.1 h.symm
    simp
  | cons t ts ih =>
    cases us with
    | nil => cases h
    | cons u us =>
      rw [List.map_cons, List.map_cons, List.cons.injEq, List.zip_cons_cons,
        List.forall_mem_cons, ih (Nat.succ.inj h)]

theorem unify?_eq_some_iff {s : Substitution} : l.unify? r base = some s ↔
    l.Comparable r ∧ base.unifyPairs (l.terms.zip r.terms) = (true, s) := by
  unfold unify? Comparable
  split
  next h =>
    rw [and_iff_right h]
    split <;> simp_all
  next h => simp [h]

theorem isSome_unify?_iff : (l.unify? r base).isSome = true ↔
    l.Comparable r ∧ (base.unifyPairs (l.terms.zip r.terms)).1 = true := by
  rw [Option.isSome_iff_exists]
  simp only [unify?_eq_some_iff, exists_and_left]
  refine and_congr_right fun _ => ⟨fun ⟨s, h⟩ => by rw [h], fun h => ?_⟩
  exact ⟨_, Prod.ext h rfl⟩

/-- Unification succeeds where some assignment makes the literals equal. -/
theorem isSome_unify?_iff_exists (hbase : base.Acyclic) : (l.unify? r base).isSome = true ↔
    l.Comparable r ∧ ∃ τ, base.Unifies l r τ := by
  rw [isSome_unify?_iff]
  refine and_congr_right fun hc => ?_
  rw [(hbase.unifyPairs_satisfiedBy _).1]
  simp only [Unifies, map_assign_eq_iff hc.2.1]

/-- Just the assignments that make the literals equal satisfy what unification finds. -/
theorem satisfiedBy_unify?_iff (hbase : base.Acyclic) {s : Substitution}
    (h : l.unify? r base = some s) : s.SatisfiedBy τ ↔ base.Unifies l r τ := by
  obtain ⟨hc, hpairs⟩ := unify?_eq_some_iff.1 h
  have hiff := (hbase.unifyPairs_satisfiedBy (l.terms.zip r.terms)).2
  rw [hpairs] at hiff
  rw [hiff rfl, Unifies, map_assign_eq_iff hc.2.1]

/-- What unification comes to depends on the assignments that make the literals equal. -/
theorem sameSolutions_unify? (hbase : base.Acyclic) (hc : l.Comparable r ↔ l'.Comparable r')
    (h : ∀ τ, base.Unifies l r τ ↔ base.Unifies l' r' τ) :
    SameSolutions (l.unify? r base) (l'.unify? r' base) := by
  refine ⟨Bool.eq_iff_iff.2 ?_, fun s s' hs hs' τ => ?_⟩
  · rw [isSome_unify?_iff_exists hbase, isSome_unify?_iff_exists hbase, hc, exists_congr h]
  · rw [satisfiedBy_unify?_iff hbase hs, satisfiedBy_unify?_iff hbase hs', h]

/-- Bindings that have been found from `base` as a most general unifier of two literals. -/
structure MostGeneral (base : Substitution) (l r : Literal) (s : Substitution) : Prop where
  /-- They can be followed to an end. -/
  ends : s.AlwaysEnds
  /-- This end is what `resolve` finds. -/
  leadsTo : ∀ t, s.LeadsTo t (s.resolve t)
  /-- They go on from the bindings of `base`. -/
  keeps : base.KeptBy s
  /-- They make the arguments equal. -/
  equal : (s.apply l).terms = (s.apply r).terms
  /-- They are satisfied by the assignments that make the arguments equal, and by no others. -/
  solutions : ∀ τ, s.SatisfiedBy τ ↔ base.Unifies l r τ
  /-- What a literal has under such an assignment is an instance of what it is after them. -/
  instances : ∀ τ, base.Unifies l r τ → (s.apply l).assign τ = l.assign τ

theorem mostGeneral_unify? (hbase : base.Acyclic) {s : Substitution}
    (h : l.unify? r base = some s) : MostGeneral base l r s := by
  have hjoins := hbase.joinsAll_unifyPairs (l.terms.zip r.terms)
  rw [(unify?_eq_some_iff.1 h).2] at hjoins
  have hs : s.Acyclic := hjoins.acyclic hbase
  have hsat : ∀ τ, s.SatisfiedBy τ ↔ base.Unifies l r τ := fun _ => satisfiedBy_unify?_iff hbase h
  -- the ends of chains are one of the assignments that make the arguments equal
  have hends : (l.assign s.ends).terms = (r.assign s.ends).terms :=
    ((hsat s.ends).1 hs.satisfiedBy_ends).2
  rw [assign_ends_eq_apply, assign_ends_eq_apply] at hends
  exact ⟨acyclic_iff_alwaysEnds.1 hs, hs.leadsTo_resolve, hjoins.keeps, hends, hsat,
    fun τ hτ => ((hsat τ).2 hτ).assign_apply l⟩

/-- **Unification finds a most general unifier**, or there is no unifier. From bindings that can be
followed to an end it succeeds where predicates, arities and signs agree and some assignment that
satisfies the bindings makes the arguments equal, and then it finds the most general one. Which of
the two literals comes first makes no difference to success and solutions, nor does the order of
their arguments. -/
theorem unify?_most_general (hbase : base.AlwaysEnds) (l r : Literal) :
    ((l.unify? r base).isSome = true ↔ l.Comparable r ∧ ∃ τ, base.Unifies l r τ) ∧
    (∀ s, l.unify? r base = some s → MostGeneral base l r s) ∧
    SameSolutions (l.unify? r base) (r.unify? l base) ∧
    (l.arity = r.arity → ∀ pairs : List (Term × Term), pairs.Perm (l.terms.zip r.terms) →
      SameSolutions ({ l with terms := pairs.map Prod.fst }.unify?
        { r with terms := pairs.map Prod.snd } base) (l.unify? r base)) := by
  have hac := acyclic_iff_alwaysEnds.2 hbase
  refine ⟨isSome_unify?_iff_exists hac, fun s => mostGeneral_unify? hac, ?_,
    fun harity pairs hperm => ?_⟩
  · exact sameSolutions_unify? hac ⟨.symm, .symm⟩ fun τ => and_congr_right fun _ => eq_comm
  · have hlength : l.terms.length = r.terms.length := harity
    refine sameSolutions_unify? hac ?_ fun τ => and_congr_right fun _ => ?_
    · simp [Comparable, arity, hlength]
    · rw [map_assign_eq_iff harity, List.map_map, List.map_map, List.map_inj_left]
      exact forall_congr' fun p => imp_congr hperm.mem_iff Iff.rfl

end Literal

end ProbDatalog

/-! ## Aliases -/

namespace ProbDatalog.Aliases

open Substitution

/-- A variable with a name. -/
def named (name : String) : Term := .var ⟨name, 0⟩

/-- Ann is Bea. -/
def known : Substitution := .ofList [(⟨"Ann", 0⟩, named "Bea")]

theorem known_ends : known.AlwaysEnds := by
  refine acyclic_iff_alwaysEnds.1 (acyclic_empty.bind rfl (by decide) ?_)
  exact fun _ _ => rfl

/-- A list of guests. -/
def guests : Literal := .of "guests" [named "Ann", named "Cat", named "Cat", .const (.string "x")]

/-- Another list of as many guests. -/
def others : Literal := .of "guests" [named "Dot", named "Bea", .const (.string "y"), named "Eve"]

/-- What the two lists have to do with each other. -/
def common : Substitution :=
  .ofList [(⟨"Ann", 0⟩, named "Bea"), (⟨"Bea", 0⟩, named "Dot"), (⟨"Cat", 0⟩, named "Dot"),
    (⟨"Dot", 0⟩, .const (.string "y")), (⟨"Eve", 0⟩, .const (.string "x"))]

/-- The arguments of both lists, from the last to the first. -/
def backwards : List (Term × Term) := (guests.terms.zip others.terms).reverse

/-- Every step goes on from chains that the steps before have made longer, and in the end four names
are one guest. -/
theorem most_general_guests : known.AlwaysEnds ∧ guests.unify? others known = some common ∧
    Literal.MostGeneral known guests others common ∧ known.Unifies guests others common.ends ∧
    SameSolutions (some common) (others.unify? guests known) ∧
    guests.arity = others.arity ∧ backwards.Perm (guests.terms.zip others.terms) ∧
    SameSolutions ({ guests with terms := backwards.map Prod.fst }.unify?
      { others with terms := backwards.map Prod.snd } known) (some common) := by
  have hfound : guests.unify? others known = some common := by decide +kernel
  have hperm : backwards.Perm (guests.terms.zip others.terms) := List.reverse_perm _
  obtain ⟨-, hgeneral, hswap, hreorder⟩ := Literal.unify?_most_general known_ends guests others
  have h := hgeneral common hfound
  have hends := (h.solutions common.ends).1 (acyclic_iff_alwaysEnds.2 h.ends).satisfiedBy_ends
  exact ⟨known_ends, hfound, h, hends, hfound ▸ hswap, rfl, hperm,
    hfound ▸ hreorder rfl backwards hperm⟩

end ProbDatalog.Aliases
