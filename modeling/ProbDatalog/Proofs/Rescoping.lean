import ProbDatalog.Proofs.Constants
import ProbDatalog.Proofs.Variants
import ProbDatalog.Search.Query
import ProbDatalog.Evaluable.Standard
import ProbDatalog.Remember

/-!
# Clauses moved to a scope

Before a search uses a clause, it moves the clause to a scope of its own, so that the variables of
the clause meet no others. Moving replaces the scopes and keeps the names. Where a clause has two
variables of one name, they become one, and the clause says less than it did.

* `Clause.mem_instances_rescoped_iff`: the instances that are left take variables of one name for
  one.
* `Clause.rescoped_spec`: **moving a clause renames its variables just where all of them have names
  of their own**, and there alone it keeps the instances.
-/

namespace ProbDatalog

namespace Clause

/-- The instance of a clause under a valuation, of its head and its body together. -/
def ground (c : Clause) (θ : Valuation) : Clause :=
  { c with head := c.head.ground θ, body := c.body.map (·.ground θ) }

/-- All ground instances of a clause. -/
def instances (c : Clause) : Set Clause := Set.range c.ground

/-- A permutation of the variables makes the second clause of the first one. -/
def Variant (c d : Clause) : Prop := ∃ ρ : Equiv.Perm Variable, d = c.renameVars ρ

/-- Different variables of the clause have different names. -/
def NamesApart (c : Clause) : Prop := Set.InjOn Variable.name {v | v ∈ c.vars}

variable {c : Clause} {n : UInt32} {θ η : Valuation}

/-- An instance depends on the variables that occur, and tells their values. -/
theorem ground_congr_iff : c.ground θ = c.ground η ↔ ∀ v ∈ c.vars, θ v = η v := by
  have hbody : c.body.map (·.ground θ) = c.body.map (·.ground η) ↔
      ∀ l ∈ c.body, ∀ v ∈ l.vars, θ v = η v := by
    simp only [List.map_inj_left, Literal.ground_congr_iff]
  simp only [ground, Clause.mk.injEq, Literal.ground_congr_iff, hbody, and_true, vars,
    List.flatMap_cons, List.mem_append, List.mem_flatMap]
  grind

/-! ## Renaming -/

/-- A permutation that moves the variables of a clause moves the clause. -/
theorem rescoped_eq_renameVars {ρ : Equiv.Perm Variable}
    (h : ∀ v ∈ c.vars, ρ v = v.rescoped n) : c.rescoped n = c.renameVars ρ := by
  have hliteral : ∀ l ∈ c.head :: c.body, l.rescoped n = l.renameVars ρ := by
    intro l hl
    refine congrArg (fun ts => Literal.mk l.predicate ts l.negated)
      (List.map_congr_left fun t ht => ?_)
    cases t with
    | const d => rfl
    | var v => exact congrArg Term.var (h v (mem_vars.2 ⟨l, hl, Literal.mem_vars.2 ht⟩)).symm
  obtain ⟨hhead, hbody⟩ := List.forall_mem_cons.1 hliteral
  unfold rescoped renameVars
  rw [hhead, List.map_congr_left hbody]

theorem ground_renameVars (c : Clause) (ρ : Equiv.Perm Variable) (θ : Valuation) :
    (c.renameVars ρ).ground θ = c.ground (θ ∘ ρ) := by
  have hliteral : ∀ l : Literal, (l.renameVars ρ).ground θ = l.ground (θ ∘ ρ) := fun l => by
    simp only [Literal.ground, Literal.renameVars, List.map_map]
    refine congrArg (fun ts => Literal.mk l.predicate ts l.negated)
      (List.map_congr_left fun t _ => ?_)
    cases t <;> rfl
  simp [ground, renameVars, hliteral]

/-- Variants say the same. -/
theorem Variant.instances_eq {d : Clause} (h : c.Variant d) : d.instances = c.instances := by
  obtain ⟨ρ, rfl⟩ := h
  ext g
  constructor
  · rintro ⟨θ, rfl⟩
    exact ⟨θ ∘ ρ, (c.ground_renameVars ρ θ).symm⟩
  · rintro ⟨θ, rfl⟩
    refine ⟨θ ∘ ρ.symm, ?_⟩
    rw [ground_renameVars, Function.comp_assoc, Equiv.symm_comp_self, Function.comp_id]

/-! ## Moving -/

/-- Only names are left to tell variables apart. -/
theorem injOn_rescoped_iff (c : Clause) (n : UInt32) :
    Set.InjOn (Variable.rescoped · n) {v | v ∈ c.vars} ↔ c.NamesApart := by
  have hname : ∀ u v : Variable, u.rescoped n = v.rescoped n ↔ u.name = v.name := fun u v => by
    simp [Variable.rescoped]
  simp only [NamesApart, Set.InjOn, hname]

theorem ground_rescoped (c : Clause) (n : UInt32) (θ : Valuation) :
    (c.rescoped n).ground θ = c.ground fun v => θ (v.rescoped n) := by
  simp [ground, rescoped, Literal.ground_rescoped]

/-- **The instances that are left take variables of one name for one.** -/
theorem mem_instances_rescoped_iff (c : Clause) (n : UInt32) (g : Clause) :
    g ∈ (c.rescoped n).instances ↔
      ∃ θ, (∀ u ∈ c.vars, ∀ v ∈ c.vars, u.name = v.name → θ u = θ v) ∧ c.ground θ = g := by
  constructor
  · rintro ⟨η, rfl⟩
    refine ⟨fun v => η (v.rescoped n), fun u _ v _ h => ?_, (c.ground_rescoped n η).symm⟩
    simp only [Variable.rescoped, h]
  · rintro ⟨θ, hθ, rfl⟩
    -- a name has the value of any variable that is called so
    let called (u : Variable) := c.vars.find? (·.name = u.name)
    refine ⟨fun u => θ ((called u).getD u), ?_⟩
    rw [ground_rescoped, ground_congr_iff]
    intro v hv
    cases hfind : called (v.rescoped n) with
    | none =>
      have := List.find?_eq_none.1 hfind v hv
      simp [Variable.rescoped] at this
    | some u =>
      have hfound : c.vars.find? (·.name = v.name) = some u := hfind
      have hname : u.name = v.name := by simpa using List.find?_some hfound
      exact hθ u (List.mem_of_find?_eq_some hfound) v hv hname

/-- A clause with names of its own for all variables is renamed. -/
theorem NamesApart.variant_rescoped (h : c.NamesApart) (n : UInt32) : c.Variant (c.rescoped n) := by
  obtain ⟨ρ, hρ⟩ := Variable.exists_perm_eq ((c.injOn_rescoped_iff n).2 h)
  exact ⟨ρ, rescoped_eq_renameVars hρ⟩

/-- Variables of one name that become one leave an instance behind. -/
theorem namesApart_of_instances_subset (h : c.instances ⊆ (c.rescoped n).instances) :
    c.NamesApart := by
  intro u hu v hv hname
  by_contra hne
  let θ : Valuation := fun x => .boolean (x = u)
  obtain ⟨η, hη, hground⟩ := (c.mem_instances_rescoped_iff n _).1 (h ⟨θ, rfl⟩)
  have hvalues := ground_congr_iff.1 hground
  have heq : θ u = θ v := by rw [← hvalues u hu, ← hvalues v hv, hη u hu v hv hname]
  simp [θ, Ne.symm hne] at heq

/-- The variables of a clause that has but one scope have names of their own. -/
theorem namesApart_of_scope {k : UInt32} (h : ∀ v ∈ c.vars, v.scope = k) : c.NamesApart := by
  rintro ⟨x, i⟩ hu ⟨y, j⟩ hv hname
  exact Variable.mk.injEq .. ▸ ⟨hname, (h _ hu).trans (h _ hv).symm⟩

/-- **Moving a clause renames its variables just where all of them have names of their own.** The
instances of the moved clause are those of the clause that give variables of one name one value. So
moving is injective on the variables of the clause, makes a variant of it, and keeps its instances,
each of them exactly where no two variables of the clause share a name. -/
theorem rescoped_spec (c : Clause) (n : UInt32) :
    (∀ g, g ∈ (c.rescoped n).instances ↔
      ∃ θ, (∀ u ∈ c.vars, ∀ v ∈ c.vars, u.name = v.name → θ u = θ v) ∧ c.ground θ = g) ∧
    (Set.InjOn (Variable.rescoped · n) {v | v ∈ c.vars} ↔ c.NamesApart) ∧
    (c.Variant (c.rescoped n) ↔ c.NamesApart) ∧
    ((c.rescoped n).instances = c.instances ↔ c.NamesApart) := by
  refine ⟨c.mem_instances_rescoped_iff n, c.injOn_rescoped_iff n,
    ⟨fun h => ?_, fun h => h.variant_rescoped n⟩, ⟨fun h => ?_, fun h => ?_⟩⟩
  · exact namesApart_of_instances_subset h.instances_eq.superset
  · exact namesApart_of_instances_subset h.superset
  · exact (h.variant_rescoped n).instances_eq

end Clause

/-! ## Couples -/

namespace Couples

/-- Someone on a list. -/
def listed (t : Term) : Literal := .of "listed" [t]

/-- Two of a couple. -/
def couple (s t : Term) : Literal := .of "couple" [s, t]

/-- Anyone. -/
def one : Variable := ⟨"X", 0⟩

/-- Anyone, in another scope. -/
def other : Variable := ⟨"X", 1⟩

/-- Any two on the list are a couple. -/
def pair : Clause :=
  ⟨couple (.var one) (.var other), [listed (.var one), listed (.var other)], .certain⟩

/-- Ada. -/
def ada : Term := .const (.string "ada")

/-- Bob. -/
def bob : Term := .const (.string "bob")

/-- Ada for the one, and Bob for the other. -/
def named : Valuation := fun v => .string (if v = one then "ada" else "bob")

/-- Ada and Bob are on the list. -/
def theory : Theory :=
  ⟨(Program.empty.assertAll [pair, ⟨listed ada, [], .certain⟩, ⟨listed bob, [], .certain⟩]).2,
    .standard, .problog⟩

/-- The clause is accepted, and its two variables are not taken for each other there: with the one
in the head and the other in the body, it is refused. But in no scope is the moved clause a variant
of it. That Ada and Bob are a couple is an instance which no moved clause has, and which the search
does not find. -/
theorem rescoped_pair :
    (Program.empty.assert pair).1.toOption.isSome = true ∧
    (⟨listed (.var one), [listed (.var other)], .certain⟩ : Clause).validate =
      .error (.unboundHead one ⟨listed (.var one), [listed (.var other)], .certain⟩) ∧
    (∀ n, ¬Set.InjOn (Variable.rescoped · n) {v | v ∈ pair.vars} ∧
      ¬pair.Variant (pair.rescoped n)) ∧
    (∀ n, (⟨couple ada bob, [listed ada, listed bob], .certain⟩ : Clause) ∈
      pair.instances \ (pair.rescoped n).instances) ∧
    (Searching.isAnswer theory 9 (couple ada bob) (.start Resident.empty 0)).1 = .ok false := by
  have hshared : ¬pair.NamesApart := fun h =>
    absurd (h (show one ∈ pair.vars by decide) (show other ∈ pair.vars by decide) rfl) (by decide)
  refine ⟨by decide +kernel, rfl, fun n => ⟨mt (pair.injOn_rescoped_iff n).1 hshared, fun h => ?_⟩,
    fun n => ⟨⟨named, rfl⟩, fun h => ?_⟩, by decide +kernel⟩
  · exact hshared (Clause.namesApart_of_instances_subset h.instances_eq.superset)
  · -- the two variables have one value, but Ada is not Bob
    obtain ⟨θ, hθ, hground⟩ := (pair.mem_instances_rescoped_iff n _).1 h
    have hvalues : ∀ v ∈ pair.vars, θ v = named v :=
      Clause.ground_congr_iff.1 (show pair.ground θ = pair.ground named from hground)
    have hvalue := hθ one (by decide) other (by decide) rfl
    rw [hvalues one (by decide), hvalues other (by decide)] at hvalue
    exact absurd hvalue (by decide)

end Couples

end ProbDatalog
