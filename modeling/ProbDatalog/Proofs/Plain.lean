import ProbDatalog.Proofs.PerfectModel
import ProbDatalog.Proofs.Reading

/-!
# Plain theories

Theories whose clauses use no evaluable predicates. If no predicate depends on its own negation,
their perfect models are a reading of them.

* `Plain.consequences_refutes`: a fact may be negated if and only if it does not hold.
* `Reading.perfect`: the perfect models of a stratified program are a reading of it.
-/

namespace ProbDatalog

variable {w : Theory}

/-- A theory whose program was asserted from clauses over the variables of scope `0`, none of which
uses the name of an evaluable predicate. -/
structure Theory.Plain (w : Theory) : Prop where
  asserted : w.program.Asserted
  scopes : ∀ {id c}, w.program.clause? id = some c → ∀ l ∈ c.head :: c.body, ∀ v ∈ l.vars,
    v.scope = 0
  relational : ∀ {id c}, w.program.clause? id = some c → ∀ l ∈ c.head :: c.body,
    w.registry.contains l.predicate = false

namespace Theory.Plain

variable (hw : w.Plain)

include hw

theorem get?_eq_none {id : ClauseId} {c : Clause} (hid : w.program.clause? id = some c)
    {l : Literal} (hl : l ∈ c.body) {e : Evaluable} :
    w.registry.get? l.predicate ≠ some e := by
  intro he
  have := hw.relational hid l (List.mem_cons_of_mem _ hl)
  rw [Registry.contains_iff.2 ⟨e, he⟩] at this
  cases this

omit hw in
/-- A check of all clauses shows that a theory is plain. -/
theorem of_forall_clauses (hp : w.program.Asserted)
    (h : ∀ c ∈ w.program.clauses.toList, ∀ l ∈ c.head :: c.body,
      (∀ v ∈ l.vars, v.scope = 0) ∧ w.registry.contains l.predicate = false) : w.Plain where
  asserted := hp
  scopes hid l hl := (h _ (Array.mem_toList_iff.2 (Program.mem_clauses_of_clause? hid)) l hl).1
  relational hid l hl := (h _ (Array.mem_toList_iff.2 (Program.mem_clauses_of_clause? hid)) l hl).2

theorem regular : w.Regular where
  asserted := hw.asserted
  scopes := hw.scopes
  steady hid _ hl _ _ he := absurd he (hw.get?_eq_none hid hl)

theorem decides : w.Decides := fun hid hbody _ he _ _ =>
  absurd he (hw.get?_eq_none hid (by rw [hbody]; simp))

/-- All ground instances of clauses are rules. -/
theorem groundRule_mem_rules {id : ClauseId} {c : Clause} (hid : w.program.clause? id = some c)
    (θ : Valuation) : w.groundRule id c θ ∈ w.rules := by
  refine ⟨id, c, θ, hid, rfl, fun l hl => ?_⟩
  obtain ⟨m, hm, rfl, -, hc⟩ := Theory.evaluable_mem_groundRule.1 hl
  rw [hw.relational hid m (List.mem_cons_of_mem _ hm)] at hc
  cases hc

/-- No premise of a ground rule is evaluable. -/
theorem contains_eq_false {π : Proof} (hπ : π ∈ w.rules) {l : Literal}
    (hl : .relational l ∈ π.body) : w.registry.contains l.predicate = false := by
  obtain ⟨id, c, θ, hid, rfl, -⟩ := hπ
  obtain ⟨l, hl', rfl, -⟩ := Theory.relational_mem_groundRule.1 hl
  exact hw.relational hid l (List.mem_cons_of_mem _ hl')

/-- Without evaluable premises, a fact may be negated if it is not among the facts. -/
theorem consequences_refutes {rules : Set Proof} (h : rules ⊆ w.rules) (facts : Set Literal) :
    consequences rules (w.Refutes facts) = consequences rules fun b => b ∉ facts := by
  refine consequences_congr fun π hπ l hl _ => ?_
  have hc : w.registry.contains l.predicate = false := hw.contains_eq_false (h hπ) hl
  simp [Theory.Refutes, hc]

end Theory.Plain

/-! ## The perfect reading -/

/-- The perfect models of a stratified program are a reading of it, in which everything that is
possible is sure. -/
def Reading.perfect (hw : w.Plain) (hs : w.program.dependencies.Stratified) : Reading w :=
  have heq : ∀ ω, w.modelOf (w.active ω) =
      consequences (w.active ω) (w.Refutes (w.modelOf (w.active ω))) := fun ω => by
    have hsub : w.active ω ⊆ w.rules := fun π hπ => hπ.1
    rw [hw.consequences_refutes hsub]
    exact Theory.modelOf_eq_consequences hs hsub
  { sure := w.modelOf
    possible := w.modelOf
    sure_subset := fun _ => Set.Subset.rfl
    sure_eq := heq
    possible_eq := heq }

end ProbDatalog
