import ProbDatalog.Proofs.Assertion
import ProbDatalog.Proofs.Rules
import ProbDatalog.Proofs.Strata

/-!
# Perfect models

The meaning of ground rules with negation, stratum by stratum: what follows within the first
`n + 1` strata, where a fact may be negated if it does not follow within the first `n`. The strata
are those of the predicates of a program.

* `perfectModel_eq_consequences`: **the perfect model is what follows from the rules where exactly
  the facts outside of it may be negated.**
-/

namespace ProbDatalog

/-- The predicates of heads rest on those of bodies. -/
def Program.dependencies (p : Program) : Resting String where
  rests a b := ∃ c ∈ p.clauses, c.head.predicate = a ∧ ∃ l ∈ c.body, l.predicate = b
  negates a b := ∃ c ∈ p.clauses, c.head.predicate = a ∧
    ∃ l ∈ c.body, l.negated = true ∧ l.predicate = b
  rests_of_negates a b := by
    rintro ⟨c, hc, ha, l, hl, -, hb⟩
    exact ⟨c, hc, ha, l, hl, hb⟩

/-- In an asserted program, finitely many predicates are negated. -/
theorem Program.finite_negated (p : Program) : {b | ∃ a, p.dependencies.negates a b}.Finite := by
  refine (p.clauses.toList.flatMap fun c => c.body.map Literal.predicate).finite_toSet.subset ?_
  rintro b ⟨a, c, hc, -, l, hl, -, rfl⟩
  exact List.mem_flatMap.2 ⟨c, by simpa using hc, List.mem_map.2 ⟨l, hl, rfl⟩⟩

/-- Ranks of predicates that fall along negations show that no predicate depends on its own
negation. -/
theorem Program.stratified_of_rank {p : Program} (rank : String → Nat)
    (h : ∀ c ∈ p.clauses, ∀ l ∈ c.body, rank l.predicate ≤ rank c.head.predicate ∧
      (l.negated = true → rank l.predicate < rank c.head.predicate)) :
    p.dependencies.Stratified := by
  refine Resting.stratified_of_rank rank ?_ ?_
  · rintro _ _ ⟨c, hc, rfl, l, hl, rfl⟩
    exact (h c hc l hl).1
  · rintro _ _ ⟨c, hc, rfl, l, hl, hn, rfl⟩
    exact (h c hc l hl).2 hn

section PerfectModel

variable {α : Type} (key : Literal → α) (D : Resting α) (rules : Set Proof)

/-- What follows within the first `n` strata, where `key` tells what a fact is for `D`. -/
def stage : Nat → Set Literal
  | 0 => ∅
  | n + 1 => consequences {π ∈ rules | D.Within (n + 1) (key π.head)} fun b => b ∉ stage n

/-- What follows within any number of strata. -/
def perfectModel : Set Literal := {f | ∃ n, f ∈ stage key D rules n}

/-- The rules rest on no more than `D` says. -/
def Respects : Prop :=
  ∀ π ∈ rules, ∀ l, .relational l ∈ π.body →
    D.rests (key π.head) (key l.positive) ∧
      (l.negated = true → D.negates (key π.head) (key l.positive))

variable {key D rules} {m n : Nat} {f : Literal}

theorem Respects.mono {rules' : Set Proof} (h : Respects key D rules') (hr : rules ⊆ rules') :
    Respects key D rules := fun π hπ => h π (hr hπ)

/-- Positive premises lie within the strata of the head. -/
theorem Respects.within_of_pos (hR : Respects key D rules) {π : Proof} (hπ : π ∈ rules)
    (h : D.Within n (key π.head)) {l : Literal} (hl : .relational l ∈ π.body)
    (hn : l.negated = false) : D.Within n (key l) := by
  have := h.of_rests (hR π hπ l hl).1
  rwa [Literal.positive_eq_self hn] at this

/-- Negated premises lie one stratum deeper. -/
theorem Respects.within_of_neg (hR : Respects key D rules) {π : Proof} (hπ : π ∈ rules)
    (h : D.Within (n + 1) (key π.head)) {l : Literal} (hl : .relational l ∈ π.body)
    (hn : l.negated = true) : D.Within n (key l.positive) :=
  h.of_negates ((hR π hπ l hl).2 hn)

theorem within_of_mem_stage (h : f ∈ stage key D rules n) : D.Within n (key f) := by
  cases n with
  | zero => exact h.elim
  | succ n =>
    obtain ⟨π, hπ, rfl, -⟩ := mem_consequences_iff.1 h
    exact hπ.2

/-- Later stages add nothing to the strata of earlier ones. -/
theorem mem_stage_iff (hR : Respects key D rules) (hmn : m ≤ n) (hf : D.Within m (key f)) :
    f ∈ stage key D rules m ↔ f ∈ stage key D rules n := by
  -- by induction on the strata, as the stages differ in the negated premises alone
  induction m generalizing n f with
  | zero => exact hf.elim
  | succ m ih =>
    obtain ⟨n, rfl⟩ : ∃ k, n = k + 1 := ⟨n - 1, by omega⟩
    have hneg : ∀ π ∈ rules, D.Within (m + 1) (key π.head) → ∀ l, .relational l ∈ π.body →
        l.negated = true → (l.positive ∈ stage key D rules m ↔ l.positive ∈ stage key D rules n) :=
      fun π hπ hw l hl hn => ih (by omega) (hR.within_of_neg hπ hw hl hn)
    constructor
    · intro h
      induction h with
      | rule hπ _ hb ihp =>
        refine .rule ⟨hπ.1, hπ.2.mono (by omega)⟩ (fun l hl hn => ?_) fun l hl hn => ?_
        · exact ihp l hl hn (hR.within_of_pos hπ.1 hπ.2 hl hn)
        · exact fun h => hb l hl hn ((hneg _ hπ.1 hπ.2 l hl hn).2 h)
    · intro h
      induction h with
      | rule hπ _ hb ihp =>
        refine .rule ⟨hπ.1, hf⟩ (fun l hl hn => ?_) fun l hl hn => ?_
        · exact ihp l hl hn (hR.within_of_pos hπ.1 hf hl hn)
        · exact fun h => hb l hl hn ((hneg _ hπ.1 hf l hl hn).1 h)

theorem mem_perfectModel_iff (hR : Respects key D rules) (hf : D.Within n (key f)) :
    f ∈ perfectModel key D rules ↔ f ∈ stage key D rules n := by
  constructor
  · rintro ⟨m, hm⟩
    rcases Nat.le_total m n with hmn | hmn
    · exact (mem_stage_iff hR hmn (within_of_mem_stage hm)).1 hm
    · exact (mem_stage_iff hR hmn hf).2 hm
  · exact fun h => ⟨n, h⟩

/-- **The perfect model is what follows from the rules where exactly the facts outside of it may be
negated.** -/
theorem perfectModel_eq_consequences (hR : Respects key D rules) (hD : ∀ a, ∃ n, D.Within n a) :
    perfectModel key D rules = consequences rules fun b => b ∉ perfectModel key D rules := by
  ext f
  constructor
  -- both ways by induction on the derivation; strata settle the negated premises of each rule
  · rintro ⟨n, hn⟩
    cases n with
    | zero => exact hn.elim
    | succ n =>
      induction hn with
      | rule hπ _ hb ih =>
        refine .rule hπ.1 ih fun l hl hn hmem => hb l hl hn ?_
        exact (mem_perfectModel_iff hR (hR.within_of_neg hπ.1 hπ.2 hl hn)).1 hmem
  · intro h
    induction h with
    | @rule π hπ _ hb ih =>
      obtain ⟨n, hn⟩ := hD (key π.head)
      cases n with
      | zero => exact hn.elim
      | succ n =>
        refine ⟨n + 1, .rule ⟨hπ, hn⟩ (fun l hl hneg => ?_) fun l hl hneg hmem => ?_⟩
        · exact (mem_perfectModel_iff hR (hR.within_of_pos hπ hn hl hneg)).1 (ih l hl hneg)
        · exact hb l hl hneg ⟨n, hmem⟩

end PerfectModel

/-- The heads of ground instances are positive. -/
theorem Program.Asserted.negated_head {w : Theory} (hw : w.program.Asserted) {π : Proof}
    (hπ : π ∈ w.rules) : π.head.negated = false := by
  obtain ⟨id, c, θ, hid, rfl, -⟩ := hπ
  simpa using hw.head_negated hid

namespace Theory

/-- The perfect model of some ground rules, by the strata of the predicates. -/
def modelOf (w : Theory) (rules : Set Proof) : Set Literal :=
  ProbDatalog.perfectModel Literal.predicate w.program.dependencies rules

/-- The perfect model of all ground instances of the clauses. -/
def perfectModel (w : Theory) : Set Literal := w.modelOf w.rules

/-- The ground instances rest on no more than the clauses. -/
theorem respects_rules (w : Theory) :
    Respects Literal.predicate w.program.dependencies w.rules := by
  rintro π ⟨id, c, θ, hc, rfl, -⟩ g hg
  obtain ⟨l, hl, rfl, -⟩ := relational_mem_groundRule.1 hg
  have hmem : c ∈ w.program.clauses := Program.mem_clauses_of_clause? hc
  exact ⟨⟨c, hmem, rfl, l, hl, rfl⟩, fun hn => ⟨c, hmem, rfl, l, hl, hn, rfl⟩⟩

/-- **The perfect model of ground instances is what follows from them** where exactly the facts
outside of it may be negated, if no predicate depends on its own negation. -/
theorem modelOf_eq_consequences {w : Theory} (hs : w.program.dependencies.Stratified)
    {rules : Set Proof} (hr : rules ⊆ w.rules) :
    w.modelOf rules = consequences rules fun b => b ∉ w.modelOf rules :=
  perfectModel_eq_consequences (w.respects_rules.mono hr)
    (hs.exists_within w.program.finite_negated)

end Theory

end ProbDatalog
