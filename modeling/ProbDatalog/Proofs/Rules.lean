import ProbDatalog.Theory
import ProbDatalog.Proof
import ProbDatalog.Proofs.Valuation
import Mathlib.Data.Set.Lattice

/-!
# Ground rules and what follows from them

The ground instances of the clauses of a theory, written as proofs, and the facts that follow from
a set of such rules. Negated premises are settled from outside, by a set of facts that may be
negated, so what follows is a least set also where the rules use negation.

* `Derives`: the facts that follow from rules.
* `mem_consequences_iff`: a fact follows if and only if it is the head of a supported rule.
* `consequences_mono`: more rules and more admitted negations have more consequences.
-/

namespace ProbDatalog

/-! ## Evaluable calls -/

namespace Registry

variable {r : Registry} {l : Literal} {e : Evaluable}

theorem contains_iff {name : String} : r.contains name = true ↔ ∃ e, r.get? name = some e :=
  Option.isSome_iff_exists

theorem resolve_eq_some (h : r.resolve l = .ok (some e)) :
    r.get? l.predicate = some e ∧ e.arity = l.arity := by
  unfold resolve at h
  cases hg : r.get? l.predicate with
  | none => simp [hg] at h
  | some e' =>
    simp only [hg] at h
    split at h
    next ha =>
      cases h
      exact ⟨rfl, ha⟩
    · cases h

theorem contains_of_resolve (h : r.resolve l = .ok (some e)) : r.contains l.predicate = true :=
  contains_iff.2 ⟨e, (resolve_eq_some h).1⟩

theorem resolve_eq_none (h : r.resolve l = .ok none) : r.contains l.predicate = false := by
  unfold resolve at h
  cases hg : r.get? l.predicate with
  | none =>
    rw [Bool.eq_false_iff]
    intro hc
    obtain ⟨e, he⟩ := contains_iff.1 hc
    rw [hg] at he
    cases he
  | some e' =>
    simp only [hg] at h
    split at h <;> cases h

theorem resolve_of_not_contains (h : r.contains l.predicate = false) : r.resolve l = .ok none := by
  cases hg : r.get? l.predicate with
  | none => simp [resolve, hg]
  | some e =>
    rw [contains_iff.2 ⟨e, hg⟩] at h
    cases h

/-- Whether a call is evaluable depends on the predicate and the number of arguments. -/
theorem resolve_congr {m : Literal} (hp : l.predicate = m.predicate) (ha : l.arity = m.arity)
    (h : r.resolve l = .ok (some e)) : r.resolve m = .ok (some e) := by
  obtain ⟨hg, he⟩ := resolve_eq_some h
  rw [hp] at hg
  rw [ha] at he
  simp [resolve, hg, he]

end Registry

/-! ## Rules and consequences -/

/-- Which proofs take effect. -/
abbrev World := Proof → Bool

/-- The premises hold: positive ones are among the facts, and negated ones may be negated.
Evaluable premises hold as they stand. -/
structure Proof.Supported (facts : Set Literal) (admits : Literal → Prop) (π : Proof) : Prop where
  pos : ∀ l, .relational l ∈ π.body → l.negated = false → l ∈ facts
  neg : ∀ l, .relational l ∈ π.body → l.negated = true → admits l.positive

/-- What follows from rules, where a fact may be negated if `admits` says so. -/
inductive Derives (rules : Set Proof) (admits : Literal → Prop) : Literal → Prop
  /-- The head of a rule follows where the positive premises do. -/
  | rule {π : Proof} : π ∈ rules →
      (∀ l, .relational l ∈ π.body → l.negated = false → Derives rules admits l) →
      (∀ l, .relational l ∈ π.body → l.negated = true → admits l.positive) →
      Derives rules admits π.head

/-- The set of the facts that follow. -/
def consequences (rules : Set Proof) (admits : Literal → Prop) : Set Literal :=
  {f | Derives rules admits f}

section Consequences

variable {rules rules' : Set Proof} {admits admits' : Literal → Prop} {f : Literal}
variable {facts facts' : Set Literal}

theorem Proof.Supported.mono {π : Proof} (h : π.Supported facts admits) (hf : facts ⊆ facts')
    (ha : ∀ b, admits b → admits' b) : π.Supported facts' admits' :=
  ⟨fun l hl hn => hf (h.pos l hl hn), fun l hl hn => ha _ (h.neg l hl hn)⟩

theorem Proof.Supported.mem_consequences {π : Proof} (hπ : π ∈ rules)
    (h : π.Supported (consequences rules admits) admits) : π.head ∈ consequences rules admits :=
  .rule hπ h.pos h.neg

/-- **A fact follows if and only if it is the head of a supported rule.** -/
theorem mem_consequences_iff :
    f ∈ consequences rules admits ↔
      ∃ π ∈ rules, π.head = f ∧ π.Supported (consequences rules admits) admits := by
  constructor
  · rintro ⟨hπ, hpos, hneg⟩
    exact ⟨_, hπ, rfl, hpos, hneg⟩
  · rintro ⟨π, hπ, rfl, h⟩
    exact h.mem_consequences hπ

/-- **More rules and more admitted negations have more consequences.** -/
theorem consequences_mono (hr : rules ⊆ rules') (ha : ∀ b, admits b → admits' b) :
    consequences rules admits ⊆ consequences rules' admits' := by
  intro f h
  induction h with
  | rule hπ _ hneg ih => exact .rule (hr hπ) ih fun l hl hn => ha _ (hneg l hl hn)

/-- What follows depends on the negated premises alone. -/
theorem consequences_congr (h : ∀ π ∈ rules, ∀ l, .relational l ∈ π.body → l.negated = true →
    (admits l.positive ↔ admits' l.positive)) :
    consequences rules admits = consequences rules admits' := by
  ext f
  constructor
  · intro hf
    induction hf with
    | rule hπ _ hneg ih => exact .rule hπ ih fun l hl hn => (h _ hπ l hl hn).1 (hneg l hl hn)
  · intro hf
    induction hf with
    | rule hπ _ hneg ih => exact .rule hπ ih fun l hl hn => (h _ hπ l hl hn).2 (hneg l hl hn)

end Consequences

/-! ## The ground instances of clauses -/

namespace Theory

variable (w : Theory)

/-- The premise that a ground literal of a body becomes. -/
def premise (l : Literal) : Premise :=
  if !l.negated && w.registry.contains l.predicate then .evaluable l else .relational l

/-- The ground instance of a clause under a valuation. -/
def groundRule (id : ClauseId) (c : Clause) (θ : Valuation) : Proof :=
  ⟨c.head.ground θ, c.body.map fun l => w.premise (l.ground θ), c.probability, id⟩

/-- An evaluable call is accepted as it is. -/
def Accepts (l : Literal) : Prop :=
  ∃ e, w.registry.resolve l = .ok (some e) ∧ e.evaluate l.terms = .ok .accept

/-- An evaluable call is rejected. -/
def Rejects (l : Literal) : Prop :=
  ∃ e, w.registry.resolve l = .ok (some e) ∧ e.evaluate l.terms = .ok .reject

/-- The ground instances of all clauses whose evaluable premises are accepted. -/
def rules : Set Proof :=
  {π | ∃ id c θ, w.program.clause? id = some c ∧ w.groundRule id c θ = π ∧
    ∀ l, .evaluable l ∈ π.body → w.Accepts l}

/-- A ground literal may be negated where `facts` hold: it is none of them, or a rejected call. -/
def Refutes (facts : Set Literal) (b : Literal) : Prop :=
  if w.registry.contains b.predicate then w.Rejects b else b ∉ facts

variable {w}

@[simp] theorem groundRule_head (id : ClauseId) (c : Clause) (θ : Valuation) :
    (w.groundRule id c θ).head = c.head.ground θ := rfl

@[simp] theorem groundRule_clause (id : ClauseId) (c : Clause) (θ : Valuation) :
    (w.groundRule id c θ).clause = id := rfl

theorem relational_mem_groundRule {id : ClauseId} {c : Clause} {θ : Valuation} {g : Literal} :
    .relational g ∈ (w.groundRule id c θ).body ↔
      ∃ l ∈ c.body, l.ground θ = g ∧
        (l.negated = true ∨ w.registry.contains l.predicate = false) := by
  simp only [groundRule, List.mem_map, premise]
  refine exists_congr fun l => and_congr_right fun _ => ?_
  cases hn : l.negated <;> cases hc : w.registry.contains l.predicate <;>
    simp [hn, hc]

theorem evaluable_mem_groundRule {id : ClauseId} {c : Clause} {θ : Valuation} {g : Literal} :
    .evaluable g ∈ (w.groundRule id c θ).body ↔
      ∃ l ∈ c.body, l.ground θ = g ∧ l.negated = false ∧
        w.registry.contains l.predicate = true := by
  simp only [groundRule, List.mem_map, premise]
  refine exists_congr fun l => and_congr_right fun _ => ?_
  cases hn : l.negated <;> cases hc : w.registry.contains l.predicate <;>
    simp [hn, hc]

theorem refutes_iff_not_mem {facts : Set Literal} {b : Literal}
    (hc : w.registry.contains b.predicate = false) : w.Refutes facts b ↔ b ∉ facts := by
  unfold Refutes
  rw [if_neg (by simp [hc])]

theorem refutes_iff_rejects {facts : Set Literal} {b : Literal}
    (hc : w.registry.contains b.predicate = true) : w.Refutes facts b ↔ w.Rejects b := by
  unfold Refutes
  rw [if_pos hc]

theorem refutes_antitone {facts facts' : Set Literal} (h : facts ⊆ facts') {b : Literal}
    (hb : w.Refutes facts' b) : w.Refutes facts b := by
  unfold Refutes at *
  split at hb
  next hc =>
    rw [if_pos hc]
    exact hb
  next hc =>
    rw [if_neg hc]
    exact fun hf => hb (h hf)

end Theory

end ProbDatalog
