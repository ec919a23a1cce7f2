import ProbDatalog.Proofs.Determinacy

/-!
# One program in two modes

The mode says which rules take effect in a world. Where it makes no difference to the negations that
must not be overlooked, it makes none to the answers of queries either, and a search stays on the
same layers. This is so where every clause is certain: then there is one world only.

* `Theory.AgreesIn.yields_iff`: what is among the answers of a query in either mode.
* `Theory.AgreesIn.layered`: layers for one mode are layers for the other.
* `Theory.Certain.agreesIn`: **certain programs mean the same in both modes.**
-/

namespace ProbDatalog

variable {w : Theory} {m : Mode}

/-- The same clauses and evaluable predicates in another mode. -/
def Theory.inMode (w : Theory) (m : Mode) : Theory := { w with mode := m }

theorem Theory.Plain.inMode (hw : w.Plain) (m : Mode) : (w.inMode m).Plain :=
  ⟨hw.asserted, hw.scopes, hw.relational⟩

/-! ## The same negations -/

/-- In the other mode the same negations must not be overlooked. -/
def Theory.AgreesIn (w : Theory) (m : Mode) : Prop :=
  (w.inMode m).meaning.mustNegate = w.meaning.mustNegate

theorem Theory.agreesIn_mode (w : Theory) : w.AgreesIn w.mode := rfl

namespace Meaning

variable {M : Meaning w} {M' : Meaning (w.inMode m)} {H : Horizon} {counts : Valuation → Prop}
variable {body : List Literal} {A : Set Valuation}

/-- How a body is explored depends on the clauses and on the negations that matter. -/
theorem Explored.inMode (hneg : M'.mustNegate = M.mustNegate) (h : M.Explored H counts body A) :
    M'.Explored H counts body A := by
  induction body generalizing A with
  | nil => exact h
  | cons l rest ih =>
    intro hA
    have hlit := h hA
    cases hn : l.negated with
    | true =>
      obtain ⟨b, hb, hdec, hnext⟩ := (exploredLiteral_negated hn).1 hlit
      exact (exploredLiteral_negated (M := M') hn).2
        ⟨b, hb, hdec, fun hmust => ih (hnext (hneg ▸ hmust))⟩
    | false =>
      cases hc : w.registry.contains l.predicate with
      | true =>
        exact (exploredLiteral_evaluable (M := M') hn hc).2
          (ih ((exploredLiteral_evaluable hn hc).1 hlit))
      | false =>
        obtain ⟨q, hq, hinst, hnext⟩ := (exploredLiteral_relational hn hc).1 hlit
        exact (exploredLiteral_relational (M := M') hn hc).2
          ⟨q, hq, hinst, fun g hg => ih (hnext g hg)⟩

end Meaning

namespace Theory.AgreesIn

variable (h : w.AgreesIn m) {q f : Literal}

include h

theorem required_eq : (w.inMode m).meaning.required = w.meaning.required :=
  congrArg (consequences w.rules) h

/-- **Layers for one mode are layers for the other.** -/
theorem layered {patterns : Set CallPattern} {rank : CallPattern → Nat}
    (hlay : w.meaning.Layered patterns rank) : (w.inMode m).meaning.Layered patterns rank := by
  intro p hp id c hid
  rw [h.required_eq]
  exact (hlay p hp id c hid).inMode h

theorem answers_iff : (w.inMode m).Answers q f ↔ w.Answers q f := by
  unfold Answers
  rw [h, h.required_eq]

/-- **What is among the answers of a query in either mode.** -/
theorem yields_iff : (w.inMode m).Yields q f ↔ w.Yields q f := by
  unfold Yields
  rw [h.answers_iff]
  rfl

end Theory.AgreesIn

/-! ## Certain programs -/

/-- A theory without probabilistic clauses. -/
def Theory.Certain (w : Theory) : Prop :=
  ∀ id c, w.program.clause? id = some c → c.isProbabilistic = false

namespace Theory.Certain

variable (h : w.Certain)

include h

theorem inMode (m : Mode) : (w.inMode m).Certain := h

theorem isProbabilistic_of_mem_rules {π : Proof} (hπ : π ∈ w.rules) :
    π.isProbabilistic = false := by
  obtain ⟨id, c, θ, hid, rfl, -⟩ := hπ
  exact h id c hid

/-- In every world all rules take effect. -/
theorem active_eq_rules (ω : World) : w.active ω = w.rules := by
  refine Set.Subset.antisymm (w.active_subset_rules ω) fun π hπ => ⟨hπ, fun _ hp => ?_⟩
  rw [h.isProbabilistic_of_mem_rules hπ] at hp
  cases hp

theorem mustNegate_eq : w.meaning.mustNegate = w.Refutes (w.sureFacts w.rules) := by
  funext b
  refine propext ⟨?_, fun hb => ⟨fun _ => true, ?_⟩⟩
  · rintro ⟨ω, hω⟩
    rwa [h.active_eq_rules] at hω
  · rwa [h.active_eq_rules]

/-- **Certain programs mean the same in both modes.** -/
theorem agreesIn (m : Mode) : w.AgreesIn m :=
  (h.inMode m).mustNegate_eq.trans h.mustNegate_eq.symm

/-- What must be found is what may hold. -/
theorem required_eq_possibleFacts : w.meaning.required = w.possibleFacts w.rules :=
  congrArg (consequences w.rules) h.mustNegate_eq

end Theory.Certain

end ProbDatalog
