import ProbDatalog.Proofs.Plain
import ProbDatalog.Proofs.Queries

/-!
# Answers without probabilities

Where every clause takes effect and no predicate depends on its own negation, a search answers
exactly what the perfect model of the program says.

* `solve_eq_perfectModel`: **soundness and completeness of queries.**
-/

namespace ProbDatalog

variable {w : Theory}

section Datalog

variable {σ : Type} [Tables σ] [LawfulTables σ] (hw : w.Plain) (hm : w.mode = .datalog)
variable (hs : w.program.dependencies.Stratified)

include hm

theorem judges_of_datalog (M : Meaning w) : M.Judges σ := by
  intro h
  rw [hm] at h
  cases h

theorem derivable_perfect : (Reading.perfect hw hs).meaning.derivable = w.perfectModel :=
  Reading.derivable_of_datalog hm

theorem required_perfect : (Reading.perfect hw hs).meaning.required = w.perfectModel := by
  refine Set.Subset.antisymm ?_ (derivable_perfect hw hm hs ▸ Reading.derivable_subset_required)
  have heq := (Reading.perfect hw hs).sure_eq fun _ => true
  rw [Reading.active_of_datalog hm] at heq
  show _ ⊆ (Reading.perfect hw hs).sure w.rules
  rw [heq]
  refine consequences_mono Set.Subset.rfl ?_
  rintro b ⟨ω, hb⟩
  rwa [Reading.active_of_datalog hm] at hb

/-- **Soundness and completeness of queries.** On tables without answers, the answers of a positive
query are, each once, the facts of the perfect model that are instances of it. A ground negated
query is its own answer if the fact is not in the model, or if it is an evaluable call that is
rejected, and has no answer otherwise. -/
theorem solve_eq_perfectModel (hw : w.Plain) (hs : w.program.dependencies.Stratified)
    (depth : Nat) {tables : σ} (hfresh : IsFresh tables) (scope : UInt32) :
    (∀ q answers, q.negated = false → w.registry.contains q.predicate = false →
      (Searching.solve w depth q (Search.start tables scope)).1 = .ok answers →
      answers.Nodup ∧ ∀ f, f ∈ answers ↔ f ∈ w.perfectModel ∧ ∃ θ, q.ground θ = f) ∧
    (∀ f answers, f.isGround = true → f.negated = false →
      (Searching.solve w depth f.negate (Search.start tables scope)).1 = .ok answers →
      (w.Refutes w.perfectModel f → answers = [f.negate]) ∧
        (¬w.Refutes w.perfectModel f → answers = [])) := by
  have hstart : Consistent (Reading.perfect hw hs).meaning (Search.start tables scope) :=
    consistent_start hfresh scope
  have hM := (Reading.perfect hw hs).lawful hw.decides
  have hJ := judges_of_datalog (σ := σ) hm (Reading.perfect hw hs).meaning
  constructor
  · intro q answers hn hc hok
    obtain ⟨ht, -, hq⟩ :=
      Searching.solve_leads_relational hw.regular hM hJ depth hn hc hstart
    obtain ⟨hcomp, hnodup, hmem⟩ := hq answers hok
    refine ⟨hnodup, fun f => ?_⟩
    have hinst : f ∈ (CallPattern.of q).instances ↔ ∃ θ, q.ground θ = f := by
      rw [CallPattern.mem_instances_of, Literal.positive_eq_self hn]
    rw [hmem, ← hinst]
    constructor
    · exact fun hf => ⟨derivable_perfect hw hm hs ▸ ht.derivable hf, ht.instances hf⟩
    · rintro ⟨hf, hi⟩
      exact ht.mem_answersOf_of_complete hcomp hi (required_perfect hw hm hs ▸ hf)
  · intro f answers hg hn hok
    have hrefutes : ∀ ω,
        w.Refutes (w.modelOf (w.active ω)) f ↔ w.Refutes w.perfectModel f := fun ω => by
      rw [Reading.active_of_datalog hm]
      rfl
    have hpos : f.negate.positive = f := Literal.positive_negate hn
    obtain ⟨-, -, hq⟩ := Searching.solve_leads_negated hw.regular hM hJ depth
      (q := f.negate) (by simp [Literal.negate, hn]) hstart
    obtain ⟨-, ⟨rfl, ω, hω⟩ | ⟨rfl, hnot⟩⟩ := hq answers hok
    · rw [hpos] at hω
      exact ⟨fun _ => rfl, fun h => absurd ((hrefutes ω).1 hω) h⟩
    · rw [hpos] at hnot
      exact ⟨fun h => absurd ⟨fun _ => true, (hrefutes _).2 h⟩ hnot, fun _ => rfl⟩

end Datalog

/-! ## Birds -/

namespace Birds

/-- A literal over one string. -/
def about (predicate name : String) : Literal := .of predicate [.const (.string name)]

/-- A literal over one variable. -/
def general (predicate : String) : Literal := .of predicate [.var ⟨"X", 0⟩]

/-- Birds fly unless they are heavy. -/
def clauses : List Clause :=
  [⟨about "bird" "tweety", [], .certain⟩, ⟨about "bird" "pingu", [], .certain⟩,
    ⟨about "heavy" "pingu", [], .certain⟩,
    ⟨general "flies", [general "bird", (general "heavy").negate], .certain⟩]

/-- The theory of birds. -/
def theory (mode : Mode) : Theory := ⟨(Program.empty.assertAll clauses).2, .empty, mode⟩

theorem plain (mode : Mode) : (theory mode).Plain :=
  .of_forall_clauses (.assertAll .empty clauses) (by cases mode <;> decide +kernel)

theorem stratified (mode : Mode) : (theory mode).program.dependencies.Stratified :=
  Program.stratified_of_rank (fun name => if name = "flies" then 1 else 0)
    (by cases mode <;> decide +kernel)

theorem isFresh_empty : IsFresh Resident.empty := fun _ => rfl

/-- One of the birds flies, and the heavy one does not. -/
theorem solve_flies :
    (∀ f, f ∈ [about "flies" "tweety"] ↔
      f ∈ (theory .datalog).perfectModel ∧ ∃ θ, (general "flies").ground θ = f) ∧
    (theory .datalog).Refutes (theory .datalog).perfectModel (about "flies" "pingu") := by
  have h := solve_eq_perfectModel rfl (plain .datalog) (stratified .datalog) 5 isFresh_empty 0
  refine ⟨(h.1 (general "flies") _ rfl (by decide +kernel) (by decide +kernel)).2, ?_⟩
  by_contra hnot
  have := (h.2 (about "flies" "pingu") [(about "flies" "pingu").negate] (by decide +kernel) rfl
    (by decide +kernel)).2 hnot
  cases this

end Birds

end ProbDatalog
