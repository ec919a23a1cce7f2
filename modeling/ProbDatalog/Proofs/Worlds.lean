import ProbDatalog.Proofs.Distribution

/-!
# Answers and possible worlds

A possible world is made by a choice among the probabilistic ground instances of the clauses: its
facts are the perfect model of the certain instances and the chosen ones. A search explores all
worlds in one set of tables.

* `Consistent.mem_modelOf_sep`: whether a world has an instance of a complete pattern is settled by
  the ground instances over the constants.
* `Consistent.mem_answers_of_choice`, `Consistent.negated_answers_eq`: the two kinds of queries.
* `answers_cover_worlds`: **queries answer what holds in some world, and negated queries whether
  there is a world without a fact.**
-/

namespace ProbDatalog

/-- A choice among ground instances takes some of the probabilistic ones. -/
def IsChoice (G T : Set Proof) : Prop := T ⊆ {π ∈ G | π.isProbabilistic = true}

namespace Theory

/-- The facts of a world: the perfect model of the certain ground instances and the chosen ones. -/
def factsIn (w : Theory) (G T : Set Proof) : Set Literal :=
  w.modelOf ({π ∈ G | π.isProbabilistic = false} ∪ T)

/-- The ground instances of the clauses that make the worlds of a literal: all of them, or those
over a list of constants that has the ones of the clauses and of the literal. -/
inductive Grounding (w : Theory) (l : Literal) : Set Proof → Prop
  | all : Grounding w l w.rules
  | among {U : List Constant} : w.program.constants ⊆ U → l.constants ⊆ U →
      Grounding w l {π | π ∈ w.groundings U}

variable {w : Theory} {l f : Literal} {G T : Set Proof}

theorem Grounding.subset_rules (hw : w.Plain) (h : w.Grounding l G) : G ⊆ w.rules := by
  cases h with
  | all => exact Set.Subset.rfl
  | among => exact fun _ => hw.mem_rules_of_mem_groundings

open Classical in
/-- Every choice takes effect in some world. -/
theorem exists_world (hm : w.mode = .problog) (hG : G ⊆ w.rules) (hT : IsChoice G T) :
    ∃ ω, w.factsIn G T = w.modelOf {π ∈ w.active ω | π ∈ G} := by
  have hsep := active_sep hm hG (T := T) (ω := fun π => decide (π ∈ T)) fun π =>
    ⟨fun hπ => ⟨(hT hπ).1, (hT hπ).2, decide_eq_true hπ⟩, fun h => of_decide_eq_true h.2.2⟩
  exact ⟨_, by rw [hsep, factsIn]⟩

/-- Every world makes a choice. -/
theorem exists_choice (hm : w.mode = .problog) (hG : G ⊆ w.rules) (ω : World) :
    ∃ T, IsChoice G T ∧ w.factsIn G T = w.modelOf {π ∈ w.active ω | π ∈ G} := by
  let T : Set Proof := {π | π ∈ G ∧ π.isProbabilistic = true ∧ ω π = true}
  have hsep := active_sep hm hG (T := T) fun _ => Iff.rfl
  exact ⟨T, fun π hπ => ⟨hπ.1, hπ.2.1⟩, by rw [hsep, factsIn]⟩

/-- No fact of a perfect model is an evaluable call. -/
theorem Plain.contains_of_mem_modelOf (hw : w.Plain) (hs : w.program.dependencies.Stratified)
    {rules : Set Proof} (hr : rules ⊆ w.rules) (hf : f ∈ w.modelOf rules) :
    w.registry.contains f.predicate = false := by
  rw [modelOf_eq_consequences hs hr] at hf
  obtain ⟨π, hπ, rfl, -⟩ := mem_consequences_iff.1 hf
  obtain ⟨id, c, θ, hid, rfl, -⟩ := hr hπ
  exact hw.relational hid c.head List.mem_cons_self

end Theory

section Worlds

variable {σ : Type} [Tables σ] [LawfulTables σ] {w : Theory} {t : Search σ} {l f : Literal}
variable {G : Set Proof}

section Complete

variable (hw : w.Plain) (hs : w.program.dependencies.Stratified)

/-- Whether a world has an instance of a complete pattern is settled by the ground instances over
the constants. -/
theorem Consistent.mem_modelOf_sep (ht : Consistent (Reading.perfect hw hs).meaning t)
    (hG : w.Grounding l G) (hcomp : .of l ∈ t.complete) (hf : f ∈ (CallPattern.of l).instances)
    (ω : World) :
    f ∈ w.modelOf (w.active ω) ↔ f ∈ w.modelOf {π ∈ w.active ω | π ∈ G} := by
  cases hG with
  | all => rw [Set.sep_eq_self_iff_mem_true.2 fun _ hπ => w.active_subset_rules ω hπ]
  | among hU hl =>
    obtain ⟨rank, hrank⟩ := ht.layered
    exact mem_modelOf_iff hw hs hU hrank ω _ f
      ⟨_, hcomp, Nat.le_refl _, CallPattern.generic_of_constants hl, hf⟩

/-- Whether a fact may be negated in a world is settled by the ground instances over the
constants. -/
theorem Consistent.refutes_sep (ht : Consistent (Reading.perfect hw hs).meaning t)
    (hG : w.Grounding f G) (hg : f.isGround = true) (hn : f.negated = false)
    (hcomp : w.registry.contains f.predicate = true ∨ .of f ∈ t.complete) (ω : World) :
    w.Refutes (w.modelOf (w.active ω)) f ↔ w.Refutes (w.modelOf {π ∈ w.active ω | π ∈ G}) f := by
  cases hc : w.registry.contains f.predicate with
  | true => rw [Theory.refutes_iff_rejects hc, Theory.refutes_iff_rejects hc]
  | false =>
    have hself : f ∈ (CallPattern.of f).instances :=
      (CallPattern.mem_instances_of_isGround hg).2 (Literal.positive_eq_self hn)
    rw [Theory.refutes_iff_not_mem hc, Theory.refutes_iff_not_mem hc,
      ht.mem_modelOf_sep hw hs hG (hcomp.resolve_left (by simp [hc])) hself ω]

variable (hm : w.mode = .problog) (depth : Nat) {answers : List Literal}
variable (ht : Consistent (Reading.perfect hw hs).meaning t)

include hm ht

/-- A query answers its instances that are facts of a world. -/
theorem Consistent.mem_answers_of_choice {q : Literal} (hn : q.negated = false)
    (hG : w.Grounding q G) (hok : (Searching.solve w depth q t).1 = .ok answers) {T : Set Proof}
    (hT : IsChoice G T) (hf : f ∈ w.factsIn G T) (hinst : ∃ θ, q.ground θ = f) : f ∈ answers := by
  obtain ⟨ω, hω⟩ := Theory.exists_world hm (hG.subset_rules hw) hT
  rw [hω] at hf
  -- no fact of a world is an evaluable call, so the query is not one
  have hc : w.registry.contains q.predicate = false := by
    obtain ⟨θ, rfl⟩ := hinst
    have hsub := (Set.sep_subset _ (· ∈ G)).trans (w.active_subset_rules ω)
    exact hw.contains_of_mem_modelOf (f := q.ground θ) hs hsub hf
  obtain ⟨hu, -, hq⟩ := Searching.solve_leads_relational hw.regular
    ((Reading.perfect hw hs).lawful hw.decides) (Reading.judges hw.asserted _) depth hn hc ht
  obtain ⟨hcomp, -, hmem⟩ := hq answers hok
  have hi : f ∈ (CallPattern.of q).instances := by
    rwa [CallPattern.mem_instances_of, Literal.positive_eq_self hn]
  rw [← hu.mem_modelOf_sep hw hs hG hcomp hi ω] at hf
  rw [hmem]
  exact hu.mem_answersOf_of_complete hcomp hi (Reading.possible_subset_required ω hf)

/-- A negated query is answered by whether there is a world in which the fact may be negated. -/
theorem Consistent.negated_answers_eq (hg : f.isGround = true) (hn : f.negated = false)
    (hG : w.Grounding f G) (hok : (Searching.solve w depth f.negate t).1 = .ok answers) :
    ((∃ T, IsChoice G T ∧ w.Refutes (w.factsIn G T) f) → answers = [f.negate]) ∧
      ((∀ T, IsChoice G T → ¬w.Refutes (w.factsIn G T) f) → answers = []) := by
  have hpos : f.negate.positive = f := Literal.positive_negate hn
  obtain ⟨hu, -, hq⟩ := Searching.solve_leads_negated hw.regular
    ((Reading.perfect hw hs).lawful hw.decides) (Reading.judges hw.asserted _) depth
    (q := f.negate) (by simp [Literal.negate, hn]) ht
  obtain ⟨hcomp, hanswers⟩ := hq answers hok
  rw [hpos] at hcomp hanswers
  -- the search decides whether some set of rules that may take effect lacks the fact, and every
  -- such set makes a choice
  have hsep := hu.refutes_sep hw hs hG hg hn hcomp
  obtain ⟨rfl, ω, hω⟩ | ⟨rfl, hnone⟩ := hanswers
  · obtain ⟨T, hT, hfacts⟩ := Theory.exists_choice hm (hG.subset_rules hw) ω
    refine ⟨fun _ => rfl, fun hall => absurd ?_ (hall T hT)⟩
    rw [hfacts]
    exact (hsep ω).1 hω
  · refine ⟨?_, fun _ => rfl⟩
    rintro ⟨T, hT, href⟩
    refine absurd ?_ hnone
    obtain ⟨ω, hfacts⟩ := Theory.exists_world hm (hG.subset_rules hw) hT
    rw [hfacts] at href
    exact ⟨ω, (hsep ω).2 href⟩

end Complete

/-- **Queries answer what holds in some world, and negated queries whether there is a world without
a fact.** On tables without answers, the answers of a positive query have every instance of it that
is a fact of a world. A ground negated query is its own answer if there is a world in which the fact
may be negated, and has no answer if there is none. -/
theorem answers_cover_worlds (hw : w.Plain) (hs : w.program.dependencies.Stratified)
    (hm : w.mode = .problog) (depth : Nat) {tables : σ} (hfresh : IsFresh tables) (scope : UInt32) :
    (∀ q answers G, q.negated = false → w.Grounding q G →
      (Searching.solve w depth q (Search.start tables scope)).1 = .ok answers →
      ∀ T, IsChoice G T → ∀ f ∈ w.factsIn G T, (∃ θ, q.ground θ = f) → f ∈ answers) ∧
    (∀ f answers G, f.isGround = true → f.negated = false → w.Grounding f G →
      (Searching.solve w depth f.negate (Search.start tables scope)).1 = .ok answers →
      ((∃ T, IsChoice G T ∧ w.Refutes (w.factsIn G T) f) → answers = [f.negate]) ∧
        ((∀ T, IsChoice G T → ¬w.Refutes (w.factsIn G T) f) → answers = [])) := by
  have hstart : Consistent (Reading.perfect hw hs).meaning (Search.start tables scope) :=
    consistent_start hfresh scope
  constructor
  · intro q answers G hn hG hok T hT f hf hinst
    exact hstart.mem_answers_of_choice hw hs hm depth hn hG hok hT hf hinst
  · intro f answers G hg hn hG hok
    exact hstart.negated_answers_eq hw hs hm depth hg hn hG hok

end Worlds

namespace Birds

/-- Birds fly unless they are heavy, which may be so for one of them. -/
def maybeHeavyClauses : List Clause :=
  [⟨about "bird" "tweety", [], .certain⟩, ⟨about "bird" "pingu", [], .certain⟩,
    ⟨about "heavy" "pingu", [], half⟩,
    ⟨general "flies", [general "bird", (general "heavy").negate], .certain⟩]

/-- The theory of birds one of which may be heavy. -/
def maybeHeavy : Theory := ⟨(Program.empty.assertAll maybeHeavyClauses).2, .empty, .problog⟩

theorem maybeHeavy_plain : maybeHeavy.Plain :=
  .of_forall_clauses (.assertAll .empty maybeHeavyClauses) (by decide +kernel)

theorem maybeHeavy_stratified : maybeHeavy.program.dependencies.Stratified :=
  Program.stratified_of_rank (fun name => if name = "flies" then 1 else 0) (by decide +kernel)

/-- In every world only the two birds fly. One of them flies in all of them, and the other does not
fly in some of them. -/
theorem flies_in_worlds :
    (∀ T, IsChoice maybeHeavy.rules T → ∀ f ∈ maybeHeavy.factsIn maybeHeavy.rules T,
      (∃ θ, (general "flies").ground θ = f) → f ∈ [about "flies" "tweety", about "flies" "pingu"]) ∧
    (∀ T, IsChoice maybeHeavy.rules T →
      about "flies" "tweety" ∈ maybeHeavy.factsIn maybeHeavy.rules T) ∧
    ∃ T, IsChoice maybeHeavy.rules T ∧
      about "flies" "pingu" ∉ maybeHeavy.factsIn maybeHeavy.rules T := by
  have h := answers_cover_worlds maybeHeavy_plain maybeHeavy_stratified rfl 5 isFresh_empty 0
  have hrefutes : ∀ {name : String} {T}, maybeHeavy.Refutes (maybeHeavy.factsIn maybeHeavy.rules T)
      (about "flies" name) ↔ about "flies" name ∉ maybeHeavy.factsIn maybeHeavy.rules T :=
    Theory.refutes_iff_not_mem rfl
  have htweety := (h.2 (about "flies" "tweety") [] _ (by decide +kernel) rfl .all
    (by decide +kernel)).1
  have hpingu := (h.2 (about "flies" "pingu") [(about "flies" "pingu").negate] _ (by decide +kernel)
    rfl .all (by decide +kernel)).2
  refine ⟨h.1 (general "flies") _ _ rfl .all (by decide +kernel), fun T hT => ?_, ?_⟩
  · by_contra hnot
    have := htweety ⟨T, hT, hrefutes.2 hnot⟩
    cases this
  · by_contra hall
    push Not at hall
    have := hpingu fun T hT href => hrefutes.1 href (hall T hT)
    cases this

end Birds

end ProbDatalog
