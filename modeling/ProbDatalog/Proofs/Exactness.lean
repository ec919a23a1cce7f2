import ProbDatalog.Proofs.Certainty
import ProbDatalog.Proofs.Measures

/-!
# Lineages are exact

Where no fact rests on its own negation, every literal has a lineage, and in every world its formula
is true if and only if the literal holds in the perfect model of the proofs that take effect there.
Facts may rest on each other in cycles. A derivation that comes back to a fact on its way is cut
off, which loses no world, since what has a derivation has one without detours; and what is
remembered for a fact depends on the facts behind it alone, not on the way through them.

* `truth_unique`: the perfect model is the only set of facts that rests on itself.
* `holds_numbered`: numbering the variables changes no truth.
* `exists_lineage_exact`: **the formula of a literal says in which worlds it holds.**
-/

namespace ProbDatalog.ProofSet

variable {s : ProofSet} {L : Lineage} {l : Literal} {ω : World} {v : Nat}

/-- Of all sets of facts that follow from the proofs that take effect, where exactly the facts
outside may be negated, there is only the perfect model. -/
theorem truth_unique (hs : s.dependencies.Stratified) {T : Set Literal}
    (hT : T = consequences (s.active ω) fun b => b ∉ T) (hl : l.negated = false) :
    l ∈ T ↔ l ∈ s.truth ω := by
  -- one formula says when the literal is in either of them
  obtain ⟨L, hL⟩ := exists_lineage? hs l
  have h := (holds_lineage? hT hL).2
  have h' := (holds_lineage? (truth_eq hs ω) hL).2
  simp only [hl, Bool.false_eq_true, if_false] at h h'
  rw [← h, ← h']

/-! ## Variables -/

variable (s L) in
/-- The proof that a variable of the numbered formula stands for. -/
def variableProof? (v : Nat) : Option Proof := L.met[v]?.bind fun i => s.toList[i]?

variable (s L ω) in
/-- Which variables of the numbered formula are true in a world. -/
def numberedAssignment (v : Nat) : Bool := (s.variableProof? L v).any ω

theorem mem_met_of_mem_numbered (hL : L.Fits s) (hv : v ∈ L.numbered.occurrences) :
    ∃ i ∈ L.met, L.met.idxOf i = v := by
  obtain ⟨i, hi, rfl⟩ := Formula.mem_occurrences_rename hv
  exact ⟨i, hL.occurs i hi, rfl⟩

/-- Every variable stands for a probabilistic proof of the set. -/
theorem exists_variableProof? (hL : L.Fits s) (hv : v ∈ L.numbered.occurrences) :
    ∃ π ∈ s.toList, s.variableProof? L v = some π ∧ π.isProbabilistic = true := by
  obtain ⟨i, hi, rfl⟩ := mem_met_of_mem_numbered hL hv
  obtain ⟨π, hπ, hp⟩ := hL.probabilistic i hi
  refine ⟨π, List.mem_of_getElem? hπ, ?_, hp⟩
  rw [variableProof?, List.getElem?_idxOf hi, Option.bind_some, hπ]

/-- Different variables stand for different proofs. -/
theorem variableProof?_inj (hnd : s.toList.Nodup) (hL : L.Fits s) {v v' : Nat} {π : Proof}
    (hv : s.variableProof? L v = some π) (hv' : s.variableProof? L v' = some π) : v = v' := by
  obtain ⟨i, hi, hπ⟩ := Option.bind_eq_some_iff.1 hv
  obtain ⟨i', hi', hπ'⟩ := Option.bind_eq_some_iff.1 hv'
  obtain ⟨hlt, -⟩ := List.getElem?_eq_some_iff.1 hπ
  obtain rfl : i = i' := (List.getElem?_inj hlt hnd).1 (hπ.trans hπ'.symm)
  obtain ⟨hlt, -⟩ := List.getElem?_eq_some_iff.1 hi
  exact (List.getElem?_inj hlt hL.nodup).1 (hi.trans hi'.symm)

/-- Numbering the variables changes no truth. -/
theorem holds_numbered (hL : L.Fits s) (ω : World) :
    L.numbered.holds (s.numberedAssignment L ω) = L.formula.holds (s.assignment ω) := by
  rw [Lineage.numbered, Formula.holds_rename]
  refine Formula.holds_congr fun i hi => ?_
  have hmet := hL.occurs i hi
  rw [numberedAssignment, variableProof?, List.getElem?_idxOf hmet, Option.bind_some]
  rfl

/-! ## Exactness -/

/-- **The formula of a literal says in which worlds it holds.** Where no fact rests on its own
negation, the computation with remembered results finds a lineage for every literal. Its variables
stand for probabilistic proofs, each for one of its own. Whichever of these proofs take effect, the
formula is true if and only if the literal holds in the perfect model of the certain proofs and of
those that take effect; numbering the variables in the order in which they were met or by the ranks
of their proofs makes no difference. -/
theorem exists_lineage_exact (hs : s.dependencies.Stratified) (l : Literal) :
    ∃ L, s.lineage? l = some L ∧
      (∀ v ∈ L.numbered.occurrences, ∃ π ∈ s.toList,
        s.variableProof? L v = some π ∧ π.isProbabilistic = true) ∧
      (s.toList.Nodup → ∀ v v' π,
        s.variableProof? L v = some π → s.variableProof? L v' = some π → v = v') ∧
      ∀ ω, (L.numbered.holds (s.numberedAssignment L ω) = true ↔ l.HoldsIn (s.truth ω)) ∧
        (L.formula.holds (s.assignment ω) = true ↔ l.HoldsIn (s.truth ω)) := by
  obtain ⟨L, hL⟩ := exists_lineage? hs l
  have hfits := fits_lineage? hL
  refine ⟨L, hL, fun v hv => exists_variableProof? hfits hv,
    fun hnd v v' π => variableProof?_inj hnd hfits, fun ω => ?_⟩
  have hholds : L.formula.holds (s.assignment ω) = true ↔ l.HoldsIn (s.truth ω) :=
    (holds_lineage? (truth_eq hs ω) hL).2
  rw [holds_numbered hfits]
  exact ⟨hholds, hholds⟩

/-- Ranks of facts that fall along negations show that no fact rests on its own negation. -/
theorem stratified_of_rank (rank : Literal → Nat)
    (h : ∀ π ∈ s.toList, ∀ p ∈ π.body, rank p.literal.positive ≤ rank π.head ∧
      (p.literal.negated = true → rank p.literal.positive < rank π.head)) :
    s.dependencies.Stratified := by
  refine Resting.stratified_of_rank rank ?_ ?_
  · rintro _ _ ⟨π, hπ, rfl, l, hl, rfl⟩
    exact (h π hπ _ hl).1
  · rintro _ _ ⟨π, hπ, rfl, l, hl, hn, rfl⟩
    exact (h π hπ _ hl).2 hn

end ProbDatalog.ProofSet

/-! ## Rumours -/

namespace ProbDatalog.Rumours

/-- A fact without arguments. -/
def say (predicate : String) : Literal := .of predicate []

/-- One fourth. -/
def quarter : Probability := ⟨⟨0x3fd0000000000000⟩, by decide, by decide⟩

/-- Ann may come to hear of something by herself. -/
def annHears : Proof := ⟨say "ann", [], quarter, ⟨0⟩⟩

/-- So may Bob. -/
def bobHears : Proof := ⟨say "bob", [], quarter, ⟨1⟩⟩

/-- Ann and Bob tell each other what they hear, and it is calm as long as Ann hears nothing. -/
def rumours : ProofSet :=
  .ofList [annHears, bobHears, ⟨say "ann", [.relational (say "bob")], .certain, ⟨2⟩⟩,
    ⟨say "bob", [.relational (say "ann")], .certain, ⟨3⟩⟩,
    ⟨say "calm", [.relational (say "ann").negate], .certain, ⟨4⟩⟩]

theorem rumours_stratified : rumours.dependencies.Stratified :=
  ProofSet.stratified_of_rank (fun f => if f.predicate = "calm" then 1 else 0) (by decide +kernel)

/-- It is calm in exactly the worlds in which neither of them hears anything by themselves, though
what one hears rests on what the other one hears. -/
theorem calm_iff : rumours.dependencies.Stratified ∧ ∀ ω,
    (say "calm").HoldsIn (rumours.truth ω) ↔ ω annHears = false ∧ ω bobHears = false := by
  refine ⟨rumours_stratified, fun ω => ?_⟩
  obtain ⟨L, hL, -, -, hholds⟩ := ProofSet.exists_lineage_exact rumours_stratified (say "calm")
  have hformula : (rumours.lineage? (say "calm")).map Lineage.formula =
      some ⟨[[⟨0, false⟩, ⟨2, false⟩]]⟩ := by decide +kernel
  rw [hL, Option.map_some, Option.some.injEq] at hformula
  have hann : rumours.assignment ω 0 = ω annHears :=
    ProofSet.assignment_of_getElem? (by decide +kernel)
  have hbob : rumours.assignment ω 2 = ω bobHears :=
    ProofSet.assignment_of_getElem? (by decide +kernel)
  rw [← (hholds ω).2, hformula]
  simp [Formula.holds, Cube.holds, SignedVar.holds, hann, hbob]

end ProbDatalog.Rumours
