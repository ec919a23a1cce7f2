import ProbDatalog.Proofs.Certainty
import ProbDatalog.Proofs.Gathering
import ProbDatalog.Proofs.Reading
import ProbDatalog.Proofs.Saturation

/-!
# Judging certainty from tables

A fact whose pattern is complete rests on recorded proofs alone, and negated premises lead to lower
layers of complete patterns. So no fact rests on its own negation, and the recorded proofs say in
which worlds the fact holds.

* `Search.recorded_stratified`: **no recorded fact rests on its own negation.**
* `mem_truth_proofsBelow_iff`: **the proofs below a fact say in which worlds it holds.**
* `Reading.judges`: the certainty of a fact is judged right.
-/

namespace ProbDatalog

variable {σ : Type} [Tables σ] [LawfulTables σ] {w : Theory} {R : Reading w} {s : Search σ}

/-- A complete pattern of at most the given rank covers the fact. -/
def Search.Covered (s : Search σ) (rank : CallPattern → Nat) (r : Nat) (f : Literal) : Prop :=
  ∃ p ∈ s.complete, rank p ≤ r ∧ f ∈ p.instances

theorem Theory.contains_eq_false_of_mem_rules {π : Proof} (hπ : π ∈ w.rules) {l : Literal}
    (hl : .relational l ∈ π.body) (hn : l.negated = false) :
    w.registry.contains l.predicate = false := by
  obtain ⟨id, c, θ, -, rfl, -⟩ := hπ
  obtain ⟨l, -, rfl, h | h⟩ := relational_mem_groundRule.1 hl
  · have hn' : l.negated = false := by simpa using hn
    rw [h] at hn'
    cases hn'
  · exact h

omit [Tables σ] [LawfulTables σ] in
theorem Search.Covered.mono {rank : CallPattern → Nat} {r r' : Nat} {f : Literal}
    (h : s.Covered rank r f) (hr : r ≤ r') : s.Covered rank r' f := by
  obtain ⟨p, hp, hle, hi⟩ := h
  exact ⟨p, hp, hle.trans hr, hi⟩

omit [Tables σ] [LawfulTables σ] in
/-- A negated premise of a ground rule is covered by its pattern, if that is complete. -/
theorem Search.covered_of_complete {rank : CallPattern → Nat} {f : Literal}
    (hf : f.isGround = true) (hn : f.negated = false) (h : .of f ∈ s.complete) :
    s.Covered rank (rank (.of f)) f :=
  ⟨_, h, Nat.le_refl _,
    (CallPattern.mem_instances_of_isGround hf).2 (Literal.positive_eq_self hn)⟩

theorem Theory.isGround_of_mem_rules {π : Proof} (hπ : π ∈ w.rules) {l : Literal}
    (hl : .relational l ∈ π.body) : l.isGround = true := by
  obtain ⟨id, c, θ, -, rfl, -⟩ := hπ
  obtain ⟨l, -, rfl, -⟩ := relational_mem_groundRule.1 hl
  exact l.isGround_ground θ

namespace Reading

theorem supported_required {π : Proof} (h : π.Supported R.meaning.derivable R.meaning.mayNegate) :
    π.Supported R.meaning.required R.meaning.mustNegate :=
  h.mono derivable_subset_required fun _ => mustNegate_of_mayNegate

end Reading

/-! ## Strata -/

section Strata

variable {rank : CallPattern → Nat} {r : Nat} {π : Proof} {l : Literal}
variable (hs : Consistent R.meaning s) (hrank : R.meaning.Layered {p | p ∈ s.complete} rank)

include hs in
theorem Consistent.relational_of_recorded (hπ : π ∈ s.recorded) :
    w.registry.contains π.head.predicate = false := by
  obtain ⟨p, hp⟩ := hπ
  exact hs.relational (hs.head_mem hp)

include hs hrank

/-- Positive premises of recorded proofs are covered with their heads. -/
theorem Search.Covered.of_pos (hπ : π ∈ s.recorded) (h : s.Covered rank r π.head)
    (hl : .relational l ∈ π.body) (hn : l.negated = false) : s.Covered rank r l := by
  obtain ⟨p, hp⟩ := hπ
  obtain ⟨q, hq, hqr, hi⟩ := h
  have hrules := hs.mem_rules hp
  obtain ⟨q', hq', hle, hi'⟩ := (hrank.covered hq hrules hrules hi
    (Reading.supported_required (hs.supported hp)) hl
    (Theory.contains_eq_false_of_mem_rules hrules hl hn)).1 hn
  exact ⟨q', hq', hle.trans hqr, hi'⟩

/-- Negated premises of recorded proofs lie on lower layers than their heads. -/
theorem Search.Covered.of_neg (hπ : π ∈ s.recorded) (h : s.Covered rank r π.head)
    (hl : .relational l ∈ π.body) (hn : l.negated = true)
    (hc : w.registry.contains l.predicate = false) :
    .of l.positive ∈ s.complete ∧ rank (.of l.positive) < r := by
  obtain ⟨p, hp⟩ := hπ
  obtain ⟨q, hq, hqr, hi⟩ := h
  have hrules := hs.mem_rules hp
  have hcov := (hrank.covered hq hrules hrules hi (Reading.supported_required (hs.supported hp))
    hl hc).2 hn
  exact ⟨hcov.1, hcov.2.trans_le hqr⟩

/-- Negated premises of recorded proofs are covered on lower layers. -/
theorem Search.Covered.negated (hπ : π ∈ s.recorded) (h : s.Covered rank r π.head)
    (hl : .relational l ∈ π.body) (hn : l.negated = true)
    (hc : w.registry.contains l.predicate = false) : ∃ r' < r, s.Covered rank r' l.positive := by
  obtain ⟨hcomp, hlt⟩ := h.of_neg hs hrank hπ hl hn hc
  obtain ⟨p, hp⟩ := hπ
  have hground : l.positive.isGround = true := by
    simpa using Theory.isGround_of_mem_rules (hs.mem_rules hp) hl
  exact ⟨_, hlt, Search.covered_of_complete hground rfl hcomp⟩

end Strata

/-- **No recorded fact rests on its own negation.** -/
theorem Search.recorded_stratified (hs : Consistent R.meaning s) {D : ProofSet}
    (hD : ∀ π ∈ D.toList, π ∈ s.recorded) : D.dependencies.Stratified := by
  obtain ⟨rank, hrank⟩ := hs.layered
  rintro _ _ ⟨π, hπ, rfl, l, hl, hn, rfl⟩ hpath
  have hrules : π ∈ w.rules := by
    obtain ⟨p, hp⟩ := hD π hπ
    exact hs.mem_rules hp
  by_cases hc : w.registry.contains l.predicate = true
  · -- evaluable calls have no recorded proofs
    have hno : ∀ ρ ∈ D.toList, ρ.head ≠ l.positive := fun ρ hρ heq => by
      have := hs.relational_of_recorded (hD ρ hρ)
      rw [heq] at this
      simp [hc] at this
    rcases Relation.ReflTransGen.cases_head hpath with heq | ⟨c, ⟨ρ, hρ, hhead, -⟩, -⟩
    · exact hno π hπ heq.symm
    · exact hno ρ hρ hhead
  · have hc' : w.registry.contains l.predicate = false := by simpa using hc
    have hcomp : .of l.positive ∈ s.complete := by
      obtain ⟨p, hp⟩ := hD π hπ
      exact hs.negated hp hl hn hc'
    have hground : l.positive.isGround = true := by
      simpa using Theory.isGround_of_mem_rules hrules hl
    -- everything on a way down from the negated premise is on its layer or below
    have hcov : ∀ c, Relation.ReflTransGen D.dependencies.rests l.positive c →
        w.registry.contains c.predicate = false →
          s.Covered rank (rank (.of l.positive)) c := by
      intro c hpath
      induction hpath with
      | refl => exact fun _ => Search.covered_of_complete hground rfl hcomp
      | tail _ hrest ih =>
        obtain ⟨ρ, hρ, rfl, m, hm, rfl⟩ := hrest
        intro hcm
        have hhead := ih (hs.relational_of_recorded (hD ρ hρ))
        cases hmn : m.negated with
        | false =>
          rw [Literal.positive_eq_self hmn]
          exact hhead.of_pos hs hrank (hD ρ hρ) hm hmn
        | true =>
          obtain ⟨r', hlt, hcov⟩ := hhead.negated hs hrank (hD ρ hρ) hm hmn hcm
          exact hcov.mono hlt.le
    have hhead := hcov π.head hpath (hs.relational_of_recorded (hD π hπ))
    exact absurd (hhead.of_neg hs hrank (hD π hπ) hl hn hc').2 (Nat.lt_irrefl _)

/-! ## Truth -/

section Truth

variable {found : ProofSet} {b f : Literal} {π : Proof}

theorem Proof.mem_dependencies_iff : f ∈ π.dependencies ↔
    ∃ l, .relational l ∈ π.body ∧ l.positive = f := by
  simp only [Proof.dependencies, List.mem_filterMap]
  constructor
  · rintro ⟨_ | _, hp, h⟩
    · cases h
      exact ⟨_, hp, rfl⟩
    · cases h
  · rintro ⟨l, hl, rfl⟩
    exact ⟨_, hl, rfl⟩

theorem Search.below_of_recorded (hπ : π ∈ s.recorded) {l : Literal}
    (hl : .relational l ∈ π.body) : s.Below π.head l.positive :=
  ⟨π, hπ, rfl, Proof.mem_dependencies_iff.2 ⟨l, hl, rfl⟩⟩

variable (hw : w.program.Asserted) (hs : Consistent R.meaning s)
variable (hrec : Tables.proofsBelow s.tables b = .ok found)

include hw hs hrec

theorem Consistent.stratified_proofsBelow : found.dependencies.Stratified :=
  Search.recorded_stratified hs fun _ hπ => ((hs.mem_proofsBelow_iff hw hrec).1 hπ).2

/-- Facts without proofs do not hold. -/
theorem Consistent.not_mem_truth (ω : World) (hc : w.registry.contains f.predicate = true) :
    f ∉ found.truth ω := by
  rw [ProofSet.truth_eq (hs.stratified_proofsBelow hw hrec), mem_consequences_iff]
  rintro ⟨π, hπ, rfl, -⟩
  have := hs.relational_of_recorded ((hs.mem_proofsBelow_iff hw hrec).1 hπ.1).2
  rw [hc] at this
  cases this

section Layers

variable {rank : CallPattern → Nat} (hrank : R.meaning.Layered {p | p ∈ s.complete} rank)
variable (ω : World) {r : Nat}

include hrank

/-- What holds by the proofs below a fact surely holds, if they find what may hold on lower
layers. -/
theorem Consistent.sure_of_mem_truth
    (hlower : ∀ r' < r, ∀ f, s.Covered rank r' f → Relation.ReflTransGen s.Below b f →
      f ∈ R.possible (w.active ω) → f ∈ found.truth ω)
    (hcov : s.Covered rank r f) (hpath : Relation.ReflTransGen s.Below b f)
    (hf : f ∈ found.truth ω) : f ∈ R.sure (w.active ω) := by
  rw [ProofSet.truth_eq (hs.stratified_proofsBelow hw hrec) ω] at hf
  induction hf with
  | @rule π hπ _ hneg ih =>
    obtain ⟨-, hrecd⟩ := (hs.mem_proofsBelow_iff hw hrec).1 hπ.1
    obtain ⟨p, hp⟩ := hrecd
    have hact : π ∈ w.active ω := ⟨hs.mem_rules hp, fun _ => hπ.2⟩
    rw [R.sure_eq ω]
    refine .rule hact (fun l hl hn => ?_) fun l hl hn => ?_
    · have hbelow : s.Below π.head l.positive := Search.below_of_recorded ⟨p, hp⟩ hl
      rw [Literal.positive_eq_self hn] at hbelow
      have := ih l hl hn (hcov.of_pos hs hrank ⟨p, hp⟩ hl hn) (hpath.tail hbelow)
      rwa [R.sure_eq ω] at this
    · by_cases hc : w.registry.contains l.predicate = true
      · obtain ⟨ω', hω'⟩ := (hs.supported hp).neg l hl hn
        rw [Theory.refutes_iff_rejects (b := l.positive) hc] at hω' ⊢
        exact hω'
      · have hc' : w.registry.contains l.predicate = false := by simpa using hc
        rw [Theory.refutes_iff_not_mem (b := l.positive) hc']
        obtain ⟨r', hlt, hcov'⟩ := hcov.negated hs hrank ⟨p, hp⟩ hl hn hc'
        exact fun hposs => hneg l hl hn (hlower r' hlt _ hcov'
          (hpath.tail (Search.below_of_recorded ⟨p, hp⟩ hl)) hposs)

/-- What may hold holds by the proofs below a fact, if what these find on lower layers surely
holds. -/
theorem Consistent.mem_truth_of_possible (hm : w.mode = .problog)
    (hlower : ∀ r' < r, ∀ f, s.Covered rank r' f → Relation.ReflTransGen s.Below b f →
      f ∈ found.truth ω → f ∈ R.sure (w.active ω))
    (hcov : s.Covered rank r f) (hpath : Relation.ReflTransGen s.Below b f)
    (hf : f ∈ R.possible (w.active ω)) : f ∈ found.truth ω := by
  have hT := ProofSet.truth_eq (hs.stratified_proofsBelow hw hrec) ω
  rw [R.possible_eq ω] at hf
  induction hf with
  | @rule π hπ hpos hneg ih =>
    obtain ⟨p, hp, hpr, hi⟩ := hcov
    have hsup : π.Supported R.meaning.required R.meaning.mustNegate := by
      refine ⟨fun l hl hn => ?_, fun l hl hn => ⟨ω, hneg l hl hn⟩⟩
      refine Reading.possible_subset_required ω ?_
      rw [R.possible_eq ω]
      exact hpos l hl hn
    have hrecd : π ∈ s.recorded := ⟨p, (hs.complete hp hπ.1 hi hsup).2 hm⟩
    have hmem : π ∈ found.active ω :=
      ⟨(hs.mem_proofsBelow_iff hw hrec).2 ⟨hpath, hrecd⟩, hπ.2 hm⟩
    have hcov' : s.Covered rank r π.head := ⟨p, hp, hpr, hi⟩
    rw [hT]
    refine .rule hmem (fun l hl hn => ?_) fun l hl hn => ?_
    · have hbelow := Search.below_of_recorded hrecd hl
      rw [Literal.positive_eq_self hn] at hbelow
      have := ih l hl hn (hcov'.of_pos hs hrank hrecd hl hn) (hpath.tail hbelow)
      rwa [hT] at this
    · by_cases hc : w.registry.contains l.predicate = true
      · exact hs.not_mem_truth hw hrec ω hc
      · have hc' : w.registry.contains l.predicate = false := by simpa using hc
        obtain ⟨r', hlt, hlow⟩ := hcov'.negated hs hrank hrecd hl hn hc'
        have hnot := (Theory.refutes_iff_not_mem (b := l.positive) hc').1 (hneg l hl hn)
        exact fun hmemT => hnot (hlower r' hlt _ hlow
          (hpath.tail (Search.below_of_recorded hrecd hl)) hmemT)

/-- What holds by the proofs below a fact surely holds, and what may hold holds by them, as far as
complete patterns cover it. -/
theorem Consistent.truth_proofsBelow (hm : w.mode = .problog) (r : Nat) :
    ∀ f, s.Covered rank r f → Relation.ReflTransGen s.Below b f →
      (f ∈ found.truth ω → f ∈ R.sure (w.active ω)) ∧
        (f ∈ R.possible (w.active ω) → f ∈ found.truth ω) := by
  -- the two directions support each other: a negated premise of one needs the other on a lower
  -- layer
  induction r using Nat.strongRecOn with
  | _ r ih =>
    intro f hcov hpath
    constructor
    · exact hs.sure_of_mem_truth hw hrec hrank ω
        (fun r' hr g hg hp => (ih r' hr g hg hp).2) hcov hpath
    · exact hs.mem_truth_of_possible hw hrec hrank ω hm
        (fun r' hr g hg hp => (ih r' hr g hg hp).1) hcov hpath

end Layers

/-- **The proofs below a fact say in which worlds it holds**, if the pattern of the fact is
complete. In these worlds it surely holds, and in the others it cannot. -/
theorem Consistent.mem_truth_proofsBelow_iff (hm : w.mode = .problog) (hb : b.isGround = true)
    (hn : b.negated = false) (hcomp : .of b ∈ s.complete) (ω : World) :
    (b ∈ found.truth ω ↔ b ∈ R.sure (w.active ω)) ∧
      (b ∈ found.truth ω ↔ b ∈ R.possible (w.active ω)) := by
  obtain ⟨rank, hrank⟩ := hs.layered
  obtain ⟨hsure, hposs⟩ := hs.truth_proofsBelow hw hrec hrank ω hm _ b
    (Search.covered_of_complete hb hn hcomp) .refl
  exact ⟨⟨hsure, fun h => hposs (R.sure_subset ω h)⟩, ⟨fun h => R.sure_subset ω (hsure h), hposs⟩⟩

end Truth

/-- **The certainty of a fact is judged right.** -/
theorem Reading.judges (hw : w.program.Asserted) (R : Reading w) : R.meaning.Judges σ := by
  intro hm s b found proofs certain hs hground hn hc hcomp hrec hsup hcert
  have hstrat := hs.stratified_proofsBelow hw hrec
  have hpos : b.positive = b := Literal.positive_eq_self hn
  have htruth : ∀ ω, b ∈ proofs.truth ω ↔ b ∈ found.truth ω := fun ω => by
    simpa only [hpos] using (ProofSet.mem_truth_of_support? (ω := ω) hstrat hsup).2
  obtain ⟨L, -, hsub, -⟩ := ProofSet.exists_lineage_of_support? hsup
  have hnodup : proofs.toList.Nodup := (Tables.isSorted_proofsBelow hrec).nodup.sublist hsub
  have hiff := ProofSet.isCertain?_iff (ProofSet.mem_truth_of_support? (ω := fun _ => true)
    hstrat hsup).1 hnodup hn hcert
  have hworld := fun ω => hs.mem_truth_proofsBelow_iff hw hrec hm hground hn hcomp ω
  split
  -- a fact that is certain holds in all worlds, so its negation holds in none
  next hcertain =>
    rintro ⟨ω, hω⟩
    rw [Theory.refutes_iff_not_mem hc] at hω
    exact hω ((hworld ω).1.1 ((htruth ω).1 (hiff.1 hcertain ω)))
  next hcertain =>
    have hne : ¬∀ ω, b ∈ proofs.truth ω := fun h => hcertain (hiff.2 h)
    push Not at hne
    obtain ⟨ω, hω⟩ := hne
    refine ⟨ω, (Theory.refutes_iff_not_mem hc).2 ?_⟩
    exact fun h => hω ((htruth ω).2 ((hworld ω).2.2 h))

end ProbDatalog
