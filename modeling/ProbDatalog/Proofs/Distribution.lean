import ProbDatalog.Proofs.Datalog
import ProbDatalog.Proofs.Judgment
import ProbDatalog.Proofs.Probabilities
import ProbDatalog.Proofs.Queries
import ProbDatalog.Proofs.Universe

/-!
# The distribution over models

Every choice among the probabilistic ground instances over the constants makes a perfect model,
together with the certain ones. The probability of a literal is the mass of the choices in whose
model it holds.

* `mem_modelOf_iff`: facts that generic patterns cover hold by ground instances over the constants.
* `Consistent.mem_groundings_of_below`: the proofs below a fact are such instances.
* `probability_eq_mass`: **what the probability of a literal is.**
-/

namespace ProbDatalog

variable {w : Theory} {U : List Constant}

namespace Theory

variable (w U)

/-- The certain ground instances over a list of constants. -/
def certain : Set Proof := {π | π ∈ w.groundings U ∧ π.isProbabilistic = false}

/-- The probabilistic ground instances over a list of constants. -/
def choices : Finset Proof := (w.groundings U).toFinset.filter fun π => π.isProbabilistic = true

end Theory

theorem Theory.Plain.mem_rules_of_mem_groundings (hw : w.Plain) {π : Proof}
    (h : π ∈ w.groundings U) : π ∈ w.rules := by
  obtain ⟨id, c, θ, hid, rfl, -⟩ := Theory.mem_groundings_iff.1 h
  exact hw.groundRule_mem_rules hid θ

/-- The rules of a set that take effect in a world: the certain ones, and the choice that the world
makes among the probabilistic ones. -/
theorem Theory.active_sep (hm : w.mode = .problog) {G T : Set Proof} (hG : G ⊆ w.rules) {ω : World}
    (hT : ∀ π, π ∈ T ↔ π ∈ G ∧ π.isProbabilistic = true ∧ ω π = true) :
    {π ∈ w.active ω | π ∈ G} = {π ∈ G | π.isProbabilistic = false} ∪ T := by
  ext π
  constructor
  · rintro ⟨⟨-, hact⟩, hπ⟩
    cases hp : π.isProbabilistic with
    | false => exact .inl ⟨hπ, hp⟩
    | true => exact .inr ((hT π).2 ⟨hπ, hp, hact hm hp⟩)
  · rintro (⟨hπ, hp⟩ | hπ)
    · exact ⟨⟨hG hπ, fun _ hp' => by simp [hp] at hp'⟩, hπ⟩
    · obtain ⟨hπ, -, hω⟩ := (hT π).1 hπ
      exact ⟨⟨hG hπ, fun _ _ => hω⟩, hπ⟩

/-- The ground instances over the constants that take effect in the world of a choice. -/
theorem Theory.Plain.active_of_choice (hw : w.Plain) (hm : w.mode = .problog) {T : Finset Proof}
    (hT : T ⊆ w.choices U) :
    {π ∈ w.active (World.of T) | π ∈ w.groundings U} = w.certain U ∪ {π | π ∈ T} := by
  refine Theory.active_sep hm (fun _ => hw.mem_rules_of_mem_groundings) fun π => ⟨fun hπ => ?_,
    fun h => of_decide_eq_true h.2.2⟩
  obtain ⟨hover, hp⟩ := Finset.mem_filter.1 (hT hπ)
  exact ⟨List.mem_toFinset.1 hover, hp, decide_eq_true hπ⟩

section Model

variable (hw : w.Plain) (hs : w.program.dependencies.Stratified) (hU : w.program.constants ⊆ U)
variable {patterns : Set CallPattern} {rank : CallPattern → Nat}

include hU in
/-- **Facts that generic patterns cover hold by ground instances over the constants.** -/
theorem mem_modelOf_iff (h : (Reading.perfect hw hs).meaning.Layered patterns rank) (ω : World)
    (r : Nat) : ∀ f, Meaning.Covered patterns rank U r f →
      (f ∈ w.modelOf (w.active ω) ↔
        f ∈ w.modelOf {π ∈ w.active ω | π ∈ w.groundings U}) := by
  have hfull := Theory.modelOf_eq_consequences hs (w.active_subset_rules ω)
  have hpart : w.modelOf {π ∈ w.active ω | π ∈ w.groundings U} =
      consequences {π ∈ w.active ω | π ∈ w.groundings U}
        fun b => b ∉ w.modelOf {π ∈ w.active ω | π ∈ w.groundings U} :=
    Theory.modelOf_eq_consequences hs fun π hπ => hπ.1.1
  have hreq : ∀ {f}, f ∈ w.modelOf (w.active ω) → f ∈ (Reading.perfect hw hs).meaning.required :=
    fun hf => Reading.possible_subset_required (R := Reading.perfect hw hs) ω hf
  have hmust : ∀ {π : Proof} {l : Literal}, π ∈ w.rules → .relational l ∈ π.body →
      l.positive ∉ w.modelOf (w.active ω) → (Reading.perfect hw hs).meaning.mustNegate l.positive :=
    fun {π l} hπ hl hnot =>
      have hc : w.registry.contains l.predicate = false := hw.contains_eq_false hπ hl
      ⟨ω, (Theory.refutes_iff_not_mem (b := l.positive) hc).2 hnot⟩
  generalize hF : w.modelOf (w.active ω) = F at hfull hreq hmust ⊢
  generalize hP : w.modelOf {π ∈ w.active ω | π ∈ w.groundings U} = P at hpart ⊢
  -- by induction on the layer, and on it by induction on the derivation: positive premises stay on
  -- the layer, and negated ones go below it
  induction r using Nat.strongRecOn with
  | _ r ih =>
    intro f hcov
    constructor
    · intro hf
      rw [hfull] at hf
      induction hf with
      | @rule π hπ hpos hneg ihp =>
        obtain ⟨p, hp, hle, hgen, hi⟩ := hcov
        have hpos' : ∀ l, .relational l ∈ π.body → l.negated = false → l ∈ F := fun l hl hn => by
          rw [hfull]
          exact hpos l hl hn
        obtain ⟨hover, hprem⟩ := h.walk_required hw hU Set.Subset.rfl hp hgen hπ.1 hi
          (fun l hl hn _ => hreq (hpos' l hl hn)) fun l hl hn _ => hmust hπ.1 hl (hneg l hl hn)
        rw [hpart]
        refine .rule ⟨hπ, hover⟩ (fun l hl hn => ?_) fun l hl hn hmem => ?_
        · have := ihp l hl hn (((hprem l hl).1 hn).mono hle)
          rwa [hpart] at this
        · obtain ⟨r', hlt, hc⟩ := (hprem l hl).2 hn
          exact hneg l hl hn ((ih r' (hlt.trans_le hle) _ hc).2 hmem)
    · intro hf
      rw [hpart] at hf
      induction hf with
      | @rule π hπ hpos hneg ihp =>
        obtain ⟨p, hp, hle, hgen, hi⟩ := hcov
        have hneg' : ∀ l, .relational l ∈ π.body → l.negated = true →
            (∃ r' < rank p, Meaning.Covered patterns rank U r' l.positive) → l.positive ∉ F :=
          fun l hl hn ⟨r', hlt, hc⟩ hmem =>
            hneg l hl hn ((ih r' (hlt.trans_le hle) _ hc).1 hmem)
        obtain ⟨-, hprem⟩ := h.walk_required hw hU Set.Subset.rfl hp hgen hπ.1.1 hi
          (fun l hl hn hc => hreq (ihp l hl hn (hc.mono hle)))
          fun l hl hn hc => hmust hπ.1.1 hl (hneg' l hl hn hc)
        rw [hfull]
        refine .rule hπ.1 (fun l hl hn => ?_) fun l hl hn => hneg' l hl hn ((hprem l hl).2 hn)
        have := ihp l hl hn (((hprem l hl).1 hn).mono hle)
        rwa [hfull] at this

variable {σ : Type} [Tables σ] [LawfulTables σ] {s : Search σ} {found : ProofSet} {b f : Literal}
variable {M : Meaning w} {π : Proof}

include hU in
/-- **The proofs below a fact over the constants are ground instances over the constants**, if the
pattern of the fact is complete. -/
theorem Consistent.mem_groundings_of_below (hc : Consistent (Reading.perfect hw hs).meaning s)
    (hrec : Tables.proofsBelow s.tables b = .ok found)
    (hrank : (Reading.perfect hw hs).meaning.Layered {p | p ∈ s.complete} rank)
    (hb : b.isGround = true) (hn : b.negated = false) (hbU : b.constants ⊆ U)
    (hcomp : .of b ∈ s.complete) (hπ : π ∈ found.toList) :
    π ∈ w.groundings U := by
  -- a recorded proof of a covered fact is over the constants and leads to covered facts
  have hwalk : ∀ {r : Nat} {π : Proof}, π ∈ s.recorded →
      Meaning.Covered {p | p ∈ s.complete} rank U r π.head →
      π ∈ w.groundings U ∧ ∀ l, .relational l ∈ π.body →
        Meaning.Covered {p | p ∈ s.complete} rank U r l.positive := by
    rintro r π ⟨p', hp'⟩ ⟨p, hp, hle, hgen, hi⟩
    have hrules := hc.mem_rules hp'
    have hsup := Reading.supported_required (hc.supported hp')
    obtain ⟨hover, hprem⟩ := hrank.walk_required hw hU Set.Subset.rfl hp hgen hrules hi
      (fun l hl hn _ => hsup.pos l hl hn) fun l hl hn _ => hsup.neg l hl hn
    refine ⟨hover, fun l hl => ?_⟩
    cases hln : l.negated with
    | false =>
      rw [Literal.positive_eq_self hln]
      exact ((hprem l hl).1 hln).mono hle
    | true =>
      obtain ⟨r', hlt, hcov⟩ := (hprem l hl).2 hln
      exact hcov.mono (hlt.le.trans hle)
  obtain ⟨hpath, hrecd⟩ := (hc.mem_proofsBelow_iff hw.asserted hrec).1 hπ
  have hcov : ∀ f, Relation.ReflTransGen s.Below b f →
      Meaning.Covered {p | p ∈ s.complete} rank U (rank (.of b)) f := by
    intro f hpath
    induction hpath with
    | refl =>
      refine ⟨_, hcomp, Nat.le_refl _, CallPattern.generic_of_constants hbU, ?_⟩
      exact (CallPattern.mem_instances_of_isGround hb).2 (Literal.positive_eq_self hn)
    | tail _ hbelow ih =>
      obtain ⟨ρ, hrecd, rfl, hdep⟩ := hbelow
      obtain ⟨l, hl, rfl⟩ := Proof.mem_dependencies_iff.1 hdep
      exact (hwalk hrecd ih).2 l hl
  exact (hwalk hrecd (hcov _ hpath)).1

end Model

/-- **What the probability of a literal is.** On tables without answers, the probability that a
search finds for a ground literal is the mass of the choices among the probabilistic ground
instances, over the constants of the clauses and of the literal, in whose perfect model the literal
holds. -/
theorem probability_eq_mass {σ : Type} [Tables σ] [LawfulTables σ] (hw : w.Plain)
    (hm : w.mode = .problog) (hs : w.program.dependencies.Stratified) (depth : Nat) {tables : σ}
    (hfresh : IsFresh tables) (scope : UInt32) {l : Literal} (hg : l.isGround = true)
    (hc : w.registry.contains l.predicate = false) {p : ℚ}
    (hok : (Searching.probability w depth ℚ l (Search.start tables scope)).1 = .ok p) :
    p = mass (fun π => π.probability.exact) (w.choices (w.program.constants ++ l.constants))
      fun T => l.HoldsIn
        (w.modelOf (w.certain (w.program.constants ++ l.constants) ∪ {π | π ∈ T})) := by
  have hstart : Consistent (Reading.perfect hw hs).meaning (Search.start tables scope) :=
    consistent_start hfresh scope
  obtain ⟨ht, -, hq⟩ := Searching.probability_leads_relational hw.regular
    ((Reading.perfect hw hs).lawful hw.decides) (Reading.judges hw.asserted (Reading.perfect hw hs))
    depth (α := ℚ) hg hc hm hstart
  obtain ⟨hcomp, found, proofs, v, hrec, hsup, hv, rfl⟩ := hq p hok
  generalize (Searching.probability w depth ℚ l (Search.start tables scope)).2 = t at ht hcomp hrec
  generalize hUdef : w.program.constants ++ l.constants = U
  have hU : w.program.constants ⊆ U := hUdef ▸ List.subset_append_left _ _
  have hlU : l.positive.constants ⊆ U := hUdef ▸ List.subset_append_right _ _
  obtain ⟨rank, hrank⟩ := ht.layered
  have hstrat := ht.stratified_proofsBelow hw.asserted hrec
  obtain ⟨L, -, hsub, -⟩ := ProofSet.exists_lineage_of_support? hsup
  have hmass := ProofSet.probability?_eq_mass
    (ProofSet.mem_truth_of_support? (ω := fun _ => true) hstrat hsup).1
    ((Tables.isSorted_proofsBelow hrec).nodup.sublist hsub) rfl hv
  have hchoices : proofs.choices ⊆ w.choices U := by
    intro π hπ
    obtain ⟨hπ, hp⟩ := ProofSet.mem_choices.1 hπ
    refine Finset.mem_filter.2 ⟨List.mem_toFinset.2 ?_, hp⟩
    exact ht.mem_groundings_of_below hw hs hU hrec hrank hg rfl hlU hcomp
      (hsub.subset hπ)
  -- the fact holds by the proofs in the worlds in whose perfect model it holds
  have htruth : ∀ T ⊆ w.choices U, l.positive ∈ proofs.truth (World.of T) ↔
      l.positive ∈ w.modelOf (w.certain U ∪ {π | π ∈ T}) := by
    intro T hT
    rw [← hw.active_of_choice hm hT]
    refine (ProofSet.mem_truth_of_support? hstrat hsup).2.trans
      ((ht.mem_truth_proofsBelow_iff hw.asserted hrec hm hg rfl hcomp _).1.trans
        ?_)
    refine mem_modelOf_iff hw hs hU hrank _ (rank (.of l.positive)) _ ⟨_, hcomp, Nat.le_refl _,
      CallPattern.generic_of_constants hlU, ?_⟩
    exact (CallPattern.mem_instances_of_isGround hg).2 rfl
  have hpos : v = mass (fun π => π.probability.exact) (w.choices U) fun T =>
      l.positive ∈ w.modelOf (w.certain U ∪ {π | π ∈ T}) := by
    rw [hmass, ← mass_congr htruth]
    refine (mass_of_subset hchoices fun T _ => ?_).symm
    unfold ProofSet.truth
    rw [ProofSet.active_inter Finset.Subset.rfl]
  cases hn : l.negated with
  | false =>
    simp only [Bool.false_eq_true, if_false, Literal.HoldsIn, hn]
    rwa [Literal.positive_eq_self hn] at hpos
  | true =>
    simp only [if_true, Literal.HoldsIn, hn]
    rw [mass_not, ← hpos]
    rfl

namespace Birds

/-- One half. -/
def half : Probability := ⟨⟨0x3fe0000000000000⟩, by decide, by decide⟩

/-- Two independent causes for a bird to be heavy, which makes it slow. -/
def slowClauses : List Clause :=
  [⟨about "heavy" "pingu", [], half⟩, ⟨about "heavy" "pingu", [], half⟩,
    ⟨general "slow", [general "heavy"], .certain⟩]

/-- The theory of slow birds. -/
def slowTheory : Theory := ⟨(Program.empty.assertAll slowClauses).2, .empty, .problog⟩

theorem slowTheory_plain : slowTheory.Plain :=
  .of_forall_clauses (.assertAll .empty slowClauses) (by decide +kernel)

theorem slowTheory_stratified : slowTheory.program.dependencies.Stratified :=
  Program.stratified_of_rank (fun _ => 0) (by decide +kernel)

/-- The bird is not slow in one choice of four, since the two causes are told apart. -/
theorem mass_not_slow :
    1 / 4 = mass (fun π => π.probability.exact)
      (slowTheory.choices (slowTheory.program.constants ++ (about "slow" "pingu").constants))
      fun T => (about "slow" "pingu").negate.HoldsIn (slowTheory.modelOf
        (slowTheory.certain (slowTheory.program.constants ++ (about "slow" "pingu").constants) ∪
          {π | π ∈ T})) :=
  probability_eq_mass slowTheory_plain rfl slowTheory_stratified 5 isFresh_empty 0
    (l := (about "slow" "pingu").negate) (by decide +kernel) (by decide +kernel)
    (by decide +kernel)

end Birds

end ProbDatalog
