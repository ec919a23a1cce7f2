import ProbDatalog.Marginal
import ProbDatalog.Proofs.Remembering
import ProbDatalog.Proofs.Supports

/-!
# Support and certainty

What the functions on sets of proofs tell, in terms of the worlds of the set: which of its facts
hold when some of its probabilistic proofs take effect.

* `Fits`: the variables of a lineage are the probabilistic proofs that were met.
* `Sound`: the formula of a lineage is in normal form besides.
* `isFalse_iff_holds`: only the lineage of what holds in no world is false.
* `isCertain?_iff_holdsIn`: **a literal is certain if and only if it holds in all worlds.**
* `mem_truth_of_support?`: **a literal holds in the same worlds of its support.**
-/

namespace ProbDatalog

/-! ## The variables of lineages -/

/-- The variables are among the probabilistic proofs that were met, each of which was met once. -/
structure Lineage.Fits (s : ProofSet) (L : Lineage) : Prop where
  occurs : ∀ i ∈ L.formula.occurrences, i ∈ L.met
  nodup : L.met.Nodup
  probabilistic : ∀ i ∈ L.met, ∃ π, s.toList[i]? = some π ∧ π.isProbabilistic = true

namespace Lineage

variable {s : ProofSet} {l m : Lineage}

theorem mem_met_meeting {i : Nat} : i ∈ (l.meeting m).met ↔ i ∈ l.met ∨ i ∈ m.met := by
  simp only [meeting, List.mem_append, List.mem_filter, decide_eq_true_eq]
  tauto

/-- Meeting more keeps what was met apart. -/
theorem Fits.meeting (hl : l.Fits s) (hm : m.Fits s) {f : Formula}
    (hf : ∀ i ∈ f.occurrences, i ∈ l.formula.occurrences ∨ i ∈ m.formula.occurrences) :
    Fits s { l.meeting m with formula := f } where
  occurs i hi := mem_met_meeting.2 ((hf i hi).imp (hl.occurs i) (hm.occurs i))
  nodup := by
    refine List.nodup_append'.2 ⟨hl.nodup, hm.nodup.filter _, fun i hi hi' => ?_⟩
    simpa [hi] using (List.mem_filter.1 hi').2
  probabilistic i hi := (mem_met_meeting.1 hi).elim (hl.probabilistic i) (hm.probabilistic i)

theorem keeps_fits : s.Keeps (Fits s) where
  falsity := ⟨by simp [falsity, Formula.falsity, Formula.occurrences], .nil, by simp [falsity]⟩
  truth := ⟨by simp [truth, Formula.truth, Formula.occurrences], .nil, by simp [truth]⟩
  ofVariable hi hp := by
    refine ⟨by simp [ofVariable, Formula.literal, Formula.occurrences], List.nodup_singleton _, ?_⟩
    rintro j hj
    rw [ofVariable, List.mem_singleton] at hj
    subst hj
    exact ⟨_, hi, hp⟩
  and hl hm := hl.meeting hm fun i hi => Formula.mem_occurrences_of_and hi
  orProof i hl hm := by
    unfold orProof
    dsimp only
    split
    · exact hl.meeting hm fun i hi => .inl hi
    · have h := hl.meeting hm fun i hi => Formula.mem_occurrences_of_or hi
      exact ⟨h.occurs, h.nodup, h.probabilistic⟩
  not hl := ⟨fun i hi => hl.occurs i (Formula.mem_occurrences_of_not hi), hl.nodup,
    hl.probabilistic⟩

/-- The formula is in normal form, and its variables are probabilistic proofs that were met. -/
structure Sound (s : ProofSet) (l : Lineage) : Prop where
  proper : l.formula.Proper
  fits : l.Fits s

theorem keeps_sound : s.Keeps (Sound s) where
  falsity := ⟨Formula.proper_falsity, keeps_fits.falsity⟩
  truth := ⟨Formula.proper_truth, keeps_fits.truth⟩
  ofVariable hi hp := ⟨Formula.proper_literal _, keeps_fits.ofVariable hi hp⟩
  and hl hm := ⟨hl.proper.and hm.proper, keeps_fits.and hl.fits hm.fits⟩
  orProof i hl hm :=
    ⟨ProofSet.proper_orProof i hl.proper hm.proper, keeps_fits.orProof i hl.fits hm.fits⟩
  not hl := ⟨Formula.proper_not _, keeps_fits.not hl.fits⟩

end Lineage

namespace ProofSet

variable {s s' : ProofSet} {l : Literal} {L : Lineage} {ω : World} {certain : Bool}

theorem sound_lineage? (h : s.lineage? l = some L) : L.Sound s := by
  obtain ⟨d, hd⟩ := plainLineage_of_lineage? h
  exact Lineage.keeps_sound.plainLineage hd

theorem fits_lineage? (h : s.lineage? l = some L) : L.Fits s := (sound_lineage? h).fits

/-! ## Certainty -/

/-- Every assignment comes from a world, as far as proofs are concerned. -/
theorem exists_world (hnd : s.toList.Nodup) (a : Nat → Bool) :
    ∃ ω, ∀ i π, s.toList[i]? = some π → s.assignment ω i = a i := by
  -- a proof stands once in the set, so its rank says what it is assigned
  refine ⟨fun π => a (s.toList.idxOf π), fun i π hi => ?_⟩
  obtain ⟨hlt, rfl⟩ := List.getElem?_eq_some_iff.1 hi
  rw [assignment_of_getElem? hi, hnd.idxOf_getElem]

/-- Whatever its variables are assigned, a lineage holds as it does in some world. -/
theorem exists_holds_eq (hnd : s.toList.Nodup) (hL : L.Fits s) (a : Nat → Bool) :
    ∃ ω, L.formula.holds (s.assignment ω) = L.formula.holds a := by
  obtain ⟨ω, hω⟩ := exists_world hnd a
  refine ⟨ω, Formula.holds_congr fun i hi => ?_⟩
  obtain ⟨π, hπ, -⟩ := hL.probabilistic i (hL.occurs i hi)
  exact hω i π hπ

/-- Only the lineage of what holds in no world is false. -/
theorem isFalse_iff_holds (hnd : s.toList.Nodup) (hL : L.Sound s) :
    L.formula.isFalse = true ↔ ∀ ω, L.formula.holds (s.assignment ω) = false := by
  rw [Formula.isFalse_iff hL.proper]
  constructor
  · exact fun h ω => h _
  · intro h a
    -- every assignment that matters comes from a world
    obtain ⟨ω, hω⟩ := exists_holds_eq hnd hL.fits a
    rw [← hω, h]

/-- **A literal is certain if and only if it holds in all worlds.** -/
theorem isCertain?_iff_holdsIn (hs : s.dependencies.Stratified) (hnd : s.toList.Nodup)
    (h : s.isCertain? l = some certain) : certain = true ↔ ∀ ω, l.HoldsIn (s.truth ω) := by
  obtain ⟨L, hL, rfl⟩ := Option.map_eq_some_iff.1 h
  have hholds : ∀ ω, L.formula.holds (s.assignment ω) = true ↔ l.HoldsIn (s.truth ω) := fun ω =>
    (holds_lineage? (truth_eq hs ω) hL).2
  have hproper := (holds_lineage? (truth_eq hs fun _ => true) hL).1
  rw [Formula.isValid_iff hproper.ordered]
  constructor
  · exact fun hvalid ω => (hholds ω).1 (hvalid _)
  -- an assignment may be one of no world, but it agrees with a world on the variables that occur
  · intro hall a
    obtain ⟨ω, hω⟩ := exists_holds_eq hnd (fits_lineage? hL) a
    rw [← hω, (hholds ω).2 (hall ω)]

theorem isCertain?_iff (hs : s.dependencies.Stratified) (hnd : s.toList.Nodup)
    (hl : l.negated = false) (h : s.isCertain? l = some certain) :
    certain = true ↔ ∀ ω, l ∈ s.truth ω := by
  rw [isCertain?_iff_holdsIn hs hnd h]
  exact forall_congr' fun ω => Literal.holdsIn_iff_mem hl

/-! ## Support -/

variable (s) in
/-- The proofs with the given ranks. -/
def atRanks (S : Set Nat) : Set Proof := {π | ∃ i ∈ S, s.toList[i]? = some π}

/-- The support has the proofs with the ranks of the support of the lineage. -/
theorem exists_lineage_of_support? (h : s.support? l = some s') :
    ∃ L, s.lineage? l = some L ∧ s'.toList.Sublist s.toList ∧
      ∀ π, π ∈ s'.toList ↔ π ∈ s.atRanks (supportOf L) := by
  obtain ⟨L, hL, h⟩ := Option.bind_eq_some_iff.1 h
  cases h
  refine ⟨L, hL, ?_, fun π => ?_⟩
  · have hsub := (List.filter_sublist (l := s.toList.zipIdx)
      (p := fun p => L.support.contains p.2)).map Prod.fst
    rwa [List.zipIdx_map_fst] at hsub
  · simp only [atRanks, supportOf, List.mem_map, List.mem_filter, Set.mem_ofPred_eq,
      List.contains_eq_mem, decide_eq_true_eq, Prod.exists, List.mem_zipIdx_iff_getElem?]
    constructor
    · rintro ⟨π, i, ⟨hi, hsup⟩, rfl⟩
      exact ⟨i, hsup, hi⟩
    · rintro ⟨i, hsup, hi⟩
      exact ⟨π, i, ⟨hi, hsup⟩, rfl⟩

theorem stratified_of_subset (hs : s.dependencies.Stratified) (h : s'.toList ⊆ s.toList) :
    s'.dependencies.Stratified := by
  have hmono : Relation.ReflTransGen s'.dependencies.rests ≤
      Relation.ReflTransGen s.dependencies.rests :=
    Relation.ReflTransGen.mono fun a b ⟨π, hπ, hrest⟩ => ⟨π, h hπ, hrest⟩
  rintro a b ⟨π, hπ, hneg⟩ hba
  exact hs a b ⟨π, h hπ, hneg⟩ (hmono b a hba)

/-- There is a support where no fact rests on its own negation. -/
theorem exists_support? (hs : s.dependencies.Stratified) (l : Literal) :
    ∃ s', s.support? l = some s' := by
  obtain ⟨L, hL⟩ := exists_lineage? hs l
  simp [support?, hL]

/-- It is known whether a literal is certain where no fact rests on its own negation. -/
theorem exists_isCertain? (hs : s.dependencies.Stratified) (l : Literal) :
    ∃ certain, s.isCertain? l = some certain := by
  obtain ⟨L, hL⟩ := exists_lineage? hs l
  simp [isCertain?, hL]

/-- The probability of a literal is known where no fact rests on its own negation. -/
theorem exists_probability? {α : Type} [Weight α] (hs : s.dependencies.Stratified) (l : Literal) :
    ∃ p, s.probability? α l = some p := by
  obtain ⟨L, hL⟩ := exists_lineage? hs l
  simp [probability?, hL]

/-- **A literal holds in the same worlds of its support.** -/
theorem mem_truth_of_support? (hs : s.dependencies.Stratified) (h : s.support? l = some s') :
    s'.dependencies.Stratified ∧ (l.positive ∈ s'.truth ω ↔ l.positive ∈ s.truth ω) := by
  obtain ⟨L, hL, hsub, hmem⟩ := exists_lineage_of_support? h
  obtain ⟨d, hd⟩ := plainLineage_of_lineage? hL
  -- the proofs of the support that take effect are those with ranks of the support
  have hact : s'.active ω = s.activeIn (supportOf L) ω := by
    ext π
    simp only [active, activeIn, hmem, atRanks, Set.mem_ofPred_eq]
    constructor
    · rintro ⟨⟨i, hi, hget⟩, hω⟩
      exact ⟨i, hi, hget, hω⟩
    · rintro ⟨i, hi, hget, hω⟩
      exact ⟨⟨i, hi, hget⟩, hω⟩
  have hs' := stratified_of_subset hs hsub.subset
  refine ⟨hs', mem_iff_of_support (truth_eq hs ω) ?_ (closed_support hd)
    (within_of_stratified hs _) hd fun i hi => hi⟩
  rw [← hact]
  exact truth_eq hs' ω

theorem stratified_of_support? (hs : s.dependencies.Stratified) (h : s.support? l = some s') :
    s'.dependencies.Stratified := (mem_truth_of_support? (ω := fun _ => true) hs h).1

end ProofSet

end ProbDatalog
