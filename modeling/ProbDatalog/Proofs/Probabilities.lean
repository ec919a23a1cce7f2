import ProbDatalog.Proofs.Certainty
import ProbDatalog.Proofs.Measures
import Mathlib.Algebra.Order.Field.Basic
import Mathlib.Tactic.Positivity

/-!
# Exact probabilities of literals

In exact arithmetic the probability of a literal is the mass of the worlds in which it holds, where
every probabilistic proof of the set is chosen independently of the others.

* `Probability.exists_exact_eq`: the exact value of a probability as a fraction.
* `Probability.exact_pos`, `Probability.exact_le_one`: it lies above zero and at most at one.
* `Probability.exact_lt_one`: only what is certain has the value one.
* `probability?_eq_mass_holdsIn`: **the computed probability is the mass of the worlds in which the
  literal holds.**
-/

namespace ProbDatalog

/-! ## Values -/

theorem Number.exact_eq_div {x : Number} {m k : Nat} (h : x.scaled = (m, -(k : Int))) :
    x.exact = m / 2 ^ k := by
  unfold exact
  rw [h]
  simp [Nat.shiftLeft_eq, Rat.mkRat_eq_div]

namespace Probability

/-- The exact value of the number. -/
def exact (p : Probability) : ℚ := p.number.exact

section Bits

variable (p : Probability)

theorem bits_le : p.number.bits.toNat ≤ 0x3ff0000000000000 := p.le_one

theorem isCertain_of_bits (h : p.number.bits.toNat = 0x3ff0000000000000) : p.isCertain = true :=
  decide_eq_true (congrArg Number.mk (UInt64.toNat_inj.1 h))

/-- There is no sign above the exponent. -/
theorem exponentField_eq : p.number.exponentField = p.number.bits.toNat / 0x10000000000000 := by
  have hle := p.bits_le
  unfold Number.exponentField Number.magnitude
  omega

theorem scaled_of_subnormal (h : p.number.bits.toNat < 0x10000000000000) :
    p.number.scaled = (p.number.bits.toNat, -((1074 : Nat) : Int)) := by
  have hexp : p.number.exponentField = 0 := by
    rw [exponentField_eq]
    omega
  unfold Number.scaled
  rw [if_pos hexp, Number.fractionField, Nat.mod_eq_of_lt h]
  rfl

theorem scaled_of_normal (h : 0x10000000000000 ≤ p.number.bits.toNat) :
    p.number.scaled = (0x10000000000000 + p.number.bits.toNat % 0x10000000000000,
      -((1075 - p.number.bits.toNat / 0x10000000000000 : Nat) : Int)) := by
  have hle := p.bits_le
  have hexp : p.number.exponentField ≠ 0 := by
    rw [exponentField_eq]
    omega
  unfold Number.scaled
  rw [if_neg hexp, exponentField_eq, Number.fractionField, Prod.mk.injEq]
  exact ⟨rfl, by omega⟩

end Bits

/-- Numerators have at most 53 bits. -/
theorem le_two_pow {k : Nat} (hk : 53 ≤ k) : 0x20000000000000 ≤ 2 ^ k :=
  (show 0x20000000000000 = 2 ^ 53 from rfl) ▸ Nat.pow_le_pow_right (by decide) hk

/-- The exact value as a fraction whose numerator is not greater, and equal only for one. -/
theorem exists_exact_eq (p : Probability) : ∃ m k : Nat, 0 < m ∧ m ≤ 2 ^ k ∧
    (m = 2 ^ k → p.isCertain = true) ∧ p.exact = m / 2 ^ k := by
  have hpos := p.pos
  have hle := p.bits_le
  have hcertain := p.isCertain_of_bits
  rcases Nat.lt_or_ge p.number.bits.toNat 0x10000000000000 with hsub | hnormal
  · have hlt : p.number.bits.toNat < 2 ^ 1074 :=
      hsub.trans (Nat.lt_of_lt_of_le (by decide) (le_two_pow (by decide)))
    exact ⟨_, 1074, hpos, hlt.le, fun h => absurd h hlt.ne,
      Number.exact_eq_div (p.scaled_of_subnormal hsub)⟩
  · refine ⟨_, _, by omega, ?_, ?_, Number.exact_eq_div (p.scaled_of_normal hnormal)⟩ <;>
      generalize p.number.bits.toNat = n at hpos hle hcertain hnormal ⊢ <;>
      rcases Nat.lt_or_ge n 0x3ff0000000000000 with hlt | hone
    -- below one the exponent is smaller, so the power of two is too large for the numerator
    · have := le_two_pow (k := 1075 - n / 0x10000000000000) (by omega)
      omega
    · obtain rfl : n = 0x3ff0000000000000 := by omega
      decide
    · have := le_two_pow (k := 1075 - n / 0x10000000000000) (by omega)
      omega
    · exact fun _ => hcertain (by omega)

theorem exact_pos (p : Probability) : 0 < p.exact := by
  obtain ⟨m, k, hm, -, -, h⟩ := p.exists_exact_eq
  rw [h]
  positivity

theorem exact_le_one (p : Probability) : p.exact ≤ 1 := by
  obtain ⟨m, k, -, hle, -, h⟩ := p.exists_exact_eq
  rw [h, div_le_one (by positivity)]
  exact_mod_cast hle

theorem exact_lt_one {p : Probability} (hp : p.isCertain = false) : p.exact < 1 := by
  obtain ⟨m, k, -, hle, hone, h⟩ := p.exists_exact_eq
  have hne : m ≠ 2 ^ k := fun heq => by simp [hone heq] at hp
  rw [h, div_lt_one (by positivity)]
  exact_mod_cast Nat.lt_of_le_of_ne hle hne

end Probability

theorem clamp_eq_self {x : ℚ} (h0 : 0 ≤ x) (h1 : x ≤ 1) : Weight.clamp x = x := by
  show (if x < 0 then 0 else if 1 < x then 1 else x) = x
  rw [if_neg (not_lt.2 h0), if_neg (not_lt.2 h1)]

/-! ## Literals -/

/-- The world in which exactly the chosen proofs take effect. -/
def World.of (T : Finset Proof) : World := fun π => decide (π ∈ T)

namespace ProofSet

variable {s : ProofSet} {l : Literal} {L : Lineage} {v : ℚ}

variable (s) in
/-- The proofs that may fail to take effect. -/
def choices : Finset Proof := s.toList.toFinset.filter fun π => π.isProbabilistic = true

theorem mem_choices {π : Proof} : π ∈ s.choices ↔ π ∈ s.toList ∧ π.isProbabilistic = true := by
  simp [choices]

/-- What takes effect depends on the chosen proofs of the set. -/
theorem active_inter {T W : Finset Proof} (hW : s.choices ⊆ W) :
    s.active (World.of (T ∩ W)) = s.active (World.of T) := by
  ext π
  refine and_congr_right fun hπ => forall_congr' fun hp => ?_
  have : π ∈ W := hW (mem_choices.2 ⟨hπ, hp⟩)
  simp [World.of, this]

/-- What holds depends on the chosen proofs of the set. -/
theorem truth_inter {T W : Finset Proof} (hW : s.choices ⊆ W) :
    s.truth (World.of (T ∩ W)) = s.truth (World.of T) := by
  unfold truth
  rw [active_inter hW]

/-- What holds in a world holds in the one in which just the same choices of the set are made. -/
theorem truth_chosen (ω : World) :
    s.truth (World.of (s.choices.filter fun π => ω π = true)) = s.truth ω := by
  unfold truth
  congr 1
  ext π
  refine and_congr_right fun hπ => forall_congr' fun hp => ?_
  simp [World.of, mem_choices, hπ, hp]

/-- The weights are the values of the proofs that were met, in the order in which they were met. -/
theorem getD_weights {ranks : List Nat} (h : ∀ i ∈ ranks, ∃ π, s.toList[i]? = some π)
    {i : Nat} {π : Proof} (hi : i ∈ ranks) (hπ : s.toList[i]? = some π) :
    (s.weights ℚ ranks).getD (ranks.idxOf i) Weight.one = π.probability.exact := by
  have hw : s.weights ℚ ranks = (ranks.map fun i =>
      ((s.toList[i]?).map fun π => π.probability.exact).getD 0).toArray := by
    unfold weights
    dsimp only
    congr 1
    rw [← List.filterMap_eq_map]
    refine List.filterMap_congr fun j hj => ?_
    obtain ⟨ρ, hρ⟩ := h j hj
    have hρ' : s.toList.toArray[j]? = some ρ := by simpa using hρ
    simp only [hρ', Option.map_some, Function.comp_apply, hρ, Option.getD_some]
    rfl
  have hlt : ranks.idxOf i < ranks.length := List.idxOf_lt_length_iff.2 hi
  rw [hw, Array.getD_eq_getD_getElem?]
  simp [hlt, hπ]

section Met

variable {proofAt : Nat → Proof} (hat : ∀ i ∈ L.met, s.toList[i]? = some (proofAt i))

include hat

/-- Different ranks belong to different proofs. -/
theorem injOn_proofAt (hnd : s.toList.Nodup) : Set.InjOn proofAt L.met.toFinset := by
  intro i hi j hj heq
  have hi' := hat i (List.mem_toFinset.1 hi)
  have hj' := hat j (List.mem_toFinset.1 hj)
  rw [← heq] at hj'
  obtain ⟨hlt, -⟩ := List.getElem?_eq_some_iff.1 hi'
  exact (List.getElem?_inj hlt hnd).1 (hi'.trans hj'.symm)

/-- Whether the formula of a lineage holds depends on the proofs that were met. -/
theorem holds_assignment_inter (hfits : L.Fits s) (T : Finset Proof) :
    L.formula.holds (s.assignment (World.of (T ∩ L.met.toFinset.image proofAt))) =
      L.formula.holds (s.assignment (World.of T)) := by
  refine Formula.holds_congr fun i hi => ?_
  have hmet := hfits.occurs i hi
  have hmem : proofAt i ∈ L.met.toFinset.image proofAt :=
    Finset.mem_image_of_mem _ (List.mem_toFinset.2 hmet)
  rw [assignment_of_getElem? (hat i hmet), assignment_of_getElem? (hat i hmet)]
  simp only [World.of, Finset.mem_inter, and_iff_left hmem]

/-- The numbered formula of a lineage measures the choices of met proofs under which it holds. -/
theorem measure_numbered (hnd : s.toList.Nodup) (hfits : L.Fits s) (hproper : L.formula.Proper) :
    L.numbered.measure (fun v => (s.weights ℚ L.met).getD v Weight.one) =
      mass (fun π => π.probability.exact) (L.met.toFinset.image proofAt) fun T =>
        L.formula.holds (s.assignment (World.of T)) = true := by
  have hinj := injOn_proofAt hat hnd
  have hidx : Set.InjOn L.met.idxOf L.met.toFinset := fun i hi _ _ heq =>
    (List.idxOf_inj (List.mem_toFinset.1 hi)).1 heq
  unfold Lineage.numbered
  rw [Formula.measure_rename hproper hidx fun i hi => List.mem_toFinset.2 (hfits.occurs i hi),
    mass_image hinj, mass_congr_weight (q := fun i => (proofAt i).probability.exact)]
  · refine mass_congr fun T hT => Eq.congr (Formula.holds_congr fun i hi => ?_) rfl
    have hmet := hfits.occurs i hi
    rw [assignment_of_getElem? (hat i hmet)]
    unfold choosing World.of
    congr 1
    rw [Finset.mem_image, eq_iff_iff]
    constructor
    · exact fun h => ⟨i, h, rfl⟩
    · rintro ⟨j, hj, heq⟩
      rwa [← hinj (hT hj) (List.mem_toFinset.2 hmet) heq]
  · intro i hi
    have hmet := List.mem_toFinset.1 hi
    exact getD_weights (fun j hj => ⟨_, hat j hj⟩) hmet (hat i hmet)

end Met

/-- **The computed probability is the mass of the worlds in which the literal holds.** -/
theorem probability?_eq_mass_holdsIn (hs : s.dependencies.Stratified) (hnd : s.toList.Nodup)
    (h : s.probability? ℚ l = some v) : v = mass (fun π => π.probability.exact) s.choices
      fun T => l.HoldsIn (s.truth (World.of T)) := by
  obtain ⟨L, hL, h⟩ := Option.bind_eq_some_iff.1 h
  cases h
  have hfits := fits_lineage? hL
  have hproper := (holds_lineage? (truth_eq hs fun _ => true) hL).1
  have hholds : ∀ ω, L.formula.holds (s.assignment ω) = true ↔ l.HoldsIn (s.truth ω) := fun ω =>
    (holds_lineage? (truth_eq hs ω) hL).2
  obtain ⟨proofAt, hat⟩ : ∃ proofAt : Nat → Proof, ∀ i ∈ L.met,
      s.toList[i]? = some (proofAt i) ∧ proofAt i ∈ s.choices := by
    refine ⟨fun i => (s.toList[i]?).getD ⟨l, [], .certain, ⟨0⟩⟩, fun i hi => ?_⟩
    obtain ⟨π, hπ, hp⟩ := hfits.probabilistic i hi
    simp only [hπ, Option.getD_some]
    exact ⟨trivial, mem_choices.2 ⟨List.mem_of_getElem? hπ, hp⟩⟩
  have hrank : ∀ i ∈ L.met, s.toList[i]? = some (proofAt i) := fun i hi => (hat i hi).1
  have hsub : L.met.toFinset.image proofAt ⊆ s.choices := by
    intro π hπ
    obtain ⟨i, hi, rfl⟩ := Finset.mem_image.1 hπ
    exact (hat i (List.mem_toFinset.1 hi)).2
  have hvalues : ∀ π ∈ s.choices, 0 ≤ π.probability.exact ∧ π.probability.exact ≤ 1 :=
    fun π _ => ⟨π.probability.exact_pos.le, π.probability.exact_le_one⟩
  have hmeasure : L.numbered.measure (fun v => (s.weights ℚ L.met).getD v Weight.one) =
      mass (fun π => π.probability.exact) s.choices fun T => l.HoldsIn (s.truth (World.of T)) := by
    rw [measure_numbered hrank hnd hfits hproper]
    -- proofs that were not met do not matter
    rw [mass_of_subset hsub fun T _ => ?_]
    · exact mass_congr fun T _ => hholds _
    · rw [← hholds, ← hholds, holds_assignment_inter hrank hfits]
  rw [hmeasure]
  exact clamp_eq_self (mass_nonneg hvalues) (mass_le_one hvalues)

theorem probability?_eq_mass (hs : s.dependencies.Stratified) (hnd : s.toList.Nodup)
    (hl : l.negated = false) (h : s.probability? ℚ l = some v) :
    v = mass (fun π => π.probability.exact) s.choices fun T => l ∈ s.truth (World.of T) := by
  rw [probability?_eq_mass_holdsIn hs hnd h]
  exact mass_congr fun T _ => Literal.holdsIn_iff_mem hl

end ProofSet

end ProbDatalog
