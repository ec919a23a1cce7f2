import ProbDatalog.Proofs.Certainty
import ProbDatalog.Proofs.Instances

/-!
# Lineages of renamed proofs

Sets of proofs that differ in the ids of clauses list their proofs in other orders, so their
lineages have other variables. They hold in the same worlds nevertheless, and the same proofs are in
their supports, up to the renaming. For the lineage of one literal the sets need to have the same
proofs only for facts that the literal may rest on; what they have besides is never met.

* `ProofSet.Renames`: one set has the proofs of another one under other ids.
* `ProofSet.RenamesOn`: it does so for some facts, and all that these rest on.
* `Lineage.Alike`: lineages of the two sets that say the same.
* `alike_plainLineage`: **the lineages of a literal are alike.**
* `renamed_mem_support?_iff`: a renamed proof is in the support where the proof is.
* `support?_eq_of_renamesOn`: sets with the same proofs for these facts have the same support.
-/

namespace ProbDatalog

variable {ρ : Equiv.Perm ClauseId}

/-! ## Renamed proofs -/

namespace Proof

variable {π : Proof}

/-- The proof with another id of its clause. -/
def renamed (ρ : Equiv.Perm ClauseId) (π : Proof) : Proof := { π with clause := ρ π.clause }

@[simp] theorem renamed_head : (π.renamed ρ).head = π.head := rfl

@[simp] theorem renamed_body : (π.renamed ρ).body = π.body := rfl

@[simp] theorem renamed_isProbabilistic : (π.renamed ρ).isProbabilistic = π.isProbabilistic := rfl

@[simp] theorem renamed_dependencies : (π.renamed ρ).dependencies = π.dependencies := rfl

@[simp] theorem renamed_symm_renamed : (π.renamed ρ).renamed ρ.symm = π := by
  simp [renamed]

@[simp] theorem renamed_renamed_symm : (π.renamed ρ.symm).renamed ρ = π := by
  simp [renamed]

theorem renamed_injective : Function.Injective (renamed ρ) :=
  Function.LeftInverse.injective fun _ => renamed_symm_renamed

end Proof

namespace ProofSet

/-- The proofs with other ids of their clauses. -/
def renamed (ρ : Equiv.Perm ClauseId) (s : ProofSet) : ProofSet :=
  .ofList (s.toList.map (Proof.renamed ρ))

theorem mem_renamed {s : ProofSet} {π : Proof} :
    π ∈ (s.renamed ρ).toList ↔ ∃ π' ∈ s.toList, π'.renamed ρ = π := by
  rw [renamed, mem_ofList, List.mem_map]

theorem isSorted_renamed {s : ProofSet} : Sorted.IsSorted (s.renamed ρ).toList :=
  isSorted_ofList _

/-- A sorted set that has the renamed proofs of another one, and no others. -/
theorem eq_renamed_of_mem_iff {s t : ProofSet} (ht : Sorted.IsSorted t.toList)
    (h : ∀ π : Proof, π.renamed ρ ∈ t.toList ↔ π ∈ s.toList) : t = s.renamed ρ := by
  refine eq_of_mem_iff ht isSorted_renamed fun π => ?_
  rw [mem_renamed]
  constructor
  · exact fun hπ => ⟨π.renamed ρ.symm, (h _).1 (by simpa using hπ), by simp⟩
  · rintro ⟨π', hπ', rfl⟩
    exact (h π').2 hπ'

/-- One set has the proofs of another one under other ids. -/
structure Renames (ρ : Equiv.Perm ClauseId) (s s' : ProofSet) : Prop where
  nodup : s.toList.Nodup
  nodup' : s'.toList.Nodup
  mem_iff : ∀ π, π.renamed ρ ∈ s'.toList ↔ π ∈ s.toList

/-- One set has the proofs of some facts under other ids, where everything that these facts rest on
is among them. -/
structure RenamesOn (ρ : Equiv.Perm ClauseId) (R : Set Literal) (s s' : ProofSet) : Prop where
  nodup : s.toList.Nodup
  nodup' : s'.toList.Nodup
  closed : ∀ π ∈ s.toList, π.head ∈ R → ∀ q, .relational q ∈ π.body → q.positive ∈ R
  mem_iff : ∀ π : Proof, π.head ∈ R → (π.renamed ρ ∈ s'.toList ↔ π ∈ s.toList)

theorem Renames.on_univ {s s' : ProofSet} (hr : Renames ρ s s') : RenamesOn ρ Set.univ s s' :=
  ⟨hr.nodup, hr.nodup', fun _ _ _ _ _ => trivial, fun π _ => hr.mem_iff π⟩

namespace RenamesOn

variable {s s' : ProofSet} {fact : Literal} {R : Set Literal} (hr : RenamesOn ρ R s s')

include hr

theorem exists_of_mem {π' : Proof} (h : π' ∈ s'.toList) (hR : π'.head ∈ R) :
    ∃ π ∈ s.toList, π' = π.renamed ρ :=
  ⟨π'.renamed ρ.symm, (hr.mem_iff (π'.renamed ρ.symm) hR).1 (by simpa using h), by simp⟩

theorem symm : RenamesOn ρ.symm R s' s where
  nodup := hr.nodup'
  nodup' := hr.nodup
  closed π' hπ' hR := by
    obtain ⟨π, hπ, rfl⟩ := hr.exists_of_mem hπ' hR
    exact hr.closed π hπ hR
  mem_iff π hR := by
    rw [← hr.mem_iff (π.renamed ρ.symm) hR, Proof.renamed_renamed_symm]

theorem proves_eq (hR : fact ∈ R) : s'.proves fact = s.proves fact := by
  rw [Bool.eq_iff_iff, proves_iff, proves_iff]
  constructor
  · rintro ⟨_, hπ, rfl⟩
    obtain ⟨π, hmem, rfl⟩ := hr.exists_of_mem hπ hR
    exact ⟨π, hmem, rfl⟩
  · rintro ⟨π, hπ, rfl⟩
    exact ⟨π.renamed ρ, (hr.mem_iff π hR).2 hπ, rfl⟩

end RenamesOn

end ProofSet

/-! ## Alike lineages -/

namespace Lineage

variable {s s' : ProofSet} {l l' m m' : Lineage}

/-- Lineages of two sets hold in the same worlds and have the same proofs in their supports, up to
the renaming. -/
structure Alike (ρ : Equiv.Perm ClauseId) (s s' : ProofSet) (l l' : Lineage) : Prop where
  sound : l.Sound s
  sound' : l'.Sound s'
  holds : ∀ ω, l'.formula.holds (s'.assignment ω) =
    l.formula.holds (s.assignment fun π => ω (π.renamed ρ))
  support : ∀ π, π.renamed ρ ∈ s'.atRanks (ProofSet.supportOf l') ↔
    π ∈ s.atRanks (ProofSet.supportOf l)

end Lineage

namespace ProofSet

variable {s s' : ProofSet} {i i' : Nat} {π : Proof} {l l' m m' start start' L L' : Lineage}

theorem atRanks_and : s.atRanks (supportOf (l.and m)) =
    s.atRanks (supportOf l) ∪ s.atRanks (supportOf m) := by
  ext π
  simp only [atRanks, supportOf_and, Set.mem_union, Set.mem_ofPred_eq, or_and_right, exists_or]

theorem mem_atRanks_orProof {ρ : Proof} (hi : s.toList[i]? = some ρ) :
    π ∈ s.atRanks (supportOf (l.orProof i m)) ↔
      (π ∈ s.atRanks (supportOf l) ∨ π ∈ s.atRanks (supportOf m)) ∨
        (m.formula.isFalse = false ∧ ρ = π) := by
  simp only [atRanks, supportOf, Set.mem_ofPred_eq, Lineage.mem_support_orProof, or_and_right,
    exists_or, and_assoc, exists_and_left]
  simp [hi]

end ProofSet

namespace Lineage.Alike

open ProofSet

variable {s s' : ProofSet} {i i' : Nat} {π : Proof} {l l' m m' : Lineage}

theorem isFalse_eq (hnd : s.toList.Nodup) (hnd' : s'.toList.Nodup) (h : Alike ρ s s' l l') :
    l'.formula.isFalse = l.formula.isFalse := by
  rw [Bool.eq_iff_iff, isFalse_iff_holds hnd h.sound, isFalse_iff_holds hnd' h.sound']
  constructor
  · intro hall ω
    have hω := hall fun π => ω (π.renamed ρ.symm)
    rw [h.holds] at hω
    simpa using hω
  · exact fun hall ω => (h.holds ω).trans (hall _)

theorem symm (h : Alike ρ s s' l l') : Alike ρ.symm s' s l' l where
  sound := h.sound'
  sound' := h.sound
  holds ω := by simp [h.holds]
  support π := by rw [← h.support, Proof.renamed_renamed_symm]

theorem falsity : Alike ρ s s' .falsity .falsity where
  sound := keeps_sound.falsity
  sound' := keeps_sound.falsity
  holds _ := rfl
  support π := by simp [atRanks, supportOf, Lineage.falsity]

theorem and (h : Alike ρ s s' l l') (k : Alike ρ s s' m m') :
    Alike ρ s s' (l.and m) (l'.and m') where
  sound := keeps_sound.and h.sound k.sound
  sound' := keeps_sound.and h.sound' k.sound'
  holds ω := by
    simp only [Lineage.and, Formula.holds_and h.sound.proper k.sound.proper,
      Formula.holds_and h.sound'.proper k.sound'.proper, h.holds, k.holds]
  support π := by
    rw [atRanks_and, atRanks_and, Set.mem_union, Set.mem_union, h.support, k.support]

theorem not (h : Alike ρ s s' l l') : Alike ρ s s' l.not l'.not where
  sound := keeps_sound.not h.sound
  sound' := keeps_sound.not h.sound'
  holds ω := by simp only [Lineage.not, Formula.holds_not, h.holds]
  support := h.support

theorem startLineage (hi : s.toList[i]? = some π) (hi' : s'.toList[i']? = some (π.renamed ρ)) :
    Alike ρ s s' (startLineage i π) (ProofSet.startLineage i' (π.renamed ρ)) where
  sound := keeps_sound.startLineage hi
  sound' := keeps_sound.startLineage hi'
  holds ω := by
    rw [Bool.eq_iff_iff, (holds_startLineage i' _).2, (holds_startLineage i π).2,
      assignment_of_getElem? hi, assignment_of_getElem? hi', Proof.renamed_isProbabilistic]
  support ρ := by simp [atRanks, supportOf_startLineage]

end Lineage.Alike

namespace ProofSet

section Runs

variable {s s' : ProofSet} {ask ask' : Literal → Option Lineage} {start start' L L' : Lineage}
variable {body : List Premise} {ranked : List (Nat × Proof)} {fact : Literal} {a : Nat → Bool}

/-- Proofs make a disjunction hold in whatever order they are added. -/
theorem holds_proofsLineage_iff (hs : start.formula.Proper)
    (hbody : ∀ x ∈ ranked, ∀ B, premisesLineage ask (startLineage x.1 x.2) x.2.body = some B →
      B.formula.Proper) (h : proofsLineage ask start ranked = some L) :
    L.formula.holds a = true ↔ start.formula.holds a = true ∨ ∃ x ∈ ranked, ∃ B,
      premisesLineage ask (startLineage x.1 x.2) x.2.body = some B ∧ B.formula.holds a = true := by
  induction ranked generalizing start with
  | nil =>
    cases h
    simp
  | cons x rest ih =>
    obtain ⟨i, π⟩ := x
    obtain ⟨B, hB, h⟩ := proofsLineage_cons_eq_some_iff.1 h
    have hBp := hbody _ List.mem_cons_self B hB
    rw [ih (proper_orProof i hs hBp) (fun y hy => hbody y (List.mem_cons_of_mem _ hy)) h,
      (holds_orProof hs hBp).2, or_assoc]
    simp only [List.mem_cons, exists_eq_or_imp, hB, Option.some.injEq, exists_eq_left']

/-- Proofs add to a support in whatever order they are added. -/
theorem mem_atRanks_proofsLineage_iff {π : Proof}
    (hranked : ∀ x ∈ ranked, s.toList[x.1]? = some x.2)
    (h : proofsLineage ask start ranked = some L) :
    π ∈ s.atRanks (supportOf L) ↔ π ∈ s.atRanks (supportOf start) ∨ ∃ x ∈ ranked, ∃ B,
      premisesLineage ask (startLineage x.1 x.2) x.2.body = some B ∧
        (π ∈ s.atRanks (supportOf B) ∨ B.formula.isFalse = false ∧ x.2 = π) := by
  induction ranked generalizing start with
  | nil =>
    cases h
    simp
  | cons x rest ih =>
    obtain ⟨i, ρ⟩ := x
    obtain ⟨B, hB, h⟩ := proofsLineage_cons_eq_some_iff.1 h
    rw [ih (fun y hy => hranked y (List.mem_cons_of_mem _ hy)) h,
      mem_atRanks_orProof (hranked _ List.mem_cons_self), or_assoc, or_assoc]
    simp only [List.mem_cons, exists_eq_or_imp, hB, Option.some.injEq, exists_eq_left', or_assoc]

/-! ## Alike runs -/

section Alike

variable {askNegated askNegated' : Literal → Option Lineage} {room n : Nat} {path : List Literal}
variable {l : Literal} {R : Set Literal} (hr : RenamesOn ρ R s s')

include hr

theorem alike_premisesLineage
    (hask : ∀ q, .relational q ∈ body → ∀ M M', ask q = some M → ask' q = some M' →
      Lineage.Alike ρ s s' M M')
    (hs : Lineage.Alike ρ s s' start start') (h : premisesLineage ask start body = some L)
    (h' : premisesLineage ask' start' body = some L') : Lineage.Alike ρ s s' L L' := by
  induction body generalizing start start' with
  | nil =>
    cases h
    cases h'
    exact hs
  | cons p rest ih =>
    have hrest := fun q hq => hask q (List.mem_cons_of_mem p hq)
    cases p with
    | evaluable _ => exact ih hrest hs h h'
    | relational q =>
      obtain ⟨M, hM, h⟩ := premisesLineage_relational h
      obtain ⟨M', hM', h'⟩ := premisesLineage_relational h'
      have hand := hs.and (hask q List.mem_cons_self M M' hM hM')
      -- both stop at the same premise, since a conjunction is false for both or for none
      rw [hand.isFalse_eq hr.nodup hr.nodup'] at h'
      rcases h with ⟨hf, rfl⟩ | ⟨hf, h⟩ <;> rcases h' with ⟨hf', rfl⟩ | ⟨hf', h'⟩
      · exact hand
      · simp [hf] at hf'
      · simp [hf] at hf'
      · exact ih hrest hand h h'

/-- A proof of a fact has a renamed proof on the other side, whose premises are alike. -/
theorem exists_alike_body {i : Nat} {π : Proof} {B : Lineage} (hfact : fact ∈ R)
    (hask : ∀ q, .relational q ∈ π.body → ∀ M M', ask q = some M → ask' q = some M' →
      Lineage.Alike ρ s s' M M')
    (h' : proofsLineage ask' start (s'.rankedProofsOf fact) = some L')
    (hx : (i, π) ∈ s.rankedProofsOf fact)
    (hB : premisesLineage ask (startLineage i π) π.body = some B) :
    ∃ x ∈ s'.rankedProofsOf fact, x.2 = π.renamed ρ ∧ ∃ B',
      premisesLineage ask' (startLineage x.1 x.2) x.2.body = some B' ∧
        Lineage.Alike ρ s s' B B' := by
  obtain ⟨hi, rfl⟩ := mem_rankedProofsOf.1 hx
  obtain ⟨j, hj⟩ := List.getElem?_of_mem ((hr.mem_iff π hfact).2 (List.mem_of_getElem? hi))
  have hx' : (j, π.renamed ρ) ∈ s'.rankedProofsOf π.head := mem_rankedProofsOf.2 ⟨hj, rfl⟩
  obtain ⟨B', hB', -⟩ := (support_proofsLineage h').2 _ hx'
  exact ⟨_, hx', rfl, B', hB', alike_premisesLineage hr hask (.startLineage hi hj) hB hB'⟩

/-- The proofs of a fact are the same, up to the renaming and their order. -/
theorem alike_proofsLineage (hfact : fact ∈ R)
    (hask : ∀ q, q.positive ∈ R → ∀ M M', ask q = some M → ask' q = some M' →
      Lineage.Alike ρ s s' M M')
    (h : proofsLineage ask .falsity (s.rankedProofsOf fact) = some L)
    (h' : proofsLineage ask' .falsity (s'.rankedProofsOf fact) = some L')
    (hL : L.Sound s) (hL' : L'.Sound s') : Lineage.Alike ρ s s' L L' := by
  -- each proof has its renamed proof on the other side, wherever it stands there
  have hforth : ∀ x ∈ s.rankedProofsOf fact, ∀ B,
      premisesLineage ask (startLineage x.1 x.2) x.2.body = some B →
      ∃ x' ∈ s'.rankedProofsOf fact, x'.2 = x.2.renamed ρ ∧ ∃ B',
        premisesLineage ask' (startLineage x'.1 x'.2) x'.2.body = some B' ∧
          Lineage.Alike ρ s s' B B' := by
    rintro ⟨i, π⟩ hx B hB
    obtain ⟨hi, rfl⟩ := mem_rankedProofsOf.1 hx
    exact exists_alike_body hr hfact (fun q hq =>
      hask q (hr.closed π (List.mem_of_getElem? hi) hfact q hq)) h' hx hB
  have hback : ∀ x' ∈ s'.rankedProofsOf fact, ∀ B',
      premisesLineage ask' (startLineage x'.1 x'.2) x'.2.body = some B' →
      ∃ x ∈ s.rankedProofsOf fact, x'.2 = x.2.renamed ρ ∧ ∃ B,
        premisesLineage ask (startLineage x.1 x.2) x.2.body = some B ∧
          Lineage.Alike ρ s s' B B' := by
    rintro ⟨i, π⟩ hx' B' hB'
    obtain ⟨hi, rfl⟩ := mem_rankedProofsOf.1 hx'
    obtain ⟨x, hx, heq, B, hB, hal⟩ := exists_alike_body hr.symm hfact (fun q hq M M' hM hM' =>
      (hask q (hr.symm.closed π (List.mem_of_getElem? hi) hfact q hq) M' M hM' hM).symm) h hx' hB'
    exact ⟨x, hx, by simp [heq], B, hB, hal.symm⟩
  refine ⟨hL, hL', fun ω => ?_, fun π => ?_⟩
  · rw [Bool.eq_iff_iff, holds_proofsLineage_iff Formula.proper_falsity (fun x hx B hB => by
      obtain ⟨x', -, -, B', -, hal⟩ := hforth x hx B hB
      exact hal.sound.proper) h, holds_proofsLineage_iff Formula.proper_falsity (fun x hx B hB => by
      obtain ⟨x', -, -, B', -, hal⟩ := hback x hx B hB
      exact hal.sound'.proper) h']
    refine or_congr Iff.rfl ⟨?_, ?_⟩
    · rintro ⟨x', hx', B', hB', hholds⟩
      obtain ⟨x, hx, -, B, hB, hal⟩ := hback x' hx' B' hB'
      exact ⟨x, hx, B, hB, (hal.holds ω).symm.trans hholds⟩
    · rintro ⟨x, hx, B, hB, hholds⟩
      obtain ⟨x', hx', -, B', hB', hal⟩ := hforth x hx B hB
      exact ⟨x', hx', B', hB', (hal.holds ω).trans hholds⟩
  · rw [mem_atRanks_proofsLineage_iff (fun x hx => (mem_rankedProofsOf.1 hx).1) h,
      mem_atRanks_proofsLineage_iff (fun x hx => (mem_rankedProofsOf.1 hx).1) h']
    refine or_congr (Lineage.Alike.falsity.support π) ⟨?_, ?_⟩
    · rintro ⟨x', hx', B', hB', hmem⟩
      obtain ⟨x, hx, heq, B, hB, hal⟩ := hback x' hx' B' hB'
      refine ⟨x, hx, B, hB, hmem.imp (hal.support π).1 ?_⟩
      rw [hal.isFalse_eq hr.nodup hr.nodup', heq]
      exact fun hcase => ⟨hcase.1, Proof.renamed_injective hcase.2⟩
    · rintro ⟨x, hx, B, hB, hmem⟩
      obtain ⟨x', hx', heq, B', hB', hal⟩ := hforth x hx B hB
      refine ⟨x', hx', B', hB', hmem.imp (hal.support π).2 ?_⟩
      rw [hal.isFalse_eq hr.nodup hr.nodup', heq]
      exact fun hcase => ⟨hcase.1, congrArg _ hcase.2⟩

theorem alike_factLineage (hfact : fact ∈ R)
    (hneg : ∀ q, q.positive ∈ R → ∀ M M', askNegated q = some M → askNegated' q = some M' →
      Lineage.Alike ρ s s' M M')
    (hs : ∀ q M, askNegated q = some M → M.Sound s)
    (hs' : ∀ q M, askNegated' q = some M → M.Sound s')
    (h : factLineage s (fun _ x => x) askNegated room path fact = some L)
    (h' : factLineage s' (fun _ x => x) askNegated' room path fact = some L') :
    Lineage.Alike ρ s s' L L' := by
  induction room generalizing path fact L L' with
  | zero =>
    cases h
    cases h'
    exact .falsity
  | succ room ih =>
    have hL := Lineage.keeps_sound.factLineage hs h
    have hL' := Lineage.keeps_sound.factLineage hs' h'
    rw [factLineage_succ] at h h'
    refine alike_proofsLineage hr hfact (fun q hq M M' hM hM' => ?_) h h' hL hL'
    cases hn : q.negated with
    | true =>
      rw [askBelow_of_negated hn] at hM hM'
      exact hneg q hq M M' hM hM'
    | false =>
      have hqR : q ∈ R := by rwa [Literal.positive_eq_self hn] at hq
      have hleft : q ∈ s'.unvisited (Sorted.insert fact path) ↔
          q ∈ s.unvisited (Sorted.insert fact path) := by
        rw [mem_unvisited, mem_unvisited, hr.proves_eq hqR]
      by_cases hc : q ∈ s.unvisited (Sorted.insert fact path)
      · rw [askBelow_of_mem_unvisited hn hc] at hM
        rw [askBelow_of_mem_unvisited hn (hleft.2 hc)] at hM'
        exact ih hqR hM hM'
      · rw [askBelow_of_not_mem_unvisited hn hc] at hM
        rw [askBelow_of_not_mem_unvisited hn (hleft.not.2 hc)] at hM'
        cases hM
        cases hM'
        exact .falsity

/-- **The lineages of a literal are alike.** -/
theorem alike_plainLineage (hl : l.positive ∈ R) (h : s.plainLineage n l = some L)
    (h' : s'.plainLineage n l = some L') : Lineage.Alike ρ s s' L L' := by
  induction n generalizing l L L' with
  | zero => cases h
  | succ n ih =>
    obtain ⟨M, hM, rfl⟩ := plainLineage_succ_eq_some_iff.1 h
    obtain ⟨M', hM', rfl⟩ := plainLineage_succ_eq_some_iff.1 h'
    rw [hr.proves_eq hl] at hM'
    have hal : Lineage.Alike ρ s s' M M' := by
      rcases hM with ⟨hc, hM⟩ | ⟨hc, rfl⟩ <;> rcases hM' with ⟨hc', hM'⟩ | ⟨hc', rfl⟩
      · have hneg : ∀ q, q.positive ∈ R → ∀ N N', s.plainLineage n q = some N →
            s'.plainLineage n q = some N' → Lineage.Alike ρ s s' N N' := fun q hq N N' => ih hq
        -- the sets may have different numbers of facts, but neither runs out of room
        have hroom : ∀ {t : ProofSet} {N : Lineage} {room : Nat}, t.proves l.positive = true →
            t.facts.length ≤ room → factLineage t (fun _ x => x) (t.plainLineage n) t.facts.length
              [] l.positive = some N →
            factLineage t (fun _ x => x) (t.plainLineage n) room [] l.positive = some N :=
          fun hp hle hN => by
            rwa [← factLineage_eq_of_room (mem_unvisited.2 ⟨hp, by simp⟩) card_unvisited_nil_le
              (card_unvisited_nil_le.trans hle)]
        refine alike_factLineage hr hl hneg (fun q N hN => Lineage.keeps_sound.plainLineage hN)
          (fun q N hN => Lineage.keeps_sound.plainLineage hN)
          (hroom hc (Nat.le_max_left _ s'.facts.length) hM)
          (hroom ?_ (Nat.le_max_right s.facts.length _) hM')
        rwa [hr.proves_eq hl]
      · simp [hc] at hc'
      · simp [hc] at hc'
      · exact .falsity
    split
    · exact hal.not
    · exact hal

theorem renamed_mem_support?_iff_of_renamesOn (hl : l.positive ∈ R) {t t' : ProofSet}
    (h : s.support? l = some t) (h' : s'.support? l = some t') (π : Proof) :
    π.renamed ρ ∈ t'.toList ↔ π ∈ t.toList := by
  obtain ⟨L, hL, -, hmem⟩ := exists_lineage_of_support? h
  obtain ⟨L', hL', -, hmem'⟩ := exists_lineage_of_support? h'
  obtain ⟨d, hd⟩ := plainLineage_of_lineage? hL
  obtain ⟨d', hd'⟩ := plainLineage_of_lineage? hL'
  -- the lineages were made with different depths, so both are read at the larger one
  have hal := alike_plainLineage hr hl (plainLineage_mono (Nat.le_max_left d d') hd)
    (plainLineage_mono (Nat.le_max_right d d') hd')
  rw [hmem, hmem', hal.support]

end Alike

/-- **A renamed proof is in the support of a literal where the proof is.** -/
theorem renamed_mem_support?_iff (hr : Renames ρ s s') {l : Literal} {t t' : ProofSet}
    (h : s.support? l = some t) (h' : s'.support? l = some t') (π : Proof) :
    π.renamed ρ ∈ t'.toList ↔ π ∈ t.toList :=
  renamed_mem_support?_iff_of_renamesOn hr.on_univ trivial h h' π

/-- Sets that have the same proofs for all facts that a literal may rest on have the same support of
the literal. -/
theorem support?_eq_of_renamesOn {R : Set Literal} (hr : RenamesOn (Equiv.refl _) R s s')
    {l : Literal} (hl : l.positive ∈ R) (hsorted : Sorted.IsSorted s.toList)
    (hsorted' : Sorted.IsSorted s'.toList) {t t' : ProofSet} (h : s.support? l = some t)
    (h' : s'.support? l = some t') : t = t' := by
  obtain ⟨-, -, hsub, -⟩ := exists_lineage_of_support? h
  obtain ⟨-, -, hsub', -⟩ := exists_lineage_of_support? h'
  have hs : Sorted.IsSorted t.toList := hsorted.sublist hsub
  have hs' : Sorted.IsSorted t'.toList := hsorted'.sublist hsub'
  refine eq_of_mem_iff hs hs' fun π => ?_
  exact (renamed_mem_support?_iff_of_renamesOn hr hl h h' π).symm

end Runs

end ProofSet

end ProbDatalog
