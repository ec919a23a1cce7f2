import ProbDatalog.Proofs.Lineages

/-!
# The support of a lineage

Only the proofs in the support of a literal matter for its truth. A proof is left out if a premise
of it is impossible wherever the lineage has come to it, so no derivation without detours uses it;
and where a proof is kept, so is everything that its negated premises rest on.

* `Closed`: sets of proofs that hold the supports of their negated premises.
* `closed_support`: the support of a lineage is closed.
* `straight_support`: derivations without detours use proofs of the support.
* `mem_iff_of_support`: **the truth of a literal depends on its support alone.**
-/

namespace ProbDatalog

namespace Lineage

variable {l m : Lineage} {i rank : Nat}

theorem mem_support_and : i ∈ (l.and m).support ↔ i ∈ l.support ∨ i ∈ m.support := by
  simp [Lineage.and, meeting, Sorted.mem_union]

theorem mem_support_orProof : i ∈ (l.orProof rank m).support ↔
    (i ∈ l.support ∨ i ∈ m.support) ∨ (m.formula.isFalse = false ∧ i = rank) := by
  unfold orProof
  dsimp only
  split
  next h => simp [meeting, Sorted.mem_union, h]
  next h => simp [meeting, Sorted.mem_union, Sorted.mem_insert, h, or_comm]

end Lineage

namespace ProofSet

variable {s : ProofSet} {ω : World} {fact : Literal} {l : Literal} {n room : Nat}
variable {ask : Literal → Option Lineage} {start L : Lineage} {body : List Premise}
variable {ranked : List (Nat × Proof)} {path : List Literal} {S : Set Nat}

/-! ## What supports hold -/

theorem support_premisesLineage (h : premisesLineage ask start body = some L) :
    (∀ i ∈ start.support, i ∈ L.support) ∧ (L.formula.isFalse = false →
      ∀ q, .relational q ∈ body → ∃ M, ask q = some M ∧ ∀ i ∈ M.support, i ∈ L.support) := by
  induction body generalizing start with
  | nil =>
    cases h
    exact ⟨fun _ hi => hi, by simp⟩
  | cons p rest ih =>
    cases p with
    | evaluable _ =>
      obtain ⟨hstart, hrest⟩ := ih h
      exact ⟨hstart, fun hf q hq => hrest hf q (by simpa using hq)⟩
    | relational q =>
      obtain ⟨M, hM, ⟨hfalse, rfl⟩ | ⟨-, h⟩⟩ := premisesLineage_relational h
      · refine ⟨fun i hi => Lineage.mem_support_and.2 (.inl hi), fun hf => ?_⟩
        rw [hfalse] at hf
        cases hf
      · obtain ⟨hstart, hrest⟩ := ih h
        refine ⟨fun i hi => hstart i (Lineage.mem_support_and.2 (.inl hi)), fun hf q' hq' => ?_⟩
        rcases List.mem_cons.1 hq' with heq | hq'
        · cases heq
          exact ⟨M, hM, fun i hi => hstart i (Lineage.mem_support_and.2 (.inr hi))⟩
        · exact hrest hf q' hq'

theorem support_proofsLineage (h : proofsLineage ask start ranked = some L) :
    (∀ i ∈ start.support, i ∈ L.support) ∧ ∀ x ∈ ranked, ∃ B,
      premisesLineage ask (startLineage x.1 x.2) x.2.body = some B ∧
        (∀ i ∈ B.support, i ∈ L.support) ∧ (B.formula.isFalse = false → x.1 ∈ L.support) := by
  induction ranked generalizing start with
  | nil =>
    cases h
    exact ⟨fun _ hi => hi, by simp⟩
  | cons x rest ih =>
    obtain ⟨i, π⟩ := x
    obtain ⟨B, hB, h⟩ := proofsLineage_cons_eq_some_iff.1 h
    obtain ⟨hstart, hrest⟩ := ih h
    refine ⟨fun j hj => hstart j (Lineage.mem_support_orProof.2 (.inl (.inl hj))), fun y hy => ?_⟩
    rcases List.mem_cons.1 hy with rfl | hy
    · refine ⟨B, hB, fun j hj => ?_, fun hf => ?_⟩
      · exact hstart j (Lineage.mem_support_orProof.2 (.inl (.inr hj)))
      · exact hstart i (Lineage.mem_support_orProof.2 (.inr ⟨hf, rfl⟩))
    · exact hrest y hy

/-! ## Closed sets -/

variable (s) in
/-- Sets of ranks that hold the supports of the negated premises of their proofs. -/
def Closed (S : Set Nat) : Prop :=
  ∀ i ∈ S, ∀ π, s.toList[i]? = some π → ∀ q, .relational q ∈ π.body → q.negated = true →
    ∃ d M, s.plainLineage d q = some M ∧ ∀ j ∈ M.support, j ∈ S

/-- The support of a lineage as a set. -/
def supportOf (L : Lineage) : Set Nat := {i | i ∈ L.support}

theorem closed_empty : s.Closed ∅ := fun _ hi => hi.elim

theorem closed_falsity : s.Closed (supportOf .falsity) := fun _ hi => by
  simp [supportOf, Lineage.falsity] at hi

theorem Closed.union {S T : Set Nat} (hS : s.Closed S) (hT : s.Closed T) : s.Closed (S ∪ T) := by
  rintro i (hi | hi) π hπ q hq hn
  · obtain ⟨d, M, hM, hsub⟩ := hS i hi π hπ q hq hn
    exact ⟨d, M, hM, fun j hj => .inl (hsub j hj)⟩
  · obtain ⟨d, M, hM, hsub⟩ := hT i hi π hπ q hq hn
    exact ⟨d, M, hM, fun j hj => .inr (hsub j hj)⟩

theorem supportOf_and (l m : Lineage) : supportOf (l.and m) = supportOf l ∪ supportOf m := by
  ext i
  exact Lineage.mem_support_and

theorem closed_premisesLineage (hask : ∀ q M, ask q = some M → s.Closed (supportOf M))
    (hs : s.Closed (supportOf start)) (h : premisesLineage ask start body = some L) :
    s.Closed (supportOf L) := by
  induction body generalizing start with
  | nil =>
    cases h
    exact hs
  | cons p rest ih =>
    cases p with
    | evaluable _ => exact ih hs h
    | relational q =>
      obtain ⟨M, hM, h⟩ := premisesLineage_relational h
      have hand : s.Closed (supportOf (start.and M)) :=
        supportOf_and start M ▸ hs.union (hask q M hM)
      rcases h with ⟨-, rfl⟩ | ⟨-, h⟩
      · exact hand
      · exact ih hand h

theorem supportOf_startLineage (i : Nat) (π : Proof) : supportOf (startLineage i π) = ∅ := by
  unfold startLineage
  split <;> simp [supportOf, Lineage.ofVariable, Lineage.truth]

theorem closed_startLineage (i : Nat) (π : Proof) : s.Closed (supportOf (startLineage i π)) := by
  rw [supportOf_startLineage]
  exact closed_empty

/-- Adding a proof keeps a set closed, as what its negated premises rest on is added before. -/
theorem closed_proofsLineage (hask : ∀ q M, ask q = some M → s.Closed (supportOf M))
    (hneg : ∀ q M, q.negated = true → ask q = some M → ∃ d, s.plainLineage d q = some M)
    (hranked : ∀ x ∈ ranked, s.toList[x.1]? = some x.2) (hs : s.Closed (supportOf start))
    (h : proofsLineage ask start ranked = some L) : s.Closed (supportOf L) := by
  induction ranked generalizing start with
  | nil =>
    cases h
    exact hs
  | cons x rest ih =>
    obtain ⟨i, π⟩ := x
    obtain ⟨B, hB, h⟩ := proofsLineage_cons_eq_some_iff.1 h
    refine ih (fun y hy => hranked y (List.mem_cons_of_mem _ hy)) ?_ h
    have hboth := hs.union (closed_premisesLineage hask (closed_startLineage i π) hB)
    rintro j hj ρ hρ q hq hn
    rcases Lineage.mem_support_orProof.1 hj with hj | ⟨hf, rfl⟩
    · obtain ⟨d, M, hM, hsub⟩ := hboth j hj ρ hρ q hq hn
      exact ⟨d, M, hM, fun k hk => Lineage.mem_support_orProof.2 (.inl (hsub k hk))⟩
    · -- the premises of the new proof have all been asked for
      have hπ : s.toList[j]? = some π := hranked _ List.mem_cons_self
      obtain rfl : π = ρ := Option.some.inj (hπ.symm.trans hρ)
      obtain ⟨M, hM, hsub⟩ := (support_premisesLineage hB).2 hf q hq
      obtain ⟨d, hd⟩ := hneg q M hn hM
      exact ⟨d, M, hd, fun k hk => Lineage.mem_support_orProof.2 (.inl (.inr (hsub k hk)))⟩

theorem closed_factLineage (hclosed : ∀ q M, s.plainLineage n q = some M → s.Closed (supportOf M))
    (h : factLineage s (fun _ x => x) (s.plainLineage n) room path fact = some L) :
    s.Closed (supportOf L) := by
  induction room generalizing path fact L with
  | zero =>
    cases h
    exact closed_falsity
  | succ room ih =>
    rw [factLineage_succ] at h
    refine closed_proofsLineage (fun q M hM => ?_) (fun q M hn hM => ⟨n, ?_⟩)
      (fun x hx => (mem_rankedProofsOf.1 hx).1) closed_falsity h
    · rcases askBelow_eq_some_iff.1 hM with ⟨-, hM⟩ | ⟨-, ⟨-, hM⟩ | ⟨-, rfl⟩⟩
      · exact hclosed q M hM
      · exact ih hM
      · exact closed_falsity
    · rwa [askBelow_of_negated hn] at hM

/-- **The support of a lineage is closed.** -/
theorem closed_support (h : s.plainLineage n l = some L) : s.Closed (supportOf L) := by
  induction n generalizing l L with
  | zero => cases h
  | succ n ih =>
    obtain ⟨M, hM, rfl⟩ := plainLineage_succ_eq_some_iff.1 h
    have hsup : supportOf (if l.negated then M.not else M) = supportOf M := by split <;> rfl
    rw [hsup]
    rcases hM with ⟨-, hM⟩ | ⟨-, rfl⟩
    · exact closed_factLineage (fun q N hN => ih hN) hM
    · exact closed_falsity

/-! ## Derivations in the support -/

variable (s) in
/-- The proofs with ranks in a set that take effect in a world. -/
def activeIn (S : Set Nat) (ω : World) : Set Proof :=
  {π | ∃ i ∈ S, s.toList[i]? = some π ∧ (π.isProbabilistic = true → ω π = true)}

/-- A proof that takes effect on premises that hold has a lineage that is possible. -/
theorem isFalse_premisesLineage {assignment : Nat → Bool} {value : Literal → Prop} {i : Nat}
    {π : Proof} (hask : Tells ask assignment value)
    (h : premisesLineage ask (startLineage i π) π.body = some L)
    (hact : π.isProbabilistic = true → assignment i = true)
    (hbody : ∀ q, .relational q ∈ π.body → value q) : L.formula.isFalse = false := by
  obtain ⟨hsp, hsv⟩ := holds_startLineage i π
  have hholds := (holds_premisesLineage hask hsp h).2.2 ⟨hsv.2 hact, hbody⟩
  rw [Bool.eq_false_iff]
  intro hf
  rw [Formula.holds_of_isFalse hf] at hholds
  cases hholds

/-- **Derivations without detours use proofs of the support.** -/
theorem straight_support (admits admits' : Literal → Prop) {askNegated : Literal → Option Lineage}
    (hask : ∀ q M, q.negated = true → askNegated q = some M →
      M.formula.Proper ∧ (M.formula.holds (s.assignment ω) = true ↔ admits q.positive))
    (hadmits : ∀ q M, q.negated = true → s.dependencies.MeetsNegation fact q.positive →
      askNegated q = some M → (∀ i ∈ M.support, i ∈ S) → admits q.positive → admits' q.positive)
    (h : factLineage s (fun _ x => x) askNegated room path fact = some L)
    (hsub : ∀ i ∈ L.support, i ∈ S)
    (hstraight : Straight (s.active ω) admits room {f | f ∈ path} fact) :
    Straight (s.activeIn S ω) admits' room {f | f ∈ path} fact := by
  induction room generalizing path fact L with
  | zero => exact hstraight.elim
  | succ room ih =>
    rw [factLineage_succ] at h
    obtain ⟨⟨i, π⟩, hmem, hact, hbody⟩ := straight_succ_iff.1 hstraight
    rw [← setOf_mem_insert] at hbody
    obtain ⟨hi, rfl⟩ := mem_rankedProofsOf.1 hmem
    have hπ : π ∈ s.toList := List.mem_of_getElem? hi
    obtain ⟨B, hB, hBsub, hBi⟩ := (support_proofsLineage h).2 _ hmem
    have hBf : B.formula.isFalse = false :=
      isFalse_premisesLineage (tells_askBelow hask fun _ _ => holds_factLineage _ hask) hB hact
        hbody
    have hasked : ∀ q, .relational q ∈ π.body → ∃ M,
        s.askBelow (fun _ x => x) askNegated room (Sorted.insert π.head path) q = some M ∧
          ∀ j ∈ M.support, j ∈ S := by
      intro q hq
      obtain ⟨M, hM, hMsub⟩ := (support_premisesLineage hB).2 hBf q hq
      exact ⟨M, hM, fun j hj => hsub j (hBsub j (hMsub j hj))⟩
    rw [assignment_of_getElem? hi] at hact
    refine ⟨π, ⟨i, hsub i (hBi hBf), hi, hact⟩, rfl, fun q hq hn => ?_, fun q hq hn => ?_⟩
    · obtain ⟨M, hM, hMsub⟩ := hasked q hq
      have hqb := hbody q hq
      rw [HoldsBelow, if_neg (by simp [hn])] at hqb
      rw [← setOf_mem_insert]
      refine ⟨hqb.1, ?_⟩
      have hrest : s.dependencies.rests π.head q :=
        ⟨π, hπ, rfl, q, hq, Literal.positive_eq_self hn⟩
      have hleft := mem_unvisited.2 ⟨proves_of_straight hqb.2, hqb.1⟩
      rw [askBelow_of_mem_unvisited hn hleft] at hM
      exact ih (fun q' M' hn' hmeet => hadmits q' M' hn' (hmeet.of_rests hrest)) hM hMsub hqb.2
    · obtain ⟨M, hM, hMsub⟩ := hasked q hq
      have hqb := hbody q hq
      rw [HoldsBelow, if_pos hn] at hqb
      rw [askBelow_of_negated hn] at hM
      exact hadmits q M hn (.of_negates ⟨π, hπ, rfl, q, hq, hn, rfl⟩) hM hMsub hqb

/-! ## Truth -/

section Truth

variable {T T' : Set Literal} (hT : T = consequences (s.active ω) fun b => b ∉ T)
variable (hT' : T' = consequences (s.activeIn S ω) fun b => b ∉ T')

include hT hT'

/-- What follows from a closed set of proofs holds, if this is so of what holds in lower strata. -/
theorem mem_of_support (hS : s.Closed S) (hn : s.dependencies.Within (n + 1) fact)
    (hlower : ∀ d l L, s.dependencies.Within n l.positive → s.plainLineage d l = some L →
      (∀ i ∈ L.support, i ∈ S) → l.positive ∈ T → l.positive ∈ T')
    (hf : fact ∈ T') : fact ∈ T := by
  rw [hT'] at hf
  induction hf with
  | @rule π hπ _ hneg ih =>
    obtain ⟨i, hi, hget, hact⟩ := hπ
    have hmem : π ∈ s.toList := List.mem_of_getElem? hget
    rw [hT]
    refine .rule ⟨hmem, hact⟩ (fun q hq hqn => ?_) fun q hq hqn hqT => ?_
    · have hw : s.dependencies.Within (n + 1) q :=
        hn.of_rests ⟨π, hmem, rfl, q, hq, Literal.positive_eq_self hqn⟩
      have hq' : q ∈ T := ih q hq hqn hw
      rwa [hT] at hq'
    · have hw : s.dependencies.Within n q.positive := hn.of_negates ⟨π, hmem, rfl, q, hq, hqn, rfl⟩
      obtain ⟨d, M, hM, hsub⟩ := hS i hi π hget q hq hqn
      exact hneg q hq hqn (hlower d q M hw hM hsub hqT)

/-- What holds follows from its support, if what follows in lower strata holds. -/
theorem mem_support_of_mem {d : Nat}
    (hlower : ∀ b, s.dependencies.MeetsNegation l.positive b → b ∈ T' → b ∈ T)
    (hL : s.plainLineage d l = some L) (hsub : ∀ i ∈ L.support, i ∈ S) (hf : l.positive ∈ T) :
    l.positive ∈ T' := by
  cases d with
  | zero => cases hL
  | succ d =>
    have hf' : l.positive ∈ consequences (s.active ω) fun b => b ∉ T := hT ▸ hf
    obtain ⟨M, ⟨-, hM⟩ | ⟨hp, -⟩, rfl⟩ := plainLineage_succ_eq_some_iff.1 hL
    rotate_left
    · simp [proves_of_mem_consequences hf'] at hp
    have hMsub : ∀ i ∈ M.support, i ∈ S := by
      intro i hi
      refine hsub i ?_
      split <;> exact hi
    rw [← straight_iff (fun π hπ => mem_facts_iff.2 ⟨π, hπ.1, rfl⟩) (Nat.le_refl _)] at hf'
    rw [← setOf_mem_nil] at hf'
    have hstraight := straight_support (S := S) (fun b => b ∉ T) (fun b => b ∉ T')
      (fun q N hqn hN => by simpa [hqn] using holds_plainLineage hT hN)
      (fun q N _ hmeet hN hNsub hqT hqT' => hqT (hlower q.positive hmeet hqT'))
      hM hMsub hf'
    rw [hT']
    exact hstraight.mem_consequences

/-- What follows from a closed set of proofs holds, and what holds follows from its support. -/
theorem truth_of_support (hS : s.Closed S) (hn : s.dependencies.Within n fact) :
    (fact ∈ T' → fact ∈ T) ∧ ∀ d l L, l.positive = fact → s.plainLineage d l = some L →
      (∀ i ∈ L.support, i ∈ S) → fact ∈ T → fact ∈ T' := by
  induction n generalizing fact with
  | zero => exact hn.elim
  | succ n ih =>
    constructor
    · exact mem_of_support hT hT' hS hn fun d l L hw hL hsub => (ih hw).2 d l L rfl hL hsub
    · rintro d l L rfl hL hsub hf
      exact mem_support_of_mem hT hT' (fun b hmeet => (ih (hn b hmeet)).1) hL hsub hf

/-- **The truth of a literal depends on its support alone**, among the proofs of a closed set. -/
theorem mem_iff_of_support (hS : s.Closed S) {d : Nat} (hn : s.dependencies.Within n l.positive)
    (hL : s.plainLineage d l = some L) (hsub : ∀ i ∈ L.support, i ∈ S) :
    l.positive ∈ T' ↔ l.positive ∈ T :=
  ⟨(truth_of_support hT hT' hS hn).1, (truth_of_support hT hT' hS hn).2 d l L rfl hL hsub⟩

end Truth

end ProofSet

end ProbDatalog
