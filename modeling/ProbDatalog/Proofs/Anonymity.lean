import ProbDatalog.Proofs.Exactness
import ProbDatalog.Proofs.Renaming
import Mathlib.Logic.Equiv.Fintype

/-!
# The ids of clauses are not seen

Proofs that say the same differ in the ids of their clauses. Under other ids such twins may change
places, but the places that they take as a group stay, since ids are compared last. So without their
ids the proofs of a set stand in the same order as before, and what is computed from proofs reads
nothing else: lineages are the same to the last variable, and probabilities are computed by the same
operations on the same numbers, in whatever arithmetic. Which of the twins stands at a rank of the
support is another matter. That the support has both of them, or none, follows from the truth in
worlds, where twins take effect independently of each other.

* `Proof.anonymous`, `ProofSet.anonymous`: proofs without their ids.
* `ProofSet.lineage?_anonymous`: **lineages do not depend on ids.**
* `ProofSet.anonymous_renamed`: without ids, renamed proofs stand where the proofs stood.
* `ProofSet.support?_renamed`: the support of renamed proofs.
* `ProofSet.exists_renamed_eq`: ids that stay apart are renamed by a permutation.
* `ProofSet.clause_ids_unseen`: **nothing that is computed depends on ids.**
-/

namespace ProbDatalog

open Sorted

/-! ## Proofs without ids -/

namespace Proof

variable {π π' : Proof} {ρ : Equiv.Perm ClauseId}

/-- What the proof says. -/
def anonymous (π : Proof) : Proof := { π with clause := ⟨0⟩ }

@[simp] theorem anonymous_head : π.anonymous.head = π.head := rfl

@[simp] theorem anonymous_body : π.anonymous.body = π.body := rfl

@[simp] theorem anonymous_probability : π.anonymous.probability = π.probability := rfl

@[simp] theorem anonymous_isProbabilistic : π.anonymous.isProbabilistic = π.isProbabilistic := rfl

@[simp] theorem anonymous_renamed : (π.renamed ρ).anonymous = π.anonymous := rfl

/-- Ids are compared last. -/
theorem isLE_anonymous (h : compare π π' = .lt) :
    (compare π.anonymous π'.anonymous).isLE = true := by
  have hlast : ∀ a b c d : Ordering, a.then (b.then (c.then d)) = .lt →
      (a.then (b.then (c.then .eq))).isLE = true := by decide
  have hrefl : compare π.anonymous.clause π'.anonymous.clause = .eq := Std.ReflOrd.compare_self
  have hunfold : compare π.anonymous π'.anonymous = (compare π.head π'.head).then
      ((compare π.body π'.body).then ((compare π.probability π'.probability).then .eq)) := by
    rw [← hrefl]
    rfl
  rw [hunfold]
  exact hlast _ _ _ _ h

end Proof

namespace ProofSet

variable {s t : ProofSet} {l fact : Literal} {ρ : Equiv.Perm ClauseId}

/-- What the proofs say, in their order. -/
def anonymous (s : ProofSet) : ProofSet := ⟨s.toList.map Proof.anonymous⟩

theorem facts_anonymous (s : ProofSet) : s.anonymous.facts = s.facts := by
  unfold facts anonymous
  rw [List.map_map]
  rfl

theorem proves_anonymous (s : ProofSet) (fact : Literal) :
    s.anonymous.proves fact = s.proves fact := by
  unfold proves anonymous
  rw [List.any_map]
  rfl

theorem rankedProofsOf_anonymous (s : ProofSet) (fact : Literal) :
    s.anonymous.rankedProofsOf fact =
      (s.rankedProofsOf fact).map (Prod.map id Proof.anonymous) := by
  unfold rankedProofsOf anonymous
  rw [List.zipIdx_map, List.filter_map, List.map_map, List.map_map]
  rfl

/-! ## What is computed from them -/

section Runs

variable {m : Type → Type} [Monad m] {keep : Goal → m Lineage → m Lineage} {halt : m Lineage}

theorem proofsLineage_anonymous (ask : Literal → m Lineage) (start : Lineage)
    (ranked : List (Nat × Proof)) :
    proofsLineage ask start (ranked.map (Prod.map id Proof.anonymous)) =
      proofsLineage ask start ranked := by
  induction ranked generalizing start with
  | nil => rfl
  | cons x rest ih =>
    obtain ⟨i, π⟩ := x
    rw [List.map_cons, Prod.map_apply, proofsLineage_cons, proofsLineage_cons]
    refine congrArg _ (funext fun body => ?_)
    exact ih _

theorem factLineage_anonymous (askNegated : Literal → m Lineage) (room : Nat)
    (path : List Literal) (fact : Literal) :
    factLineage s.anonymous keep askNegated room path fact =
      factLineage s keep askNegated room path fact := by
  induction room generalizing path fact with
  | zero => rfl
  | succ room ih =>
    rw [factLineage_succ, factLineage_succ, rankedProofsOf_anonymous, proofsLineage_anonymous]
    have hask : s.anonymous.askBelow keep askNegated room (Sorted.insert fact path) =
        s.askBelow keep askNegated room (Sorted.insert fact path) := by
      funext q
      unfold askBelow
      rw [ih, proves_anonymous]
    rw [hask]

theorem literalLineage_anonymous (room depth : Nat) (l : Literal) :
    literalLineage s.anonymous keep halt room depth l =
      literalLineage s keep halt room depth l := by
  induction depth generalizing l with
  | zero => rfl
  | succ depth ih =>
    rw [literalLineage_succ, literalLineage_succ, proves_anonymous, factLineage_anonymous,
      funext ih]

end Runs

/-- **Lineages do not depend on ids.** -/
theorem lineage?_anonymous (s : ProofSet) (l : Literal) :
    s.anonymous.lineage? l = s.lineage? l := by
  unfold lineage?
  rw [facts_anonymous]
  exact congrArg Remember.fresh (literalLineage_anonymous _ _ l)

theorem weights_anonymous (α : Type) [Weight α] (s : ProofSet) (ranks : List Nat) :
    s.anonymous.weights α ranks = s.weights α ranks := by
  unfold weights anonymous
  simp [Function.comp_def]

theorem probability?_anonymous (α : Type) [Weight α] (s : ProofSet) (l : Literal) :
    s.anonymous.probability? α l = s.probability? α l := by
  unfold probability?
  simp only [lineage?_anonymous, weights_anonymous]

theorem isCertain?_anonymous (s : ProofSet) (l : Literal) :
    s.anonymous.isCertain? l = s.isCertain? l := by
  unfold isCertain?
  rw [lineage?_anonymous]

/-! ## Renamed proofs -/

theorem isLE_anonymous (hs : IsSorted s.toList) :
    s.anonymous.toList.Pairwise fun a b => (compare a b).isLE = true :=
  List.pairwise_map.2 (hs.imp Proof.isLE_anonymous)

theorem renames (hs : IsSorted s.toList) : Renames ρ s (s.renamed ρ) where
  nodup := hs.nodup
  nodup' := isSorted_renamed.nodup
  mem_iff π := by
    rw [mem_renamed]
    exact ⟨fun ⟨π', hπ', heq⟩ => Proof.renamed_injective heq ▸ hπ', fun hπ => ⟨π, hπ, rfl⟩⟩

/-- **Without ids, renamed proofs stand where the proofs stood.** -/
theorem anonymous_renamed (hs : IsSorted s.toList) : (s.renamed ρ).anonymous = s.anonymous := by
  -- the proofs are the same up to their order, and without ids they ascend in both sets
  have hperm : (s.renamed ρ).toList.Perm (s.toList.map (Proof.renamed ρ)) :=
    (List.perm_ext_iff_of_nodup isSorted_renamed.nodup
      (hs.nodup.map Proof.renamed_injective)).2 fun π => by rw [mem_renamed, List.mem_map]
  have hperm' : (s.renamed ρ).anonymous.toList.Perm s.anonymous.toList := by
    have := hperm.map Proof.anonymous
    rwa [List.map_map] at this
  refine congrArg ProofSet.mk (List.Perm.eq_of_pairwise ?_ (isLE_anonymous isSorted_renamed)
    (isLE_anonymous hs) hperm')
  exact fun a b _ _ hab hba =>
    Std.LawfulEqOrd.eq_of_compare (Std.OrientedCmp.isLE_antisymm hab hba)

/-- The support of renamed proofs is the support of the proofs, renamed. -/
theorem support?_renamed (hs : IsSorted s.toList) (h : s.support? l = some t) :
    (s.renamed ρ).support? l = some (t.renamed ρ) := by
  have hlineage : (s.renamed ρ).lineage? l = s.lineage? l := by
    rw [← lineage?_anonymous, anonymous_renamed hs, lineage?_anonymous]
  obtain ⟨L, hL, -⟩ := exists_lineage_of_support? h
  obtain ⟨t', ht'⟩ : ∃ t', (s.renamed ρ).support? l = some t' := by
    simp [support?, hlineage, hL]
  obtain ⟨-, -, hsub, -⟩ := exists_lineage_of_support? ht'
  rw [ht', eq_renamed_of_mem_iff (isSorted_renamed.sublist hsub)
    (renamed_mem_support?_iff (renames hs) h ht')]

/-! ## Other ids -/

variable (s) in
/-- The ids of the clauses. -/
def clauseIds : Set ClauseId := {id | ∃ π ∈ s.toList, π.clause = id}

/-- The proofs with other ids of their clauses. -/
def relabel (r : ClauseId → ClauseId) (s : ProofSet) : ProofSet :=
  .ofList (s.toList.map fun π => { π with clause := r π.clause })

theorem relabel_eq_renamed {r : ClauseId → ClauseId} (h : ∀ id ∈ s.clauseIds, ρ id = r id) :
    s.relabel r = s.renamed ρ := by
  refine congrArg ofList (List.map_congr_left fun π hπ => ?_)
  rw [Proof.renamed, h _ ⟨π, hπ, rfl⟩]

/-- **Ids that stay apart are renamed by a permutation.** -/
theorem exists_renamed_eq {r : ClauseId → ClauseId} (hr : Set.InjOn r s.clauseIds) :
    ∃ ρ : Equiv.Perm ClauseId, ∀ id ∈ s.clauseIds, ρ id = r id := by
  have hfinite : s.clauseIds.Finite :=
    (s.toList.map Proof.clause).finite_toSet.subset fun id hid => by
      obtain ⟨π, hπ, rfl⟩ := hid
      exact List.mem_map_of_mem hπ
  have := hfinite.to_subtype
  obtain ⟨ρ, hρ⟩ := Equiv.Perm.exists_extending_pair (fun id : s.clauseIds => (id : ClauseId))
    (fun id => r id) Subtype.val_injective (Set.injOn_iff_injective.1 hr)
  exact ⟨ρ, fun id hid => hρ ⟨id, hid⟩⟩

/-- **Nothing that is computed depends on the ids of clauses**, as long as these stay apart. Where
no fact rests on its own negation, renaming ids leaves the lineage of every literal as it is, and
with it the formula, the order of its variables and their weights. So it is as certain as before,
and its probability is computed by the same operations on the same numbers; this is said of all
arithmetics, among them doubles and the one that records its operations. The support is the same up
to the ids. -/
theorem clause_ids_unseen (hsorted : IsSorted s.toList) (hs : s.dependencies.Stratified)
    {r : ClauseId → ClauseId} (hr : Set.InjOn r s.clauseIds) (l : Literal) :
    ∃ L t, s.lineage? l = some L ∧ (s.relabel r).lineage? l = some L ∧
      (∀ α [Weight α], (s.relabel r).weights α L.met = s.weights α L.met ∧
        (s.relabel r).probability? α l = s.probability? α l) ∧
      (s.relabel r).isCertain? l = s.isCertain? l ∧
      s.support? l = some t ∧ (s.relabel r).support? l = some (t.relabel r) := by
  obtain ⟨ρ, hρ⟩ := exists_renamed_eq hr
  obtain ⟨L, hL⟩ := exists_lineage? hs l
  obtain ⟨t, ht⟩ := exists_support? hs l
  obtain ⟨-, -, hsub, -⟩ := exists_lineage_of_support? ht
  have hids : ∀ id ∈ t.clauseIds, ρ id = r id := fun id ⟨π, hπ, hid⟩ =>
    hρ id ⟨π, hsub.subset hπ, hid⟩
  have hanonymous : (s.relabel r).anonymous = s.anonymous := by
    rw [relabel_eq_renamed hρ, anonymous_renamed hsorted]
  refine ⟨L, t, hL, ?_, fun α _ => ⟨?_, ?_⟩, ?_, ht, ?_⟩
  · rw [← lineage?_anonymous, hanonymous, lineage?_anonymous, hL]
  · rw [← weights_anonymous, hanonymous, weights_anonymous]
  · rw [← probability?_anonymous, hanonymous, probability?_anonymous]
  · rw [← isCertain?_anonymous, hanonymous, isCertain?_anonymous]
  · rw [relabel_eq_renamed hρ, relabel_eq_renamed hids, support?_renamed hsorted ht]

end ProofSet

end ProbDatalog

/-! ## Twins -/

namespace ProbDatalog.Twins

open Rumours (say quarter)

/-- What is done to compute a probability. -/
inductive Computation where
  | zero
  | one
  | value (p : Probability)
  | add (x y : Computation)
  | sub (x y : Computation)
  | mul (x y : Computation)
  | clamp (x : Computation)
  deriving DecidableEq

/-- The arithmetic that records its operations. -/
instance : Weight Computation where
  add := .add
  sub := .sub
  mul := .mul
  zero := .zero
  one := .one
  ofProbability := .value
  clamp := .clamp

/-- There is a signal if one of two senders that are alike sends it and is heard. -/
def signals : ProofSet :=
  .ofList [⟨say "sent", [], quarter, ⟨0⟩⟩, ⟨say "sent", [], quarter, ⟨1⟩⟩,
    ⟨say "noise", [], quarter, ⟨2⟩⟩,
    ⟨say "heard", [.relational (say "sent"), .relational (say "noise").negate], .certain, ⟨3⟩⟩]

/-- Ids from nine downwards. -/
def downwards (id : ClauseId) : ClauseId := ⟨9 - id.index⟩

/-- The senders change places, and the signal is as probable, by the same operations. -/
theorem signal_unseen : Sorted.IsSorted signals.toList ∧ signals.dependencies.Stratified ∧
    Set.InjOn downwards signals.clauseIds ∧
    (signals.relabel downwards).proofsOf (say "sent") =
      [⟨say "sent", [], quarter, ⟨8⟩⟩, ⟨say "sent", [], quarter, ⟨9⟩⟩] ∧
    (signals.relabel downwards).probability? Computation (say "heard").negate =
      signals.probability? Computation (say "heard").negate ∧
    ∃ t, signals.support? (say "heard").negate = some t ∧
      (signals.relabel downwards).support? (say "heard").negate = some (t.relabel downwards) := by
  have hsorted : Sorted.IsSorted signals.toList :=
    ProofSet.isSorted_insertAll Sorted.isSorted_nil _
  have hs : signals.dependencies.Stratified :=
    ProofSet.stratified_of_rank (fun f => if f.predicate = "heard" then 1 else 0)
      (by decide +kernel)
  have hr : Set.InjOn downwards signals.clauseIds := by
    have hle : ∀ π ∈ signals.toList, π.clause.index ≤ 9 := by decide +kernel
    rintro _ ⟨π, hπ, rfl⟩ _ ⟨π', hπ', rfl⟩ heq
    have heq' := congrArg ClauseId.index heq
    have h := hle π hπ
    have h' := hle π' hπ'
    have : π.clause.index = π'.clause.index := by
      simp only [downwards] at heq'
      omega
    exact congrArg ClauseId.mk this
  obtain ⟨L, t, -, -, hweights, -, ht, ht'⟩ :=
    ProofSet.clause_ids_unseen hsorted hs hr (say "heard").negate
  exact ⟨hsorted, hs, hr, by decide +kernel, (hweights Computation).2, t, ht, ht'⟩

end ProbDatalog.Twins
