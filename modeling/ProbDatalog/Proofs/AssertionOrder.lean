import ProbDatalog.Proofs.Acceptance
import ProbDatalog.Proofs.Renumbering
import ProbDatalog.Proofs.Stratification

/-!
# The order of assertion

Clauses can be asserted one after the other if each of them is well formed and all of them together
use every predicate name with one arity, which does not depend on their order. Neither does what
queries yield, up to the ids of the clauses.

* `assertion_order`: **the order of assertion does not matter.**
-/

namespace ProbDatalog

/-! ## What queries yield -/

section Permuted

open Searching

variable {cs cs' : List Clause} {ρ : Equiv.Perm ClauseId}

/-- Lists that have the same clauses at corresponding places have the same members. -/
theorem mem_iff_of_permuted (hρ : ∀ id, cs'[(ρ id).index]? = cs[id.index]?) {c : Clause} :
    c ∈ cs' ↔ c ∈ cs := by
  constructor
  · intro h
    obtain ⟨i, hi⟩ := List.getElem?_of_mem h
    refine List.mem_of_getElem? (i := (ρ.symm ⟨i⟩).index) ?_
    rw [← hρ, Equiv.apply_symm_apply, hi]
  · intro h
    obtain ⟨i, hi⟩ := List.getElem?_of_mem h
    exact List.mem_of_getElem? ((hρ ⟨i⟩).trans hi)

/-- Clauses can be asserted in one order if they can be in another one. -/
theorem exists_assertAll_of_permuted (hρ : ∀ id, cs'[(ρ id).index]? = cs[id.index]?) :
    (∃ ids, (Program.empty.assertAll cs).1 = .ok ids) ↔
      ∃ ids, (Program.empty.assertAll cs').1 = .ok ids := by
  have hknows : Knows Program.empty.arities [] := by simp [Knows, Program.empty]
  have hlit : ∀ l, l ∈ Program.literals cs' ↔ l ∈ Program.literals cs := fun l => by
    simp only [Program.literals, List.mem_flatMap, mem_iff_of_permuted hρ]
  -- the condition for the clauses speaks of their members only
  rw [Program.exists_assertAll_iff hknows, Program.exists_assertAll_iff hknows]
  simp only [Uniform, List.nil_append, hlit, mem_iff_of_permuted hρ]

/-- The theory of clauses that have been asserted. -/
theorem plain_of_assertAll {registry : Registry} {mode : Mode} {p : Program} {ids : List ClauseId}
    (hcs : ∀ c ∈ cs, ∀ l ∈ c.head :: c.body,
      (∀ v ∈ l.vars, v.scope = 0) ∧ registry.contains l.predicate = false)
    (h : Program.empty.assertAll cs = (.ok ids, p)) : Theory.Plain ⟨p, registry, mode⟩ := by
  have hp : p.Asserted := by
    have := Program.Asserted.assertAll .empty cs
    rwa [h] at this
  refine .of_forall_clauses hp ?_
  rw [Program.clauses_of_assertAll h]
  simpa [Program.empty] using hcs

/-- **The order of assertion does not matter.** Clauses can be asserted in one order if they can be
in the other one. What queries yield, if they succeed for both orders, are the same answers, and the
same proofs up to the ids of the clauses. -/
theorem assertion_order {registry : Registry}
    (hρ : ∀ id, cs'[(ρ id).index]? = cs[id.index]?)
    (hcs : ∀ c ∈ cs, ∀ l ∈ c.head :: c.body,
      (∀ v ∈ l.vars, v.scope = 0) ∧ registry.contains l.predicate = false) :
    ((∃ ids, (Program.empty.assertAll cs).1 = .ok ids) ↔
      ∃ ids, (Program.empty.assertAll cs').1 = .ok ids) ∧
    ∀ {p p' : Program} {ids ids' : List ClauseId}, Program.empty.assertAll cs = (.ok ids, p) →
      Program.empty.assertAll cs' = (.ok ids', p') →
      ∀ (mode : Mode) {σ τ : Type} [Tables σ] [LawfulTables σ] [Tables τ] [LawfulTables τ]
        {fresh : σ} {fresh' : τ}, IsFresh fresh → IsFresh fresh' →
      ∀ (scope scope' : UInt32) (depth depth' : Nat) (q : Literal),
        (∀ answers answers',
          (solve ⟨p, registry, mode⟩ depth q (.start fresh scope)).1 = .ok answers →
          (solve ⟨p', registry, mode⟩ depth' q (.start fresh' scope')).1 = .ok answers' →
          ∀ f, f ∈ answers' ↔ f ∈ answers) ∧
        ∀ found found',
          (proofs ⟨p, registry, mode⟩ depth q (.start fresh scope)).1 = .ok found →
          (proofs ⟨p', registry, mode⟩ depth' q (.start fresh' scope')).1 = .ok found' →
          found' = found.renamed ρ := by
  refine ⟨exists_assertAll_of_permuted hρ, ?_⟩
  intro p p' ids ids' hp hp' mode σ τ _ _ _ _ fresh fresh' hfresh hfresh' scope scope' depth
    depth' q
  have hw : Theory.Plain ⟨p, registry, mode⟩ := plain_of_assertAll hcs hp
  have hw' : Theory.Plain ⟨p', registry, mode⟩ :=
    plain_of_assertAll (fun c hc => hcs c ((mem_iff_of_permuted hρ).1 hc)) hp'
  have hclauses := Program.clauses_of_assertAll hp
  have hclauses' := Program.clauses_of_assertAll hp'
  have hren : Theory.Renumbers ρ ⟨p, registry, mode⟩ ⟨p', registry, mode⟩ := by
    refine ⟨rfl, rfl, fun id => ?_⟩
    show p'.clauses[(ρ id).index]? = p.clauses[id.index]?
    rw [← Array.getElem?_toList, ← Array.getElem?_toList, hclauses, hclauses']
    simpa [Program.empty] using hρ id
  -- both searches come to what their theories say, and the theories differ in the ids alone
  have hs := hw.consistent (.start hfresh scope)
  have hs' := hw'.consistent (.start hfresh' scope')
  refine ⟨fun answers answers' h h' f => ?_, fun found found' h h' => ?_⟩
  · obtain ⟨-, -, hans⟩ := solve_leads_yields hw (q := q) depth hs
    obtain ⟨-, -, hans'⟩ := solve_leads_yields hw' (q := q) depth' hs'
    rw [(hans answers h).2, (hans' answers' h').2, hren.yields_iff]
  · obtain ⟨-, -, hshows⟩ := proofs_leads_shows hw (q := q) depth hs
    obtain ⟨-, -, hshows'⟩ := proofs_leads_shows hw' (q := q) depth' hs'
    exact hren.shows (hshows found h) (hshows' found' h')

end Permuted

namespace Birds

open Searching

/-- The clauses on birds with the first one and the last one in each other's place. -/
def exchanged : List Clause :=
  [⟨general "flies", [general "bird", (general "heavy").negate], .certain⟩,
    ⟨about "bird" "pingu", [], .certain⟩, ⟨about "heavy" "pingu", [], .certain⟩,
    ⟨about "bird" "tweety", [], .certain⟩]

/-- The ids of the clauses that have been exchanged. -/
def exchange : Equiv.Perm ClauseId := Equiv.swap ⟨0⟩ ⟨3⟩

theorem exchanged_getElem? (id : ClauseId) :
    exchanged[(exchange id).index]? = clauses[id.index]? := by
  obtain ⟨i⟩ := id
  match i with
  | 0 | 1 | 2 | 3 => rfl
  | i + 4 =>
    unfold exchange
    rw [Equiv.swap_apply_of_ne_of_ne (by simp) (by simp)]
    rfl

/-- The proof that one of the birds is a bird. -/
def birdProof : Proof := ⟨about "bird" "tweety", [], .certain, ⟨0⟩⟩

/-- What shows that the bird flies is the same in both orders, up to the ids. -/
theorem assertion_order_exchanged :
    (proofs (theory .problog) 9 (general "flies") (.start Resident.empty 0)).1 =
      .ok (.ofList [birdProof, fliesProof]) ∧
    (proofs ⟨(Program.empty.assertAll exchanged).2, .empty, .problog⟩ 9 (general "flies")
      (.start Resident.empty 0)).1 =
        .ok ((ProofSet.ofList [birdProof, fliesProof]).renamed exchange) := by
  have hcs : ∀ c ∈ clauses, ∀ l ∈ c.head :: c.body,
      (∀ v ∈ l.vars, v.scope = 0) ∧ Registry.empty.contains l.predicate = false := by decide +kernel
  have hids : (Program.empty.assertAll clauses).1 = .ok [⟨0⟩, ⟨1⟩, ⟨2⟩, ⟨3⟩] := by decide +kernel
  have hids' : (Program.empty.assertAll exchanged).1 = .ok [⟨0⟩, ⟨1⟩, ⟨2⟩, ⟨3⟩] := by decide +kernel
  have hfound : (proofs (theory .problog) 9 (general "flies") (.start Resident.empty 0)).1 =
      .ok (.ofList [birdProof, fliesProof]) := by decide +kernel
  have hfound' : (proofs ⟨(Program.empty.assertAll exchanged).2, .empty, .problog⟩ 9
      (general "flies") (.start Resident.empty 0)).1 =
        .ok (.ofList [birdProof.renamed exchange, fliesProof.renamed exchange]) := by decide +kernel
  have hsame := (assertion_order exchanged_getElem? hcs).2 (Prod.ext hids rfl) (Prod.ext hids' rfl)
    .problog isFresh_empty isFresh_empty 0 0 9 9 (general "flies")
  exact ⟨hfound, hfound'.trans (congrArg _ (hsame.2 _ _ hfound hfound'))⟩

end Birds

end ProbDatalog
