import ProbDatalog.Proofs.Exactness
import ProbDatalog.Proofs.Judgment
import ProbDatalog.Proofs.Lockstep
import ProbDatalog.Proofs.Renaming
import ProbDatalog.Proofs.Tidiness

/-!
# Justifications are complete

A justification is made from the proofs below a fact, which are found by going down from the fact.
It is the support of the literal in the set of all proofs that have been recorded, in whatever
tables: a proof is filed under a pattern that covers what it shows, so it is found where its fact is
looked up, and a lineage does not ask for facts that are not below the literal.

* `Search.allProofs`: the proofs that have been recorded in all tables.
* `Search.Tidy.mem_proofsBelow_iff`: **no recorded proof that a fact may rest on is missed.**
* `Search.Tidy.renamesOn`: below a fact, the proofs that are found are all recorded ones.
* `Reached.justification_complete`: **a justification is the support in the set of all recorded
  proofs**, in every state of a session.
-/

namespace ProbDatalog

variable {σ : Type} [Tables σ] [LawfulTables σ] {w : Theory} {s : Search σ} {found : ProofSet}
variable {l f g : Literal} {π : Proof}

/-- The proofs that have been recorded in all tables. -/
def Search.allProofs (s : Search σ) : ProofSet :=
  .ofList ((Tables.patterns s.tables).flatMap s.recordsOf)

/-- Some table cannot be read. -/
def Search.Unreadable (s : Search σ) (e : StoreFault) : Prop :=
  ∃ p ∈ Tables.patterns s.tables, Tables.recorded s.tables p = .error e

theorem Search.mem_allProofs : π ∈ s.allProofs.toList ↔ π ∈ s.recorded := by
  rw [Search.allProofs, ProofSet.mem_ofList, List.mem_flatMap]
  constructor
  · rintro ⟨p, -, hπ⟩
    exact ⟨p, hπ⟩
  · rintro ⟨p, hπ⟩
    exact ⟨p, Search.mem_patterns_of_recordsOf hπ, hπ⟩

theorem Search.isSorted_allProofs : Sorted.IsSorted s.allProofs.toList :=
  ProofSet.isSorted_ofList _

/-- The facts that a fact may rest on by recorded proofs, and itself. -/
def Search.factsBelow (s : Search σ) (f : Literal) : Set Literal :=
  {g | Relation.ReflTransGen s.allProofs.dependencies.rests f g}

/-- Facts that a positive fact rests on are positive. -/
theorem Search.negated_of_mem_factsBelow (hpath : g ∈ s.factsBelow f) (hf : f.negated = false) :
    g.negated = false := by
  rcases Relation.ReflTransGen.cases_tail hpath with rfl | ⟨_, -, _, -, -, m, -, rfl⟩
  · exact hf
  · rfl

theorem Search.rests_allProofs : s.allProofs.dependencies.rests = s.Below := by
  funext a b
  simp only [Search.Below, ← Search.mem_allProofs, Proof.mem_dependencies_iff]
  rfl

namespace Search.Tidy

variable (hs : s.Tidy) (hf : f.negated = false) (h : Tables.proofsBelow s.tables f = .ok found)

include hs hf h

/-- **No recorded proof that a fact may rest on is missed.** -/
theorem mem_proofsBelow_iff :
    π ∈ found.toList ↔ π ∈ s.allProofs.toList ∧ π.head ∈ s.factsBelow f := by
  rw [Search.mem_proofsBelow_iff h, ← Search.rests_allProofs, ← Search.mem_allProofs, and_comm]
  · rfl
  · intro p ρ hρ hpath
    rw [← Search.rests_allProofs] at hpath
    -- only a positive fact is looked up where its proofs are
    have hinst := hs.instances (hs.heads hρ)
    rw [CallPattern.covers_iff_mem_instances (CallPattern.isGround_of_mem_instances hinst),
      Literal.positive_eq_self (Search.negated_of_mem_factsBelow hpath hf)]
    exact hinst

/-- Below a fact, the proofs that are found are all recorded ones. -/
theorem renamesOn :
    ProofSet.RenamesOn (Equiv.refl _) (s.factsBelow f) found s.allProofs where
  nodup := (Tables.isSorted_proofsBelow h).nodup
  nodup' := Search.isSorted_allProofs.nodup
  closed π hπ hhead q hq :=
    hhead.tail ⟨π, ((hs.mem_proofsBelow_iff hf h).1 hπ).1, rfl, q, hq, rfl⟩
  mem_iff π hhead := by
    rw [hs.mem_proofsBelow_iff hf h]
    exact (and_iff_left hhead).symm

end Search.Tidy

/-- The proofs that are found have the support that all recorded proofs have. -/
theorem Search.Tidy.support?_proofsBelow (hs : s.Tidy)
    (hA : s.allProofs.dependencies.Stratified)
    (h : Tables.proofsBelow s.tables l.positive = .ok found) {t : ProofSet}
    (ht : s.allProofs.support? l = some t) : found.support? l = some t := by
  have hbelow : found.toList ⊆ s.allProofs.toList := fun _ hπ =>
    ((hs.mem_proofsBelow_iff rfl h).1 hπ).1
  obtain ⟨t', ht'⟩ := ProofSet.exists_support? (ProofSet.stratified_of_subset hA hbelow) l
  have heq : t' = t := ProofSet.support?_eq_of_renamesOn (hs.renamesOn rfl h) .refl
    (Tables.isSorted_proofsBelow h) Search.isSorted_allProofs ht' ht
  exact heq ▸ ht'

omit [LawfulTables σ] in
theorem Search.unreadable_of_barred {e : StoreFault} (h : Tables.Barred s.tables f e) :
    s.Unreadable e := by
  obtain ⟨-, -, p, hp, -, hread⟩ := h
  exact ⟨p, hp, hread⟩

namespace Searching

/-- A justification is the support in all recorded proofs, unless a table cannot be read. -/
theorem justification_eq_support (hs : s.Tidy) (hA : s.allProofs.dependencies.Stratified)
    {t : ProofSet} (ht : s.allProofs.support? l = some t) : justification l s = (.ok t, s) ∨
      ∃ e, s.Unreadable e ∧ justification l s = (.error (.failed (.storage e)), s) := by
  have hrun : After (justification l) s fun r u => u = s ∧
      (r = .ok t ∨ ∃ e, s.Unreadable e ∧ r = .error (.failed (.storage e))) := by
    refine after_bind.2 ((after_readTables _).2 ⟨fun found hrec => ?_, fun e he => ⟨rfl, ?_⟩⟩)
    · have hsup := hs.support?_proofsBelow hA hrec ht
      refine (after_ofOption _).2 ⟨fun a ha => ⟨rfl, ?_⟩, fun hnone => ?_⟩
      · exact .inl (congrArg Except.ok (Option.some.inj (ha.symm.trans hsup)))
      · cases hnone.symm.trans hsup
    · exact .inr ⟨e, Search.unreadable_of_barred (Tables.barred_of_proofsBelow he), rfl⟩
  obtain ⟨hstate, hresult | ⟨e, he, hresult⟩⟩ := hrun
  · exact .inl (Prod.ext hresult hstate)
  · exact .inr ⟨e, he, Prod.ext hresult hstate⟩

end Searching

/-- **Justifications are complete.** Whichever requests a session has made, take the set of all
proofs that it has recorded in all tables, and suppose that no fact rests on its own negation there.
Every literal, negated or not, has a support in this set, and it is the justification of the literal
unless a table cannot be read. A walk down from the literal, from tables that are read when the
first fact that they cover is looked up, ends in finitely many steps. It reads no table twice. It
finds the recorded proofs of all facts that the literal may rest on, negated premises included, and
the support in these is the same, unless the walk comes to a table that cannot be read. -/
theorem Reached.justification_complete (hs : Reached w s)
    (hA : s.allProofs.dependencies.Stratified) (l : Literal) :
    ∃ t, s.allProofs.support? l = some t ∧
      (Searching.justification l s = (.ok t, s) ∨
        ∃ e, s.Unreadable e ∧
          Searching.justification l s = (.error (.failed (.storage e)), s)) ∧
      ((∃ v, Walk.Ends s.tables (.start l.positive) (.ok v) ∧
          v.reads.Nodup ∧ v.reads ⊆ Tables.patterns s.tables ∧
          (∀ π, π ∈ v.found.toList ↔ π ∈ s.allProofs.toList ∧ π.head ∈ s.factsBelow l.positive) ∧
          v.found.support? l = some t) ∨
        ∃ e, s.Unreadable e ∧ Walk.Ends s.tables (.start l.positive) (.error e)) := by
  have htidy := hs.tidy
  obtain ⟨t, ht⟩ := ProofSet.exists_support? hA l
  refine ⟨t, ht, Searching.justification_eq_support htidy hA ht, ?_⟩
  rcases Tables.proofsBelow_cases s.tables l.positive with
    ⟨e, he, -, hends⟩ | ⟨-, v, hv, hends, hreads, -, -⟩
  · exact .inr ⟨e, Search.unreadable_of_barred he, hends⟩
  · exact .inl ⟨v, hends, hreads.nodup, hreads.subset,
      fun π => htidy.mem_proofsBelow_iff rfl hv, htidy.support?_proofsBelow hA hv ht⟩

namespace Showers

open Birds

/-- It has been asked when it rains and when it is dry, and why it is dry on Monday. -/
def asked : Search Resident :=
  Call.leave theory (.start .empty 0) [(5, .solve (general "rain")), (5, .solve (general "dry")),
    (5, .justification (about "dry" "mon"))]

theorem stratified_asked : asked.allProofs.dependencies.Stratified :=
  ProofSet.stratified_of_rank (fun f => if f.predicate = "dry" then 1 else 0) (by decide +kernel)

/-- Rain on Monday has been derived under two patterns. The justification of a dry Monday holds both
reasons for rain, and leaves out the rain on Tuesday. -/
theorem justification_dry : asked.allProofs.dependencies.Stratified ∧
    (Tables.patterns asked.tables).countP (·.covers (about "rain" "mon")) = 2 ∧
    asked.allProofs.size = 5 ∧
    ∃ t, t.size = 4 ∧ asked.allProofs.support? (about "dry" "mon") = some t ∧
      Searching.justification (about "dry" "mon") asked = (.ok t, asked) ∧
      ∃ v, Walk.Ends asked.tables (.start (about "dry" "mon")) (.ok v) ∧ v.reads.Nodup ∧
        v.found.support? (about "dry" "mon") = some t := by
  have hreads : ∀ e, ¬asked.Unreadable e := fun e ⟨p, _, hfault⟩ => by cases hfault
  have hreached : Reached theory asked := (Reached.start isFresh_empty 0).after _
  obtain ⟨t, ht, hjust, hwalk⟩ :=
    hreached.justification_complete stratified_asked (about "dry" "mon")
  have hsize : (asked.allProofs.support? (about "dry" "mon")).map ProofSet.size = some 4 := by
    decide +kernel
  rw [ht, Option.map_some, Option.some.injEq] at hsize
  refine ⟨stratified_asked, by decide +kernel, by decide +kernel, t, hsize, ht, ?_, ?_⟩
  · exact hjust.resolve_right fun ⟨e, he, _⟩ => hreads e he
  · obtain ⟨v, hends, hnodup, -, -, hsup⟩ := hwalk.resolve_right fun ⟨e, he, _⟩ => hreads e he
    exact ⟨v, hends, hnodup, hsup⟩

end Showers

end ProbDatalog
