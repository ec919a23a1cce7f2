import ProbDatalog.Proofs.Guards

/-!
# Why queries stop

A query keeps to the reasons that the search for its pattern keeps to: reading the answers, their
proofs and their probabilities adds none but those of the store.

* `solve_keeps_relational`, `solve_keeps_negated`, `solve_keeps_evaluable`: queries for answers.
* `proofs_keeps`, `isAnswer_keeps`, `probability_keeps`: **whatever else can be asked keeps to the
  reasons that the query for answers keeps to.**
-/

namespace ProbDatalog.Searching

variable {σ : Type} [Tables σ] [LawfulTables σ] {w : Theory} {E : Halt → Prop} {R : Route w E}
variable {I : Search σ → Prop} {s : Search σ} {depth : Nat} {q l : Literal}

section Answers

/-- A positive query keeps to the reasons of the search for its pattern. -/
theorem solve_keeps_relational (hw : w.Plain) (hI : Guarded R I) (hn : q.negated = false)
    (hrel : w.registry.contains q.predicate = false) (hs : Consistent w.meaning s)
    (hsat : Keeps E s (saturate w depth (.of q)) fun _ t => I t) :
    Keeps E s (solve w depth q) fun _ t => I t := by
  rw [solve_of_relational depth hn hrel]
  refine hsat.bind (saturate_leads hw.regular hw.lawful hw.judges depth hrel hs) ?_
  rintro _ t ht - - hIt
  exact .readTables_bind (fun e => hI.answers hIt) fun _ _ => .pure hIt

/-- A ground negated query keeps to the reasons of its decision. -/
theorem solve_keeps_negated (hw : w.Plain) (hn : q.negated = true) (hg : q.isGround = true)
    (hs : Consistent w.meaning s)
    (hdec : Keeps E s (decideNegation w (expand w depth) depth q) fun _ t => I t) :
    Keeps E s (solve w depth q) fun _ t => I t := by
  unfold solve
  rw [if_pos hn, if_pos hg]
  refine hdec.bind (decideNegation_leads hw.lawful hw.judges
    (expand_calls hw.regular hw.lawful hw.judges depth) depth hg hs) ?_
  exact fun _ _ _ _ _ hIt => .pure hIt

omit [LawfulTables σ] in
/-- Evaluable predicates answer without a search. -/
theorem solve_keeps_evaluable (hE : ∀ e, E (.failed e))
    (hc : w.registry.contains q.predicate = true) (hIs : I s) :
    Keeps E s (solve w depth q) fun _ t => I t := by
  have hsolve := solve_evaluable hc depth s
  cases hr : w.registry.answers q with
  | ok answers => exact .of_ok (hr ▸ hsolve) hIs
  | error e => exact .of_error (hr ▸ hsolve) (hE e)

end Answers

/-! ## Proofs and probabilities -/

section Asking

variable (hw : w.Plain) (hs : Consistent w.meaning s)

include hw hs

/-- Checking an answer keeps to the reasons of the query for answers. -/
theorem isAnswer_keeps (hsolve : Keeps E s (solve w depth l) fun _ t => I t) :
    Keeps E s (isAnswer w depth l) fun _ t => I t :=
  hsolve.bind (solve_leads hw.regular hw.lawful hw.judges depth l hs)
    fun _ _ _ _ _ hIt => .pure hIt

/-- **The proofs of a query** can be read wherever the store can be read. -/
theorem proofs_keeps
    (hI : ∀ t p e, I t → Tables.recorded t.tables p = .error e → E (.failed (.storage e)))
    (hsolve : Keeps E s (solve w depth q) fun _ t => I t) :
    Keeps E s (proofs w depth q) fun _ t => I t := by
  unfold proofs
  refine hsolve.bind (solve_leads hw.regular hw.lawful hw.judges depth q hs) ?_
  rintro answers t ht - - hIt
  -- reading proofs changes nothing, so each answer finds the tables as they were
  have hlead : ∀ f ∈ answers, ∀ u, Consistent w.meaning u → Progress t u →
      Leads w.meaning u (justification f) fun _ _ => True := fun f _ u hu _ =>
    justification_leads hu fun _ _ _ _ => trivial
  refine (Keeps.mapM (I := I) (G := fun _ => True) answers ht hIt hlead ?_).bind
    (Leads.mapM ht hlead) fun _ _ _ _ _ hIu => .pure hIu.1
  exact fun f _ u hu _ hIu => justification_keeps hw hu (fun p e => hI u p e hIu)
    fun _ _ _ _ => ⟨hIu, trivial⟩

/-- **The probability of a fact** is known wherever its proofs can be read. -/
theorem probability_keeps {α : Type} [Weight α]
    (hI : ∀ t p e, I t → Tables.recorded t.tables p = .error e → E (.failed (.storage e)))
    (hopen : l.isGround = false → E (.failed (.openNegation l)))
    (hres : ∀ e, w.registry.resolve l.positive = .error e → E (.failed e))
    (hsolve : Keeps E s (solve w depth l.positive) fun _ t => I t) :
    Keeps E s (probability w depth α l) fun _ t => I t := by
  unfold probability
  by_cases hg : l.isGround = true
  · rw [if_pos hg]
    refine .ofExcept_bind hres fun evaluable _ => ?_
    by_cases hm : w.mode = .problog ∧ evaluable.isNone = true
    · rw [if_pos hm]
      -- the support has a probability, as no recorded fact rests on its own negation
      refine hsolve.bind (solve_leads hw.regular hw.lawful hw.judges depth _ hs) ?_
      rintro _ t ht - - hIt
      refine (justification_keeps hw ht (fun p e => hI t p e hIt)
        (Q := fun proofs u => t = u ∧ ∃ p, proofs.probability? α l.positive = some p)
        fun found proofs hrec hsup => ⟨rfl, ?_⟩).bind_unchanged ?_
      · refine ProofSet.exists_probability? (ProofSet.stratified_of_support? ?_ hsup) _
        exact ht.stratified_proofsBelow (R := .wellFounded w) hw.asserted hrec
      · rintro proofs ⟨p, hp⟩
        rw [hp]
        exact .pure hIt
    · rw [if_neg hm]
      refine (isAnswer_keeps hw hs hsolve).bind
        (isAnswer_leads hw.regular hw.lawful hw.judges depth _ hs) ?_
      exact fun _ _ _ _ _ hIt => .pure hIt
  · rw [if_neg hg]
    exact .fail (hopen (by simpa using hg))

end Asking

end ProbDatalog.Searching
