import ProbDatalog.Proofs.Expansion

/-!
# Queries keep the invariant

Every query leads from a consistent state to a consistent state, and what it answers can be read
off complete tables.

* `consistent_start`: a search without tables is consistent.
* `solve_leads_relational`, `solve_leads_negated`: **what the answers of a query are.**
* `probability_leads_relational`, `proofs_leads`: what probabilities and proofs are made from.
-/

namespace ProbDatalog

variable {σ : Type} [Tables σ] [LawfulTables σ] {w : Theory} {M : Meaning w}

/-- A store without tables. -/
def IsFresh (tables : σ) : Prop := ∀ p, content tables p = .empty

/-- A search without tables is consistent. -/
theorem consistent_start {tables : σ} (h : IsFresh tables) (scope : UInt32) :
    Consistent M (Search.start tables scope) := by
  have ha : ∀ p, (Search.start tables scope).answersOf p = [] := fun p => by
    simp [Search.answersOf, Search.start, h p]
  have hr : ∀ p, (Search.start tables scope).recordsOf p = [] := fun p => by
    simp [Search.recordsOf, Search.start, h p]
  constructor
  · intro p
    simp [ha]
  · intro p f hf
    simp [ha] at hf
  · intro p f hf
    simp [ha] at hf
  · intro p f hf
    simp [ha] at hf
  · intro _ p f hf
    simp [ha] at hf
  · intro p π hπ
    simp [hr] at hπ
  · intro p π hπ
    simp [hr] at hπ
  · intro p π hπ
    simp [hr] at hπ
  · intro p π l hπ
    simp [hr] at hπ
  · intro p π hp
    simp [Search.start] at hp
  · exact ⟨fun _ => 0, fun p hp => by simp [Search.start] at hp⟩
  · exact ⟨[], funext h, trivial⟩

/-- What evaluable predicates answer to a query. -/
def Registry.answers (r : Registry) (q : Literal) : Except Error (List Literal) :=
  if q.negated then
    if q.isGround then do
      match ← r.resolve q.positive with
      | some e => return if (← e.evaluate q.positive.terms) = .reject then [q] else []
      | none => return []
    else .error (.openNegation q)
  else do
    match ← r.resolve q with
    | some e =>
      match ← e.evaluate q.terms with
      | .reject => return []
      | .accept => return [q]
      | .bind bindings => return [bindings.apply q]
    | none => return []

theorem Registry.predicate_of_mem_answers {r : Registry} {q f : Literal} {answers : List Literal}
    (h : r.answers q = .ok answers) (hf : f ∈ answers) : f.predicate = q.predicate := by
  unfold Registry.answers at h
  split at h
  · split at h
    · obtain ⟨o, -, h⟩ := Except.exists_of_bind_eq_ok h
      cases o with
      | none =>
        cases h
        cases hf
      | some e =>
        obtain ⟨outcome, -, h⟩ := Except.exists_of_bind_eq_ok h
        cases h
        split at hf <;> simp_all
    · cases h
  · obtain ⟨o, -, h⟩ := Except.exists_of_bind_eq_ok h
    cases o with
    | none =>
      cases h
      cases hf
    | some e =>
      obtain ⟨outcome, -, h⟩ := Except.exists_of_bind_eq_ok h
      cases outcome <;> cases h <;> simp_all

/-- What the tables say takes part in showing a literal. -/
def Search.Justifies (s : Search σ) (l : Literal) (proofs : ProofSet) : Prop :=
  ∃ found, Tables.proofsBelow s.tables l.positive = .ok found ∧ found.support? l = some proofs

namespace Searching

omit [LawfulTables σ] in
/-- A positive query over a predicate that is not evaluable reads what the search has found. -/
theorem solve_of_relational (depth : Nat) {q : Literal} (hn : q.negated = false)
    (hc : w.registry.contains q.predicate = false) :
    (solve w depth q : Searching σ (List Literal)) = (do
      saturate w depth (.of q)
      let answers ← readTables (Tables.answers · (.of q))
      return answers.filter fun answer => (q.unify? answer .empty).isSome) := by
  unfold solve
  rw [if_neg (by simp [hn]), Registry.resolve_of_not_contains hc]
  rfl

variable {s : Search σ} (hw : w.Regular) (hM : M.Lawful) (hJ : M.Judges σ) (depth : Nat)

include hw hM hJ

/-- **The answers of a positive query** are those of its pattern, which is complete. -/
theorem solve_leads_relational {q : Literal} (hn : q.negated = false)
    (hc : w.registry.contains q.predicate = false) (hs : Consistent M s) :
    Leads M s (solve w depth q) fun answers t => .of q ∈ t.complete ∧ answers.Nodup ∧
      ∀ f, f ∈ answers ↔ f ∈ t.answersOf (.of q) := by
  rw [solve_of_relational depth hn hc]
  refine (saturate_leads hw hM hJ depth hc hs).bind ?_
  rintro _ t ht - hcomp
  refine .answers_bind ht (.pure ht ⟨hcomp, (ht.nodup _).filter _, fun f => ?_⟩)
  -- the final filter keeps every answer, as answers are instances of the pattern
  rw [List.mem_filter, and_iff_left_iff_imp]
  intro hf
  have hi := ht.instances hf
  refine (Literal.unify?_isSome_iff (CallPattern.isGround_of_mem_instances hi)).2 ?_
  rwa [CallPattern.mem_instances_of, Literal.positive_eq_self hn] at hi

/-- **A ground negated query** is its own answer if it may be, and has none if it need not be. -/
theorem solve_leads_negated {q : Literal} (hn : q.negated = true) (hs : Consistent M s) :
    Leads M s (solve w depth q) fun answers t =>
      (w.registry.contains q.predicate = true ∨ .of q.positive ∈ t.complete) ∧
      (answers = [q] ∧ M.mayNegate q.positive ∨ answers = [] ∧ ¬M.mustNegate q.positive) := by
  unfold solve
  rw [if_pos hn]
  by_cases hg : q.isGround = true
  · rw [if_pos hg]
    refine (decideNegation_leads hM hJ (expand_calls hw hM hJ depth) depth hg hs).bind ?_
    rintro holds t ht - ⟨-, hdec, hright⟩
    refine .pure ht ⟨hdec, ?_⟩
    cases holds <;> simpa using hright
  · rw [if_neg hg]
    exact .fail hs _

omit [LawfulTables σ] hw hM hJ in
/-- Evaluable predicates answer queries without regard to the state. -/
theorem solve_evaluable {q : Literal} (hc : w.registry.contains q.predicate = true) (depth : Nat)
    (s : Search σ) : solve w depth q s = ((w.registry.answers q).mapError .failed, s) := by
  -- a query whose predicate is evaluable never resolves to a relation
  have hnone : ∀ {l : Literal}, l.predicate = q.predicate → w.registry.resolve l ≠ .ok none := by
    intro l hl hres
    rw [← hl, Registry.resolve_eq_none hres] at hc
    cases hc
  have hok : ∀ {α β : Type} (a : α) (f : α → Except Error β), (Except.ok a >>= f) = f a :=
    fun _ _ => rfl
  unfold Registry.answers solve
  by_cases hn : q.negated = true
  · by_cases hg : q.isGround = true
    · simp only [hn, hg, if_true, decideNegation]
      rcases hres : w.registry.resolve q.positive with e | _ | e
      · rfl
      · exact absurd hres (hnone rfl)
      · rcases hev : e.evaluate q.positive.terms with e | _ | _ | b <;>
          simp only [ofExcept, pure_bind, hok, hev] <;> rfl
    · simp only [hn, hg, Bool.false_eq_true, if_true, if_false]
      rfl
  · simp only [hn]
    rcases hres : w.registry.resolve q with e | _ | e
    · rfl
    · exact absurd hres (hnone rfl)
    · rcases hev : e.evaluate q.terms with e | _ | _ | b <;>
        simp only [ofExcept, pure_bind, hok, hev] <;> rfl

/-- Any query leads to a consistent state. -/
theorem solve_leads (q : Literal) (hs : Consistent M s) :
    Leads M s (solve w depth q) fun _ _ => True := by
  by_cases hn : q.negated = true
  · exact (solve_leads_negated hw hM hJ depth hn hs).mono fun _ _ _ _ _ => trivial
  by_cases hc : w.registry.contains q.predicate = true
  · unfold solve
    rw [if_neg hn]
    refine .ofExcept_bind hs fun o hres => ?_
    obtain _ | e := o
    · rw [Registry.resolve_eq_none hres] at hc
      cases hc
    · refine .ofExcept_bind hs fun outcome _ => ?_
      cases outcome <;> exact .pure hs trivial
  · refine (solve_leads_relational hw hM hJ depth (by simpa using hn) (by simpa using hc)
      hs).mono ?_
    exact fun _ _ _ _ _ => trivial

/-- Checking an answer leads to a consistent state. -/
theorem isAnswer_leads (f : Literal) (hs : Consistent M s) :
    Leads M s (isAnswer w depth f) fun _ _ => True :=
  (solve_leads hw hM hJ depth f hs).bind fun _ _ ht _ _ => .pure ht trivial

/-! ## Probabilities and proofs -/

/-- **What the probability of a fact is made from**: the support of the fact among the proofs below
it, which are read off tables where its pattern is complete. -/
theorem probability_leads_relational {α : Type} [Weight α] {l : Literal} (hg : l.isGround = true)
    (hc : w.registry.contains l.predicate = false) (hm : w.mode = .problog)
    (hs : Consistent M s) :
    Leads M s (probability w depth α l) fun v t => .of l.positive ∈ t.complete ∧
      ∃ found proofs p, Tables.proofsBelow t.tables l.positive = .ok found ∧
        found.support? l.positive = some proofs ∧
        proofs.probability? α l.positive = some p ∧
        v = if l.negated then Weight.one - p else p := by
  unfold probability
  rw [if_pos hg]
  refine .ofExcept_bind hs fun o hres => ?_
  obtain _ | e := o
  · rw [if_pos ⟨hm, rfl⟩]
    refine (solve_leads_relational hw hM hJ depth (q := l.positive) rfl hc hs).bind ?_
    rintro _ t ht - ⟨hcomp, -, -⟩
    refine justification_bind ht fun found proofs hrec hsup => ?_
    rw [Literal.positive_positive] at hrec
    refine .ofOption_bind ht fun p hp => ?_
    exact .pure ht ⟨hcomp, found, proofs, p, hrec, hsup, hp, rfl⟩
  · cases hc.symm.trans (Registry.contains_of_resolve (l := l.positive) hres)

/-- Any query for a probability leads to a consistent state. -/
theorem probability_leads {α : Type} [Weight α] (l : Literal) (hs : Consistent M s) :
    Leads M s (probability w depth α l) fun _ _ => True := by
  unfold probability
  by_cases hg : l.isGround = true
  · rw [if_pos hg]
    refine .ofExcept_bind hs fun evaluable _ => ?_
    by_cases hm : w.mode = .problog ∧ evaluable.isNone = true
    · rw [if_pos hm]
      refine (solve_leads hw hM hJ depth l.positive hs).bind ?_
      rintro _ t ht - -
      refine justification_bind ht fun _ _ _ _ => ?_
      exact .ofOption_bind ht fun _ _ => .pure ht trivial
    · rw [if_neg hm]
      refine (isAnswer_leads hw hM hJ depth l.positive hs).bind ?_
      exact fun _ _ ht _ _ => .pure ht trivial
  · rw [if_neg hg]
    exact .fail hs _

omit hw hM hJ in
/-- The proofs of several literals are read one after the other. -/
theorem mapM_justification_leads (answers : List Literal) (hs : Consistent M s) :
    Leads M s (answers.mapM justification) fun each t => s = t ∧
      (∀ found ∈ each, ∃ f ∈ answers, s.Justifies f found) ∧
        ∀ f ∈ answers, ∃ found ∈ each, s.Justifies f found := by
  induction answers with
  | nil => exact .pure hs ⟨rfl, by simp⟩
  | cons f rest ih =>
    rw [List.mapM_cons]
    refine justification_bind hs fun below found hrec hsup => ?_
    have hfound : s.Justifies f found := ⟨below, hrec, hsup⟩
    refine ih.bind ?_
    rintro each _ ht - ⟨rfl, heach, hall⟩
    refine .pure ht ⟨rfl, List.forall_mem_cons.2 ⟨⟨f, by simp, hfound⟩, fun S hS => ?_⟩,
      List.forall_mem_cons.2 ⟨⟨found, by simp, hfound⟩, fun g hg => ?_⟩⟩
    · obtain ⟨g, hg, h⟩ := heach S hS
      exact ⟨g, List.mem_cons_of_mem _ hg, h⟩
    · obtain ⟨S, hS, h⟩ := hall g hg
      exact ⟨S, List.mem_cons_of_mem _ hS, h⟩

omit hw hM hJ in
/-- **What the proofs of a query are made from**, given what its answers are. -/
theorem proofs_leads {q : Literal} {Q : List Literal → Search σ → Prop}
    (hsolve : Leads M s (solve w depth q) Q) :
    Leads M s (proofs w depth q) fun all t => ∃ answers, ∃ each : List ProofSet, Q answers t ∧
      (∀ found ∈ each, ∃ f ∈ answers, t.Justifies f found) ∧
      (∀ f ∈ answers, ∃ found ∈ each, t.Justifies f found) ∧
      all = each.foldl (fun s t => s.insertAll t.toList) .empty := by
  unfold proofs
  refine hsolve.bind ?_
  rintro answers t ht - hQ
  refine (mapM_justification_leads answers ht).bind ?_
  rintro each _ ht - ⟨rfl, heach, hall⟩
  exact .pure ht ⟨answers, each, hQ, heach, hall, rfl⟩

end Searching

end ProbDatalog
