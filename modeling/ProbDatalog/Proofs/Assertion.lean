import ProbDatalog.Program

/-!
# Programs made by assertion

The programs that come from the empty one by asserting clauses. Their index finds exactly the
clauses of a predicate and arity, and all their clauses are well formed.

* `assert_cases`: an assertion does everything or nothing.
* `Asserted.mem_candidates_iff`: which clauses a call tries.
* `Asserted.mem_boundVars`: **positive literals of the body bind the variables of the head.**
-/

namespace ProbDatalog

/-- What a clause has to be like to be asserted. -/
theorem Clause.head_of_validate {c : Clause} (h : c.validate = .ok ()) :
    c.head.negated = false := by
  unfold validate at h
  split at h
  · cases h
  next hn => simpa using hn

/-- A well-formed clause binds the variables of its head. -/
theorem Clause.mem_boundVars_of_validate {c : Clause} (h : c.validate = .ok ()) {v : Variable}
    (hv : v ∈ c.head.vars) : v ∈ c.boundVars := by
  unfold validate at h
  split at h
  · cases h
  split at h
  · split at h
    next hg =>
      rw [Literal.isGround_iff] at hg
      simp [hg] at hv
    · cases h
  · split at h
    · cases h
    next hnone =>
      simpa using List.find?_eq_none.1 hnone v hv

namespace Program

/-- Programs made from the empty one by asserting clauses. -/
inductive Asserted : Program → Prop
  /-- No clauses have been asserted. -/
  | empty : Asserted .empty
  /-- One more clause has been asserted. -/
  | assert {p p' : Program} {c : Clause} {id : ClauseId} :
      Asserted p → p.assert c = (.ok id, p') → Asserted p'

variable {p p' : Program} {c : Clause} {id : ClauseId}

theorem ofExcept_run {α : Type} (x : Except Error α) (p : Program) :
    (MonadExcept.ofExcept x : Asserting α) p = (x, p) := by
  cases x <;> rfl

/-- A clause that fails one of the two checks is refused before anything has been changed; any other
clause is appended. -/
theorem assert_cases (p : Program) (c : Clause) :
    (∃ e, p.assert c = (.error e, p) ∧
      ¬(c.validate = .ok () ∧
        ∃ pending, pendingArities p.arities .empty (c.head :: c.body) = .ok pending)) ∨
    ∃ pending, c.validate = .ok () ∧
      pendingArities p.arities .empty (c.head :: c.body) = .ok pending ∧
      p.assert c = (.ok ⟨p.clauses.size⟩,
        ⟨p.clauses.push c, p.buckets.alter (c.head.predicate, c.head.arity)
          (fun ids => ids.getD [] ++ [⟨p.clauses.size⟩]), p.arities.extend pending.entries⟩) := by
  generalize hrun : p.assert c = run
  unfold assert append at hrun
  rw [bind_run, ofExcept_run] at hrun
  cases hv : c.validate with
  | error e =>
    rw [hv] at hrun
    exact .inl ⟨e, hrun.symm, by simp⟩
  | ok u =>
    rw [hv] at hrun
    change (MonadExcept.ofExcept _ >>= _ : Asserting ClauseId) p = run at hrun
    rw [bind_run, ofExcept_run] at hrun
    cases hp : pendingArities p.arities .empty (c.head :: c.body) with
    | error e =>
      rw [hp] at hrun
      exact .inl ⟨e, hrun.symm, by simp⟩
    | ok pending =>
      rw [hp] at hrun
      exact .inr ⟨pending, rfl, rfl, hrun.symm⟩

/-- **A refused clause changes nothing.** -/
theorem eq_self_of_assert {e : Error} (h : p.assert c = (.error e, p')) : p' = p := by
  rcases assert_cases p c with ⟨_, heq, -⟩ | ⟨_, -, -, heq⟩
  · exact (Prod.mk.inj (h.symm.trans heq)).2
  · cases h.symm.trans heq

/-- What a successful assertion does. -/
theorem assert_eq_ok (h : p.assert c = (.ok id, p')) :
    c.validate = .ok () ∧ id = ⟨p.clauses.size⟩ ∧ p'.clauses = p.clauses.push c ∧
      p'.buckets = p.buckets.alter (c.head.predicate, c.head.arity)
        (fun ids => ids.getD [] ++ [⟨p.clauses.size⟩]) ∧
      ∃ pending, pendingArities p.arities .empty (c.head :: c.body) = .ok pending ∧
        p'.arities = p.arities.extend pending.entries := by
  rcases assert_cases p c with ⟨_, heq, -⟩ | ⟨pending, hv, hpending, heq⟩
  · cases h.symm.trans heq
  · obtain ⟨hid, rfl⟩ := Prod.mk.inj (h.symm.trans heq)
    exact ⟨hv, Except.ok.inj hid, rfl, rfl, pending, hpending, rfl⟩

theorem clause?_push {clauses : Array Clause} {c' : Clause} {i : Nat} :
    (clauses.push c)[i]? = some c' ↔ clauses[i]? = some c' ∨ i = clauses.size ∧ c = c' := by
  rw [Array.getElem?_push]
  split
  next h =>
    subst h
    simp
  next h => simp [h]

section Turns

variable {cs : List Clause}

theorem assertAll_nil (p : Program) : p.assertAll [] = (.ok [], p) := rfl

theorem assertAll_of_ok (h : p.assert c = (.ok id, p')) : p.assertAll (c :: cs) =
    ((p'.assertAll cs).1.map (id :: ·), (p'.assertAll cs).2) := by
  unfold assert at h
  unfold assertAll
  rw [List.mapM_cons, bind_run, h]
  dsimp only
  rw [bind_run]
  rcases cs.mapM append p' with ⟨_ | _, _⟩ <;> rfl

theorem assertAll_of_error {e : Error} (h : p.assert c = (.error e, p')) :
    p.assertAll (c :: cs) = (.error e, p') := by
  unfold assert at h
  unfold assertAll
  rw [List.mapM_cons, bind_run, h]

end Turns

namespace Asserted

/-- The clauses of an asserted program are well formed. -/
theorem validate_eq_ok (hp : p.Asserted) (h : p.clause? id = some c) : c.validate = .ok () := by
  induction hp generalizing id with
  | empty => simp [clause?, Program.empty] at h
  | assert _ ha ih =>
    obtain ⟨hv, -, hc, -⟩ := assert_eq_ok ha
    unfold clause? at h
    rw [hc, clause?_push] at h
    rcases h with h | ⟨-, rfl⟩
    · exact ih h
    · exact hv

theorem head_negated (hp : p.Asserted) (h : p.clause? id = some c) : c.head.negated = false :=
  Clause.head_of_validate (hp.validate_eq_ok h)

/-- **Positive literals of the body bind the variables of the head.** -/
theorem mem_boundVars (hp : p.Asserted) (h : p.clause? id = some c) {v : Variable}
    (hv : v ∈ c.head.vars) : v ∈ c.boundVars :=
  Clause.mem_boundVars_of_validate (hp.validate_eq_ok h) hv

/-- The index lists the clauses of each predicate and arity. -/
theorem mem_bucket_iff (hp : p.Asserted) (predicate : String) (arity : Nat) (id : ClauseId) :
    id ∈ (p.buckets.get? (predicate, arity)).getD [] ↔
      ∃ c, p.clause? id = some c ∧ c.head.predicate = predicate ∧ c.head.arity = arity := by
  induction hp with
  | empty => simp [Program.empty, clause?]
  | @assert p p' c id' _ ha ih =>
    obtain ⟨-, -, hc, hb, -⟩ := assert_eq_ok ha
    unfold clause? at ih ⊢
    simp only [hc, hb, Assoc.get?_alter, clause?_push]
    obtain ⟨i⟩ := id
    by_cases hk : (c.head.predicate, c.head.arity) = (predicate, arity)
    · obtain ⟨rfl, rfl⟩ := Prod.mk.inj hk
      simp only [if_true, Option.getD_some, List.mem_append, ih, List.mem_singleton,
        ClauseId.mk.injEq]
      grind
    · rw [if_neg hk, ih]
      simp only [Prod.mk.injEq] at hk
      grind

/-- **Which clauses a call tries.** -/
theorem mem_candidates_iff (hp : p.Asserted) (l : Literal) :
    (id, c) ∈ p.candidates l ↔
      p.clause? id = some c ∧ c.head.predicate = l.predicate ∧ c.head.arity = l.arity := by
  simp only [candidates, clausesOf, List.mem_filterMap, hp.mem_bucket_iff, Option.map_eq_some_iff,
    Prod.mk.injEq]
  constructor
  · rintro ⟨id', ⟨c', hc', hh⟩, c'', hc'', rfl, rfl⟩
    rw [hc'] at hc''
    cases hc''
    exact ⟨hc', hh⟩
  · rintro ⟨hc, hh⟩
    exact ⟨id, ⟨c, hc, hh⟩, c, hc, rfl, rfl⟩

/-- Clauses asserted in turn make an asserted program, also where one of them is refused. -/
theorem assertAll (hp : p.Asserted) (clauses : List Clause) : (p.assertAll clauses).2.Asserted := by
  induction clauses generalizing p with
  | nil => exact hp
  | cons c rest ih =>
    rcases h : p.assert c with ⟨e | id, p'⟩
    · rw [assertAll_of_error h, eq_self_of_assert h]
      exact hp
    · rw [assertAll_of_ok h]
      exact ih (hp.assert h)

end Asserted

end Program

end ProbDatalog
