import ProbDatalog.Proofs.Calls
import ProbDatalog.Proofs.Queries

/-!
# Sessions

What a search comes to by answering one request after the other. A request that fails leaves what
it has changed, and the next one starts from there; in between, a store may be mended as long as it
keeps its tables.

* `Reached.after`: whichever calls are made, a session stays one.
* `Reached.consistent`: **every state of a session is consistent.**
* `Reached.negating`: between requests no negation is being decided.
-/

namespace ProbDatalog

/-- What can be asked of a search. -/
inductive Request where
  | solve (query : Literal)
  | isAnswer (fact : Literal)
  | probability (fact : Literal)
  | proofs (query : Literal)

section Sessions

variable {σ : Type} [Tables σ] (w : Theory)

/-- The state that a request leaves, whether it succeeds or fails. -/
def Request.leave (depth : Nat) (s : Search σ) : Request → Search σ
  | solve q => (Searching.solve w depth q s).2
  | isAnswer f => (Searching.isAnswer w depth f s).2
  | probability f => (Searching.probability w depth Float f s).2
  | proofs q => (Searching.proofs w depth q s).2

variable [LawfulTables σ]

/-- The states of a session that starts on tables without answers. -/
inductive Reached : Search σ → Prop
  /-- Nothing has been asked. -/
  | start {tables : σ} (h : IsFresh tables) (scope : UInt32) : Reached (.start tables scope)
  /-- One more request has been answered or has failed. -/
  | ask {s : Search σ} (h : Reached s) (depth : Nat) (r : Request) : Reached (r.leave w depth s)
  /-- The store has been mended. -/
  | mend {s : Search σ} (h : Reached s) {tables : σ} (ht : content tables = content s.tables) :
      Reached { s with tables }

variable {w} {M : Meaning w} {s : Search σ}

/-! ## Calls -/

/-- To look tables up changes none of them. -/
theorem Searching.after_mapM_get (patterns : List CallPattern) (s : Search σ) :
    After (patterns.mapM fun p => onTables (Tables.get · p)) s fun _ t =>
      content t.tables = content s.tables ∧ t = { s with tables := t.tables } := by
  induction patterns generalizing s with
  | nil => exact ⟨rfl, rfl⟩
  | cons p rest ih =>
    rw [List.mapM_cons, after_bind, after_onTables]
    refine ⟨fun g tables hg => after_bind.2 ((ih _).mono ?_), fun e tables hg => ⟨?_, rfl⟩⟩
    · rintro (e | subgoals) t ⟨hcontent, heq⟩
      all_goals exact ⟨hcontent.trans (LawfulTables.content_of_get hg), heq⟩
    · exact LawfulTables.content_of_get hg

/-- To ask how much has been done changes no table. -/
theorem Searching.after_effort (s : Search σ) : After effort s fun _ t =>
    content t.tables = content s.tables ∧ t = { s with tables := t.tables } := by
  refine after_bind.2 (after_get.2 (after_bind.2 ((after_mapM_get _ s).mono ?_)))
  rintro (e | subgoals) t ht
  · exact ht
  · exact ht

omit [LawfulTables σ] in
/-- To justify a fact changes nothing. -/
theorem Searching.after_justification (l : Literal) (s : Search σ) :
    After (justification l) s fun _ t => t = s := by
  refine after_bind.2 ((after_readTables _).2 ⟨fun records _ => ?_, fun _ _ => rfl⟩)
  exact (after_ofOption _).2 ⟨fun _ _ => rfl, fun _ => rfl⟩

/-- What is made of a result has no part in the state that is left. -/
theorem Reached.of_map {α β : Type} {x : Searching σ α} (f : α → β) (h : Reached w (x s).2) :
    Reached w ((x >>= fun a => pure (f a)) s).2 := by
  rw [bind_run]
  revert h
  rcases x s with ⟨_ | _, t⟩ <;> exact id

/-- The state that calls leave, one made after the other. -/
def Call.leave (w : Theory) (s : Search σ) (calls : List (Nat × Call)) : Search σ :=
  calls.foldl (fun s c => (c.2.run w Float c.1 s).2) s

/-- **Whichever calls are made, a session stays one.** -/
theorem Reached.after (hs : Reached w s) (calls : List (Nat × Call)) :
    Reached w (Call.leave w s calls) := by
  unfold Call.leave
  induction calls generalizing s with
  | nil => exact hs
  | cons call rest ih =>
    obtain ⟨depth, c⟩ := call
    refine ih ?_
    unfold Call.run
    -- four kinds of calls are requests, and the others leave what the tables hold
    cases c with
    | solve q => exact .of_map _ (hs.ask depth (.solve q))
    | isAnswer f => exact .of_map _ (hs.ask depth (.isAnswer f))
    | probability f => exact .of_map _ (hs.ask depth (.probability f))
    | proofs q => exact .of_map _ (hs.ask depth (.proofs q))
    | justification f =>
      refine .of_map _ ?_
      have h : (Searching.justification f s).2 = s := Searching.after_justification f s
      rwa [h]
    | effort =>
      refine .of_map _ ?_
      obtain ⟨hcontent, heq⟩ := Searching.after_effort s
      rw [heq]
      exact hs.mend hcontent

/-! ## Consistency -/

/-- A request leads from a consistent state to a consistent state further on. -/
theorem Request.leave_leads (hw : w.Regular) (hM : M.Lawful) (hJ : M.Judges σ) (depth : Nat)
    (r : Request) (hs : Consistent M s) :
    Consistent M (r.leave w depth s) ∧ Progress s (r.leave w depth s) := by
  cases r with
  | solve q =>
    obtain ⟨hc, hp, -⟩ := Searching.solve_leads hw hM hJ depth q hs
    exact ⟨hc, hp⟩
  | isAnswer f =>
    obtain ⟨hc, hp, -⟩ := Searching.isAnswer_leads hw hM hJ depth f hs
    exact ⟨hc, hp⟩
  | probability f =>
    obtain ⟨hc, hp, -⟩ := Searching.probability_leads (α := Float) hw hM hJ depth f hs
    exact ⟨hc, hp⟩
  | proofs q =>
    obtain ⟨hc, hp, -⟩ := Searching.proofs_leads depth (Searching.solve_leads hw hM hJ depth q hs)
    exact ⟨hc, hp⟩

namespace Reached

variable (hw : w.Regular) (hM : M.Lawful) (hJ : M.Judges σ)

include hw hM hJ

/-- **Every state of a session is consistent.** -/
theorem consistent (h : Reached w s) : Consistent M s := by
  -- what fails leaves a consistent state too, so nothing is asked about outcomes
  induction h with
  | start h scope => exact consistent_start h scope
  | ask _ depth r ih => exact (r.leave_leads hw hM hJ depth ih).1
  | mend _ ht ih => exact ih.congr ht rfl

/-- Between requests no negation is being decided. -/
theorem negating (h : Reached w s) : s.negating = [] := by
  induction h with
  | start h scope => rfl
  | ask hs depth r ih =>
    exact (r.leave_leads hw hM hJ depth (hs.consistent hw hM hJ)).2.negating.trans ih
  | mend _ ht ih => exact ih

end Reached

end Sessions

end ProbDatalog
