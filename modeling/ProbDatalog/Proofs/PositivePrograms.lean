import ProbDatalog.Proofs.Abreast
import ProbDatalog.Proofs.Distribution

/-!
# Programs without negation

Without negation both modes answer the same, in the same order, also with standard predicates in
bodies. A search that keeps proofs may take one more pass, where the last one has still brought new
proofs of known answers. Nothing that it reads has changed by then, so the pass puts what has been
put before, and all stays as it was.

* `pass_again`: a pass that brings no new answers can be repeated without any effect.
* `fixpoint_endAlike`, `solve_endAlike`: passes and queries end alike in both modes.
* `positive_modes_agree`: **both modes answer a sequence of positive queries alike.**
-/

namespace ProbDatalog

open Searching

/-! ## Searches alongside each other -/

namespace Search

variable {s s' t t' : Search Resident} {older older' : Chronicle}

/-- Two searches that have completed the same patterns with the same answers in their tables. -/
structure Alongside (s s' : Search Resident) : Prop where
  expanded : s.expanded = s'.expanded
  level : ∃ older older', Level s s' older older'

/-- Only the tables and the patterns that have been expanded or completed matter. -/
theorem Alongside.congr (h : Alongside s s') (ht : content t.tables = content s.tables)
    (ht' : content t'.tables = content s'.tables) (hexp : t.expanded = t'.expanded)
    (hcomplete : t.complete = t'.complete) : Alongside t t' := by
  obtain ⟨-, older, older', hlevel⟩ := h
  exact ⟨hexp, older, older', ht.trans hlevel.tables, ht'.trans hlevel.tables', hlevel.answers,
    hlevel.ground, hcomplete⟩

theorem Alongside.complete (h : Alongside s s') : s.complete = s'.complete := by
  obtain ⟨-, _, _, hlevel⟩ := h
  exact hlevel.complete

namespace Abreast

variable (hlevel : Level s s' older older')

include hlevel

theorem alongside {m m' : Mode} (h : Abreast m m' s s' older older' t t') :
    Alongside t t' := by
  obtain ⟨_, hnext⟩ := h.level hlevel
  exact ⟨h.expanded, _, _, hnext⟩

omit hlevel in
theorem complete_eq {m m' : Mode} (h : Abreast m m' s s' older older' t t') :
    t.complete = s.complete := by
  obtain ⟨⟨_, -, ht, -⟩, -⟩ := h
  exact ht.complete

omit hlevel in
/-- Tables that have not grown are as they were. -/
theorem content_eq_of_additions {m m' : Mode} (h : Abreast m m' s s' older older' t t')
    (hadd : t.additions = s.additions) : content t.tables = older.contents := by
  obtain ⟨⟨log, -, ht, -⟩, -⟩ := h
  have hgrowth : older.growth (log.map (.inMode m)) = 0 := by
    have := ht.additions
    omega
  rw [ht.tables, Chronicle.contents_of_growth_eq_zero hgrowth]

/-- Tables with proofs grow where those without do. -/
theorem additions_eq (h : Abreast .datalog .problog s s' older older' t t')
    (hadd : t'.additions = s'.additions) : t.additions = s.additions := by
  obtain ⟨⟨log, -, ht, ht'⟩, -⟩ := h
  have hgrowth : older'.growth (log.map (.inMode .problog)) = 0 := by
    have := ht'.additions
    omega
  rw [ht.additions, Chronicle.growth_datalog_eq_zero hlevel.answers hgrowth, Nat.add_zero]

end Abreast

end Search

namespace Searching

/-- Runs that come to an end, both with results that `Q` relates or both with an error, and leave
states alongside each other. -/
structure EndAlike {α β : Type} (Q : α → β → Prop) (run : Except Halt α × Search Resident)
    (run' : Except Halt β × Search Resident) : Prop where
  outcomes : Alike (fun _ _ => True) Q run.1 run'.1
  ends : run.1 ≠ .error .exhausted
  states : Search.Alongside run.2 run'.2

/-! ## Passes -/

/-- One pass of a search for a pattern. -/
def pass {σ : Type} (call : CallPattern → Searching σ Unit) (p : CallPattern) :
    Searching σ Unit := do
  modify fun s => { s with expanded := [], passes := s.passes + 1 }
  call p

/-- Passes are repeated until one leaves the tables as they were. -/
theorem fixpoint_succ {σ : Type} (call : CallPattern → Searching σ Unit) (p : CallPattern)
    (n : Nat) (s : Search σ) : fixpoint call p (n + 1) s =
      match pass call p s with
      | (.ok _, t) => if t.additions = s.additions then (.ok (), t) else fixpoint call p n t
      | (.error e, t) => (.error e, t) := by
  have hpass : pass call p s = call p { s with expanded := [], passes := s.passes + 1 } := rfl
  have hfix : fixpoint call p (n + 1) s = (call p >>= fun _ => get >>= fun t =>
      if t.additions = s.additions then Pure.pure () else fixpoint call p n)
        { s with expanded := [], passes := s.passes + 1 } := rfl
  rw [hpass, hfix, bind_run]
  rcases call p { s with expanded := [], passes := s.passes + 1 } with ⟨_ | _, t⟩
  · rfl
  · show (if t.additions = s.additions then Pure.pure () else fixpoint call p n :
      Searching σ Unit) t =
        if t.additions = s.additions then (.ok (), t) else fixpoint call p n t
    split <;> rfl

section Passes

variable {w : Theory} (hreg : w.registry = .standard)
variable (hpos : ∀ id c, w.program.clause? id = some c → ∀ l ∈ c.body, l.negated = false)
variable {m : Mode} {s s' t t' : Search Resident} {older older' : Chronicle}

include hreg hpos

/-- A pass keeps searches abreast that start it level. -/
theorem pass_abreast (hlevel : Search.Level s s' older older') (m m' : Mode) (depth : Nat)
    (l : Literal) :
    Alike (fun _ _ => True) (fun _ _ => True) (pass (expand (w.inMode m) depth) (.of l) s).1
        (pass (expand (w.inMode m') depth) (.of l) s').1 ∧
      Search.Abreast m m' s s' older older' (pass (expand (w.inMode m) depth) (.of l) s).2
        (pass (expand (w.inMode m') depth) (.of l) s').2 :=
  expand_keepsAbreast hreg hpos hlevel depth l { s with expanded := [], passes := s.passes + 1 }
    { s' with expanded := [], passes := s'.passes + 1 }
    ⟨⟨[], by simp, ⟨hlevel.tables, rfl, rfl⟩, ⟨hlevel.tables', rfl, rfl⟩⟩, rfl⟩

/-- **A pass that brings no new answers can be repeated without any effect.** -/
theorem pass_again {depth : Nat} {l : Literal} (hlevel : Search.Level s t older older')
    (hrun : pass (expand (w.inMode m) depth) (.of l) s = (.ok (), t)) :
    ∃ v, pass (expand (w.inMode m) depth) (.of l) t = (.ok (), v) ∧
      content v.tables = content t.tables ∧ v.additions = t.additions ∧
      v.complete = t.complete ∧ v.expanded = t.expanded := by
  obtain ⟨halike, ⟨log, -, ht, hv⟩, hexp⟩ := pass_abreast hreg hpos hlevel m m depth l
  rw [hrun] at halike ht hexp
  rcases hagain : pass (expand (w.inMode m) depth) (.of l) t with ⟨r, v⟩
  rw [hagain] at halike hv hexp
  cases halike with
  | ok _ =>
    -- the tables hold all entries of the log already
    have hgrowth : older'.growth (log.map (.inMode m)) = 0 :=
      Chronicle.growth_of_contents (hlevel.tables'.symm.trans ht.tables)
    refine ⟨v, rfl, ?_, ?_, hv.complete, hexp.symm⟩
    · rw [hv.tables, Chronicle.contents_of_growth_eq_zero hgrowth, hlevel.tables']
    · rw [hv.additions, hgrowth, Nat.add_zero]

/-- Where a pass without proofs has brought nothing, the search with proofs ends with its next
pass. -/
theorem fixpoint_catches_up {depth : Nat} {l : Literal} (hlevel : Search.Level s s' older older')
    (hrun : pass (expand (w.inMode .datalog) depth) (.of l) s = (.ok (), t))
    (hrun' : pass (expand (w.inMode .problog) depth) (.of l) s' = (.ok (), t'))
    (hadd : t.additions = s.additions) (n : Nat) :
    ∃ v, fixpoint (expand (w.inMode .problog) depth) (.of l) (n + 1) t' = (.ok (), v) ∧
      Search.Alongside t v := by
  obtain ⟨-, hab⟩ := pass_abreast hreg hpos hlevel .datalog .problog depth l
  rw [hrun, hrun'] at hab
  obtain ⟨-, newer, newer', hnext⟩ := hab.alongside hlevel
  have hsame : newer.contents = older.contents :=
    hnext.tables.symm.trans (hab.content_eq_of_additions hadd)
  have hanswers : ∀ p, (older'.contents p).keys = (newer'.contents p).keys := fun p => by
    rw [← hlevel.answers, ← hnext.answers, hsame]
  have hlevel' : Search.Level s' t' older' newer' :=
    ⟨hlevel.tables', hnext.tables', hanswers, fun p => hlevel.answers p ▸ hlevel.ground p,
      hlevel.complete.symm.trans (hab.complete_eq.symm.trans hnext.complete)⟩
  obtain ⟨v, hagain, hcontent, hadd', hcomplete, hexp⟩ := pass_again hreg hpos hlevel' hrun'
  refine ⟨v, ?_, (hab.alongside hlevel).congr rfl hcontent (hab.expanded.trans hexp.symm)
    (hnext.complete.trans hcomplete.symm)⟩
  rw [fixpoint_succ, hagain]
  exact if_pos hadd'

/-- **Passes end alike in both modes.** Where one of the searches comes to an end, so does the other
one, if the search that keeps proofs may take one more pass. -/
theorem fixpoint_endAlike (hs : Search.Alongside s s') (depth : Nat) (l : Literal) (n : Nat)
    (h : (fixpoint (expand (w.inMode .datalog) depth) (.of l) n s).1 ≠ .error .exhausted ∨
      (fixpoint (expand (w.inMode .problog) depth) (.of l) n s').1 ≠ .error .exhausted) :
    EndAlike (fun _ _ => True) (fixpoint (expand (w.inMode .datalog) depth) (.of l) n s)
      (fixpoint (expand (w.inMode .problog) depth) (.of l) (n + 1) s') := by
  -- by induction on the passes that are left: both searches are alongside each other in between
  induction n generalizing s s' with
  | zero => exact h.elim (absurd rfl) (absurd rfl)
  | succ n ih =>
    obtain ⟨-, older, older', hlevel⟩ := hs
    obtain ⟨halike, hab⟩ := pass_abreast hreg hpos hlevel .datalog .problog depth l
    rcases hrun : pass (expand (w.inMode .datalog) depth) (.of l) s with ⟨r, t⟩
    rcases hrun' : pass (expand (w.inMode .problog) depth) (.of l) s' with ⟨r', t'⟩
    rw [hrun, hrun'] at halike hab
    rw [fixpoint_succ, fixpoint_succ, hrun, hrun'] at h
    rw [fixpoint_succ, fixpoint_succ, hrun, hrun']
    cases halike with
    | failed _ => exact ⟨.failed trivial, by simp, hab.alongside hlevel⟩
    | exhausted => simp at h
    | ok _ =>
      dsimp only at h ⊢
      by_cases hadd : t.additions = s.additions
      · rw [if_pos hadd]
        by_cases hadd' : t'.additions = s'.additions
        · rw [if_pos hadd']
          exact ⟨.ok trivial, by simp, hab.alongside hlevel⟩
        · -- the search that keeps proofs takes one more pass
          obtain ⟨v, hv, hstates⟩ := fixpoint_catches_up hreg hpos hlevel hrun hrun' hadd n
          rw [if_neg hadd', hv]
          exact ⟨.ok trivial, by simp, hstates⟩
      · have hadd' : t'.additions ≠ s'.additions := fun hadd' =>
          hadd (hab.additions_eq hlevel hadd')
        rw [if_neg hadd, if_neg hadd'] at h
        rw [if_neg hadd, if_neg hadd']
        exact ih (hab.alongside hlevel) h

end Passes

/-! ## Queries -/

section Queries

variable {s s' : Search Resident}

namespace EndAlike

variable {α β γ δ : Type} {Q : α → β → Prop} {S : γ → δ → Prop}
variable {run : Except Halt α × Search Resident} {run' : Except Halt β × Search Resident}

theorem ends' (h : EndAlike Q run run') : run'.1 ≠ .error .exhausted := by
  obtain ⟨houtcomes, hends, -⟩ := h
  generalize run.1 = r at houtcomes hends
  generalize run'.1 = r' at houtcomes
  cases houtcomes with
  | ok _ => simp
  | failed _ => simp
  | exhausted => exact absurd rfl hends

/-- **One step after another.** -/
theorem bind {x : Searching Resident α} {y : Searching Resident β}
    {f : α → Searching Resident γ} {g : β → Searching Resident δ} (h : EndAlike Q (x s) (y s'))
    (hf : ∀ a b t t', Q a b → Search.Alongside t t' → EndAlike S (f a t) (g b t')) :
    EndAlike S ((x >>= f) s) ((y >>= g) s') := by
  obtain ⟨houtcomes, hends, hstates⟩ := h
  rw [bind_run, bind_run]
  generalize x s = run at houtcomes hends hstates
  generalize y s' = run' at houtcomes hstates
  obtain ⟨r, t⟩ := run
  obtain ⟨r', t'⟩ := run'
  cases houtcomes with
  | ok hab => exact hf _ _ t t' hab hstates
  | failed _ => exact ⟨.failed trivial, by simp, hstates⟩
  | exhausted => exact absurd rfl hends

end EndAlike

/-- Both searches read the same answers. -/
theorem answers_endAlike (hs : Search.Alongside s s') (p : CallPattern)
    (g : List Literal → List Literal) :
    EndAlike Eq ((readTables (Tables.answers · p) >>= fun l => pure (g l) :
        Searching Resident (List Literal)) s)
      ((readTables (Tables.answers · p) >>= fun l => pure (g l) :
        Searching Resident (List Literal)) s') := by
  have hread : ∀ s : Search Resident, (readTables (Tables.answers · p) >>= fun l => pure (g l) :
      Searching Resident (List Literal)) s = (.ok (g (content s.tables p).keys), s) := fun _ => rfl
  obtain ⟨-, older, older', hlevel⟩ := id hs
  rw [hread, hread, hlevel.tables, hlevel.tables', hlevel.answers]
  exact ⟨.ok rfl, by simp, hs⟩

variable {w : Theory} (hreg : w.registry = .standard)
variable (hpos : ∀ id c, w.program.clause? id = some c → ∀ l ∈ c.body, l.negated = false)

include hreg hpos

/-- A pattern is completed in both modes, with the same patterns along with it. -/
theorem saturate_endAlike (hs : Search.Alongside s s') (l : Literal) (n : Nat)
    (h : (saturate (w.inMode .datalog) n (.of l) s).1 ≠ .error .exhausted ∨
      (saturate (w.inMode .problog) n (.of l) s').1 ≠ .error .exhausted) :
    EndAlike (fun _ _ => True) (saturate (w.inMode .datalog) n (.of l) s)
      (saturate (w.inMode .problog) (n + 1) (.of l) s') := by
  have hcomplete := hs.complete
  unfold saturate at h ⊢
  by_cases hp : s.complete.contains (.of l) = true
  · have hp' : s'.complete.contains (.of l) = true := hcomplete ▸ hp
    unfold saturating
    rw [if_pos hp, if_pos hp']
    exact ⟨.ok trivial, by simp, hs⟩
  · have hp' : ¬s'.complete.contains (.of l) = true := hcomplete ▸ hp
    have hstart : Search.Alongside { s with expanded := [] } { s' with expanded := [] } :=
      hs.congr rfl rfl rfl hcomplete
    have hend := fixpoint_endAlike hreg hpos hstart n l n
      (h.imp (ne_exhausted_of_saturating hp) (ne_exhausted_of_saturating hp'))
    -- calls may go one level deeper, too
    have hdeeper := fixpoint_refines (expand_refines (w := w.inMode .problog) (Nat.le_succ n))
      (Nat.le_refl (n + 1)) (.of l) { s' with expanded := [] } hend.ends'
    unfold saturating
    rw [if_neg hp, if_neg hp', hdeeper]
    obtain ⟨houtcomes, hends, hstates⟩ := hend
    generalize fixpoint (expand (w.inMode .datalog) n) (.of l) n { s with expanded := [] } = run
      at houtcomes hends hstates
    generalize fixpoint (expand (w.inMode .problog) n) (.of l) (n + 1)
      { s' with expanded := [] } = run' at houtcomes hstates
    obtain ⟨r, t⟩ := run
    obtain ⟨r', t'⟩ := run'
    cases houtcomes with
    | ok _ =>
      exact ⟨.ok trivial, by simp, hstates.congr rfl rfl hs.expanded
        (congrArg₂ (· ++ ·) hstates.expanded hstates.complete)⟩
    | failed _ =>
      exact ⟨.failed trivial, by simp, hstates.congr rfl rfl hs.expanded hstates.complete⟩
    | exhausted => exact absurd rfl hends

/-- **A positive query ends alike in both modes**, whether it succeeds or fails. -/
theorem solve_endAlike (hs : Search.Alongside s s') {q : Literal} (hq : q.negated = false) (n : Nat)
    (h : (solve (w.inMode .datalog) n q s).1 ≠ .error .exhausted ∨
      (solve (w.inMode .problog) n q s').1 ≠ .error .exhausted) :
    EndAlike Eq (solve (w.inMode .datalog) n q s) (solve (w.inMode .problog) (n + 1) q s') := by
  by_cases hc : w.registry.contains q.predicate = true
  · have hc' : ∀ m, (w.inMode m).registry.contains q.predicate = true := fun _ => hc
    rw [solve_evaluable (hc' _), solve_evaluable (hc' _)]
    show EndAlike Eq ((w.registry.answers q).mapError .failed, s)
      ((w.registry.answers q).mapError .failed, s')
    cases w.registry.answers q with
    | ok answers => exact ⟨.ok rfl, by simp [Except.mapError], hs⟩
    | error e => exact ⟨.failed trivial, by simp [Except.mapError], hs⟩
  · have hrel : w.registry.contains q.predicate = false := by simpa using hc
    have hsolve := fun m n =>
      solve_of_relational (σ := Resident) (w := w.inMode m) n (q := q) (by simpa using hq) hrel
    rw [hsolve, hsolve] at h ⊢
    exact (saturate_endAlike hreg hpos hs q n
      (h.imp ne_exhausted_of_bind ne_exhausted_of_bind)).bind
      fun _ _ _ _ _ hstates => answers_endAlike hstates _ _

end Queries

/-! ## Sequences of queries -/

/-- Queries are answered one after the other. Each of them comes to its outcome from the state that
the one before it has left, whether that one has succeeded or failed. -/
inductive Answered {σ : Type} [Tables σ] (w : Theory) : Search σ → List Literal →
    List (Except Error (List Literal)) → Search σ → Prop
  | nil (s : Search σ) : Answered w s [] [] s
  | cons {s t u : Search σ} {q : Literal} {qs : List Literal} {r : Except Error (List Literal)}
      {rs : List (Except Error (List Literal))}
      (first : ComesTo (fun n => solve w n q) s r t) (rest : Answered w t qs rs u) :
      Answered w s (q :: qs) (r :: rs) u

/-- **Queries are answered alike one after the other if each of them is.** -/
theorem Answered.follow {σ τ : Type} [Tables σ] [Tables τ] {w w' : Theory}
    {R : Search σ → Search τ → Prop} {P : Literal → Prop}
    {E : Except Error (List Literal) → Except Error (List Literal) → Prop}
    (hstep : ∀ {s t s' q r}, R s s' → P q → ComesTo (fun n => solve w n q) s r t →
      ∃ r' t', ComesTo (fun n => solve w' n q) s' r' t' ∧ E r r' ∧ R t t')
    {s t : Search σ} {s' : Search τ} {qs : List Literal} {rs : List (Except Error (List Literal))}
    (h : Answered w s qs rs t) (hqs : ∀ q ∈ qs, P q) (hs : R s s') :
    ∃ rs' t', Answered w' s' qs rs' t' ∧ List.Forall₂ E rs rs' := by
  induction h generalizing s' with
  | nil => exact ⟨[], s', .nil s', .nil⟩
  | cons first _ ih =>
    obtain ⟨hq, hqs⟩ := List.forall_mem_cons.1 hqs
    obtain ⟨r', t', first', hr, hstates⟩ := hstep hs hq first
    obtain ⟨rs', u', rest', hrest⟩ := ih hqs hstates
    exact ⟨r' :: rs', u', .cons first' rest', .cons hr hrest⟩

/-- Both outcomes are the same answers in the same order, or both are errors. -/
def SameAnswers (r r' : Except Error (List Literal)) : Prop :=
  ∀ answers, r = .ok answers ↔ r' = .ok answers

theorem Alike.sameAnswers {r r' : Except Error (List Literal)}
    (h : Alike (fun _ _ => True) Eq (r.mapError Halt.failed) (r'.mapError Halt.failed)) :
    SameAnswers r r' := by
  intro answers
  cases r with
  | ok found =>
    cases r' with
    | ok found' =>
      cases h with
      | ok heq => rw [heq]
    | error e' => cases h
  | error e =>
    cases r' with
    | ok found' => cases h
    | error e' => simp

section Sequences

variable {w : Theory} (hreg : w.registry = .standard)
variable (hpos : ∀ id c, w.program.clause? id = some c → ∀ l ∈ c.body, l.negated = false)
variable {s s' t t' : Search Resident} {q : Literal} {qs : List Literal}
variable {r r' : Except Error (List Literal)} {rs rs' : List (Except Error (List Literal))}

include hreg hpos

/-- A query that comes to an outcome without proofs does so with proofs. -/
theorem solve_comesTo_problog (hs : Search.Alongside s s') (hq : q.negated = false)
    (h : ComesTo (fun n => solve (w.inMode .datalog) n q) s r t) :
    ∃ r' t', ComesTo (fun n => solve (w.inMode .problog) n q) s' r' t' ∧ SameAnswers r r' ∧
      Search.Alongside t t' := by
  obtain ⟨n, hrun⟩ := h.exists_run
  have hend := solve_endAlike hreg hpos hs hq n (.inl (by
    rw [hrun]
    exact mapError_ne_exhausted r))
  obtain ⟨r', t', h', hrun'⟩ := ComesTo.of_refines (fun _ _ h => solve_refines h _) hend.ends'
  rw [hrun, hrun'] at hend
  exact ⟨r', t', h', hend.outcomes.sameAnswers, hend.states⟩

/-- A query that comes to an outcome with proofs does so without proofs. -/
theorem solve_comesTo_datalog (hs : Search.Alongside s s') (hq : q.negated = false)
    (h : ComesTo (fun n => solve (w.inMode .problog) n q) s' r' t') :
    ∃ r t, ComesTo (fun n => solve (w.inMode .datalog) n q) s r t ∧ SameAnswers r r' ∧
      Search.Alongside t t' := by
  obtain ⟨n, hn⟩ := h
  have hn : ∀ k, n ≤ k → solve (w.inMode .problog) k q s' = (r'.mapError .failed, t') := hn
  have hend := solve_endAlike hreg hpos hs hq n (.inr (by
    rw [hn n (Nat.le_refl n)]
    exact mapError_ne_exhausted r'))
  obtain ⟨r, t, h, hrun⟩ := ComesTo.of_refines (fun _ _ h => solve_refines h _) hend.ends
  rw [hrun, hn (n + 1) (Nat.le_succ n)] at hend
  exact ⟨r, t, h, hend.outcomes.sameAnswers, hend.states⟩

theorem Answered.problog (h : Answered (w.inMode .datalog) s qs rs t)
    (hqs : ∀ q ∈ qs, q.negated = false) (hs : Search.Alongside s s') :
    ∃ rs' t', Answered (w.inMode .problog) s' qs rs' t' ∧ List.Forall₂ SameAnswers rs rs' :=
  h.follow (fun hs hq first => solve_comesTo_problog hreg hpos hs hq first) hqs hs

theorem Answered.datalog (h : Answered (w.inMode .problog) s' qs rs' t')
    (hqs : ∀ q ∈ qs, q.negated = false) (hs : Search.Alongside s s') :
    ∃ rs t, Answered (w.inMode .datalog) s qs rs t ∧ List.Forall₂ SameAnswers rs rs' := by
  obtain ⟨rs, t, h, hall⟩ := h.follow (R := flip Search.Alongside) (E := flip SameAnswers)
    (fun hs hq first => solve_comesTo_datalog hreg hpos hs hq first) hqs hs
  exact ⟨rs, t, h, hall.flip⟩

end Sequences

end Searching

open Searching

/-- **Both modes answer a sequence of positive queries alike** where no clause uses negation. They
answer the queries one after the other, each mode on tables of its own that are empty at first.
Where one mode comes to an outcome for every query, so does the other one. Each query then succeeds
in both modes, with the same answers in the same order, or it fails in both. -/
theorem positive_modes_agree {w : Theory} (hreg : w.registry = .standard)
    (hpos : ∀ id c, w.program.clause? id = some c → ∀ l ∈ c.body, l.negated = false)
    {qs : List Literal} (hqs : ∀ q ∈ qs, q.negated = false) (scope scope' : UInt32) :
    (∀ rs t, Answered (w.inMode .datalog) (.start Resident.empty scope) qs rs t →
      ∃ rs' t', Answered (w.inMode .problog) (.start Resident.empty scope') qs rs' t' ∧
        List.Forall₂ SameAnswers rs rs') ∧
    ∀ rs' t', Answered (w.inMode .problog) (.start Resident.empty scope') qs rs' t' →
      ∃ rs t, Answered (w.inMode .datalog) (.start Resident.empty scope) qs rs t ∧
        List.Forall₂ SameAnswers rs rs' := by
  have hstart : Search.Alongside (.start Resident.empty scope) (.start Resident.empty scope') :=
    ⟨rfl, [], [], rfl, rfl, fun _ => rfl, by simp [Chronicle.contents], rfl⟩
  exact ⟨fun _ _ h => h.problog hreg hpos hqs hstart,
    fun _ _ h => h.datalog hreg hpos hqs hstart⟩

/-! ## Trips -/

namespace Trips

open Birds (about general half)

/-- A predicate of two places. -/
def between (predicate x y : String) : Literal :=
  .of predicate [.const (.string x), .const (.string y)]

/-- Trips go along roads that may be open, and may go in circles. A ticket for a trip names both
ends of it. Gifts are only for those who ask for the impossible: a name that is put together from
something else. -/
def clauses : List Clause :=
  let x : Term := .var ⟨"X", 0⟩
  let y : Term := .var ⟨"Y", 0⟩
  let z : Term := .var ⟨"Z", 0⟩
  [⟨between "road" "a" "b", [], half⟩, ⟨between "road" "b" "a", [], half⟩,
    ⟨.of "trip" [x, y], [.of "road" [x, y]], .certain⟩,
    ⟨.of "trip" [x, z], [.of "trip" [x, y], .of "road" [y, z]], half⟩,
    ⟨.of "ticket" [z], [.of "trip" [x, y], .of "!=" [x, y], .of "fn_concat" [z, x, y]], .certain⟩,
    ⟨.of "free" [.const (.boolean true)], [], .certain⟩,
    ⟨.of "gift" [y], [.of "free" [x], .of "fn_concat" [y, x, x]], .certain⟩]

/-- The theory of trips. -/
def theory : Theory := ⟨(Program.empty.assertAll clauses).2, .standard, .problog⟩

theorem positive (id : ClauseId) (c : Clause) (hid : theory.program.clause? id = some c) :
    ∀ l ∈ c.body, l.negated = false := by
  have hall : ∀ c ∈ theory.program.clauses.toList, ∀ l ∈ c.body, l.negated = false := by
    decide +kernel
  exact hall c (Array.mem_toList_iff.2 (Program.mem_clauses_of_clause? hid))

/-- Any gifts. -/
def gifts : Literal := general "gift"

/-- Any tickets. -/
def tickets : Literal := general "ticket"

/-- Any trips. -/
def trips : Literal := .of "trip" [.var ⟨"X", 0⟩, .var ⟨"Y", 0⟩]

/-- What the queries come to, one after the other. -/
def outcomes : List (Except Error (List Literal)) :=
  [.error (.kind "fn_concat" (.const (.boolean true)) "string"),
    .ok [about "ticket" "ab", about "ticket" "ba"],
    .ok [between "trip" "a" "b", between "trip" "b" "a", between "trip" "a" "a",
      between "trip" "b" "b"]]

/-- The queries come to their outcomes without proofs. -/
theorem answered : ∃ t, Answered (theory.inMode .datalog) (.start Resident.empty 0)
    [gifts, tickets, trips] outcomes t := by
  have hsolve (q : Literal) (m n : Nat) (hmn : m ≤ n) :
      Refines (solve (theory.inMode .datalog) m q : Searching Resident (List Literal))
        (solve (theory.inMode .datalog) n q) := solve_refines hmn q
  exact ⟨_, .cons (.of_outcome (n := 9) (hsolve gifts) (by decide +kernel))
    (.cons (.of_outcome (n := 9) (hsolve tickets) (by decide +kernel))
      (.cons (.of_outcome (n := 9) (hsolve trips) (by decide +kernel)) (.nil _)))⟩

/-- Asking for gifts fails in both modes, and both go on with the tickets, for which the search that
keeps proofs takes one more pass. The trips have been found by then. -/
theorem modes_agree_trips :
    (solve (theory.inMode .datalog) 9 tickets (.start Resident.empty 0)).2.passes = 2 ∧
    (solve (theory.inMode .problog) 9 tickets (.start Resident.empty 7)).2.passes = 3 ∧
    ∃ rs' t', Answered (theory.inMode .problog) (.start Resident.empty 7) [gifts, tickets, trips]
      rs' t' ∧ List.Forall₂ SameAnswers outcomes rs' := by
  obtain ⟨t, h⟩ := answered
  have hqueries : ∀ q ∈ [gifts, tickets, trips], q.negated = false := by decide
  have hagree := positive_modes_agree (w := theory) rfl positive hqueries 0 7
  exact ⟨by decide +kernel, by decide +kernel, hagree.1 outcomes t h⟩

end Trips

end ProbDatalog
