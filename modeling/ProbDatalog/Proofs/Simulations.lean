import ProbDatalog.Proofs.Calls
import ProbDatalog.Proofs.Relations

/-!
# Searches that simulate each other

Much of what a search does has nothing to do with how clauses are tried: it keeps its books, makes
passes, decides negations from what the tables hold, and answers what it is asked. This is gone
through once, for any relation between the states of two searches that have the same books and find
the same in their tables. The searches may be over theories that differ in the errors of evaluable
predicates. What is left to show for such a relation is how clauses are tried.

* `Theory.EvaluatesAlike`: theories that differ in nothing but errors.
* `Simulation`: what is asked of a relation between states.
* `Simulation.resolve`: what is done with a call that may be evaluable.
* `Simulation.fixpoint`, `Simulation.decideNegation`: passes and decisions, from the calls.
* `Simulation.expandOnce`: an expansion, from the clauses.
* `Simulation.run`, `Simulation.results`: **all calls, from the expansion of patterns.**
-/

namespace ProbDatalog

variable {σ τ α : Type}

/-- Theories that differ in nothing but the errors of evaluable predicates. -/
structure Theory.EvaluatesAlike (E : Error → Error → Prop) (w w' : Theory) : Prop where
  program : w.program = w'.program
  mode : w.mode = w'.mode
  resolve : ∀ l,
    (∃ e, w.registry.resolve l = .error e ∧ w'.registry.resolve l = .error e) ∨
    (w.registry.resolve l = .ok none ∧ w'.registry.resolve l = .ok none) ∨
    ∃ e e', w.registry.resolve l = .ok (some e) ∧ w'.registry.resolve l = .ok (some e') ∧
      ((∃ o, e.evaluate l.terms = .ok o ∧ e'.evaluate l.terms = .ok o) ∨
        ∃ err err', e.evaluate l.terms = .error err ∧ e'.evaluate l.terms = .error err' ∧
          E err err')

theorem Theory.EvaluatesAlike.refl {E : Error → Error → Prop} (hE : ∀ e, E e e) (w : Theory) :
    w.EvaluatesAlike E w where
  program := rfl
  mode := rfl
  resolve l := by
    rcases w.registry.resolve l with err | _ | e
    · exact .inl ⟨err, rfl, rfl⟩
    · exact .inr (.inl ⟨rfl, rfl⟩)
    · refine .inr (.inr ⟨e, e, rfl, rfl, ?_⟩)
      rcases e.evaluate l.terms with err | o
      · exact .inr ⟨err, err, rfl, rfl, hE err⟩
      · exact .inl ⟨o, rfl, rfl⟩

/-- Searches with the same books: what they have noted about patterns, and what they count. -/
structure Search.SameBooks (s : Search σ) (t : Search τ) : Prop where
  expanded : s.expanded = t.expanded
  complete : s.complete = t.complete
  negating : s.negating = t.negating
  additions : s.additions = t.additions
  passes : s.passes = t.passes

namespace Searching

variable [Tables σ] [Tables τ]

/-- A relation between states of searches with the same books, which does not depend on what these
are, and whose tables come to the same wherever they are looked up. -/
structure Simulation (R : Search σ → Search τ → Prop) (E : Error → Error → Prop) : Prop where
  refl : ∀ e, E e e
  books : ∀ {s t}, R s t → s.SameBooks t
  congr : ∀ {s s' t t'}, R s t → Search.SameBooks s' t' → s'.tables = s.tables →
    s'.scope = s.scope → t'.tables = t.tables → t'.scope = t.scope → R s' t'
  contains : ∀ {s t}, R s t → ∀ p, Tables.contains s.tables p = Tables.contains t.tables p
  patterns : ∀ {s t}, R s t → Tables.patterns s.tables = Tables.patterns t.tables
  size : ∀ {s t}, R s t → Tables.size s.tables = Tables.size t.tables
  get : ∀ p, Relates R E (onTables (Tables.get · p)) (onTables (Tables.get · p)) Eq
  answers : ∀ p,
    Relates R E (readTables (Tables.answers · p)) (readTables (Tables.answers · p)) Eq
  justification : ∀ l, Relates R E (justification l) (justification l) Eq

namespace Simulation

variable {R : Search σ → Search τ → Prop} {E : Error → Error → Prop} (hR : Simulation R E)

include hR

/-! ### Books -/

theorem enter (p : CallPattern) :
    Relates R E (Searching.enter p : Searching σ Bool) (Searching.enter p : Searching τ Bool)
      Eq := by
  intro s t hst
  have hb := hR.books hst
  have hcond : (s.complete.contains p || s.expanded.contains p) =
      (t.complete.contains p || t.expanded.contains p) := by
    rw [hb.complete, hb.expanded]
  unfold Searching.enter
  rw [hcond]
  split
  · exact ⟨.ok rfl, hst⟩
  · exact ⟨.ok rfl, hR.congr hst { hb with expanded := congrArg (p :: ·) hb.expanded } rfl rfl
      rfl rfl⟩

variable {x : Searching σ Unit} {y : Searching τ Unit} (h : Relates R E x y Eq)

include h

theorem saturating (p : CallPattern) :
    Relates R E (Searching.saturating p x) (Searching.saturating p y) Eq := by
  intro s t hst
  have hb := hR.books hst
  have hcond : s.complete.contains p = t.complete.contains p := by rw [hb.complete]
  unfold Searching.saturating
  rw [hcond]
  split
  · exact ⟨.ok rfl, hst⟩
  · obtain ⟨hr, hnext⟩ := h { s with expanded := [] } { t with expanded := [] }
      (hR.congr hst { hb with expanded := rfl } rfl rfl rfl rfl)
    generalize x { s with expanded := [] } = run at hr hnext
    generalize y { t with expanded := [] } = run' at hr hnext
    obtain ⟨r, s'⟩ := run
    obtain ⟨r', t'⟩ := run'
    have hb' := hR.books hnext
    have hcomplete : s'.expanded ++ s'.complete = t'.expanded ++ t'.complete := by
      rw [hb'.expanded, hb'.complete]
    -- the record of the patterns is put back, and is longer only after a success
    have hfailed : R { s' with expanded := s.expanded } { t' with expanded := t.expanded } :=
      hR.congr hnext { hb' with expanded := hb.expanded } rfl rfl rfl rfl
    cases hr with
    | ok _ =>
      exact ⟨.ok rfl, hR.congr hnext
        { hb' with expanded := hb.expanded, complete := hcomplete } rfl rfl rfl rfl⟩
    | failed he => exact ⟨.failed he, hfailed⟩
    | exhausted => exact ⟨.exhausted, hfailed⟩

theorem refuting (p : CallPattern) (l : Literal) :
    Relates R E (Searching.refuting p l x) (Searching.refuting p l y) Eq := by
  intro s t hst
  have hb := hR.books hst
  have hcond : s.negating.contains p = t.negating.contains p := by rw [hb.negating]
  unfold Searching.refuting
  rw [hcond]
  split
  · exact ⟨.failed (hR.refl _), hst⟩
  · obtain ⟨hr, hnext⟩ := h { s with negating := p :: s.negating }
      { t with negating := p :: t.negating }
      (hR.congr hst { hb with negating := congrArg (p :: ·) hb.negating } rfl rfl rfl rfl)
    have hb' := hR.books hnext
    exact ⟨hr, hR.congr hnext
      { hb' with negating := congrArg (List.erase · p) hb'.negating } rfl rfl rfl rfl⟩

omit h

/-- Both searches note that one more answer or proof has been added. -/
theorem added : Relates R E
    (modify fun s => { s with additions := s.additions + 1 } : Searching σ PUnit)
    (modify fun t => { t with additions := t.additions + 1 } : Searching τ PUnit) Eq := by
  refine .change fun s t hst => hR.congr hst ?_ rfl rfl rfl rfl
  have hb := hR.books hst
  exact { hb with additions := congrArg (· + 1) hb.additions }

/-! ### Expansion -/

section Calls

variable {w w' : Theory} (hw : w.EvaluatesAlike E w')

include hw

/-- **What is done with a call that may be evaluable**: its outcome is used, or else it is looked
up. -/
theorem resolve {β γ : Type} {Q : β → γ → Prop} {l : Literal} {f : Outcome → Searching σ β}
    {g : Outcome → Searching τ γ} {x : Searching σ β} {y : Searching τ γ}
    (hf : ∀ o, Relates R E (f o) (g o) Q) (hx : Relates R E x y Q) :
    Relates R E
      (do
        match ← ofExcept (w.registry.resolve l) with
        | some e => (do f (← ofExcept (e.evaluate l.terms)))
        | none => x)
      (do
        match ← ofExcept (w'.registry.resolve l) with
        | some e => (do g (← ofExcept (e.evaluate l.terms)))
        | none => y) Q := by
  rcases hw.resolve l with ⟨err, h, h'⟩ | ⟨h, h'⟩ | ⟨e, e', h, h', heval⟩
  · rw [h, h']
    exact .fail (hR.refl err)
  · rw [h, h']
    exact hx
  · rw [h, h']
    show Relates R E (ofExcept (e.evaluate l.terms) >>= f) (ofExcept (e'.evaluate l.terms) >>= g) Q
    rcases heval with ⟨o, ho, ho'⟩ | ⟨err, err', ho, ho', herr⟩
    · rw [ho, ho']
      exact hf o
    · rw [ho, ho']
      exact .fail herr

/-- The same calls are evaluable. -/
theorem evaluable {l : Literal} : Relates R E
    (ofExcept (w.registry.resolve l) : Searching σ (Option Evaluable))
    (ofExcept (w'.registry.resolve l) : Searching τ (Option Evaluable))
    fun o o' => o.isNone = o'.isNone := by
  rcases hw.resolve l with ⟨err, h, h'⟩ | ⟨h, h'⟩ | ⟨e, e', h, h', -⟩ <;> rw [h, h']
  · exact .fail (hR.refl err)
  · exact .pure rfl
  · exact .pure rfl

omit hw

variable {call : CallPattern → Searching σ Unit} {call' : CallPattern → Searching τ Unit}
  (passes : Nat)

theorem fixpoint {p : CallPattern} (hcall : Relates R E (call p) (call' p) Eq) :
    Relates R E (Searching.fixpoint call p passes) (Searching.fixpoint call' p passes) Eq := by
  induction passes with
  | zero => exact .exhausted
  | succ passes ih =>
    unfold Searching.fixpoint
    refine .get_bind fun s t hst => ?_
    have hpass : ∀ (s : Search σ) (t : Search τ), R s t →
        R { s with expanded := [], passes := s.passes + 1 }
          { t with expanded := [], passes := t.passes + 1 } := fun s t hst =>
      have hb := hR.books hst
      hR.congr hst { hb with expanded := rfl, passes := congrArg (· + 1) hb.passes } rfl rfl rfl rfl
    refine (Relates.change hpass).bind_same fun _ => hcall.bind_same fun _ =>
      .get_bind fun s' t' hst' => ?_
    -- both stop after this pass or neither does, as their tables have grown as often
    rw [(hR.books hst).additions, (hR.books hst').additions]
    split
    · exact .pure rfl
    · exact ih

include hw

theorem decideNegation (hcall : ∀ l, Relates R E (call (.of l)) (call' (.of l)) Eq)
    (negated : Literal) : Relates R E (Searching.decideNegation w call passes negated)
      (Searching.decideNegation w' call' passes negated) Eq := by
  refine hR.resolve hw (fun _ => .pure rfl) ?_
  refine (hR.refuting (hR.saturating (hR.fixpoint passes (hcall _)) _) _ _).bind_same fun _ =>
    (hR.answers _).bind_same fun answers => ?_
  split
  · exact .pure rfl
  · rw [hw.mode]
    cases w'.mode with
    | datalog => exact .pure rfl
    | problog =>
      exact (hR.justification _).bind_same fun proofs =>
        (Relates.ofOption_same _).bind_same fun _ => .pure rfl

/-- **A pattern is expanded alike** if its clauses are tried alike. -/
theorem expandOnce (p : CallPattern)
    (htry : ∀ x ∈ w.program.candidates p.literal,
      Relates R E (tryClause w call passes p x.1 x.2) (tryClause w' call' passes p x.1 x.2)
        fun _ _ => True) :
    Relates R E (Searching.expandOnce w call passes p) (Searching.expandOnce w' call' passes p)
      Eq := by
  have hall := Relates.forM_same _ htry
  unfold Searching.expandOnce
  rw [← hw.program]
  refine (hR.enter p).bind_same fun entered => ?_
  cases entered with
  | false => exact .pure rfl
  | true =>
    simp only [if_true]
    refine .get_bind fun s t hst => ?_
    rw [hR.contains hst]
    split
    · exact (hR.get p).bind_same fun _ => hall
    · exact hall

end Calls

/-! ### Calls of a search -/

theorem effort : Relates R E (Searching.effort : Searching σ Effort)
    (Searching.effort : Searching τ Effort) Eq := by
  refine .get_bind fun s t hst => ?_
  rw [hR.patterns hst]
  refine (Relates.mapM_same _ hR.get).bind_same fun subgoals => .get_bind fun s t hst => ?_
  rw [hR.size hst, (hR.books hst).passes]
  exact .pure rfl

section Queries

variable {w w' : Theory} (hw : w.EvaluatesAlike E w') {depth : Nat}
  (hexpand : ∀ l, Relates R E (expand w depth (.of l) : Searching σ Unit)
    (expand w' depth (.of l) : Searching τ Unit) Eq)

include hexpand

theorem saturate (l : Literal) :
    Relates R E (Searching.saturate w depth (.of l) : Searching σ Unit)
      (Searching.saturate w' depth (.of l) : Searching τ Unit) Eq :=
  hR.saturating (hR.fixpoint depth (hexpand l)) _

include hw

theorem solve (q : Literal) :
    Relates R E (Searching.solve w depth q : Searching σ (List Literal))
      (Searching.solve w' depth q : Searching τ (List Literal)) Eq := by
  unfold Searching.solve
  split
  · split
    · exact (hR.decideNegation hw depth hexpand q).bind_same fun _ => .pure rfl
    · exact .fail (hR.refl _)
  · refine hR.resolve hw (fun outcome => ?_) ?_
    · cases outcome <;> exact .pure rfl
    · exact (hR.saturate hexpand q).bind_same fun _ => (hR.answers _).bind_same fun _ => .pure rfl

theorem isAnswer (f : Literal) :
    Relates R E (Searching.isAnswer w depth f : Searching σ Bool)
      (Searching.isAnswer w' depth f : Searching τ Bool) Eq :=
  (hR.solve hw hexpand f).bind_same fun _ => .pure rfl

theorem probability [Weight α] (l : Literal) :
    Relates R E (Searching.probability w depth α l : Searching σ α)
      (Searching.probability w' depth α l : Searching τ α) Eq := by
  unfold Searching.probability
  split
  · refine (hR.evaluable hw).bind fun o o' ho => ?_
    dsimp only
    rw [← hw.mode, ← ho]
    split
    · exact (hR.solve hw hexpand _).bind_same fun _ => (hR.justification _).bind_same fun _ =>
        (Relates.ofOption_same _).bind_same fun _ => .pure rfl
    · exact (hR.isAnswer hw hexpand _).bind_same fun _ => .pure rfl
  · exact .fail (hR.refl _)

theorem proofs (q : Literal) :
    Relates R E (Searching.proofs w depth q : Searching σ ProofSet)
      (Searching.proofs w' depth q : Searching τ ProofSet) Eq :=
  (hR.solve hw hexpand q).bind_same fun answers =>
    (Relates.mapM_same answers fun _ => hR.justification _).bind_same fun _ => .pure rfl

/-- **All calls come to the same** if the expansion of patterns does. -/
theorem run [Weight α] (c : Call) :
    Relates R E (c.run w α depth : Searching σ (Call.Result α))
      (c.run w' α depth : Searching τ (Call.Result α)) Eq := by
  cases c with
  | solve q => exact (hR.solve hw hexpand q).bind_same fun _ => .pure rfl
  | isAnswer f => exact (hR.isAnswer hw hexpand f).bind_same fun _ => .pure rfl
  | probability f => exact (hR.probability hw hexpand f).bind_same fun _ => .pure rfl
  | proofs q => exact (hR.proofs hw hexpand q).bind_same fun _ => .pure rfl
  | justification f => exact (hR.justification f).bind_same fun _ => .pure rfl
  | effort => exact hR.effort.bind_same fun _ => .pure rfl

end Queries

/-- **So do calls one after the other**, whether they succeed or fail. -/
theorem results {w w' : Theory} (hw : w.EvaluatesAlike E w') [Weight α]
    (hexpand : ∀ depth l, Relates R E (expand w depth (.of l) : Searching σ Unit)
      (expand w' depth (.of l) : Searching τ Unit) Eq)
    {s : Search σ} {t : Search τ} (hst : R s t) (calls : List (Nat × Call)) :
    List.Forall₂ (Alike E Eq) (Call.results w α s calls) (Call.results w' α t calls) := by
  induction calls generalizing s t with
  | nil => exact .nil
  | cons call rest ih =>
    obtain ⟨depth, c⟩ := call
    obtain ⟨hr, hnext⟩ := hR.run (α := α) hw (hexpand depth) c s t hst
    exact .cons hr (ih hnext)

end Simulation

end Searching

end ProbDatalog
