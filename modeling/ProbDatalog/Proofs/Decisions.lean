import ProbDatalog.Proofs.Datalog
import ProbDatalog.Proofs.Lockstep
import ProbDatalog.Proofs.Reports

/-!
# Decisions within decisions

While a predicate is being searched, every negation that is being decided has a predicate that rests
on it. So a decision that is met within itself is a cycle through a negation, and a program without
such cycles is never reported to have one: not on any store, and not by a call that follows others
which have failed.

An evaluable predicate may fail with any error, one about a negation included. A call that comes to
evaluate it then reports the error of the predicate, and no other: with another error in its place,
that other error is what is reported.

* `Theory.relations`: which predicates rest on which, and on whose negations.
* `Calm`: a step that reports no cycle and leaves the open decisions as they were.
* `Above.opens`: **where predicates do not rest on their negations, no decision is met within
  itself.**
* `expand_calm`: the search for a pattern is calm.
* `reports_of_unstratified`: **no call of a search over a stratified program reports a cycle**, save
  what an evaluable predicate has reported to it.
-/

namespace ProbDatalog

/-- The predicates of heads rest on those of bodies that are not evaluable. -/
def Theory.relations (w : Theory) : Resting String where
  rests a b := w.registry.contains b = false ∧
    ∃ c ∈ w.program.clauses, c.head.predicate = a ∧ ∃ l ∈ c.body, l.predicate = b
  negates a b := w.registry.contains b = false ∧
    ∃ c ∈ w.program.clauses, c.head.predicate = a ∧ ∃ l ∈ c.body, l.negated = true ∧ l.predicate = b
  rests_of_negates a b := by
    rintro ⟨hb, c, hc, ha, l, hl, -, hl'⟩
    exact ⟨hb, c, hc, ha, l, hl, hl'⟩

/-- Leaving out the evaluable predicates makes no cycles. -/
theorem Theory.relations_stratified {w : Theory} (h : w.program.dependencies.Stratified) :
    w.relations.Stratified := by
  rintro a b ⟨-, hab⟩ hba
  have hle : w.relations.rests ≤ w.program.dependencies.rests := fun _ _ hrests => hrests.2
  exact h a b hab (Relation.ReflTransGen.mono hle _ _ hba)

/-! ## Calm steps -/

namespace Searching

variable {σ α β : Type}

/-- A step that, where the open decisions satisfy `I`, leaves them as they were, whether it succeeds
or fails, and reports no cycle through a negation but what an evaluable predicate reports. -/
def Calm (w : Theory) (I : List CallPattern → Prop) (x : Searching σ α) : Prop :=
  ∀ s, I s.negating → After x s fun r t =>
    (∀ l, r = .error (.failed (.unstratified l)) → w.registry.Reports (.unstratified l)) ∧
      t.negating = s.negating

namespace Calm

variable {w : Theory} {I J : List CallPattern → Prop} {x : Searching σ α}

theorem mono (h : Calm w I x) (hIJ : ∀ ps, J ps → I ps) : Calm w J x := fun s hs => h s (hIJ _ hs)

theorem pure (a : α) : Calm w I (Pure.pure a : Searching σ α) :=
  fun _ _ => (after_pure a).2 ⟨by simp, rfl⟩

theorem throw {h : Halt} (hh : ∀ l, h ≠ .failed (.unstratified l)) :
    Calm w I (MonadExcept.throw h : Searching σ α) :=
  fun _ _ => ⟨fun l hl => absurd (Except.error.inj hl) (hh l), rfl⟩

/-- What is computed may be known of what follows. -/
theorem ofExcept_bind {r : Except Error α} {f : α → Searching σ β}
    (hr : ∀ l, r = .error (.unstratified l) → w.registry.Reports (.unstratified l))
    (hf : ∀ a, r = .ok a → Calm w I (f a)) :
    Calm w I (Searching.ofExcept r >>= f) := by
  intro s hs
  refine after_bind.2 ((after_ofExcept r).2 ⟨fun a ha => hf a ha s hs, fun e he => ?_⟩)
  exact ⟨fun l hl => hr l (by rw [he, Halt.failed.inj (Except.error.inj hl)]), rfl⟩

theorem ofOption (r : Option α) : Calm w I (Searching.ofOption r : Searching σ α) := by
  cases r with
  | some a => exact .pure a
  | none => exact .throw (by simp)

/-- **One step after another.** The second one finds the decisions that the first one has left. -/
theorem bind {f : α → Searching σ β} (h : Calm w I x) (hf : ∀ a, Calm w I (f a)) :
    Calm w I (x >>= f) := by
  intro s hs
  refine after_bind.2 ((h s hs).mono ?_)
  rintro (e | a) t ⟨hne, ht⟩
  · exact ⟨fun l hl => hne l (by rw [Except.error.inj hl]), ht⟩
  · obtain ⟨hne', hu⟩ := hf a t (ht ▸ hs)
    exact ⟨hne', hu.trans ht⟩

theorem mapM {ι : Type} {f : ι → Searching σ α} (l : List ι) (h : ∀ i ∈ l, Calm w I (f i)) :
    Calm w I (l.mapM f) := by
  induction l with
  | nil => exact .pure []
  | cons i rest ih =>
    rw [List.mapM_cons]
    exact (h i (by simp)).bind fun _ =>
      (ih fun j hj => h j (List.mem_cons_of_mem _ hj)).bind fun _ => .pure _

theorem forM {ι : Type} {f : ι → Searching σ PUnit} (l : List ι) (h : ∀ i ∈ l, Calm w I (f i)) :
    Calm w I (l.forM f) := by
  induction l with
  | nil => exact .pure PUnit.unit
  | cons i rest ih =>
    exact (h i (by simp)).bind fun _ => ih fun j hj => h j (List.mem_cons_of_mem _ hj)

theorem get : Calm w I (MonadState.get : Searching σ (Search σ)) :=
  fun _ _ => after_get.2 ⟨by simp, rfl⟩

theorem change {f : Search σ → Search σ} (h : ∀ s, (f s).negating = s.negating) :
    Calm w I (modify f : Searching σ PUnit) :=
  fun s _ => (after_modify f).2 ⟨by simp, h s⟩

/-- A store reports nothing about negations. -/
theorem onTables (f : σ → Except StoreFault α × σ) : Calm w I (Searching.onTables f) :=
  fun _ _ => (after_onTables f).2 ⟨fun _ _ _ => ⟨by simp, rfl⟩, fun _ _ _ => ⟨by simp, rfl⟩⟩

theorem readTables (f : σ → Except StoreFault α) : Calm w I (Searching.readTables f) :=
  .onTables _

theorem freshScope : Calm w I (Searching.freshScope : Searching σ UInt32) :=
  Calm.get.bind fun _ => (Calm.change fun _ => rfl).bind fun _ => .pure _

theorem enter (p : CallPattern) : Calm w I (Searching.enter p : Searching σ Bool) :=
  fun _ _ => (after_enter p).2 ⟨fun _ => ⟨by simp, rfl⟩, fun _ _ => ⟨by simp, rfl⟩⟩

theorem saturating {x : Searching σ Unit} (h : Calm w I x) (p : CallPattern) :
    Calm w I (Searching.saturating p x) := by
  intro s hs
  have hx := h { s with expanded := [] } hs
  unfold After at hx ⊢
  unfold Searching.saturating
  split
  · exact ⟨by simp, rfl⟩
  · generalize x { s with expanded := [] } = r at hx
    obtain ⟨e | a, t⟩ := r
    · exact ⟨hx.1, hx.2⟩
    · exact ⟨by simp, hx.2⟩

/-- A decision is calm if it is not open yet and the search for it is calm once it is. -/
theorem refuting {x : Searching σ Unit} (h : Calm w J x) {p : CallPattern} (l : Literal)
    (hopen : ∀ ps, I ps → p ∉ ps ∧ J (p :: ps)) : Calm w I (Searching.refuting p l x) := by
  intro s hI
  obtain ⟨hnew, hJ⟩ := hopen _ hI
  obtain ⟨hne, ht⟩ := h { s with negating := p :: s.negating } hJ
  unfold After Searching.refuting
  rw [if_neg (by simpa using hnew)]
  refine ⟨hne, ?_⟩
  show List.erase _ p = s.negating
  rw [ht, List.erase_cons_head]

end Calm

/-! ## Decisions -/

/-- All open decisions are about predicates that rest on one. -/
def Above (D : Resting String) (a : String) (ps : List CallPattern) : Prop :=
  ∀ p ∈ ps, Relation.ReflTransGen D.rests p.literal.predicate a

variable {D : Resting String} {a b : String} {ps : List CallPattern} {p : CallPattern}

theorem Above.rests (h : Above D a ps) (hab : D.rests a b) : Above D b ps :=
  fun p hp => (h p hp).tail hab

theorem above_singleton (D : Resting String) (p : CallPattern) :
    Above D p.literal.predicate [p] := by
  intro q hq
  rw [List.mem_singleton.1 hq]

/-- **Where predicates do not rest on their negations, no decision is met within itself**: an open
decision about the same predicate would be a way back to where the negation is. -/
theorem Above.opens (hD : D.Stratified) (h : Above D a ps) (hab : D.negates a p.literal.predicate) :
    p ∉ ps ∧ Above D p.literal.predicate (p :: ps) := by
  constructor
  · exact fun hp => hD _ _ hab (h p hp)
  · intro q hq
    rcases List.mem_cons.1 hq with rfl | hq
    · exact .refl
    · exact h.rests (D.rests_of_negates _ _ hab) q hq

/-! ## Expansion -/

section Calls

variable [Tables σ] {w : Theory} {I : List CallPattern → Prop}
  {call : CallPattern → Searching σ Unit} (passes : Nat)

theorem justification_calm (l : Literal) : Calm w I (justification l : Searching σ ProofSet) :=
  (Calm.readTables _).bind fun _ => .ofOption _

omit [Tables σ] in
theorem fixpoint_calm (h : Calm w I (call p)) (passes : Nat) :
    Calm w I (fixpoint call p passes) := by
  induction passes with
  | zero => exact .throw (by simp)
  | succ passes ih =>
    unfold fixpoint
    refine Calm.get.bind fun _ => (Calm.change ?_).bind fun _ => h.bind fun _ =>
      Calm.get.bind fun _ => ?_
    · exact fun _ => rfl
    · split
      · exact .pure _
      · exact ih

variable (hcall : ∀ p, Calm w (Above w.relations p.literal.predicate) (call p))

omit [Tables σ] in
/-- A call is calm if it is evaluable, or else if it is calm to look it up. -/
theorem resolve_calm {l : Literal} {f : Outcome → Searching σ β} {x : Searching σ β}
    (hf : ∀ outcome, Calm w I (f outcome))
    (hx : w.registry.contains l.predicate = false → Calm w I x) :
    Calm w I (do
      match ← ofExcept (w.registry.resolve l) with
      | some e => (do f (← ofExcept (e.evaluate l.terms)))
      | none => x) := by
  refine Calm.ofExcept_bind (fun m hm => absurd hm Registry.resolve_ne_unstratified) fun o ho => ?_
  cases o with
  | some e =>
    exact Calm.ofExcept_bind (fun m hm => ⟨_, e, l.terms, (Registry.resolve_eq_some ho).1, hm⟩)
      fun outcome _ => hf outcome
  | none => exact hx (Registry.resolve_eq_none ho)

include hcall

/-- Deciding a negation is calm if the decision is not open yet. -/
theorem decideNegation_calm {l : Literal}
    (hopen : w.registry.contains l.predicate = false → ∀ ps, I ps →
      CallPattern.of l.positive ∉ ps ∧ Above w.relations l.predicate (.of l.positive :: ps)) :
    Calm w I (decideNegation w call passes l) := by
  refine resolve_calm (fun outcome => .pure _) fun hrel => ?_
  have hfix : Calm w (Above w.relations l.predicate) (fixpoint call (.of l.positive) passes) :=
    fixpoint_calm (hcall (.of l.positive)) passes
  refine ((hfix.saturating _).refuting l (hopen hrel)).bind fun _ =>
    (Calm.readTables _).bind fun _ => ?_
  split
  · exact .pure _
  · cases w.mode with
    | datalog => exact .pure _
    | problog => exact (justification_calm _).bind fun _ => (Calm.ofOption _).bind fun _ => .pure _

variable (hD : w.relations.Stratified) {a : String}

include hD

/-- A literal of a body is calm for the predicate of the head. -/
theorem resolveLiteral_calm {l : Literal} (s : Substitution)
    (hrests : w.registry.contains l.predicate = false → w.relations.rests a l.predicate)
    (hnegates : w.registry.contains l.predicate = false → l.negated = true →
      w.relations.negates a l.predicate) :
    Calm w (Above w.relations a) (resolveLiteral w call passes l s) := by
  unfold resolveLiteral
  dsimp only
  split
  next hneg =>
    split
    · refine (decideNegation_calm passes hcall fun hrel ps hps => ?_).bind fun _ => .pure _
      exact hps.opens hD (hnegates hrel hneg)
    · exact .throw (by simp)
  next =>
    refine resolve_calm (fun outcome => ?_) fun hrel => ?_
    · cases outcome <;> exact .pure _
    · have hl : Calm w (Above w.relations a) (call (.of (s.apply l))) :=
        (hcall _).mono fun ps hps => hps.rests (hrests hrel)
      exact hl.bind fun _ => (Calm.readTables _).bind fun _ => .pure _

theorem resolveBody_calm {body : List Literal} (branch : Branch)
    (hrests : ∀ l ∈ body, w.registry.contains l.predicate = false → w.relations.rests a l.predicate)
    (hnegates : ∀ l ∈ body, w.registry.contains l.predicate = false → l.negated = true →
      w.relations.negates a l.predicate) :
    Calm w (Above w.relations a) (resolveBody w call passes body branch) := by
  induction body generalizing branch with
  | nil => exact .pure _
  | cons l rest ih =>
    obtain ⟨s, premises⟩ := branch
    have hrest : ∀ branch, Calm w (Above w.relations a) (resolveBody w call passes rest branch) :=
      fun branch => ih branch (fun m hm => hrests m (List.mem_cons_of_mem _ hm))
        fun m hm => hnegates m (List.mem_cons_of_mem _ hm)
    unfold resolveBody
    exact (resolveLiteral_calm passes hcall hD s (hrests l (by simp)) (hnegates l (by simp))).bind
      fun nexts => (Calm.mapM nexts fun next _ => hrest _).bind fun _ => .pure _

omit hcall hD in
theorem addAnswer_calm (p : CallPattern) (id : ClauseId) (c : Clause) (branch : Branch) :
    Calm w I (addAnswer w p id c branch : Searching σ Unit) := by
  unfold addAnswer
  dsimp only
  split
  · refine (Calm.onTables _).bind fun news => ?_
    split
    · exact .change fun _ => rfl
    · exact .pure _
  · exact .pure _

/-- A clause is calm for the predicate of its head. -/
theorem tryClause_calm {p : CallPattern} {id : ClauseId} {c : Clause} (hc : c ∈ w.program.clauses) :
    Calm w (Above w.relations p.literal.predicate) (tryClause w call passes p id c) := by
  unfold tryClause
  refine Calm.freshScope.bind fun n => ?_
  dsimp only
  split
  next => exact .pure _
  next s hs =>
    -- the clause is gone through only if its head has the predicate
    have hhead : c.head.predicate = p.literal.predicate := by
      unfold Literal.unify? at hs
      split at hs
      next h => exact h.1
      next => cases hs
    refine (resolveBody_calm passes hcall hD _ (fun l hl hrel => ?_) fun l hl hrel hneg => ?_).bind
      fun branches => .forM branches fun branch _ => addAnswer_calm p id _ branch
    · obtain ⟨m, hm, rfl⟩ := List.mem_map.1 hl
      exact ⟨hrel, c, hc, hhead, m, hm, rfl⟩
    · obtain ⟨m, hm, rfl⟩ := List.mem_map.1 hl
      exact ⟨hrel, c, hc, hhead, m, hm, hneg, rfl⟩

theorem expandOnce_calm (p : CallPattern) :
    Calm w (Above w.relations p.literal.predicate) (expandOnce w call passes p) := by
  have htry : Calm w (Above w.relations p.literal.predicate)
      ((w.program.candidates p.literal).forM fun x => tryClause w call passes p x.1 x.2) := by
    refine .forM _ fun x hx => ?_
    obtain ⟨id, -, hid⟩ := List.mem_filterMap.1 hx
    obtain ⟨c, hc, rfl⟩ := Option.map_eq_some_iff.1 hid
    exact tryClause_calm passes hcall hD (Program.mem_clauses_of_clause? hc)
  unfold expandOnce
  refine (Calm.enter p).bind fun entered => ?_
  split
  · refine Calm.get.bind fun s => ?_
    split
    · exact (Calm.onTables _).bind fun _ => htry
    · exact htry
  · exact .pure _

end Calls

/-! ## Queries -/

section Queries

variable [Tables σ] {w : Theory} (hD : w.relations.Stratified)
  (depth : Nat)

include hD

/-- **The search for a pattern is calm** where all open decisions rest on its predicate. -/
theorem expand_calm (p : CallPattern) :
    Calm w (Above w.relations p.literal.predicate) (expand w depth p : Searching σ Unit) := by
  induction depth generalizing p with
  | zero => exact .throw (by simp)
  | succ depth ih => exact expandOnce_calm depth ih hD p

/-- A query opens the first decision. -/
theorem solve_calm (q : Literal) :
    Calm w (· = []) (solve w depth q : Searching σ (List Literal)) := by
  unfold solve
  split
  · split
    · refine (decideNegation_calm depth (expand_calm hD depth) fun _ ps hps => ?_).bind
        fun _ => .pure _
      subst hps
      exact ⟨by simp, above_singleton _ (.of q.positive)⟩
    · exact .throw (by simp)
  · refine resolve_calm (fun outcome => ?_) fun _ => ?_
    · cases outcome <;> exact .pure _
    · have hcall : Calm w (· = []) (expand w depth (.of q) : Searching σ Unit) :=
        (expand_calm hD depth _).mono fun ps hps => by simp [hps, Above]
      exact ((fixpoint_calm hcall depth).saturating _).bind fun _ =>
        (Calm.readTables _).bind fun _ => .pure _

theorem isAnswer_calm (f : Literal) : Calm w (· = []) (isAnswer w depth f : Searching σ Bool) :=
  (solve_calm hD depth f).bind fun _ => .pure _

theorem probability_calm [Weight α] (l : Literal) :
    Calm w (· = []) (probability w depth α l : Searching σ α) := by
  unfold probability
  split
  · refine Calm.ofExcept_bind (fun m hm => absurd hm Registry.resolve_ne_unstratified) fun o _ => ?_
    dsimp only
    split
    · exact (solve_calm hD depth _).bind fun _ => (justification_calm _).bind fun _ =>
        (Calm.ofOption _).bind fun _ => .pure _
    · exact (isAnswer_calm hD depth _).bind fun _ => .pure _
  · exact .throw (by simp)

theorem proofs_calm (q : Literal) : Calm w (· = []) (proofs w depth q : Searching σ ProofSet) :=
  (solve_calm hD depth q).bind fun answers =>
    (Calm.mapM answers fun _ _ => justification_calm _).bind fun _ => .pure _

omit hD in
theorem effort_calm : Calm w (· = []) (effort : Searching σ Effort) :=
  Calm.get.bind fun _ => (Calm.mapM _ fun _ _ => .onTables _).bind fun _ =>
    Calm.get.bind fun _ => .pure _

end Queries

end Searching

section Calls

variable {σ : Type} [Tables σ] {w : Theory}

theorem Call.run_calm (hD : w.relations.Stratified) (α : Type) [Weight α] (depth : Nat) (c : Call) :
    Searching.Calm w (· = []) (c.run w α depth : Searching σ (Call.Result α)) := by
  cases c with
  | solve q => exact (Searching.solve_calm hD depth q).bind fun _ => .pure _
  | isAnswer f => exact (Searching.isAnswer_calm hD depth f).bind fun _ => .pure _
  | probability f => exact (Searching.probability_calm hD depth f).bind fun _ => .pure _
  | proofs q => exact (Searching.proofs_calm hD depth q).bind fun _ => .pure _
  | justification f => exact (Searching.justification_calm f).bind fun _ => .pure _
  | effort => exact Searching.effort_calm.bind fun _ => .pure _

/-- What is reported about a negation is at most what some evaluable predicate reports. -/
theorem Call.results_calm (hD : w.relations.Stratified) (α : Type) [Weight α] (tables : σ)
    (scope : UInt32) (calls : List (Nat × Call)) :
    ∀ r ∈ Call.results w α (Search.start tables scope) calls,
      ∀ l, r = .error (.failed (.unstratified l)) → w.registry.Reports (.unstratified l) := by
  -- between calls no decision is open
  refine Call.forall_mem_results (P := fun s => s.negating = []) (fun depth c s hs => ?_) rfl calls
  refine (Call.run_calm hD α depth c s hs).mono fun r t h => ?_
  exact ⟨h.1, h.2.trans hs⟩

end Calls

/-! ## Errors of evaluable predicates -/

/-- The theory with other errors in the place of those that its evaluable predicates report about
negations. -/
def Theory.relabelled (g : Literal → Error) (w : Theory) : Theory :=
  { w with registry := w.registry.relabelled g }

section Relabelling

variable (g : Literal → Error) (w : Theory)

theorem Theory.relations_relabelled : (w.relabelled g).relations = w.relations := by
  simp [relations, relabelled]

/-- Relabelled theories differ in nothing but errors. -/
theorem Theory.evaluatesAlike_relabelled :
    w.EvaluatesAlike (fun e e' => e' = e ∨ e' = e.relabelled g) (w.relabelled g) where
  program := rfl
  mode := rfl
  resolve l := by
    simp only [relabelled, Registry.resolve_relabelled]
    rcases w.registry.resolve l with err | _ | e
    · exact .inl ⟨err, rfl, rfl⟩
    · exact .inr (.inl ⟨rfl, rfl⟩)
    · refine .inr (.inr ⟨e, e.relabelled g, rfl, rfl, ?_⟩)
      simp only [Evaluable.relabelled]
      rcases e.evaluate l.terms with err | o
      · exact .inr ⟨err, err.relabelled g, rfl, rfl, .inr rfl⟩
      · exact .inl ⟨o, rfl, rfl⟩

variable {g}

/-- A result that is not about negations is the relabelled one of a result that is alike. -/
theorem Searching.Alike.eq_mapError {α : Type} {r r' : Except Halt α}
    (h : Alike (fun e e' => e' = e ∨ e' = e.relabelled g) Eq r r')
    (hr' : ∀ l, r' ≠ .error (.failed (.unstratified l))) :
    r.mapError (Halt.relabelled g) = r' := by
  cases h with
  | ok hab => rw [hab]; rfl
  | exhausted => rfl
  | @failed e e' he =>
    have heq : e.relabelled g = e' := by
      rcases he with rfl | rfl
      · exact Error.relabelled_of_ne fun l hl => hr' l (by rw [hl])
      · rfl
    rw [← heq]
    rfl

end Relabelling

/-- **No call of a search over a stratified program reports a cycle through a negation**, on
whatever store, in either mode, and whatever the calls before it have come to. If one is reported,
it is the error of an evaluable predicate that the call has come to evaluate: with other errors in
the place of those that predicates report about negations, the same calls report these instead, and
nothing else changes. -/
theorem reports_of_unstratified {σ : Type} [Tables σ] {w : Theory} (hD : w.relations.Stratified)
    (α : Type) [Weight α] (tables : σ) (scope : UInt32) (calls : List (Nat × Call)) :
    (∀ r ∈ Call.results w α (Search.start tables scope) calls,
      ∀ l, r = .error (.failed (.unstratified l)) → w.registry.Reports (.unstratified l)) ∧
    ∀ g : Literal → Error, (∀ l m, g l ≠ .unstratified m) →
      Call.results (w.relabelled g) α (Search.start tables scope) calls =
        (Call.results w α (Search.start tables scope) calls).map
          (Except.mapError (Halt.relabelled g)) := by
  refine ⟨Call.results_calm hD α tables scope calls, fun g hg => ?_⟩
  -- the store is the same, so a fault in the place of another one does not come up
  have halike := results_inStep (E := fun e e' => e' = e ∨ e' = e.relabelled g)
    (Tables.Agree.refl tables) (fun he => .inl he.eq_of_same) (w.evaluatesAlike_relabelled g) α
    scope calls
  have hcalm : ∀ r ∈ Call.results (w.relabelled g) α (Search.start tables scope) calls,
      ∀ l, r ≠ .error (.failed (.unstratified l)) := fun r hr l hl =>
    Registry.not_reports_relabelled hg l
      (Call.results_calm (Theory.relations_relabelled g w ▸ hD) α tables scope calls r hr l hl)
  have hboth := (List.forall₂_and_left _ _).2 ⟨hcalm, halike.flip⟩
  rw [← List.forall₂_eq_eq_eq, List.forall₂_map_right_iff]
  exact hboth.imp fun r' r h => (h.2.eq_mapError h.1).symm

namespace Birds

/-- The theory of birds with the standard predicates. -/
def extended : Theory := { theory .problog with registry := .standard }

/-- The store is full before it is known that a bird is heavy, so the first call fails within a
decision. The call after it does not take that decision for an open one. -/
theorem not_unstratified_full :
    (Searching.solve extended 9 (general "flies") (.start (Quota.new 2 true) 0)).1 =
      .error (.failed (.storage (.refused "limit"))) ∧
    ∀ r ∈ Call.results extended Float (.start (Quota.new 2 true) 0)
        [(9, .solve (general "flies")), (9, .solve (about "heavy" "pingu").negate)],
      ∀ l, r ≠ .error (.failed (.unstratified l)) := by
  refine ⟨by decide +kernel, fun r hr l hl => ?_⟩
  have hstrat : extended.relations.Stratified :=
    Theory.relations_stratified (stratified .problog)
  exact Registry.not_reports_unstratified_standard
    ((reports_of_unstratified hstrat Float _ 0 _).1 r hr l hl)

end Birds

/-! ## Drills -/

namespace Drills

/-- The bell rings if there is a drill. -/
def clauses : List Clause := [⟨.of "bell" [], [.of "drill" []], .certain⟩]

/-- To evaluate a drill is to report that it depends on its own negation. -/
def drill : Evaluable := ⟨"drill", 0, fun _ => .error (.unstratified (.of "drill" []))⟩

/-- The theory of drills. -/
def theory : Theory := ⟨(Program.empty.assertAll clauses).2, .ofList [drill], .problog⟩

/-- The program has no negation, so none depends on itself, and to look for the bell reports one
all the same. -/
theorem unstratified_drill : theory.relations.Stratified ∧
    (Searching.solve theory 5 (.of "bell" []) (.start Resident.empty 0)).1 =
      .error (.failed (.unstratified (.of "drill" []))) :=
  ⟨Theory.relations_stratified (Program.stratified_of_rank (fun _ => 0) (by decide +kernel)),
    by decide +kernel⟩

end Drills

end ProbDatalog
