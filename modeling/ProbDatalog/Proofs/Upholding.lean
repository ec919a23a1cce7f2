import ProbDatalog.Proofs.Sessions

/-!
# What a search upholds

Properties of states that a search never loses, whether it succeeds or fails. Most steps only number
scopes and passes, and note which patterns have been come to, completed or negated; the others add
answers. The head of a clause is unified with the pattern at first, and all that is bound later only
narrows down the valuations that this has left, so answers are instances of their patterns, whatever
evaluable predicates do.

* `Upholds`: steps that uphold a property of states, and what their results are like.
* `Lasting`: properties that no step of a search touches.
* `resolveBody_upholds`: ways through a body narrow bindings down.
* `expand_upholds`: **calls uphold what lasts**, to any depth.
* `leave_upholds`: **requests uphold what saturation and decisions do.**
-/

namespace ProbDatalog.Searching

variable {σ α β : Type}

/-- A step keeps a property of the state, whether it succeeds or fails, and its result satisfies
`Q`. -/
def Upholds (I : Search σ → Prop) (x : Searching σ α) (Q : α → Prop) : Prop :=
  ∀ s, I s → After x s fun r t => I t ∧ ∀ a, r = .ok a → Q a

namespace Upholds

variable {I : Search σ → Prop} {x : Searching σ α} {Q Q' : α → Prop} {R : β → Prop}

theorem mono (h : Upholds I x Q) (hQ : ∀ a, Q a → Q' a) : Upholds I x Q' := fun s hs =>
  (h s hs).mono fun _ _ ⟨ht, hq⟩ => ⟨ht, fun a ha => hQ a (hq a ha)⟩

theorem pure {a : α} (h : Q a) : Upholds I (Pure.pure a) Q := fun _ hs =>
  (after_pure a).2 ⟨hs, fun b hb => by cases hb; exact h⟩

theorem throw (e : Halt) : Upholds I (MonadExcept.throw e) Q := fun _ hs =>
  (after_throw e).2 ⟨hs, fun b hb => by cases hb⟩

theorem ofExcept (x : Except Error α) (h : ∀ a, x = .ok a → Q a) :
    Upholds I (Searching.ofExcept x) Q := by
  cases x with
  | ok a => exact .pure (h a rfl)
  | error e => exact .throw (.failed e)

theorem ofOption (x : Option α) : Upholds I (Searching.ofOption x) fun _ => True := by
  cases x with
  | some a => exact .pure trivial
  | none => exact .throw .exhausted

/-- **One step after another.** -/
theorem bind {f : α → Searching σ β} (h : Upholds I x Q) (hf : ∀ a, Q a → Upholds I (f a) R) :
    Upholds I (x >>= f) R := by
  intro s hs
  refine after_bind.2 ((h s hs).mono ?_)
  rintro (e | a) t ⟨ht, hq⟩
  · exact ⟨ht, fun b hb => by cases hb⟩
  · exact hf a (hq a rfl) t ht

theorem mapM {ι : Type} {f : ι → Searching σ α} {l : List ι} (h : ∀ i ∈ l, Upholds I (f i) Q) :
    Upholds I (l.mapM f) fun results => ∀ a ∈ results, Q a := by
  induction l with
  | nil => exact .pure (by simp)
  | cons i rest ih =>
    rw [List.mapM_cons]
    refine (h i (by simp)).bind fun a ha => ?_
    refine (ih fun j hj => h j (by simp [hj])).bind fun results hall => ?_
    exact .pure (List.forall_mem_cons.2 ⟨ha, hall⟩)

theorem forM {ι : Type} {f : ι → Searching σ PUnit} {l : List ι}
    (h : ∀ i ∈ l, Upholds I (f i) fun _ => True) : Upholds I (l.forM f) fun _ => True := by
  induction l with
  | nil => exact .pure trivial
  | cons i rest ih => exact (h i (by simp)).bind fun _ _ => ih fun j hj => h j (by simp [hj])

theorem get : Upholds I (MonadState.get : Searching σ (Search σ)) fun _ => True := fun _ hs =>
  after_get.2 ⟨hs, fun _ _ => trivial⟩

theorem change {f : Search σ → Search σ} (h : ∀ s, I s → I (f s)) :
    Upholds I (modify f : Searching σ PUnit) fun _ => True := fun s hs =>
  (after_modify f).2 ⟨h s hs, fun _ _ => trivial⟩

theorem onTables {f : σ → Except StoreFault α × σ}
    (h : ∀ s r tables, I s → f s.tables = (r, tables) → I { s with tables }) :
    Upholds I (Searching.onTables f) fun _ => True := fun s hs =>
  (after_onTables f).2 ⟨fun _ t ht => ⟨h s _ t hs ht, fun _ _ => trivial⟩,
    fun _ t ht => ⟨h s _ t hs ht, fun _ _ => trivial⟩⟩

theorem readTables (f : σ → Except StoreFault α)
    (h : ∀ (s : Search σ) a, I s → f s.tables = .ok a → Q a) :
    Upholds I (Searching.readTables f) Q := fun s hs =>
  (after_readTables f).2 ⟨fun a ha => ⟨hs, fun b hb => by cases hb; exact h s a hs ha⟩,
    fun e _ => ⟨hs, fun b hb => by cases hb⟩⟩

theorem ofExcept_bind (x : Except Error α) {k : α → Searching σ β}
    (h : ∀ a, x = .ok a → Upholds I (k a) R) : Upholds I (Searching.ofExcept x >>= k) R :=
  (ofExcept (Q := fun a => Upholds I (k a) R) x h).bind fun _ hk => hk

theorem readTables_bind (f : σ → Except StoreFault α) {k : α → Searching σ β}
    (h : ∀ (s : Search σ) a, I s → f s.tables = .ok a → Upholds I (k a) R) :
    Upholds I (Searching.readTables f >>= k) R :=
  (readTables (Q := fun a => Upholds I (k a) R) f h).bind fun _ hk => hk

theorem enter {p : CallPattern} (h : ∀ s, I s → I { s with expanded := p :: s.expanded }) :
    Upholds I (Searching.enter p) fun _ => True := fun s hs =>
  (after_enter p).2 ⟨fun _ => ⟨hs, fun _ _ => trivial⟩, fun _ _ => ⟨h s hs, fun _ _ => trivial⟩⟩

theorem refuting {x : Searching σ Unit} (h : Upholds I x fun _ => True)
    (hneg : ∀ s negating, I s → I { s with negating }) (p : CallPattern) (l : Literal) :
    Upholds I (Searching.refuting p l x) fun _ => True := by
  intro s hs
  obtain ⟨ht, -⟩ := h { s with negating := p :: s.negating } (hneg s _ hs)
  unfold After Searching.refuting
  split
  · exact ⟨hs, fun _ _ => trivial⟩
  · exact ⟨hneg _ _ ht, fun _ _ => trivial⟩

theorem justification [Tables σ] (l : Literal) :
    Upholds I (Searching.justification l) fun _ => True :=
  .readTables_bind _ fun _ _ _ _ => .ofOption _

end Upholds

/-! ## Expansion -/

section Lasting

variable [Tables σ] [LawfulTables σ]

/-- No step of a search touches the property, as long as only the given patterns are come to. -/
structure Lasting (patterns : Set CallPattern) (I : Search σ → Prop) : Prop where
  scope : ∀ {s : Search σ} {scope}, I s → I { s with scope }
  tables : ∀ {s : Search σ} {tables}, I s → content tables = content s.tables →
    I { s with tables }
  put : ∀ {s : Search σ} {tables p f ps additions}, I s → p ∈ patterns → f ∈ p.instances →
    (∀ π ∈ ps, π.head = f) →
    content tables =
      Function.update (content s.tables) p (Resident.record (content s.tables p) f ps) →
    I { s with tables, additions }
  enter : ∀ {s : Search σ} {p}, I s → p ∈ patterns → I { s with expanded := p :: s.expanded }
  clear : ∀ {s : Search σ} {passes}, I s → I { s with expanded := [], passes }
  negating : ∀ {s : Search σ} {negating}, I s → I { s with negating }
  restore : ∀ {s t : Search σ}, I s → I t → I { t with expanded := s.expanded }
  complete : ∀ {s t : Search σ}, I s → I t →
    I { t with expanded := s.expanded, complete := t.expanded ++ t.complete }

end Lasting

end ProbDatalog.Searching

namespace ProbDatalog

/-- Bindings that have come from others, which they narrow down. -/
def Substitution.Narrows (s s' : Substitution) : Prop :=
  s'.Acyclic ∧ ∀ θ, s'.SolvedBy θ → s.SolvedBy θ

theorem Substitution.Narrows.trans {s s' s'' : Substitution} (h : s.Narrows s')
    (h' : s'.Narrows s'') : s.Narrows s'' :=
  ⟨h'.1, fun θ hθ => h.2 θ (h'.2 θ hθ)⟩

namespace Searching

variable {σ : Type} [Tables σ] {w : Theory} {I : Search σ → Prop} {passes : Nat}
variable {call : CallPattern → Searching σ Unit}

/-- A decision upholds what the search for its fact does. -/
theorem decideNegation_upholds {l : Literal} (hneg : ∀ s negating, I s → I { s with negating })
    (hsat : Upholds I (saturating (.of l.positive) (fixpoint call (.of l.positive) passes))
      fun _ => True) :
    Upholds I (decideNegation w call passes l) fun _ => True := by
  unfold decideNegation
  refine .ofExcept_bind _ fun o _ => ?_
  cases o with
  | some e =>
    exact .ofExcept_bind _ fun _ _ => .pure trivial
  | none =>
    refine (hsat.refuting hneg _ _).bind fun _ _ => ?_
    refine .readTables_bind _ fun _ _ _ _ => ?_
    split
    · exact .pure trivial
    · cases w.mode with
      | datalog => exact .pure trivial
      | problog =>
        exact (Upholds.justification _).bind fun _ _ => (Upholds.ofOption _).bind fun _ _ =>
          .pure trivial

section Calls

variable [LawfulTables σ] {patterns : Set CallPattern} (hI : Lasting patterns I)
  (hcall : ∀ l, Upholds I (call (.of l)) fun _ => True)

include hI in
theorem saturating_upholds {x : Searching σ Unit} (h : Upholds I x fun _ => True)
    (p : CallPattern) : Upholds I (saturating p x) fun _ => True := by
  intro s hs
  obtain ⟨ht, -⟩ := h { s with expanded := [] } (hI.clear hs)
  unfold After saturating
  generalize x { s with expanded := [] } = run at ht
  split
  · exact ⟨hs, fun _ _ => trivial⟩
  · obtain ⟨_ | _, t⟩ := run
    · exact ⟨hI.restore hs ht, fun _ _ => trivial⟩
    · exact ⟨hI.complete hs ht, fun _ _ => trivial⟩

include hI hcall

theorem fixpoint_upholds (l : Literal) :
    Upholds I (fixpoint call (.of l) passes) fun _ => True := by
  induction passes with
  | zero => exact .throw .exhausted
  | succ passes ih =>
    refine Upholds.get.bind fun before _ => ?_
    refine (Upholds.change fun _ hs => hI.clear hs).bind fun _ _ => ?_
    refine (hcall l).bind fun _ _ => Upholds.get.bind fun after _ => ?_
    split
    · exact .pure trivial
    · exact ih

theorem saturating_fixpoint_upholds (l : Literal) :
    Upholds I (saturating (.of l) (fixpoint call (.of l) passes)) fun _ => True :=
  saturating_upholds hI (fixpoint_upholds hI hcall l) _

/-- The ways to make a literal hold narrow bindings down, whatever evaluable predicates bind. -/
theorem resolveLiteral_upholds (l : Literal) {s : Substitution} (hs : s.Acyclic) :
    Upholds I (resolveLiteral w call passes l s) fun nexts => ∀ next ∈ nexts, s.Narrows next.1 := by
  have hself : s.Narrows s := ⟨hs, fun _ h => h⟩
  unfold resolveLiteral
  dsimp only
  split
  · split
    · refine (decideNegation_upholds (fun _ _ => hI.negating)
        (saturating_fixpoint_upholds hI hcall _)).bind fun holds _ => .pure ?_
      cases holds <;> simp [hself]
    · exact .throw _
  refine .ofExcept_bind _ fun o _ => ?_
  cases o with
  | some e =>
    refine .ofExcept_bind _ fun outcome _ => ?_
    cases outcome with
    | reject => exact .pure (by simp)
    | accept => exact .pure (by simp [hself])
    | bind b =>
      refine .pure ?_
      rcases Substitution.merge_spec hs b with ⟨next, hmerge, hac, hsol⟩ | ⟨hfalse, -⟩
      · have hnarrow : s.Narrows next := ⟨hac, fun θ hθ => ((hsol θ).1 hθ).1⟩
        simp [hmerge, hnarrow]
      · simp [hfalse]
  | none =>
    refine (hcall _).bind fun _ _ => ?_
    refine .readTables_bind _ fun _ answers _ _ => .pure ?_
    intro next hnext
    obtain ⟨answer, -, hmap⟩ := List.mem_filterMap.1 hnext
    obtain ⟨next, hunify, rfl⟩ := Option.map_eq_some_iff.1 hmap
    rcases Literal.unify?_spec hs (s.apply l) answer with ⟨next', h, hac, hsol⟩ | ⟨hnone, -⟩
    · cases h.symm.trans hunify
      exact ⟨hac, fun θ hθ => ((hsol θ).1 hθ).1⟩
    · cases hnone.symm.trans hunify

/-- **Ways through a body narrow bindings down.** -/
theorem resolveBody_upholds (body : List Literal) {s : Substitution} (hs : s.Acyclic)
    (premises : List Premise) :
    Upholds I (resolveBody w call passes body (s, premises)) fun branches =>
      ∀ branch ∈ branches, s.Narrows branch.1 := by
  induction body generalizing s premises with
  | nil => exact .pure (by simpa using ⟨hs, fun _ h => h⟩)
  | cons l rest ih =>
    unfold resolveBody
    refine (resolveLiteral_upholds hI hcall l hs).bind fun nexts hnexts => ?_
    refine (Upholds.mapM (Q := fun branches => ∀ branch ∈ branches, s.Narrows branch.1)
      fun next hnext => ?_).bind fun each heach => .pure ?_
    · exact (ih (hnexts next hnext).1 _).mono fun branches hb branch hbranch =>
        (hnexts next hnext).trans (hb branch hbranch)
    · intro branch hbranch
      obtain ⟨branches, hin, hmem⟩ := List.mem_flatten.1 hbranch
      exact heach branches hin branch hmem

omit hcall in
/-- The head that a way through a body has led to is added as an instance of the pattern. -/
theorem addAnswer_upholds {p : CallPattern} (hp : p ∈ patterns) (id : ClauseId) (c : Clause)
    (branch : Branch)
    (h : (branch.1.apply c.head).isGround = true → branch.1.apply c.head ∈ p.instances) :
    Upholds I (addAnswer w p id c branch) fun _ => True := by
  unfold addAnswer
  dsimp only
  split
  next hg =>
    intro s hs
    refine after_bind.2 ((after_onTables _).2 ⟨fun news tables hput => ?_, fun e tables hput =>
      ⟨hI.tables hs (LawfulTables.put_error hput), fun _ _ => trivial⟩⟩)
    have hadded : ∀ additions, I { s with tables, additions } := fun _ =>
      hI.put hs hp (h hg) (fun π hπ => by
        -- what is put is the new proof of the head, or nothing
        split at hπ
        · cases hπ
        · rw [List.mem_singleton.1 hπ]) (LawfulTables.put_ok hput).2
    cases news with
    | true => exact ⟨hadded _, fun _ _ => trivial⟩
    | false => exact ⟨hadded s.additions, fun _ _ => trivial⟩
  · exact .pure trivial

theorem tryClause_upholds {p : CallPattern} (hp : p ∈ patterns) (id : ClauseId) (c : Clause) :
    Upholds I (tryClause w call passes p id c) fun _ => True := by
  unfold tryClause
  refine Upholds.bind (Q := fun _ => True) (Upholds.get.bind fun _ _ =>
    (Upholds.change fun _ hs => hI.scope hs).bind fun _ _ => .pure trivial) fun n _ => ?_
  dsimp only
  rcases Literal.unify?_spec Substitution.acyclic_empty (c.rescoped n).head p.literal with
    ⟨s, hunify, hac, hsol⟩ | ⟨hnone, -⟩
  · simp only [hunify]
    refine (resolveBody_upholds hI hcall _ hac []).bind fun branches hbr => ?_
    refine .forM fun branch hbranch => addAnswer_upholds hI hp id _ branch fun hg => ?_
    -- a solution of the bindings makes the head an instance of the pattern
    obtain ⟨hac', hnarrow⟩ := hbr branch hbranch
    obtain ⟨θ, hθ, -⟩ := hac'.exists_solvedBy fun _ => .boolean false
    rw [hθ.apply_eq_ground hg]
    exact ⟨θ, (((hsol θ).1 (hnarrow θ hθ)).2).symm⟩
  · simp only [hnone]
    exact .pure trivial

/-- **An expansion upholds what lasts**, if its calls do. -/
theorem expandOnce_upholds {p : CallPattern} (hp : p ∈ patterns) :
    Upholds I (expandOnce w call passes p) fun _ => True := by
  have htry : Upholds I ((w.program.candidates p.literal).forM fun x =>
      tryClause w call passes p x.1 x.2) fun _ => True :=
    .forM fun x _ => tryClause_upholds hI hcall hp x.1 x.2
  unfold expandOnce
  refine (Upholds.enter fun s hs => hI.enter hs hp).bind fun entered _ => ?_
  split
  · refine Upholds.get.bind fun s _ => ?_
    split
    · refine (Upholds.onTables fun s r tables hs hget => hI.tables hs ?_).bind fun _ _ => htry
      exact LawfulTables.content_of_get hget
    · exact htry
  · exact .pure trivial

end Calls

/-! ## Requests -/

section Requests

variable {depth : Nat} (hsat : ∀ l, Upholds I (saturate w depth (.of l)) fun _ => True)
  (hdec : ∀ l, Upholds I (decideNegation w (expand w depth) depth l) fun _ => True)

include hsat hdec

/-- A query upholds what saturation and decisions do, and its answers come from the table. -/
theorem solve_upholds {q : Literal} {Q : List Literal → Prop}
    (hQ : ∀ s answers, I s → Tables.answers s.tables (.of q) = .ok answers →
      Q (answers.filter fun answer => (q.unify? answer .empty).isSome)) :
    Upholds I (solve w depth q) fun answers =>
      q.negated = false → w.registry.contains q.predicate = false → Q answers := by
  unfold solve
  split
  next hn =>
    split
    · refine (hdec q).bind fun _ _ => .pure ?_
      exact fun hpos => by simp [hn] at hpos
    · exact .throw _
  next =>
    refine .ofExcept_bind _ fun o hres => ?_
    cases o with
    | some e =>
      have hc : w.registry.contains q.predicate = true := Registry.contains_of_resolve hres
      refine .ofExcept_bind _ fun outcome _ => ?_
      cases outcome <;> exact .pure fun _ hrel => by simp [hc] at hrel
    | none =>
      refine (hsat q).bind fun _ _ => .readTables_bind _ fun s answers hs hanswers => ?_
      exact .pure fun _ _ => hQ s answers hs hanswers

theorem solving_upholds (q : Literal) : Upholds I (solve w depth q) fun _ => True :=
  (solve_upholds hsat hdec (Q := fun _ => True) fun _ _ _ _ => trivial).mono fun _ _ => trivial

theorem isAnswer_upholds (f : Literal) : Upholds I (isAnswer w depth f) fun _ => True :=
  (solving_upholds hsat hdec f).bind fun _ _ => .pure trivial

theorem probability_upholds {α : Type} [Weight α] (l : Literal) :
    Upholds I (probability w depth α l) fun _ => True := by
  unfold probability
  split
  · refine .ofExcept_bind _ fun _ _ => ?_
    dsimp only
    split
    · exact (solving_upholds hsat hdec _).bind fun _ _ =>
        (Upholds.justification _).bind fun _ _ => (Upholds.ofOption _).bind fun _ _ => .pure trivial
    · exact (isAnswer_upholds hsat hdec _).bind fun _ _ => .pure trivial
  · exact .throw _

theorem proofs_upholds (q : Literal) : Upholds I (proofs w depth q) fun _ => True :=
  (solving_upholds hsat hdec q).bind fun _ _ =>
    (Upholds.mapM fun _ _ => Upholds.justification _).bind fun _ _ => .pure trivial

/-- **Requests uphold what saturation and decisions do**, whether they succeed or fail. -/
theorem leave_upholds {s : Search σ} (hs : I s) (r : Request) : I (r.leave w depth s) := by
  cases r with
  | solve q => exact (solving_upholds hsat hdec q s hs).1
  | isAnswer f => exact (isAnswer_upholds hsat hdec f s hs).1
  | probability f => exact (probability_upholds hsat hdec f s hs).1
  | proofs q => exact (proofs_upholds hsat hdec q s hs).1

end Requests

/-! ## All depths -/

section Depths

variable [LawfulTables σ] {patterns : Set CallPattern} (hI : Lasting patterns I)
  (hall : ∀ l, .of l ∈ patterns) (depth : Nat)

include hI hall

/-- **Calls uphold what lasts**, to any depth. -/
theorem expand_upholds (l : Literal) :
    Upholds I (expand w depth (.of l) : Searching σ Unit) fun _ => True := by
  induction depth generalizing l with
  | zero => exact .throw .exhausted
  | succ depth ih => exact expandOnce_upholds hI ih (hall l)

theorem saturate_upholds (l : Literal) :
    Upholds I (saturate w depth (.of l) : Searching σ Unit) fun _ => True :=
  saturating_fixpoint_upholds hI (expand_upholds hI hall depth) l

theorem decideNegation_expand_upholds (l : Literal) :
    Upholds I (decideNegation w (expand w depth) depth l : Searching σ Bool) fun _ => True :=
  decideNegation_upholds (fun _ _ => hI.negating) (saturate_upholds hI hall depth _)

end Depths

end Searching

end ProbDatalog
