import ProbDatalog.Search.Expansion
import ProbDatalog.Proofs.Relations
import ProbDatalog.Proofs.Variables

/-!
# Ways through bodies under other names

A positive literal of a body opens a way for each binding that makes it hold. If the variables are
renamed, the same ways are open, with renamed bindings; their premises are ground and stay as they
are. What a search does with a clause thus depends on the scope of the clause only in the names of
bound variables: two searches that read the same answers do the same with it in any two scopes.

* `resolveLiteral_of_positive`: the ways that a positive literal opens.
* `evaluatedWays_renameVars`, `answeredWays_renameVars`: **the same ways under other names.**
* `resolveLiteral_relates`, `resolveBody_relates`: two searches find the same ways.
* `tryClause_relates`: **they do the same with a clause in any two scopes.**
-/

namespace ProbDatalog

/-- What a steady predicate binds makes the call ground. -/
theorem Substitution.isGround_apply_of_merge {e : Evaluable} (he : e.Steady)
    {s b next : Substitution} {l : Literal} (hs : s.Acyclic)
    (hb : e.evaluate (s.apply l).terms = .ok (.bind b)) (hm : s.merge b = (true, next)) :
    next.Acyclic ∧ (next.apply l).isGround = true := by
  rcases merge_spec hs b with ⟨next', hnext, hac, hsol⟩ | ⟨hfalse, -⟩
  · obtain rfl : next = next' := congrArg Prod.snd (hm.symm.trans hnext)
    refine ⟨hac, hac.isGround_apply fun θ η hθ hη => Literal.ground_congr fun v hv => ?_⟩
    obtain ⟨hθs, hθb⟩ := (hsol θ).1 hθ
    obtain ⟨hηs, hηb⟩ := (hsol η).1 hη
    -- a variable of the call has a value already, or the outcome binds the end of its chain
    have hvalue : (s.resolve (.var v)).value θ = (s.resolve (.var v)).value η := by
      cases hr : s.resolve (.var v) with
      | const c => rfl
      | var u =>
        have hu : Term.var u ∈ (s.apply l).terms :=
          List.mem_map.2 ⟨.var v, Literal.mem_vars.1 hv, hr⟩
        obtain ⟨c, hc⟩ := he.exists_binding hb u hu
        exact (hθb _ hc).trans (hηb _ hc).symm
    rw [hθs.value_resolve, hηs.value_resolve] at hvalue
    exact hvalue
  · rw [hm] at hfalse
    cases hfalse

/-- Two uses of a clause match a pattern alike. -/
theorem Clause.unify?_rescoped {n k : UInt32} (hn : n ≠ 0) (hk : k ≠ 0) (c : Clause) (l : Literal) :
    (c.rescoped k).head.unify? (CallPattern.of l).literal .empty =
      ((c.rescoped n).head.unify? (CallPattern.of l).literal .empty).map
        (.renameVars (Variable.swapScopes n k)) := by
  have hunify := (c.rescoped n).head.unify?_renameVars (CallPattern.of l).literal .empty
    (ρ := Variable.swapScopes n k)
  rw [CallPattern.literal_renameVars hn hk, Substitution.renameVars_empty] at hunify
  rw [← hunify, ← c.renameVars_rescoped (n := n) (m := k)]
  rfl

namespace Searching

/-- A way to make a literal hold under another name of its variables. -/
def renameVars {π : Type} (ρ : Equiv.Perm Variable) (next : Substitution × π) : Substitution × π :=
  (next.1.renameVars ρ, next.2)

/-- The ways that the outcome of an evaluable predicate opens. -/
def evaluatedWays (s : Substitution) (l : Literal) : Outcome → List (Substitution × Premise)
  | .reject => []
  | .accept => [(s, .evaluable (s.apply l))]
  | .bind b =>
    let (merged, next) := s.merge b
    if merged then [(next, .evaluable (next.apply l))] else []

/-- The ways that answers open. -/
def answeredWays (s : Substitution) (l : Literal) (answers : List Literal) :
    List (Substitution × Premise) :=
  answers.filterMap fun answer =>
    ((s.apply l).unify? answer s).map fun next => (next, .relational answer)

/-- **The ways that a positive literal opens** are those of an outcome or those of answers. -/
theorem resolveLiteral_of_positive {σ : Type} [Tables σ] (w : Theory)
    (call : CallPattern → Searching σ Unit) (passes : Nat) {l : Literal} (hn : l.negated = false)
    (s : Substitution) : resolveLiteral w call passes l s = (do
      match ← ofExcept (w.registry.resolve (s.apply l)) with
      | some e => return evaluatedWays s l (← ofExcept (e.evaluate (s.apply l).terms))
      | none =>
        call (.of (s.apply l))
        return answeredWays s l (← readTables (Tables.answers · (.of (s.apply l))))) := by
  unfold resolveLiteral
  dsimp only
  rw [if_neg (by simp [hn])]
  refine congrArg _ (funext fun o => ?_)
  cases o with
  | none => rfl
  | some e =>
    refine congrArg (ofExcept (e.evaluate (s.apply l).terms) >>= ·) (funext fun outcome => ?_)
    cases outcome <;> rfl

variable {ρ : Equiv.Perm Variable} {s : Substitution} {l : Literal}

theorem acyclic_of_mem_evaluatedWays {e : Evaluable} (he : e.Steady) (hs : s.Acyclic)
    {outcome : Outcome} (h : e.evaluate (s.apply l).terms = .ok outcome) :
    ∀ next ∈ evaluatedWays s l outcome, next.1.Acyclic := by
  cases outcome with
  | reject => simp [evaluatedWays]
  | accept => simpa [evaluatedWays] using hs
  | bind b =>
    rcases hmerge : s.merge b with ⟨_ | _, next⟩
    · simp [evaluatedWays, hmerge]
    · simpa [evaluatedWays, hmerge] using (Substitution.isGround_apply_of_merge he hs h hmerge).1

/-- **The outcome of a predicate opens the same ways under other names.** -/
theorem evaluatedWays_renameVars {e : Evaluable} (he : e.Steady) (hs : s.Acyclic)
    {outcome : Outcome} (h : e.evaluate (s.apply l).terms = .ok outcome) :
    evaluatedWays (s.renameVars ρ) (l.renameVars ρ) (outcome.renameVars ρ) =
      (evaluatedWays s l outcome).map (renameVars ρ) := by
  cases outcome with
  | reject => rfl
  | accept =>
    have hground : (s.apply l).isGround = true := List.all_eq_true.2 (he.isGround_of_accept h)
    simp [evaluatedWays, Outcome.renameVars, renameVars, Substitution.apply_renameVars,
      Literal.renameVars_of_isGround hground]
  | bind b =>
    rcases hmerge : s.merge b with ⟨_ | _, next⟩
    · simp [evaluatedWays, Outcome.renameVars, Substitution.merge_renameVars, hmerge]
    · obtain ⟨-, hground⟩ := Substitution.isGround_apply_of_merge he hs h hmerge
      simp [evaluatedWays, Outcome.renameVars, renameVars, Substitution.merge_renameVars, hmerge,
        Substitution.apply_renameVars, Literal.renameVars_of_isGround hground]

theorem acyclic_of_mem_answeredWays (hs : s.Acyclic) (answers : List Literal) :
    ∀ next ∈ answeredWays s l answers, next.1.Acyclic := by
  intro next hnext
  obtain ⟨answer, -, hmap⟩ := List.mem_filterMap.1 hnext
  obtain ⟨next, hunify, rfl⟩ := Option.map_eq_some_iff.1 hmap
  rcases Literal.unify?_spec hs (s.apply l) answer with ⟨next', h, hac, -⟩ | ⟨hnone, -⟩
  · cases h.symm.trans hunify
    exact hac
  · cases hnone.symm.trans hunify

/-- **Answers open the same ways under other names**, as they are ground. -/
theorem answeredWays_renameVars {answers : List Literal}
    (hground : ∀ f ∈ answers, f.isGround = true) :
    answeredWays (s.renameVars ρ) (l.renameVars ρ) answers =
      (answeredWays s l answers).map (renameVars ρ) := by
  unfold answeredWays
  rw [Substitution.apply_renameVars, List.map_filterMap]
  refine List.filterMap_congr fun answer ha => ?_
  have hunify := (s.apply l).unify?_renameVars answer s (ρ := ρ)
  rw [Literal.renameVars_of_isGround (hground answer ha)] at hunify
  rw [hunify]
  cases (s.apply l).unify? answer s <;> rfl

/-- Ways that are the same under other names still are when they are put together. -/
theorem flatten_eq_map_renameVars {π : Type} {each each' : List (List (Substitution × π))}
    (h : List.Forall₂ (fun ways ways' => ways' = ways.map (renameVars ρ)) each each') :
    each'.flatten = each.flatten.map (renameVars ρ) := by
  induction h with
  | nil => rfl
  | cons hways _ ih => rw [List.flatten_cons, List.flatten_cons, List.map_append, hways, ih]

/-! ## Two searches -/

/-- Ways that are the same under other names, and whose bindings can be followed to an end. -/
def SameWays (ρ : Equiv.Perm Variable) (nexts nexts' : List (Substitution × Premise)) : Prop :=
  nexts' = nexts.map (renameVars ρ) ∧ ∀ next ∈ nexts, next.1.Acyclic

theorem max_one_ne_zero (n : UInt32) : max n 1 ≠ 0 := by
  show (if n ≤ 1 then 1 else n) ≠ 0
  split
  · decide
  next h =>
    rintro rfl
    exact h (by decide)

section Relates

variable {σ τ : Type} [Tables σ] [Tables τ] {R : Search σ → Search τ → Prop}
variable {E : Error → Error → Prop} {w w' : Theory} {passes : Nat}
variable {call : CallPattern → Searching σ Unit} {call' : CallPattern → Searching τ Unit}

/-- A positive literal opens the same ways to two searches that read the same answers. -/
theorem resolveLiteral_relates (hreg : w.registry = .standard) (hreg' : w'.registry = .standard)
    (hE : ∀ (ρ : Equiv.Perm Variable) e, E e (e.renameVars ρ))
    (hcall : ∀ l, Relates R E (call (.of l)) (call' (.of l)) fun _ _ => True)
    (hanswers : ∀ p, Relates R E (readTables (Tables.answers · p)) (readTables (Tables.answers · p))
      fun answers answers' => answers = answers' ∧ ∀ f ∈ answers, f.isGround = true)
    (hn : l.negated = false) (hs : s.Acyclic) :
    Relates R E (resolveLiteral w call passes l s)
      (resolveLiteral w' call' passes (l.renameVars ρ) (s.renameVars ρ)) (SameWays ρ) := by
  rw [resolveLiteral_of_positive _ _ _ hn, resolveLiteral_of_positive _ _ _ (by simpa using hn),
    Substitution.apply_renameVars, hreg, hreg']
  refine Relates.bind (Q := fun o o' => o = o' ∧ ∀ e ∈ o, e.Equivariant ∧ e.Steady)
    (.ofExcept (fun o ho => ⟨o, Registry.resolve_renameVars ho, rfl, ?_⟩)
      fun e h => ⟨_, Registry.resolve_renameVars_error h, hE ρ e⟩) ?_
  · rintro e rfl
    have hget := (Registry.resolve_eq_some ho).1
    exact ⟨Registry.equivariant_standard hget, Registry.steady_standard hget⟩
  rintro o _ ⟨rfl, ho⟩
  -- predicates do the same with renamed arguments, and relations are called by their patterns
  cases o with
  | some e =>
    obtain ⟨hequi, hsteady⟩ := ho e rfl
    have heval := hequi ρ (s.apply l).terms
    refine Relates.bind (Q := fun outcome outcome' => outcome' = outcome.renameVars ρ ∧
        e.evaluate (s.apply l).terms = .ok outcome) (.ofExcept ?_ ?_) ?_
    · intro outcome h
      exact ⟨_, heval.trans (by rw [h]; rfl), rfl, h⟩
    · intro error h
      exact ⟨error, heval.trans (by rw [h]; rfl), by simpa using hE (Equiv.refl Variable) error⟩
    · rintro outcome _ ⟨rfl, h⟩
      exact .pure ⟨evaluatedWays_renameVars hsteady hs h, acyclic_of_mem_evaluatedWays hsteady hs h⟩
  | none =>
    rw [CallPattern.of_renameVars]
    refine (hcall _).bind fun _ _ _ => (hanswers _).bind ?_
    rintro answers _ ⟨rfl, hground⟩
    exact .pure ⟨answeredWays_renameVars hground, acyclic_of_mem_answeredWays hs answers⟩

/-- If each literal of a body opens the same ways to two searches, they find the same ways through
the body. -/
theorem resolveBody_relates {body : List Literal}
    (hbody : ∀ l ∈ body, ∀ s : Substitution, s.Acyclic →
      Relates R E (resolveLiteral w call passes l s)
        (resolveLiteral w' call' passes (l.renameVars ρ) (s.renameVars ρ)) (SameWays ρ))
    {branch : Branch} (hb : branch.1.Acyclic) :
    Relates R E (resolveBody w call passes body branch)
      (resolveBody w' call' passes (body.map (.renameVars ρ)) (renameVars ρ branch))
      fun branches branches' => branches' = branches.map (renameVars ρ) := by
  induction body generalizing branch with
  | nil => exact .pure rfl
  | cons l rest ih =>
    obtain ⟨s, premises⟩ := branch
    obtain ⟨hl, hrest⟩ := List.forall_mem_cons.1 hbody
    rw [List.map_cons]
    unfold resolveBody
    refine (hl s hb).bind ?_
    rintro nexts _ ⟨rfl, hac⟩
    refine (Relates.mapM (Q := fun branches branches' => branches' = branches.map (renameVars ρ))
      (List.forall₂_map_right_iff.2 (List.forall₂_same.2 fun next hnext => ?_))).bind ?_
    · exact ih hrest (hac next hnext)
    · exact fun each each' heach => .pure (flatten_eq_map_renameVars heach)

/-- **Two searches do the same with a clause in any two scopes**, if literals of its body open the
same ways to them under other names, and what these lead to is put alike. -/
theorem tryClause_relates {l : Literal} {id : ClauseId} {c : Clause}
    (hscope : Relates R E freshScope freshScope fun n k => n ≠ 0 ∧ k ≠ 0)
    (hbody : ∀ ρ n, ∀ b ∈ (c.rescoped n).body, ∀ s : Substitution, s.Acyclic →
      Relates R E (resolveLiteral w call passes b s)
        (resolveLiteral w' call' passes (b.renameVars ρ) (s.renameVars ρ)) (SameWays ρ))
    (hadd : ∀ ρ n branch, Relates R E (addAnswer w (.of l) id (c.rescoped n) branch)
      (addAnswer w' (.of l) id ((c.rescoped n).renameVars ρ) (renameVars ρ branch))
      fun _ _ => True) :
    Relates R E (tryClause w call passes (.of l) id c) (tryClause w' call' passes (.of l) id c)
      fun _ _ => True := by
  unfold tryClause
  refine hscope.bind fun n k ⟨hn, hk⟩ => ?_
  -- the two uses of the clause differ by an exchange of the scopes, which leaves the pattern alone
  dsimp only
  rw [c.unify?_rescoped hn hk, ← c.renameVars_rescoped (n := n) (m := k)]
  rcases Literal.unify?_spec Substitution.acyclic_empty (c.rescoped n).head
    (CallPattern.of l).literal with ⟨s, hs, hac, -⟩ | ⟨hnone, -⟩
  · rw [hs]
    have hways := resolveBody_relates (hbody (Variable.swapScopes n k) n)
      (show (s, ([] : List Premise)).1.Acyclic from hac)
    refine hways.bind ?_
    rintro branches _ rfl
    refine .forM (List.forall₂_map_right_iff.2 (List.forall₂_same.2 fun branch _ => ?_))
    exact hadd (Variable.swapScopes n k) n branch
  · rw [hnone]
    exact .pure trivial

end Relates

end Searching

end ProbDatalog
