import ProbDatalog.Proofs.WellFounded

/-!
# Why searches stop

Searches over plain theories that stop for certain reasons only. What a search comes to on its way
through a body is told by a route: which patterns it calls, which negations it decides and what it
puts into tables. If the calls and the decisions of a route keep to the reasons, so does the whole
expansion.

* `Keeps`: a step stops for no other reasons than the given ones.
* `Route`: what a search may come to.
* `justification_keeps`: the proofs that a fact may rest on can always be read.
* `decideNegation_keeps`, `expandOnce_keeps`: **an expansion keeps to the reasons that its calls and
  decisions keep to.**
-/

namespace ProbDatalog

variable {σ α β : Type} [Tables σ] [LawfulTables σ] {w : Theory}

/-! ## Steps -/

/-- A step stops for no other reasons than the given ones, and where it succeeds, its result and
the state that it leads to satisfy `Q`. -/
def Keeps (E : Halt → Prop) (s : Search σ) (x : Searching σ α) (Q : α → Search σ → Prop) : Prop :=
  Searching.After x s fun r t => (∀ h, r = .error h → E h) ∧ ∀ a, r = .ok a → Q a t

namespace Keeps

open Searching

variable {E E' : Halt → Prop} {s : Search σ} {x : Searching σ α} {Q Q' : α → Search σ → Prop}
variable {M : Meaning w}

section Plainly

omit [Tables σ] [LawfulTables σ]

theorem mono (h : Keeps E s x Q) (hQ : ∀ a t, Q a t → Q' a t) : Keeps E s x Q' :=
  After.mono h fun _ _ h => ⟨h.1, fun a ha => hQ a _ (h.2 a ha)⟩

theorem of_ok {a : α} {t : Search σ} (hx : x s = (.ok a, t)) (h : Q a t) : Keeps E s x Q := by
  unfold Keeps After
  rw [hx]
  exact ⟨by simp, by simpa using h⟩

theorem of_error {h : Halt} {t : Search σ} (hx : x s = (.error h, t)) (hE : E h) :
    Keeps E s x Q := by
  unfold Keeps After
  rw [hx]
  exact ⟨by simpa using hE, by simp⟩

theorem pure {a : α} (h : Q a s) : Keeps E s (Pure.pure a) Q := of_ok rfl h

theorem fail {e : Error} (hE : E (.failed e)) : Keeps E s (Searching.fail e : Searching σ α) Q :=
  of_error rfl hE

theorem get {Q : Search σ → Search σ → Prop} (h : Q s s) : Keeps E s MonadState.get Q := of_ok rfl h

theorem modify {f : Search σ → Search σ} {Q : PUnit → Search σ → Prop} (h : Q ⟨⟩ (f s)) :
    Keeps E s (modify f) Q := of_ok rfl h

theorem ofOption {x : Option α} {a : α} (hx : x = some a) (h : Q a s) :
    Keeps E s (Searching.ofOption x) Q := by
  subst hx
  exact pure h

/-- What comes after a step that leaves the state as it is starts from the same state. -/
theorem bind_unchanged {k : α → Searching σ β} {P : α → Prop} {Q : β → Search σ → Prop}
    (h : Keeps E s x fun a t => s = t ∧ P a) (hk : ∀ a, P a → Keeps E s (k a) Q) :
    Keeps E s (x >>= k) Q := by
  refine after_bind.2 (After.mono h ?_)
  rintro (e | a) t ⟨herr, hok⟩
  · exact ⟨fun _ heq => by cases heq; exact herr e rfl, fun _ heq => by cases heq⟩
  · obtain ⟨rfl, ha⟩ := hok a rfl
    exact hk a ha

theorem ofExcept_bind {x : Except Error α} {k : α → Searching σ β} {Q : β → Search σ → Prop}
    (he : ∀ e, x = .error e → E (.failed e)) (h : ∀ a, x = .ok a → Keeps E s (k a) Q) :
    Keeps E s (Searching.ofExcept x >>= k) Q := by
  cases x with
  | ok a => exact h a rfl
  | error e => exact fail (he e rfl)

theorem readTables_bind {f : σ → Except StoreFault α} {k : α → Searching σ β}
    {Q : β → Search σ → Prop} (he : ∀ e, f s.tables = .error e → E (.failed (.storage e)))
    (h : ∀ a, f s.tables = .ok a → Keeps E s (k a) Q) :
    Keeps E s (Searching.readTables f >>= k) Q := by
  refine after_bind.2 ((after_readTables f).2 ⟨h, fun e hf => ?_⟩)
  exact ⟨fun _ heq => Except.error.inj heq ▸ he e hf, fun _ heq => by cases heq⟩

end Plainly

/-- **One step after another.** What the first one leads to may be used for the second. -/
theorem bind {f : α → Searching σ β} {Q' : β → Search σ → Prop} {P : α → Search σ → Prop}
    (h : Keeps E s x Q) (hx : Leads M s x P)
    (hf : ∀ a t, Consistent M t → Progress s t → P a t → Q a t → Keeps E t (f a) Q') :
    Keeps E s (x >>= f) Q' := by
  have hboth : After x s fun r t => (Consistent M t ∧ Progress s t ∧ ∀ a, r = .ok a → P a t) ∧
      (∀ h, r = .error h → E h) ∧ ∀ a, r = .ok a → Q a t := ⟨hx, h⟩
  refine after_bind.2 (hboth.mono ?_)
  rintro (h | a) t ⟨⟨hc, hp, hP⟩, herr, hQ⟩
  · exact ⟨fun _ heq => by cases heq; exact herr h rfl, fun _ heq => by cases heq⟩
  · exact hf a t hc hp (hP a rfl) (hQ a rfl)

/-- One step for each member of a list, where a state keeps what the next step needs. -/
theorem mapM {ι : Type} {f : ι → Searching σ α} {I : Search σ → Prop} {G : α → Prop}
    (l : List ι) (hs : Consistent M s) (hI : I s)
    (hlead : ∀ i ∈ l, ∀ t, Consistent M t → Progress s t → Leads M t (f i) fun _ _ => True)
    (hf : ∀ i ∈ l, ∀ t, Consistent M t → Progress s t → I t →
      Keeps E t (f i) fun a u => I u ∧ G a) :
    Keeps E s (l.mapM f) fun as t => I t ∧ ∀ a ∈ as, G a := by
  induction l generalizing s with
  | nil => exact pure ⟨hI, by simp⟩
  | cons i rest ih =>
    rw [List.mapM_cons]
    refine (hf i (by simp) s hs (.refl s) hI).bind (hlead i (by simp) s hs (.refl s)) ?_
    rintro a t ht hst - ⟨hIt, ha⟩
    -- the later steps start from a state further on, so what is asked of them there is known
    have hrest := ih ht hIt (fun j hj u hu htu => hlead j (by simp [hj]) u hu (hst.trans htu))
      fun j hj u hu htu => hf j (by simp [hj]) u hu (hst.trans htu)
    have hleads : Leads M t (rest.mapM f) fun _ _ => True :=
      Leads.mapM ht fun j hj u hu htu => hlead j (by simp [hj]) u hu (hst.trans htu)
    refine hrest.bind hleads ?_
    rintro as u - - - ⟨hIu, has⟩
    exact pure ⟨hIu, List.forall_mem_cons.2 ⟨ha, has⟩⟩

theorem forM {ι : Type} {f : ι → Searching σ PUnit} {I : Search σ → Prop} (l : List ι)
    (hs : Consistent M s) (hI : I s)
    (hlead : ∀ i ∈ l, ∀ t, Consistent M t → Progress s t → Leads M t (f i) fun _ _ => True)
    (hf : ∀ i ∈ l, ∀ t, Consistent M t → Progress s t → I t → Keeps E t (f i) fun _ u => I u) :
    Keeps E s (l.forM f) fun _ t => I t := by
  induction l generalizing s with
  | nil => exact pure hI
  | cons i rest ih =>
    refine (hf i (by simp) s hs (.refl s) hI).bind (hlead i (by simp) s hs (.refl s)) ?_
    rintro _ t ht hst - hIt
    exact ih ht hIt (fun j hj u hu htu => hlead j (by simp [hj]) u hu (hst.trans htu))
      fun j hj u hu htu => hf j (by simp [hj]) u hu (hst.trans htu)

end Keeps

/-! ## Routes -/

/-- What a search over a theory may come to: the patterns that it calls, the negations that it
decides, the valuations with which it goes through a body, and the ground rules whose heads it puts
into the tables of a pattern. -/
structure Route (w : Theory) (E : Halt → Prop) where
  calls : CallPattern → Prop
  decides : Literal → Prop
  through : List Literal → Set Valuation → Prop
  admits : CallPattern → Proof → Prop
  /-- The clauses of a pattern are tried for its instances. -/
  start : ∀ {p id c}, calls p → w.program.clause? id = some c →
    c.head.predicate = p.literal.predicate → c.head.arity = p.literal.arity →
    through c.body {θ | c.head.ground θ ∈ p.instances}
  /-- A negated literal is the same under all valuations, or the error is one of the reasons. -/
  closed : ∀ {l rest A}, through (l :: rest) A → l.negated = true →
    (∀ θ ∈ A, ∀ η ∈ A, l.ground θ = l.ground η) ∨ ∀ m, E (.failed (.openNegation m))
  /-- A negated literal that is the same under all valuations is decided. -/
  decide : ∀ {l rest A b}, through (l :: rest) A → l.negated = true → A.Nonempty →
    (∀ θ ∈ A, l.ground θ = b) → decides b
  /-- Where the negation may hold, the search goes on. -/
  negate : ∀ {l rest A b}, through (l :: rest) A → l.negated = true → A.Nonempty →
    (∀ θ ∈ A, l.ground θ = b) → w.meaning.mayNegate b.positive → through rest A
  /-- The pattern of a positive literal is called. -/
  call : ∀ {l rest A m}, through (l :: rest) A → l.negated = false → A.Nonempty →
    (∀ g, g ∈ (CallPattern.of m).instances ↔ ∃ θ ∈ A, l.ground θ = g) →
    m.predicate = l.predicate → m.arity = l.arity → calls (.of m)
  /-- The search goes on with any answer that may be derived. -/
  answer : ∀ {l rest A g}, through (l :: rest) A → l.negated = false →
    g ∈ w.meaning.derivable → through rest {θ ∈ A | l.ground θ = g}
  /-- At the end of a body there is one ground rule. -/
  arrive : ∀ {p id c A θ}, calls p → w.program.clause? id = some c → through [] A → θ ∈ A →
    (∀ η ∈ A, w.groundRule id c η = w.groundRule id c θ) → admits p (w.groundRule id c θ)

/-- The search goes through the rest of a body with what follows from one of its literals. -/
theorem Route.follow {E : Halt → Prop} {s : Search σ} {n : UInt32} {l : Literal}
    {after : List Literal} {sub : Substitution}
    {next : Substitution × Premise} (R : Route w E)
    (h : R.through (l :: after) (sub.valuations n)) (hrel : w.registry.contains l.predicate = false)
    (hf : Follows w.meaning s n l sub next) : R.through after (next.1.valuations n) := by
  obtain ⟨θ, hθ⟩ := hf.acyclic.valuations_nonempty n
  have hprem := hf.premise hθ
  have hwar := hf.warranted
  -- a negated literal changes no bindings, and a positive one leaves the valuations of an answer
  cases hn : l.negated with
  | true =>
    have hsub := hf.unchanged hn
    rw [hsub] at hθ ⊢
    have hall : ∀ η ∈ sub.valuations n, l.ground η = l.ground θ := fun η hη => by
      have := hf.premise (hsub ▸ hη)
      exact Theory.premise_injective (this.symm.trans hprem)
    refine R.negate h hn ⟨θ, hθ⟩ hall ?_
    rw [hprem] at hwar
    simp only [Theory.premise, Literal.ground_negated, hn, Bool.not_true, Bool.false_and,
      Bool.false_eq_true, if_false] at hwar
    exact ((warranted_iff_of_negated (by simp [hn])).1 hwar).1
  | false =>
    have hrelprem : ∀ η, w.premise (l.ground η) = .relational (l.ground η) := fun η => by
      simp [Theory.premise, hrel]
    rw [hprem, hrelprem, warranted_iff_of_not_negated (by simp [hn])] at hwar
    rw [hf.valuations]
    simp only [hprem, hrelprem, Premise.relational.injEq]
    exact R.answer h hn hwar.1

/-- What holds of the states of a search that keeps to the reasons: operations on the tables fail
for no other ones, and keep it. -/
structure Guarded {E : Halt → Prop} (R : Route w E) (I : Search σ → Prop) : Prop where
  scope : ∀ {s n}, I s → I { s with scope := n }
  get : ∀ {s p r tables}, I s → Tables.get s.tables p = (r, tables) →
    (∀ e, r = .error e → E (.failed (.storage e))) ∧ I { s with tables }
  put : ∀ {s p π ps r tables}, I s → R.admits p π → ps ⊆ [π] →
    Tables.put s.tables p π.head ps = (r, tables) →
    (∀ e, r = .error e → E (.failed (.storage e))) ∧
      ∀ n, I { s with tables, additions := n }
  answers : ∀ {s p e}, I s → Tables.answers s.tables p = .error e → E (.failed (.storage e))
  recorded : ∀ {s p e}, I s → Tables.recorded s.tables p = .error e → E (.failed (.storage e))

/-! ## Negation -/

namespace Searching

variable {E : Halt → Prop} {R : Route w E} {I J : Search σ → Prop} {s : Search σ} {n : UInt32}
variable {call : CallPattern → Searching σ Unit} {passes : Nat} {p : CallPattern} {l : Literal}

/-- The proofs that a fact may rest on have a lineage. -/
theorem justification_keeps (hw : w.Plain) {Q : ProofSet → Search σ → Prop}
    (hs : Consistent w.meaning s)
    (he : ∀ p e, Tables.recorded s.tables p = .error e → E (.failed (.storage e)))
    (h : ∀ found proofs, Tables.proofsBelow s.tables l.positive = .ok found →
      found.support? l = some proofs → Q proofs s) :
    Keeps E s (justification l) Q := by
  unfold justification
  refine .readTables_bind (fun e hfault => ?_) fun found hrec => ?_
  · obtain ⟨_, -, p, -, -, hread⟩ := Tables.barred_of_proofsBelow hfault
    exact he p e hread
  · have hstrat := hs.stratified_proofsBelow (R := .wellFounded w) hw.asserted hrec
    obtain ⟨proofs, hproofs⟩ := ProofSet.exists_support? hstrat l
    exact .ofOption hproofs (h found proofs hrec hproofs)

/-- A verdict is reached wherever the store can be read. -/
theorem verdict_keeps (hw : w.Plain) (fact : Literal) (hs : Consistent w.meaning s)
    (ha : ∀ e, Tables.answers s.tables (.of fact) = .error e → E (.failed (.storage e)))
    (hr : ∀ p e, Tables.recorded s.tables p = .error e → E (.failed (.storage e))) (hIs : I s) :
    Keeps E s (verdict w fact) fun _ t => I t := by
  unfold verdict
  refine .readTables_bind ha fun answers _ => ?_
  split
  · exact .pure hIs
  · cases w.mode with
    | datalog => exact .pure hIs
    | problog =>
      refine (justification_keeps hw hs hr
        (Q := fun proofs t => s = t ∧ ∃ certain, proofs.isCertain? fact = some certain)
        fun found proofs hrec hsup => ⟨rfl, ?_⟩).bind_unchanged ?_
      · have hstrat := hs.stratified_proofsBelow (R := .wellFounded w) hw.asserted hrec
        exact ProofSet.exists_isCertain? (ProofSet.stratified_of_support? hstrat hsup) _
      · rintro proofs ⟨certain, hcertain⟩
        rw [hcertain]
        exact .pure hIs

/-- **A decision keeps to the reasons** that the search for its fact keeps to. -/
theorem decideNegation_keeps (hw : w.Plain) (hcall : Calls w.meaning call)
    (hrel : w.registry.contains l.predicate = false) (hs : Consistent w.meaning s)
    (hI : Guarded R I)
    (hsat : Keeps E s (refuting (.of l.positive) l (saturating (.of l.positive)
      (fixpoint call (.of l.positive) passes))) fun _ t => I t) :
    Keeps E s (decideNegation w call passes l) fun _ t => I t := by
  rw [decideNegation_of_relational hrel]
  refine hsat.bind (refuting_fixpoint_leads hw.lawful hcall passes hrel hs) ?_
  rintro _ t ht - - hIt
  exact verdict_keeps hw _ ht (fun e => hI.answers hIt) (fun _ _ => hI.recorded hIt) hIt

/-! ## Passes -/

/-- **The passes for a pattern keep to the reasons** that each pass keeps to. Either they may be cut
off, or there are more of them than answers and proofs can still be added. -/
theorem fixpoint_keeps {m : Literal} (hcall : Calls w.meaning call)
    (hrel : w.registry.contains m.predicate = false)
    (hpass : ∀ t, Consistent w.meaning t → I t → Keeps E t (call (.of m)) fun _ u => I u)
    (hclear : ∀ {t k}, I t → I { t with expanded := [], passes := k })
    (hK : E .exhausted ∨
      ∃ K, (∀ t, I t → t.holdings.ncard ≤ K) ∧ K < passes + s.holdings.ncard)
    (hs : Consistent w.meaning s) (hIs : I s) :
    Keeps E s (fixpoint call (.of m) passes) fun _ t => I t := by
  induction passes generalizing s with
  | zero =>
    refine .of_error (x := fixpoint call (.of m) 0) rfl (hK.resolve_right ?_)
    -- with no pass left, the tables would hold more than they can
    rintro ⟨K, hle, hlt⟩
    have := hle s hIs
    omega
  | succ passes ih =>
    unfold fixpoint
    refine (Keeps.get (Q := fun a t => s = a ∧ s = t) ⟨rfl, rfl⟩).bind (Leads.get hs) ?_
    rintro _ _ - - - ⟨rfl, rfl⟩
    have hs₁ : Consistent w.meaning { s with expanded := [], passes := s.passes + 1 } :=
      hs.congr rfl rfl
    refine (Keeps.modify (Q := fun _ t => I t) (hclear hIs)).bind (Leads.modify hs₁
      (.of_content_eq rfl (List.Subset.refl _) rfl rfl)) ?_
    rintro _ _ - - rfl hI₁
    refine (hpass _ hs₁ hI₁).bind (hcall m _ hrel hs₁) ?_
    rintro _ t ht hst - hIt
    refine (Keeps.get (Q := fun a u => t = a ∧ t = u) ⟨rfl, rfl⟩).bind (Leads.get ht) ?_
    rintro _ _ - - - ⟨rfl, rfl⟩
    split
    · exact .pure hIt
    -- a pass that goes on has added an answer or a proof
    next hne =>
      refine ih (hK.imp_right ?_) ht hIt
      rintro ⟨K, hle, hlt⟩
      refine ⟨K, hle, ?_⟩
      have hadd : s.additions ≤ t.additions := hst.additions
      have hgrown : t.additions + s.holdings.ncard ≤ s.additions + t.holdings.ncard := hst.grown
      have hne' : t.additions ≠ s.additions := hne
      omega

/-- **The search for a fact whose negation is decided** keeps to the reasons that its passes keep
to, which start with the negation among those that are being decided. -/
theorem refuting_keeps {p : CallPattern} {x : Searching σ Unit} {P : Unit → Search σ → Prop}
    (hin : p ∈ s.negating → E (.failed (.unstratified l)))
    (hx : p ∉ s.negating → Keeps E { s with negating := p :: s.negating, expanded := [] } x
      fun _ t => J t)
    (hlead : Leads w.meaning { s with negating := p :: s.negating, expanded := [] } x P)
    (hback : ∀ t complete, J t →
      I { t with expanded := s.expanded, complete, negating := s.negating })
    (hIs : I s) : Keeps E s (refuting p l (saturating p x)) fun _ t => I t := by
  unfold Keeps After refuting
  by_cases hp : p ∈ s.negating
  · rw [if_pos (by simpa using hp)]
    exact ⟨by simpa using hin hp, by simp⟩
  rw [if_neg (by simpa using hp)]
  unfold saturating
  by_cases hc : p ∈ s.complete
  · rw [if_pos (by simpa using hc)]
    simpa using hIs
  rw [if_neg (by simpa using hc)]
  obtain ⟨herr, hok⟩ := hx hp
  have hneg : (x { s with negating := p :: s.negating, expanded := [] }).2.negating =
      p :: s.negating := hlead.2.1.negating
  generalize x { s with negating := p :: s.negating, expanded := [] } = y at herr hok hneg
  -- the search that succeeds leaves the negations that are being decided as they were
  obtain ⟨h | ⟨⟩, t⟩ := y
  · exact ⟨by simpa using herr, by simp⟩
  · refine ⟨by simp, fun _ _ => ?_⟩
    have hneg' : t.negating = p :: s.negating := hneg
    simpa [hneg'] using hback t (t.expanded ++ t.complete) (hok () rfl)

omit [Tables σ] [LawfulTables σ] in
/-- **The search for a pattern** keeps to the reasons that its passes keep to. -/
theorem saturating_keeps {p : CallPattern} {x : Searching σ Unit}
    (hx : p ∉ s.complete → Keeps E { s with expanded := [] } x fun _ t => J t)
    (hback : ∀ t complete, J t → I { t with expanded := s.expanded, complete })
    (hIs : I s) : Keeps E s (saturating p x) fun _ t => I t := by
  unfold Keeps After saturating
  by_cases hc : p ∈ s.complete
  · rw [if_pos (by simpa using hc)]
    exact ⟨by simp, fun _ _ => hIs⟩
  rw [if_neg (by simpa using hc)]
  obtain ⟨herr, hok⟩ := hx hc
  generalize x { s with expanded := [] } = y at herr hok
  obtain ⟨h | ⟨⟩, t⟩ := y
  · exact ⟨by simpa using herr, by simp⟩
  · exact ⟨by simp, fun _ _ => hback t _ (hok () rfl)⟩

/-! ## Bodies -/

variable {id : ClauseId} {c : Clause} {before after : List Literal} {br : Branch}

/-- What is asked of the calls and the decisions that a route comes to. -/
structure Complies (R : Route w E) (I : Search σ → Prop) (call : CallPattern → Searching σ Unit)
    (passes : Nat) : Prop where
  onCall : ∀ {m t}, R.calls (.of m) → Consistent w.meaning t → I t →
    Keeps E t (call (.of m)) fun _ u => I u
  onDecide : ∀ {m t}, R.decides m → m.negated = true → m.isGround = true →
    w.registry.contains m.predicate = false → Consistent w.meaning t → I t →
    Keeps E t (decideNegation w call passes m) fun _ u => I u

/-- **The ways to make a literal hold** are found as the route goes. -/
theorem resolveLiteral_keeps (hw : w.Plain) (hcall : Calls w.meaning call) (hI : Guarded R I)
    (hR : Complies R I call passes) (hid : w.program.clause? id = some c) (hl : l ∈ c.body)
    {sub : Substitution} (hsub : sub.Acyclic) (hthrough : R.through (l :: after) (sub.valuations n))
    (hs : Consistent w.meaning s) (hIs : I s) :
    Keeps E s (resolveLiteral w call passes (l.rescoped n) sub) fun _ t => I t := by
  have hscope : ∀ v ∈ l.vars, v.scope = 0 := hw.scopes hid l (List.mem_cons_of_mem _ hl)
  have hrel : w.registry.contains l.predicate = false :=
    hw.relational hid l (List.mem_cons_of_mem _ hl)
  have hne := hsub.valuations_nonempty n
  have happly : ∀ {θ}, (sub.apply (l.rescoped n)).isGround = true → θ ∈ sub.valuations n →
      l.ground θ = sub.apply (l.rescoped n) := fun hg hθ =>
    (Substitution.apply_rescoped_eq_ground hscope hg hθ).symm
  by_cases hn : l.negated = true
  · unfold resolveLiteral
    simp only [Substitution.apply_negated, Literal.rescoped_negated, hn, if_true]
    by_cases hg : (sub.apply (l.rescoped n)).isGround = true
    · rw [if_pos hg]
      have hd : R.decides (sub.apply (l.rescoped n)) :=
        R.decide hthrough hn hne fun θ hθ => happly hg hθ
      refine (hR.onDecide hd (by simpa using hn) hg (by simpa using hrel) hs hIs).bind
        (decideNegation_leads hw.lawful hw.judges hcall passes hg hs) ?_
      exact fun _ _ _ _ _ hIt => .pure hIt
    · rw [if_neg hg]
      -- were the literal the same under all valuations, the bindings would have made it ground
      refine .fail ((R.closed hthrough hn).resolve_left (fun hall => hg ?_) _)
      refine hsub.isGround_apply fun θ η hθ hη => ?_
      rw [Literal.ground_rescoped, Literal.ground_rescoped]
      exact hall _ (Substitution.mem_valuations hθ) _ (Substitution.mem_valuations hη)
  · have hn' : l.negated = false := by simpa using hn
    rw [resolveLiteral_of_relational passes (l := l.rescoped n) hn' hrel]
    have hc : R.calls (.of (sub.apply (l.rescoped n))) := by
      refine R.call hthrough hn' hne (fun g => ?_) (by simp) (by simp)
      rw [CallPattern.mem_instances_of, Literal.positive_eq_self (by simpa using hn')]
      exact hsub.exists_ground_apply_rescoped_iff hscope g
    refine (hR.onCall hc hs hIs).bind (hcall _ _ (by simpa using hrel) hs) ?_
    rintro _ t ht - - hIt
    exact .readTables_bind (fun e => hI.answers hIt) fun _ _ => .pure hIt

/-- **The ways through a body** are found as the route goes. -/
theorem resolveBody_keeps (hw : w.Plain) (hcall : Calls w.meaning call) (hI : Guarded R I)
    (hR : Complies R I call passes) (hid : w.program.clause? id = some c)
    (hbody : c.body = before ++ after) (hs : Consistent w.meaning s)
    (hbr : Along w.meaning s p n c before br) (hthrough : R.through after (br.1.valuations n))
    (hIs : I s) :
    Keeps E s (resolveBody w call passes (after.map (·.rescoped n)) br) fun branches t =>
      I t ∧ ∀ b ∈ branches, R.through [] (b.1.valuations n) := by
  induction after generalizing before br s with
  | nil => exact .pure ⟨hIs, fun b hb => by rw [List.mem_singleton.1 hb]; exact hthrough⟩
  | cons l after ih =>
    obtain ⟨sub, premises⟩ := br
    have hl : l ∈ c.body := by simp [hbody]
    have hrel : w.registry.contains l.predicate = false :=
      hw.relational hid l (List.mem_cons_of_mem _ hl)
    simp only [List.map_cons, resolveBody]
    refine (resolveLiteral_keeps hw hcall hI hR hid hl hbr.acyclic hthrough hs hIs).bind
      (resolveLiteral_leads hw.regular hw.lawful hw.judges hcall passes hid hbody hs hbr) ?_
    rintro nexts t ht hst hres hIt
    have halong : ∀ next ∈ nexts, ∀ u, Progress t u →
        Along w.meaning u p n c (before ++ [l]) (next.1, premises ++ [next.2]) :=
      fun next hnext u htu => (hbr.mono (hst.trans htu)).step ((hres.follows next hnext).mono htu)
    have hlead : ∀ next ∈ nexts, ∀ u, Consistent w.meaning u → Progress t u →
        Leads w.meaning u (resolveBody w call passes (after.map (·.rescoped n))
          (next.1, premises ++ [next.2])) fun _ _ => True := fun next hnext u hu htu =>
      (resolveBody_leads hw.regular hw.lawful hw.judges hcall passes hid (by simp [hbody]) hu
        (halong next hnext u htu)).mono fun _ _ _ _ _ => trivial
    refine (Keeps.mapM (I := I) (G := fun branches => ∀ b ∈ branches,
      R.through [] (b.1.valuations n)) nexts ht hIt hlead ?_).bind (Leads.mapM ht hlead) ?_
    · intro next hnext u hu htu hIu
      exact ih (by simp [hbody]) hu (halong next hnext u htu)
        (R.follow hthrough hrel (hres.follows next hnext)) hIu
    · rintro branches u - - - ⟨hIu, hall⟩
      refine .pure ⟨hIu, fun b hb => ?_⟩
      obtain ⟨bs, hbs, hb⟩ := List.mem_flatten.1 hb
      exact hall bs hbs b hb

/-- What a way through a body has led to may be put into the table. -/
theorem addAnswer_keeps (hw : w.Plain) (hI : Guarded R I) (hp : R.calls p)
    (hid : w.program.clause? id = some c) (hbr : Along w.meaning s p n c c.body br)
    (hthrough : R.through [] (br.1.valuations n)) (hIs : I s) :
    Keeps E s (addAnswer w p id (c.rescoped n) br) fun _ t => I t := by
  obtain ⟨θ, hθ⟩ := hbr.acyclic.valuations_nonempty n
  obtain ⟨hground, hrule, -, -⟩ := hbr.rule hw.regular hid hθ
  have hadm : R.admits p (w.groundRule id c θ) :=
    R.arrive hp hid hthrough hθ fun η hη => (hbr.rule hw.regular hid hη).2.1.trans hrule.symm
  have hhead : br.1.apply (c.head.rescoped n) = (w.groundRule id c θ).head := by rw [hrule]
  unfold addAnswer
  simp only [Clause.rescoped, hground, if_true]
  have hput : ∀ ps : List Proof, ps ⊆ [w.groundRule id c θ] → Keeps E s (do
      if ← onTables (Tables.put · p (br.1.apply (c.head.rescoped n)) ps) then
        modify fun s => { s with additions := s.additions + 1 }) fun _ t => I t := by
    intro ps hps
    unfold Keeps
    rw [hhead, after_bind, after_onTables]
    refine ⟨fun news tables hrun => ?_, fun e tables hrun => ?_⟩
    · have hIt := (hI.put hIs hadm hps hrun).2
      cases news with
      | true => exact Keeps.modify (hIt _)
      | false => exact Keeps.pure (hIt s.additions)
    · exact ⟨fun h heq => by cases heq; exact (hI.put hIs hadm hps hrun).1 e rfl, by simp⟩
  cases w.mode with
  | datalog => exact hput [] (by simp)
  | problog => exact hput [_] (by rw [hrule]; exact List.Subset.refl _)

/-! ## Clauses and patterns -/

/-- Trying a clause keeps to the reasons. -/
theorem tryClause_keeps (hw : w.Plain) (hcall : Calls w.meaning call) (hI : Guarded R I)
    (hR : Complies R I call passes) {m : Literal} (hm : R.calls (.of m))
    (hid : w.program.clause? id = some c) (hpred : c.head.predicate = m.predicate)
    (harity : c.head.arity = m.arity) (hs : Consistent w.meaning s) (hIs : I s) :
    Keeps E s (tryClause w call passes (.of m) id c) fun _ t => I t := by
  have hhead : ∀ v ∈ c.head.vars, v.scope = 0 := hw.scopes hid _ (by simp)
  have hrel : w.registry.contains c.head.predicate = false := hw.relational hid _ (by simp)
  unfold tryClause
  refine Keeps.bind (M := w.meaning) (Q := fun _ t => I t)
    (.of_ok rfl (hI.scope hIs)) (freshScope_leads hs) ?_
  rintro n t ht - ⟨hn, -, -⟩ hIt
  rcases valuations_unify_head (l := m) hn hhead with ⟨sub, hsub, hac, hvals⟩ | ⟨hnone, -⟩
  · simp only [hsub]
    have halong : Along w.meaning t (.of m) n c [] (sub, []) := .start hac hvals
    have hthrough : R.through c.body (sub.valuations n) :=
      hvals ▸ R.start hm hid (by simpa using hpred) (by simpa using harity)
    refine (resolveBody_keeps hw hcall hI hR hid rfl ht halong hthrough hIt).bind
      (resolveBody_leads hw.regular hw.lawful hw.judges hcall passes hid rfl ht halong) ?_
    rintro branches u hu - ⟨-, hall, -⟩ ⟨hIu, hends⟩
    refine Keeps.forM branches hu hIu (fun b hb v hv huv => ?_) fun b hb v hv huv hIv => ?_
    · exact (addAnswer_leads hw.regular hid hrel hv ((hall b hb).mono huv)).mono
        fun _ _ _ _ _ => trivial
    · exact addAnswer_keeps hw hI hm hid ((hall b hb).mono huv) (hends b hb) hIv
  · simp only [hnone]
    exact .pure hIt

/-- **Expanding a pattern keeps to the reasons**, where the calls and the decisions that it comes to
do, once the pass has come to the pattern. -/
theorem expandOnce_keeps (hw : w.Plain) (hcall : Calls w.meaning call) (hI : Guarded R I)
    (hR : Complies R I call passes) {m : Literal} (hm : R.calls (.of m))
    (hrel : w.registry.contains m.predicate = false)
    (henter : .of m ∉ s.complete → .of m ∉ s.expanded →
      I { s with expanded := .of m :: s.expanded })
    (hJ : ∀ t, I t → J t) (hs : Consistent w.meaning s) (hJs : J s) :
    Keeps E s (expandOnce w call passes (.of m)) fun _ t => J t := by
  unfold expandOnce Keeps
  rw [after_bind, after_enter]
  refine ⟨fun _ => Keeps.pure hJs, fun hnc hne => ?_⟩
  simp only [if_true]
  have hs₁ : Consistent w.meaning { s with expanded := .of m :: s.expanded } := hs.congr rfl rfl
  -- the clauses are tried from any state in which the pattern has been entered
  have htry : ∀ {t : Search σ}, Consistent w.meaning t → I t →
      Keeps E t ((w.program.candidates (CallPattern.of m).literal).forM fun x =>
        tryClause w call passes (.of m) x.1 x.2) fun _ u => J u := by
    intro t ht hIt
    refine (Keeps.forM _ ht hIt (fun x hx u hu _ => ?_) fun x hx u hu _ hIu => ?_).mono
      fun _ u hIu => hJ u hIu
    all_goals obtain ⟨hid, hpred, harity⟩ := (hw.asserted.mem_candidates_iff _).1 hx
    · exact (tryClause_leads hw.regular hw.lawful hw.judges hcall passes hid (hpred ▸ hrel) m
        hu).mono fun _ _ _ _ _ => trivial
    · exact tryClause_keeps hw hcall hI hR hm hid (by simpa using hpred) (by simpa using harity) hu
        hIu
  rw [after_bind, after_get]
  dsimp only
  split
  · rw [after_bind, after_onTables]
    refine ⟨fun g tables hget => ?_, fun e tables hget => ?_⟩
    all_goals have hget' := hI.get (henter hnc hne) hget
    · exact htry (hs₁.congr (LawfulTables.content_of_get hget) rfl) hget'.2
    · exact ⟨fun h heq => by cases heq; exact hget'.1 e rfl, by simp⟩
  · exact htry hs₁ (henter hnc hne)

end Searching

end ProbDatalog
