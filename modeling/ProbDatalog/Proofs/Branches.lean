import ProbDatalog.Proofs.Saturation

/-!
# Ways through a body

A branch of the search stands for the valuations of the variables of a clause that its bindings
allow. Resolving a literal splits the valuations of a branch by the premise that the literal
becomes, and as long as no table grows, it explores the literal.

* `Along`: what holds of a branch on its way through the body of a clause.
* `resolveLiteral_leads_negated`, `resolveLiteral_leads_evaluable`,
  `resolveLiteral_leads_relational`: **the ways to make a literal hold.**
-/

namespace ProbDatalog

variable {σ : Type} [Tables σ] [LawfulTables σ] {w : Theory} {M : Meaning w}

/-! ## Valuations of a branch -/

/-- The valuations of the variables of a clause that the bindings allow, where these variables have
been moved to the scope `n`. -/
def Substitution.valuations (sub : Substitution) (n : UInt32) : Set Valuation :=
  {θ | ∃ η, sub.SolvedBy η ∧ ∀ x, θ ⟨x, 0⟩ = η ⟨x, n⟩}

/-- A literal over the variables of scope `0` keeps its instances when these are moved. -/
theorem Literal.ground_rescoped_eq {l : Literal} {n : UInt32} {θ η : Valuation}
    (hl : ∀ v ∈ l.vars, v.scope = 0) (h : ∀ x, θ ⟨x, 0⟩ = η ⟨x, n⟩) :
    (l.rescoped n).ground η = l.ground θ := by
  rw [ground_rescoped]
  refine ground_congr fun v hv => ?_
  obtain ⟨x, scope⟩ := v
  have : scope = 0 := hl _ hv
  subst this
  exact (h x).symm

namespace Substitution

variable {sub : Substitution} {n : UInt32}

theorem mem_valuations {η : Valuation} (h : sub.SolvedBy η) :
    (fun v => η ⟨v.name, n⟩) ∈ sub.valuations n := ⟨η, h, fun _ => rfl⟩

theorem Acyclic.valuations_nonempty (h : sub.Acyclic) (n : UInt32) :
    (sub.valuations n).Nonempty := by
  obtain ⟨η, hη, -⟩ := h.exists_solvedBy fun _ => .boolean false
  exact ⟨_, mem_valuations hη⟩

/-- Bindings with one more condition leave the valuations that satisfy it. -/
theorem valuations_eq_sep {next : Substitution} {P Q : Valuation → Prop}
    (hsol : ∀ η, next.SolvedBy η ↔ sub.SolvedBy η ∧ P η)
    (hPQ : ∀ {θ η : Valuation}, sub.SolvedBy η → (∀ x, θ ⟨x, 0⟩ = η ⟨x, n⟩) → (P η ↔ Q θ)) :
    next.valuations n = {θ ∈ sub.valuations n | Q θ} := by
  ext θ
  constructor
  · rintro ⟨η, hη, htr⟩
    obtain ⟨hη', hP⟩ := (hsol η).1 hη
    exact ⟨⟨η, hη', htr⟩, (hPQ hη' htr).1 hP⟩
  · rintro ⟨⟨η, hη, htr⟩, hQ⟩
    exact ⟨η, (hsol η).2 ⟨hη, (hPQ hη htr).2 hQ⟩, htr⟩

/-- A literal that has been moved has the instances that it has in the branch. -/
theorem Acyclic.exists_ground_apply_rescoped_iff (h : sub.Acyclic) {l : Literal}
    (hl : ∀ v ∈ l.vars, v.scope = 0) (g : Literal) :
    (∃ η, (sub.apply (l.rescoped n)).ground η = g) ↔ ∃ θ ∈ sub.valuations n, l.ground θ = g := by
  rw [h.exists_ground_apply_iff]
  constructor
  · rintro ⟨η, hη, rfl⟩
    exact ⟨_, mem_valuations hη, (l.ground_rescoped n η).symm⟩
  · rintro ⟨θ, ⟨η, hη, htr⟩, rfl⟩
    exact ⟨η, hη, Literal.ground_rescoped_eq hl htr⟩

/-- Where a literal with all bindings applied is ground, it is its instance in the branch. -/
theorem apply_rescoped_eq_ground {l : Literal} (hl : ∀ v ∈ l.vars, v.scope = 0)
    (hg : (sub.apply (l.rescoped n)).isGround = true) {θ : Valuation}
    (hθ : θ ∈ sub.valuations n) : sub.apply (l.rescoped n) = l.ground θ := by
  obtain ⟨η, hη, htr⟩ := hθ
  rw [hη.apply_eq_ground hg, Literal.ground_rescoped_eq hl htr]

end Substitution

/-! ## Premises -/

/-- A premise holds for the reasons that a search has for it. -/
def Warranted (M : Meaning w) (s : Search σ) : Premise → Prop
  | .relational l =>
    if l.negated then
      M.mayNegate l.positive ∧
        (w.registry.contains l.predicate = true ∨ .of l.positive ∈ s.complete)
    else l ∈ M.derivable ∧ ∃ q, l ∈ s.answersOf q
  | .evaluable l => w.Accepts l

theorem warranted_iff_of_negated {s : Search σ} {l : Literal} (hn : l.negated = true) :
    Warranted M s (.relational l) ↔
      M.mayNegate l.positive ∧
        (w.registry.contains l.predicate = true ∨ .of l.positive ∈ s.complete) := by
  simp [Warranted, hn]

theorem warranted_iff_of_not_negated {s : Search σ} {l : Literal} (hn : l.negated = false) :
    Warranted M s (.relational l) ↔ l ∈ M.derivable ∧ ∃ q, l ∈ s.answersOf q := by
  simp [Warranted, hn]

theorem Theory.premise_literal (w : Theory) (l : Literal) : (w.premise l).literal = l := by
  unfold premise
  split <;> rfl

theorem Theory.premise_injective {l m : Literal} (h : w.premise l = w.premise m) : l = m := by
  rw [← w.premise_literal l, h, w.premise_literal]

/-- A ground instance of a clause has the instances of its head and of its body. -/
theorem Theory.ground_eq_of_groundRule_eq {id : ClauseId} {c : Clause} {θ η : Valuation}
    (h : w.groundRule id c η = w.groundRule id c θ) :
    ∀ l ∈ c.head :: c.body, l.ground η = l.ground θ := by
  intro l hl
  rcases List.mem_cons.1 hl with rfl | hl
  · exact congrArg Proof.head h
  · exact premise_injective (List.map_inj_left.1 (congrArg Proof.body h) l hl)

/-- What holds of a branch that has come through the literals `before` of a clause: all valuations
that it allows give the premises that it has, and these are warranted. -/
structure Along (M : Meaning w) (s : Search σ) (p : CallPattern) (n : UInt32) (c : Clause)
    (before : List Literal) (br : Searching.Branch) : Prop where
  acyclic : br.1.Acyclic
  head : ∀ θ ∈ br.1.valuations n, c.head.ground θ ∈ p.instances
  premises : ∀ θ ∈ br.1.valuations n, br.2 = before.map fun l => w.premise (l.ground θ)
  warranted : ∀ prem ∈ br.2, Warranted M s prem

/-- What holds of a branch that comes from `sub` by making the literal `l` hold. -/
structure Follows (M : Meaning w) (s : Search σ) (n : UInt32) (l : Literal) (sub : Substitution)
    (next : Substitution × Premise) : Prop where
  acyclic : next.1.Acyclic
  valuations : next.1.valuations n = {θ ∈ sub.valuations n | w.premise (l.ground θ) = next.2}
  unchanged : l.negated = true → next.1 = sub
  warranted : Warranted M s next.2

section Branch

variable {s t : Search σ} {p : CallPattern} {n : UInt32} {c : Clause} {before : List Literal}
variable {br : Searching.Branch} {l : Literal} {next : Substitution × Premise}

theorem Warranted.mono {prem : Premise} (h : Warranted M s prem) (hp : Progress s t) :
    Warranted M t prem := by
  cases prem with
  | evaluable l => exact h
  | relational l =>
    by_cases hn : l.negated = true
    · rw [warranted_iff_of_negated hn] at h ⊢
      exact ⟨h.1, h.2.imp_right fun hc => hp.complete hc⟩
    · rw [warranted_iff_of_not_negated (by simpa using hn)] at h ⊢
      exact ⟨h.1, h.2.imp fun q hq => hp.answers q hq⟩

theorem Along.mono (h : Along M s p n c before br) (hp : Progress s t) :
    Along M t p n c before br :=
  ⟨h.acyclic, h.head, h.premises, fun prem hprem => (h.warranted prem hprem).mono hp⟩

theorem Follows.mono {sub : Substitution} (h : Follows M s n l sub next) (hp : Progress s t) :
    Follows M t n l sub next :=
  ⟨h.acyclic, h.valuations, h.unchanged, h.warranted.mono hp⟩

theorem Follows.subset {sub : Substitution} (h : Follows M s n l sub next) :
    next.1.valuations n ⊆ sub.valuations n := fun θ hθ => by
  rw [h.valuations] at hθ
  exact hθ.1

theorem Follows.premise {sub : Substitution} (h : Follows M s n l sub next) {θ : Valuation}
    (hθ : θ ∈ next.1.valuations n) : next.2 = w.premise (l.ground θ) := by
  rw [h.valuations] at hθ
  exact hθ.2.symm

/-- A clause is started with the valuations that make its head an instance of the pattern. -/
theorem Along.start {sub : Substitution} (hac : sub.Acyclic)
    (h : sub.valuations n = {θ | c.head.ground θ ∈ p.instances}) : Along M s p n c [] (sub, []) :=
  ⟨hac, fun _ hθ => h.subset hθ, fun _ _ => rfl, by simp⟩

theorem Along.step (h : Along M s p n c before br) (hf : Follows M s n l br.1 next) :
    Along M s p n c (before ++ [l]) (next.1, br.2 ++ [next.2]) where
  acyclic := hf.acyclic
  head θ hθ := h.head θ (hf.subset hθ)
  premises θ hθ := by
    rw [List.map_append, ← h.premises θ (hf.subset hθ)]
    simp [hf.premise hθ]
  warranted prem hprem := by
    rcases List.mem_append.1 hprem with hprem | hprem
    · exact h.warranted prem hprem
    · rw [List.mem_singleton.1 hprem]
      exact hf.warranted

/-- All valuations of a branch agree on the literals that it has come through. -/
theorem Along.ground_eq (h : Along M s p n c before br) (hl : l ∈ before) {θ η : Valuation}
    (hθ : θ ∈ br.1.valuations n) (hη : η ∈ br.1.valuations n) : l.ground θ = l.ground η := by
  have heq := (h.premises θ hθ).symm.trans (h.premises η hη)
  exact Theory.premise_injective (List.map_inj_left.1 heq l hl)

/-- The variables of positive literals that a branch has come through are bound. -/
theorem Along.isGround_resolve (h : Along M s p n c before br) {v : Variable}
    (hv : v ∈ boundVarsOf before) (hscope : ∀ l ∈ before, ∀ v ∈ l.vars, v.scope = 0) :
    (br.1.resolve (.var (v.rescoped n))).isGround = true := by
  obtain ⟨l, hl, hvl⟩ := List.mem_flatMap.1 hv
  have hl' := (List.mem_filter.1 hl).1
  refine h.acyclic.isGround_resolve fun θ η hθ hη => ?_
  obtain ⟨x, scope⟩ := v
  have : scope = 0 := hscope l hl' _ hvl
  subst this
  exact Literal.ground_congr_iff.1
    (h.ground_eq hl' (Substitution.mem_valuations hθ) (Substitution.mem_valuations hη)) _ hvl

/-- A literal in a branch is a partial call under each of its valuations. -/
theorem Along.partialCall (h : Along M s p n c before br)
    (hscope : ∀ l ∈ before, ∀ v ∈ l.vars, v.scope = 0) (hl : ∀ v ∈ l.vars, v.scope = 0)
    {θ : Valuation} (hθ : θ ∈ br.1.valuations n) :
    l.PartialCall θ (boundVarsOf before) (br.1.apply (l.rescoped n)).terms := by
  constructor
  · obtain ⟨η, hη, htr⟩ := hθ
    refine ⟨η, ?_⟩
    rw [← Literal.ground_rescoped_eq hl htr, ← hη.ground_apply]
    rfl
  · intro q hq hbound
    have hterms : (br.1.apply (l.rescoped n)).terms =
        l.terms.map fun t => br.1.resolve (t.rescoped n) := by
      simp [Substitution.apply, Literal.rescoped]
    obtain ⟨t, -, rfl⟩ : ∃ t ∈ l.terms, (t, br.1.resolve (t.rescoped n)) = q := by
      rw [hterms] at hq
      obtain ⟨i, hi, rfl⟩ := List.mem_iff_getElem.1 hq
      simp
    cases t with
    | const a => exact congrArg Term.isGround (Substitution.resolve_const a)
    | var v => exact h.isGround_resolve (hbound v rfl) hscope

end Branch

/-! ## Resolving literals -/

/-- How far a search sees at this point. -/
def Search.horizon (s : Search σ) (finish : Valuation → Prop) : Meaning.Horizon where
  called q := q ∈ s.expanded ∨ q ∈ s.complete
  decided q := q ∈ s.complete
  known q := {f | f ∈ s.answersOf q}
  finish := finish

theorem Search.horizon_le {s t : Search σ} {finish finish' : Valuation → Prop} (hp : Progress s t)
    (heq : t.additions = s.additions) (he : s.expanded ⊆ t.expanded)
    (hf : ∀ θ, finish θ → finish' θ) : (s.horizon finish).Le (t.horizon finish') where
  called q hq := hq.imp (fun hq => he hq) fun hq => hp.complete hq
  decided q hq := hp.complete hq
  known q _ f hf := by
    have : f ∈ t.answersOf q := hf
    rwa [Search.answersOf, hp.content heq] at this
  finish := hf

namespace Searching

variable {call : CallPattern → Searching σ Unit} {s : Search σ} {n : UInt32}

/-- What is known once the ways to make a literal hold have been found. -/
structure Resolved (M : Meaning w) (s t : Search σ) (n : UInt32) (counts : Valuation → Prop)
    (l : Literal) (sub : Substitution) (nexts : List (Substitution × Premise)) : Prop where
  pass : Pass M s t
  follows : ∀ next ∈ nexts, Follows M t n l sub next
  /-- The literal has been explored, if what is left to do for each of the ways has been done. -/
  explored : t.additions = s.additions → ∀ finish (rest : Set Valuation → Prop),
    (∀ A, (∀ θ ∈ A, ¬counts θ) → rest A) → (∀ next ∈ nexts, rest (next.1.valuations n)) →
    (∃ θ ∈ sub.valuations n, counts θ) →
    M.ExploredLiteral (t.horizon finish) rest l (sub.valuations n)

variable {counts : Valuation → Prop} {l : Literal} {sub : Substitution}

/-- A negated literal that has been decided is a premise. -/
theorem follows_of_decision (hsub : sub.Acyclic) (hl : ∀ v ∈ l.vars, v.scope = 0)
    (hn : l.negated = true) (hg : (sub.apply (l.rescoped n)).isGround = true)
    (hmay : M.mayNegate (sub.apply (l.rescoped n)).positive)
    (hdec : w.registry.contains l.predicate = true ∨
      .of (sub.apply (l.rescoped n)).positive ∈ s.complete) :
    Follows M s n l sub (sub, .relational (sub.apply (l.rescoped n))) := by
  refine ⟨hsub, (Set.sep_eq_self_iff_mem_true.2 fun θ hθ => ?_).symm, fun _ => rfl, ?_⟩
  · rw [← Substitution.apply_rescoped_eq_ground hl hg hθ]
    simp [Theory.premise, hn]
  · exact (warranted_iff_of_negated (by simpa using hn)).2 ⟨hmay, hdec⟩

/-- A negated literal. -/
theorem resolveLiteral_leads_negated (hM : M.Lawful) (hJ : M.Judges σ) (hcall : Calls M call)
    (passes : Nat) (hsub : sub.Acyclic) (hl : ∀ v ∈ l.vars, v.scope = 0)
    (hn : l.negated = true) (hs : Consistent M s) :
    Leads M s (resolveLiteral w call passes (l.rescoped n) sub) fun nexts t =>
      Resolved M s t n counts l sub nexts := by
  unfold resolveLiteral
  simp only [Substitution.apply_negated, Literal.rescoped_negated, hn, if_true]
  by_cases hg : (sub.apply (l.rescoped n)).isGround = true
  · rw [if_pos hg]
    -- the bindings leave open only valuations under which the literal is the one that is decided
    have happly : ∀ θ ∈ sub.valuations n, sub.apply (l.rescoped n) = l.ground θ := fun θ hθ =>
      Substitution.apply_rescoped_eq_ground hl hg hθ
    refine (decideNegation_leads hM hJ hcall passes hg hs).bind ?_
    rintro holds t ht - ⟨hexp, hdec, hright⟩
    refine .pure ht ⟨.of_expanded_eq hexp, ?_, ?_⟩
    · intro next hnext
      cases holds with
      | false => simp at hnext
      | true =>
        rw [if_pos rfl, List.mem_singleton] at hnext
        exact hnext ▸ follows_of_decision hsub hl hn hg (by simpa using hright) hdec
    · intro _ finish rest hvoid hrest _
      rw [Meaning.exploredLiteral_negated hn]
      refine ⟨(sub.apply (l.rescoped n)).positive, fun θ hθ => ?_, hdec, fun hmust => ?_⟩
      · rw [happly θ hθ, Literal.positive_ground]
      · cases holds with
        | false => exact absurd hmust (by simpa using hright)
        | true => exact hrest (sub, .relational (sub.apply (l.rescoped n))) (by simp)
  · rw [if_neg hg]
    exact .fail hs _

section Evaluable

variable (hl : ∀ v ∈ l.vars, v.scope = 0) (hn : l.negated = false)
  (hc : w.registry.contains l.predicate = true)

include hn hc

/-- There is no way if the valuations that the predicate accepts do not count. -/
theorem Resolved.of_rejected (h : ∀ θ ∈ sub.valuations n, w.Accepts (l.ground θ) → ¬counts θ) :
    Resolved M s s n counts l sub [] := by
  refine ⟨.refl s, by simp, fun _ finish rest hvoid _ _ => ?_⟩
  rw [Meaning.exploredLiteral_evaluable hn hc]
  exact hvoid _ fun θ hθ => h θ hθ.1 hθ.2

include hl

/-- There is one way if it leaves the valuations that the predicate accepts, and they agree. -/
theorem Resolved.of_accepted {next : Substitution} (hac : next.Acyclic)
    (hg : (next.apply (l.rescoped n)).isGround = true)
    (hvals : next.valuations n = {θ ∈ sub.valuations n | w.Accepts (l.ground θ)}) :
    Resolved M s s n counts l sub [(next, .evaluable (next.apply (l.rescoped n)))] := by
  have hpremise : ∀ θ, w.premise (l.ground θ) = .evaluable (l.ground θ) := by
    simp [Theory.premise, hn, hc]
  have happly : ∀ θ ∈ next.valuations n, next.apply (l.rescoped n) = l.ground θ :=
    fun θ hθ => Substitution.apply_rescoped_eq_ground hl hg hθ
  refine ⟨.refl s, ?_, fun _ finish rest _ hrest _ => ?_⟩
  · intro nx hnx
    rw [List.mem_singleton] at hnx
    subst hnx
    obtain ⟨θ, hθ⟩ := hac.valuations_nonempty n
    have hacc : w.Accepts (next.apply (l.rescoped n)) := by
      rw [happly θ hθ]
      exact (hvals ▸ hθ).2
    refine ⟨hac, ?_, by simp [hn], hacc⟩
    ext η
    constructor
    · exact fun hη => ⟨(hvals ▸ hη).1, by rw [hpremise, happly η hη]⟩
    · rintro ⟨hη, heq⟩
      rw [hpremise, Premise.evaluable.injEq] at heq
      exact hvals ▸ ⟨hη, heq ▸ hacc⟩
  · rw [Meaning.exploredLiteral_evaluable hn hc, ← hvals]
    exact hrest (next, .evaluable (next.apply (l.rescoped n))) (by simp)

end Evaluable

/-- The evaluable predicate that a call resolves to is the one of its name. -/
theorem evaluable_of_resolve {e : Evaluable} {o : Option Evaluable}
    (he : w.registry.get? l.predicate = some e)
    (hres : w.registry.resolve (sub.apply (l.rescoped n)) = .ok o) : o = some e := by
  cases o with
  | none =>
    have := Registry.resolve_eq_none hres
    simp only [Substitution.apply_predicate, Literal.rescoped_predicate,
      Registry.contains_iff.2 ⟨e, he⟩] at this
    cases this
  | some e' =>
    have := (Registry.resolve_eq_some hres).1
    simp only [Substitution.apply_predicate, Literal.rescoped_predicate, he] at this
    exact this.symm

/-- An instance is accepted if the predicate accepts the arguments as the valuation gives them. -/
theorem evaluate_value_iff_accepts {e : Evaluable} (hl : ∀ v ∈ l.vars, v.scope = 0)
    (hres : w.registry.resolve (sub.apply (l.rescoped n)) = .ok (some e)) {θ η : Valuation}
    (hη : sub.SolvedBy η) (htr : ∀ x, θ ⟨x, 0⟩ = η ⟨x, n⟩) :
    e.evaluate ((sub.apply (l.rescoped n)).terms.map fun t => .const (t.value η)) = .ok .accept ↔
      w.Accepts (l.ground θ) := by
  have hterms : (sub.apply (l.rescoped n)).terms.map (fun t => Term.const (t.value η)) =
      (l.ground θ).terms := by
    rw [← Literal.ground_rescoped_eq hl htr, ← hη.ground_apply]
    rfl
  have hres' : w.registry.resolve (l.ground θ) = .ok (some e) :=
    Registry.resolve_congr (by simp) (by simp) hres
  rw [hterms]
  constructor
  · exact fun h => ⟨e, hres', h⟩
  · rintro ⟨e', he', h⟩
    rw [hres'] at he'
    cases he'
    exact h

/-- What a steady predicate binds gives each variable of the call a value. -/
theorem isGround_of_bindings {e : Evaluable} {b next : Substitution} (hsteady : e.Steady)
    (hev : e.evaluate (sub.apply (l.rescoped n)).terms = .ok (.bind b)) (hac : next.Acyclic)
    (hsol : ∀ η, next.SolvedBy η ↔ sub.SolvedBy η ∧ ∀ p ∈ b.toList, η p.1 = p.2.value η) :
    (next.apply (l.rescoped n)).isGround = true := by
  refine hac.isGround_apply fun η η' hη hη' => ?_
  obtain ⟨hη, hb⟩ := (hsol η).1 hη
  obtain ⟨hη', hb'⟩ := (hsol η').1 hη'
  rw [← hη.ground_apply, ← hη'.ground_apply]
  refine Literal.ground_congr fun v hv => ?_
  obtain ⟨k, hk⟩ := hsteady.exists_binding hev v (Literal.mem_vars.1 hv)
  exact (hb _ hk).trans (hb' _ hk).symm

/-- An evaluable literal. -/
theorem resolveLiteral_leads_evaluable (passes : Nat) (hsub : sub.Acyclic)
    (hl : ∀ v ∈ l.vars, v.scope = 0) (hn : l.negated = false) {e : Evaluable}
    (he : w.registry.get? l.predicate = some e) (hsteady : e.Steady)
    (hrej : e.evaluate (sub.apply (l.rescoped n)).terms = .ok .reject →
      ∀ θ ∈ sub.valuations n, ¬counts θ)
    (hs : Consistent M s) :
    Leads M s (resolveLiteral w call passes (l.rescoped n) sub) fun nexts t =>
      Resolved M s t n counts l sub nexts := by
  have hc : w.registry.contains l.predicate = true := Registry.contains_iff.2 ⟨e, he⟩
  unfold resolveLiteral
  simp only [Substitution.apply_negated, Literal.rescoped_negated, hn, Bool.false_eq_true, if_false]
  refine .ofExcept_bind hs fun o hres => ?_
  obtain rfl := evaluable_of_resolve he hres
  refine .ofExcept_bind hs fun outcome hev => ?_
  obtain _ | _ | b := outcome
  · exact .pure hs (.of_rejected hn hc fun θ hθ _ => hrej hev θ hθ)
  · -- an accepted call is ground, so all valuations agree on it
    have hg : (sub.apply (l.rescoped n)).isGround = true :=
      List.all_eq_true.2 (hsteady.isGround_of_accept hev)
    refine .pure hs (.of_accepted hl hn hc hsub hg ?_)
    refine (Set.sep_eq_self_iff_mem_true.2 fun θ hθ => ?_).symm
    rw [← Substitution.apply_rescoped_eq_ground hl hg hθ]
    exact ⟨e, hres, hev⟩
  · -- valuations respect the bindings if the predicate accepts what they give
    have haccept : ∀ {θ η : Valuation}, sub.SolvedBy η → (∀ x, θ ⟨x, 0⟩ = η ⟨x, n⟩) →
        ((∀ p ∈ b.toList, η p.1 = p.2.value η) ↔ w.Accepts (l.ground θ)) := fun hη htr =>
      (hsteady.accept_iff hev _).trans (evaluate_value_iff_accepts hl hres hη htr)
    rcases Substitution.merge_spec hsub b with ⟨next, hmerge, hac, hsol⟩ | ⟨hfalse, hne⟩
    · simp only [hmerge, if_true]
      refine .pure hs (.of_accepted hl hn hc hac (isGround_of_bindings hsteady hev hac hsol) ?_)
      exact Substitution.valuations_eq_sep hsol haccept
    · simp only [hfalse, Bool.false_eq_true, if_false]
      refine .pure hs (.of_rejected hn hc ?_)
      rintro θ ⟨η, hη, htr⟩ hacc
      exact absurd ((haccept hη htr).2 hacc) (hne η hη)

/-- An answer that unifies with a call leaves the valuations that give it, and one that does not
unify is given by none of them. -/
theorem unify?_rescoped_spec (hsub : sub.Acyclic) (hl : ∀ v ∈ l.vars, v.scope = 0) {g : Literal}
    (hg : g.isGround = true) :
    (∃ next, (sub.apply (l.rescoped n)).unify? g sub = some next ∧ next.Acyclic ∧
      next.valuations n = {θ ∈ sub.valuations n | l.ground θ = g}) ∨
    ((sub.apply (l.rescoped n)).unify? g sub = none ∧ ∀ θ ∈ sub.valuations n, l.ground θ ≠ g) := by
  have hunifies : ∀ {θ η : Valuation}, sub.SolvedBy η → (∀ x, θ ⟨x, 0⟩ = η ⟨x, n⟩) →
      ((sub.apply (l.rescoped n)).ground η = g.ground η ↔ l.ground θ = g) := by
    intro θ η hη htr
    rw [hη.ground_apply, Literal.ground_rescoped_eq hl htr, Literal.ground_of_isGround hg]
  rcases Literal.unify?_spec hsub (sub.apply (l.rescoped n)) g with
    ⟨next, hnext, hac, hsol⟩ | ⟨hnone, hne⟩
  · refine .inl ⟨next, hnext, hac, ?_⟩
    exact Substitution.valuations_eq_sep hsol hunifies
  · refine .inr ⟨hnone, ?_⟩
    rintro θ ⟨η, hη, htr⟩ heq
    exact hne η hη ((hunifies hη htr).2 heq)

/-- An answer that unifies with a call is a premise. -/
theorem follows_of_answer (hsub : sub.Acyclic) (hl : ∀ v ∈ l.vars, v.scope = 0)
    (hn : l.negated = false) (hc : w.registry.contains l.predicate = false) {g : Literal}
    (hg : g.isGround = true) (hder : g ∈ M.derivable) {q : CallPattern} (hq : g ∈ s.answersOf q)
    {next : Substitution} (hnext : (sub.apply (l.rescoped n)).unify? g sub = some next) :
    Follows M s n l sub (next, .relational g) ∧
      next.valuations n = {θ ∈ sub.valuations n | l.ground θ = g} := by
  rcases unify?_rescoped_spec hsub hl hg with ⟨next', hunify, hac, hvals⟩ | ⟨hnone, -⟩
  · obtain rfl : next' = next := Option.some_injective _ (hunify.symm.trans hnext)
    refine ⟨⟨hac, ?_, by simp [hn], ?_⟩, hvals⟩
    · rw [hvals]
      simp [Theory.premise, hn, hc]
    · obtain ⟨θ, hθ⟩ := hac.valuations_nonempty n
      obtain ⟨-, rfl⟩ : θ ∈ {θ ∈ sub.valuations n | l.ground θ = g} := hvals ▸ hθ
      exact (warranted_iff_of_not_negated (by simp [hn])).2 ⟨hder, q, hq⟩
  · rw [hnext] at hnone
    cases hnone

omit [LawfulTables σ] in
/-- A positive literal over a predicate that is not evaluable is called. -/
theorem resolveLiteral_of_relational (passes : Nat) (hn : l.negated = false)
    (hc : w.registry.contains l.predicate = false) (sub : Substitution) :
    resolveLiteral w call passes l sub = (do
      call (.of (sub.apply l))
      let answers ← readTables (Tables.answers · (.of (sub.apply l)))
      return answers.filterMap fun answer =>
        ((sub.apply l).unify? answer sub).map fun next => (next, .relational answer)) := by
  unfold resolveLiteral
  dsimp only
  rw [if_neg (by simp [hn]), Registry.resolve_of_not_contains (by simpa using hc)]
  rfl

/-- A literal that clauses answer. -/
theorem resolveLiteral_leads_relational (hcall : Calls M call) (passes : Nat) (hsub : sub.Acyclic)
    (hl : ∀ v ∈ l.vars, v.scope = 0) (hn : l.negated = false)
    (hc : w.registry.contains l.predicate = false) (hs : Consistent M s) :
    Leads M s (resolveLiteral w call passes (l.rescoped n) sub) fun nexts t =>
      Resolved M s t n counts l sub nexts := by
  rw [resolveLiteral_of_relational passes (l := l.rescoped n) hn hc]
  refine (hcall (sub.apply (l.rescoped n)) s (by simpa using hc) hs).bind ?_
  rintro _ t ht - ⟨hpass, hmem⟩
  refine .answers_bind ht ?_
  have hinst : ∀ g, g ∈ (CallPattern.of (sub.apply (l.rescoped n))).instances ↔
      ∃ θ ∈ sub.valuations n, l.ground θ = g := by
    intro g
    rw [CallPattern.mem_instances_of, Literal.positive_eq_self (by simp [hn])]
    exact hsub.exists_ground_apply_rescoped_iff hl g
  have hground : ∀ g ∈ t.answersOf (.of (sub.apply (l.rescoped n))), g.isGround = true :=
    fun g hg => CallPattern.isGround_of_mem_instances (ht.instances hg)
  refine .pure ht ⟨hpass, ?_, ?_⟩
  · intro next hnext
    obtain ⟨g, hg, hmap⟩ := List.mem_filterMap.1 hnext
    obtain ⟨next, hunify, rfl⟩ := Option.map_eq_some_iff.1 hmap
    exact (follows_of_answer hsub hl hn hc (hground g hg) (ht.derivable hg) hg hunify).1
  · intro _ finish rest hvoid hrest _
    rw [Meaning.exploredLiteral_relational hn hc]
    refine ⟨_, hmem, hinst, fun g hg => ?_⟩
    rcases unify?_rescoped_spec hsub hl (hground g hg) with
      ⟨next, hunify, -, hvals⟩ | ⟨-, hne⟩
    · rw [← hvals]
      exact hrest (next, .relational g) (List.mem_filterMap.2 ⟨g, hg, by simp [hunify]⟩)
    · exact hvoid _ fun θ hθ => absurd hθ.2 (hne θ hθ.1)

end Searching

end ProbDatalog
