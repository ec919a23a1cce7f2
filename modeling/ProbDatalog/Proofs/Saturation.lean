import ProbDatalog.Proofs.Gathering

/-!
# Saturation and negation

A pass that grows no table has explored every pattern it came to, so when the passes for a pattern
end, all these patterns are complete. Negations are decided from complete tables.

* `Pass`: how the patterns of a pass come about.
* `Calls`: what is asked of the calls that a body makes.
* `fixpoint_leads`, `saturating_leads`: **a pattern is complete once its passes end.**
* `verdict_leads`, `decideNegation_leads`: a decision is right in the meaning of the theory.
-/

namespace ProbDatalog

variable {σ α : Type} [Tables σ] [LawfulTables σ] {w : Theory} {M : Meaning w}

/-! ## Passes -/

theorem Search.HasExplored.mono {s t : Search σ} {p : CallPattern} (h : s.HasExplored M p)
    (hp : Progress s t) (heq : t.additions = s.additions) (he : s.expanded ⊆ t.expanded) :
    t.HasExplored M p := by
  refine Meaning.Explores.mono h ?_ (fun q hq => hp.complete hq) ?_ fun π hπ => hp.found hπ
  · exact fun q hq => hq.imp (fun hq => he hq) fun hq => hp.complete hq
  · intro q _ f hf
    have : f ∈ t.answersOf q := hf
    rwa [Search.answersOf, hp.content heq] at this

/-- Patterns are only ever added to those of a pass, and as long as no table grows, those that have
been added have been explored. -/
structure Pass (M : Meaning w) (s t : Search σ) : Prop where
  expanded : s.expanded ⊆ t.expanded
  explored : t.additions = s.additions → ∀ p ∈ t.expanded, p ∉ s.expanded → t.HasExplored M p

namespace Pass

variable {s t u : Search σ}

theorem of_expanded_eq (h : t.expanded = s.expanded) : Pass M s t :=
  ⟨fun _ hp => h ▸ hp, fun _ _ hp hn => absurd (h ▸ hp) hn⟩

theorem refl (s : Search σ) : Pass M s s := of_expanded_eq rfl

theorem trans (h : Pass M s t) (h' : Pass M t u) (hp : Progress s t) (hp' : Progress t u) :
    Pass M s u where
  expanded := List.Subset.trans h.expanded h'.expanded
  explored heq p hu hs := by
    obtain ⟨h1, h2⟩ := hp.additions_eq hp' heq
    by_cases ht : p ∈ t.expanded
    · exact (h.explored h1 p ht hs).mono hp' h2 h'.expanded
    · exact h'.explored h2 p hu ht

end Pass

/-- What is asked of the calls that a body makes: they explore patterns, the called one among them,
unless it is complete or the pass has been there. Evaluable predicates are not called. -/
def Calls (M : Meaning w) (call : CallPattern → Searching σ Unit) : Prop :=
  ∀ l s, w.registry.contains l.predicate = false → Consistent M s →
    Leads M s (call (.of l)) fun _ t =>
    Pass M s t ∧ (.of l ∈ t.expanded ∨ .of l ∈ t.complete)

namespace Leads

variable {s : Search σ}

theorem get (hs : Consistent M s) : Leads M s MonadState.get fun a t => s = a ∧ s = t :=
  ⟨hs, .refl s, fun a ha => by cases ha; exact ⟨rfl, rfl⟩⟩

theorem modify {f : Search σ → Search σ} (hs : Consistent M (f s)) (hp : Progress s (f s)) :
    Leads M s (modify f) fun _ t => t = f s :=
  ⟨hs, hp, fun _ _ => rfl⟩

end Leads

namespace Searching

variable {call : CallPattern → Searching σ Unit} {s : Search σ}

/-- **When the passes for a pattern end, all patterns of the last pass have been explored.** -/
theorem fixpoint_leads (hcall : Calls M call) {l : Literal}
    (hl : w.registry.contains l.predicate = false) (passes : Nat) (hs : Consistent M s) :
    Leads M s (fixpoint call (.of l) passes) fun _ t =>
      (∀ p ∈ t.expanded, t.HasExplored M p) ∧ (.of l ∈ t.expanded ∨ .of l ∈ t.complete) := by
  induction passes generalizing s with
  | zero => exact .throw hs _
  | succ passes ih =>
    unfold fixpoint
    refine (Leads.get hs).bind ?_
    rintro _ _ - - ⟨rfl, rfl⟩
    refine (Leads.modify (hs.congr rfl rfl)
      (.of_content_eq rfl (List.Subset.refl _) rfl rfl)).bind ?_
    rintro _ _ hs' - rfl
    refine (hcall l _ hl hs').bind ?_
    rintro _ t ht - ⟨hpass, hmem⟩
    refine (Leads.get ht).bind ?_
    rintro _ _ - - ⟨rfl, rfl⟩
    -- a pass in which no table has grown has explored all that it called
    split
    next heq => exact .pure ht ⟨fun p hp => hpass.explored heq p hp (by simp), hmem⟩
    next => exact ih ht

/-- **A search for a pattern that succeeds completes it.** -/
theorem saturating_leads {p : CallPattern} {x : Searching σ Unit} (hM : M.Lawful)
    (hs : Consistent M s)
    (hx : Leads M { s with expanded := [] } x fun _ t =>
      (∀ q ∈ t.expanded, t.HasExplored M q) ∧ (p ∈ t.expanded ∨ p ∈ t.complete)) :
    Leads M s (saturating p x) fun _ t => t.expanded = s.expanded ∧ p ∈ t.complete := by
  by_cases hp : p ∈ s.complete
  · unfold Leads After
    rw [saturating_of_complete hp]
    exact ⟨hs, .refl s, fun _ _ => ⟨rfl, hp⟩⟩
  · unfold Leads After saturating at *
    rw [if_neg (by simpa using hp)]
    have hstart : Progress s { s with expanded := [] } :=
      .of_content_eq rfl (List.Subset.refl _) rfl rfl
    obtain ⟨ht, hpr, hq⟩ := hx
    generalize x { s with expanded := [] } = y at ht hpr hq
    obtain ⟨h | ⟨⟩, t⟩ := y
    -- a search that fails restores the patterns of the pass around it
    · have hback : Progress t { t with expanded := s.expanded } :=
        .of_content_eq rfl (List.Subset.refl _) rfl rfl
      exact ⟨ht.congr rfl rfl, (hstart.trans hpr).trans hback, fun a ha => by cases ha⟩
    · obtain ⟨hE, hmem⟩ := hq () rfl
      have hback : Progress t
          { t with expanded := s.expanded, complete := t.expanded ++ t.complete } :=
        .of_content_eq rfl (List.subset_append_right _ _) rfl rfl
      refine ⟨ht.complete_expanded hM hE s.expanded, (hstart.trans hpr).trans hback,
        fun _ _ => ⟨rfl, ?_⟩⟩
      exact List.mem_append.2 hmem

theorem refuting_leads {p : CallPattern} {l : Literal} {x : Searching σ Unit}
    {Q : Unit → Search σ → Prop} (hs : Consistent M s)
    (hQ : ∀ a t negating, Q a t → Q a { t with negating })
    (hx : Leads M { s with negating := p :: s.negating } x Q) :
    Leads M s (refuting p l x) Q := by
  unfold Leads After refuting at *
  split
  · exact ⟨hs, .refl s, fun a ha => by cases ha⟩
  · obtain ⟨ht, hpr, hq⟩ := hx
    generalize x { s with negating := p :: s.negating } = y at ht hpr hq
    obtain ⟨r, t⟩ := y
    refine ⟨ht.congr rfl rfl, ⟨hpr.answers, hpr.records, hpr.complete, ?_, hpr.additions,
      hpr.content, hpr.grown⟩, fun a ha => hQ a t _ (hq a ha)⟩
    have : t.negating = p :: s.negating := hpr.negating
    simp [this]

end Searching

/-! ## Negation -/

/-- Where proofs are kept, the certainty of a fact is judged right: what is certain need not be
negated, and what is not certain may be. -/
def Meaning.Judges (M : Meaning w) (σ : Type) [Tables σ] [LawfulTables σ] : Prop :=
  w.mode = .problog → ∀ (s : Search σ) b found proofs certain, Consistent M s →
    b.isGround = true → b.negated = false → w.registry.contains b.predicate = false →
    .of b ∈ s.complete → Tables.proofsBelow s.tables b = .ok found →
    found.support? b = some proofs → proofs.isCertain? b = some certain →
    if certain then ¬M.mustNegate b else M.mayNegate b

namespace Searching

variable {call : CallPattern → Searching σ Unit} {s : Search σ}

theorem justification_leads {l : Literal} {Q : ProofSet → Search σ → Prop} (hs : Consistent M s)
    (h : ∀ found proofs, Tables.proofsBelow s.tables l.positive = .ok found →
      found.support? l = some proofs → Q proofs s) :
    Leads M s (justification l) Q := by
  unfold justification
  refine (Leads.readTables hs fun _ ha => ⟨rfl, ha⟩).bind_unchanged fun found hrec => ?_
  exact .ofOption hs fun proofs hproofs => h found proofs hrec hproofs

theorem justification_bind {β : Type} {l : Literal} {k : ProofSet → Searching σ β}
    {R : β → Search σ → Prop} (hs : Consistent M s)
    (h : ∀ found proofs, Tables.proofsBelow s.tables l.positive = .ok found →
      found.support? l = some proofs → Leads M s (k proofs) R) :
    Leads M s (justification l >>= k) R := by
  refine (justification_leads (Q := fun proofs t => s = t ∧ ∃ found,
    Tables.proofsBelow s.tables l.positive = .ok found ∧ found.support? l = some proofs) hs
    fun found _ hrec hsup => ⟨rfl, found, hrec, hsup⟩).bind_unchanged ?_
  rintro proofs ⟨found, hrec, hsup⟩
  exact h found proofs hrec hsup

/-- The table of the fact is completed before its negation is decided. -/
theorem refuting_fixpoint_leads (hM : M.Lawful) (hcall : Calls M call) (passes : Nat) {l : Literal}
    (hrel : w.registry.contains l.predicate = false) (hs : Consistent M s) :
    Leads M s (refuting (.of l.positive) l (saturating (.of l.positive)
      (fixpoint call (.of l.positive) passes))) fun _ t =>
      t.expanded = s.expanded ∧ .of l.positive ∈ t.complete := by
  have hs' : Consistent M { s with negating := .of l.positive :: s.negating } := hs.congr rfl rfl
  refine refuting_leads hs (fun _ _ _ h => h) (saturating_leads hM hs' ?_)
  exact fixpoint_leads hcall (l := l.positive) hrel passes (hs'.congr rfl rfl)

omit [Tables σ] [LawfulTables σ] in
/-- A negation of what an evaluable predicate computes is right if the call is rejected. -/
theorem negation_of_evaluate (hM : M.Lawful) {f : Literal} {e : Evaluable} {o : Outcome}
    (hres : w.registry.resolve f = .ok (some e)) (ho : e.evaluate f.terms = .ok o) :
    if decide (o = .reject) then M.mayNegate f else ¬M.mustNegate f := by
  have hc : w.registry.contains f.predicate = true := Registry.contains_of_resolve hres
  by_cases hrej : o = .reject
  · subst hrej
    simpa using hM.mayNegate_of_rejects hc ⟨e, hres, ho⟩
  · simp only [hrej, decide_false, Bool.false_eq_true, if_false]
    intro hmust
    obtain ⟨e', hres', ho'⟩ := hM.rejects_of_mustNegate hc hmust
    rw [hres] at hres'
    cases hres'
    rw [ho] at ho'
    exact hrej (Except.ok.inj ho')

variable (w) in
/-- How a negation is decided, once the table of the fact is complete. -/
def verdict (fact : Literal) : Searching σ Bool := do
  let answers ← readTables (Tables.answers · (.of fact))
  if !answers.contains fact then return true
  match w.mode with
  | .datalog => return false
  | .problog =>
    let proofs ← justification fact
    let certain ← ofOption (proofs.isCertain? fact)
    return !certain

omit [LawfulTables σ] in
/-- The table of the fact is completed before its negation is decided. -/
theorem decideNegation_of_relational {l : Literal}
    (hrel : w.registry.contains l.predicate = false) (passes : Nat) :
    decideNegation w call passes l = (do
      refuting (.of l.positive) l (saturating (.of l.positive)
        (fixpoint call (.of l.positive) passes))
      verdict w l.positive) := by
  unfold decideNegation
  dsimp only
  rw [Registry.resolve_of_not_contains (l := l.positive) hrel]
  rfl

/-- **The verdict is right** where the table is complete, and changes nothing. -/
theorem verdict_leads (hM : M.Lawful) (hJ : M.Judges σ) (fact : Literal)
    (hg : fact.isGround = true) (hn : fact.negated = false)
    (hrel : w.registry.contains fact.predicate = false) (hcomp : .of fact ∈ s.complete)
    (hs : Consistent M s) : Leads M s (verdict w fact) fun holds t =>
      t = s ∧ if holds then M.mayNegate fact else ¬M.mustNegate fact := by
  unfold verdict
  refine .answers_bind hs ?_
  have hself : fact.positive = fact := Literal.positive_eq_self hn
  have hinst : fact ∈ (CallPattern.of fact).instances :=
    (CallPattern.mem_instances_of_isGround hg).2 hself
  split
  next habs =>
    refine .pure hs ⟨rfl, hM.mayNegate_of_not_required hrel fun hreq => ?_⟩
    have hnot : fact ∉ s.answersOf (.of fact) := by simpa using habs
    exact hnot (hs.mem_answersOf_of_complete hcomp hinst hreq)
  next hpres =>
    have hmem : fact ∈ s.answersOf (.of fact) := by simpa using hpres
    -- an answer settles the matter where no proofs are kept, and otherwise its certainty does
    cases hmode : w.mode with
    | datalog => exact .pure hs ⟨rfl, hM.not_mustNegate_of_derivable hmode hrel (hs.derivable hmem)⟩
    | problog =>
      refine justification_bind hs fun found proofs hrec hsup => ?_
      rw [hself] at hrec
      refine .ofOption_bind hs fun certain hcert => .pure hs ⟨rfl, ?_⟩
      have := hJ hmode s fact found proofs certain hs hg hn hrel hcomp hrec hsup hcert
      cases certain <;> simpa using this

/-- **A decision is right**, and comes from a complete table. -/
theorem decideNegation_leads (hM : M.Lawful) (hJ : M.Judges σ) (hcall : Calls M call)
    (passes : Nat) {l : Literal} (hl : l.isGround = true) (hs : Consistent M s) :
    Leads M s (decideNegation w call passes l) fun holds t =>
      t.expanded = s.expanded ∧
      (w.registry.contains l.predicate = true ∨ .of l.positive ∈ t.complete) ∧
      if holds then M.mayNegate l.positive else ¬M.mustNegate l.positive := by
  unfold decideNegation
  refine .ofExcept_bind hs fun o hres => ?_
  obtain _ | e := o
  · have hrel : w.registry.contains l.positive.predicate = false := Registry.resolve_eq_none hres
    refine (refuting_fixpoint_leads (l := l) hM hcall passes hrel hs).bind ?_
    rintro _ t ht - ⟨hexp, hcomp⟩
    refine (verdict_leads hM hJ l.positive (by simpa using hl) rfl hrel hcomp ht).mono ?_
    rintro holds _ - - ⟨rfl, hright⟩
    exact ⟨hexp, .inr hcomp, hright⟩
  · have hc : w.registry.contains l.positive.predicate = true := Registry.contains_of_resolve hres
    refine .ofExcept_bind hs fun o ho => ?_
    exact .pure hs ⟨rfl, .inl hc, negation_of_evaluate hM hres ho⟩

end Searching

end ProbDatalog
