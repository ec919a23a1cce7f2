import ProbDatalog.Proofs.Assertion
import ProbDatalog.Proofs.Instances
import ProbDatalog.Proofs.Rules

/-!
# Explorations of clauses

What it takes for a table to miss nothing. A body is explored from left to right, over all the
valuations at once that its call and the answers so far leave open: a negated literal is decided,
an evaluable one leaves the valuations that it accepts, and any other calls a pattern with the same
instances and goes on with every answer that is known for it.

* `Explored.finish`: an exploration gets to the end for every instance whose premises are known.
* `Explored.covered`: on its way it calls or decides every premise.
* `Explored.mono`: explorations only gain from more calls and fewer answers.
* `Layered`: patterns that can be explored without end, with negations on lower layers.
-/

namespace ProbDatalog

/-- What a search may conclude from a theory, and what its complete tables have to hold. Facts are
negated as the search decides, so there are two sets of negations: what it may take to hold, and
what it must not overlook. -/
structure Meaning (w : Theory) where
  /-- Facts whose negations may be taken to hold. -/
  mayNegate : Literal → Prop
  /-- Facts whose negations must not be overlooked. -/
  mustNegate : Literal → Prop
  /-- Ground rules that must not be overlooked. -/
  counted : Set Proof

namespace Meaning

variable {w : Theory} (M : Meaning w)

/-- The facts that may be found. -/
def derivable : Set Literal := consequences w.rules M.mayNegate

/-- The facts that have to be found. -/
def required : Set Literal := consequences M.counted M.mustNegate

/-- How far an exploration has come: which patterns it may call, for which facts it may decide the
negation, which answers of a pattern it goes on with, and what has to hold at the end. -/
structure Horizon where
  called : CallPattern → Prop
  decided : CallPattern → Prop
  known : CallPattern → Set Literal
  finish : Valuation → Prop

/-- A literal is explored over a set of valuations: `next` holds of the sets that are left. -/
def ExploredLiteral (H : Horizon) (next : Set Valuation → Prop) (l : Literal)
    (A : Set Valuation) : Prop :=
  if l.negated then
    ∃ b, (∀ θ ∈ A, l.positive.ground θ = b) ∧
      (w.registry.contains l.predicate = true ∨ H.decided (.of b)) ∧
      (M.mustNegate b → next A)
  else if w.registry.contains l.predicate then next {θ ∈ A | w.Accepts (l.ground θ)}
  else ∃ q, H.called q ∧ (∀ g, g ∈ q.instances ↔ ∃ θ ∈ A, l.ground θ = g) ∧
    ∀ g ∈ H.known q, next {θ ∈ A | l.ground θ = g}

/-- A body is explored over a set of valuations, as long as one of them counts. -/
def Explored (H : Horizon) (counts : Valuation → Prop) : List Literal → Set Valuation → Prop
  | [], A => ∀ θ ∈ A, counts θ → H.finish θ
  | l :: rest, A => (∃ θ ∈ A, counts θ) → M.ExploredLiteral H (Explored H counts rest) l A

/-- The instances of a clause that must not be overlooked. -/
def Counts (id : ClauseId) (c : Clause) (θ : Valuation) : Prop := w.groundRule id c θ ∈ M.counted

/-- All clauses are explored for the instances of a pattern. -/
def Explores (called decided : CallPattern → Prop) (known : CallPattern → Set Literal)
    (finish : Proof → Prop) (p : CallPattern) : Prop :=
  ∀ id c, w.program.clause? id = some c →
    M.Explored ⟨called, decided, known, fun θ => finish (w.groundRule id c θ)⟩ (M.Counts id c)
      c.body
      {θ | c.head.ground θ ∈ p.instances}

/-- Each of the patterns can be explored by calls of patterns that do not rank higher, and decides
negations of patterns that rank lower. -/
def Layered (patterns : Set CallPattern) (rank : CallPattern → Nat) : Prop :=
  ∀ p ∈ patterns, M.Explores (fun q => q ∈ patterns ∧ rank q ≤ rank p)
    (fun q => q ∈ patterns ∧ rank q < rank p) (fun q => M.required ∩ q.instances) (fun _ => True) p

variable {M} {H H' : Horizon} {counts : Valuation → Prop} {next next' : Set Valuation → Prop}
variable {l : Literal} {body : List Literal} {A : Set Valuation} {θ : Valuation}

theorem exploredLiteral_negated (hn : l.negated = true) :
    M.ExploredLiteral H next l A ↔ ∃ b, (∀ θ ∈ A, l.positive.ground θ = b) ∧
      (w.registry.contains l.predicate = true ∨ H.decided (.of b)) ∧
      (M.mustNegate b → next A) := by
  unfold ExploredLiteral
  rw [if_pos hn]

theorem exploredLiteral_evaluable (hn : l.negated = false)
    (hc : w.registry.contains l.predicate = true) :
    M.ExploredLiteral H next l A ↔ next {θ ∈ A | w.Accepts (l.ground θ)} := by
  unfold ExploredLiteral
  rw [if_neg (by simp [hn]), if_pos hc]

theorem exploredLiteral_relational (hn : l.negated = false)
    (hc : w.registry.contains l.predicate = false) :
    M.ExploredLiteral H next l A ↔ ∃ q, H.called q ∧
      (∀ g, g ∈ q.instances ↔ ∃ θ ∈ A, l.ground θ = g) ∧
      ∀ g ∈ H.known q, next {θ ∈ A | l.ground θ = g} := by
  unfold ExploredLiteral
  rw [if_neg (by simp [hn]), if_neg (by simp [hc])]

/-- The valuations under which the premises of a body hold, as far as answers are known. -/
structure Horizon.Holds (M : Meaning w) (H : Horizon) (body : List Literal) (θ : Valuation) :
    Prop where
  neg : ∀ l ∈ body, l.negated = true → M.mustNegate (l.positive.ground θ)
  evaluable : ∀ l ∈ body, l.negated = false → w.registry.contains l.predicate = true →
    w.Accepts (l.ground θ)
  pos : ∀ l ∈ body, l.negated = false → w.registry.contains l.predicate = false →
    ∀ q, H.called q → l.ground θ ∈ q.instances → l.ground θ ∈ H.known q

theorem Horizon.Holds.tail {rest : List Literal} (h : H.Holds M (l :: rest) θ) :
    H.Holds M rest θ where
  neg l hl := h.neg l (List.mem_cons_of_mem _ hl)
  evaluable l hl := h.evaluable l (List.mem_cons_of_mem _ hl)
  pos l hl := h.pos l (List.mem_cons_of_mem _ hl)

/-- The premises of a supported rule hold, where the facts that support it are known. -/
theorem Horizon.Holds.of_supported {id : ClauseId} {c : Clause} {facts : Set Literal}
    (hr : w.groundRule id c θ ∈ w.rules)
    (hs : (w.groundRule id c θ).Supported facts M.mustNegate)
    (hk : ∀ g ∈ facts, ∀ q, H.called q → g ∈ q.instances → g ∈ H.known q) :
    H.Holds M c.body θ where
  neg l hl hn := hs.neg _ (Theory.relational_mem_groundRule.2 ⟨l, hl, rfl, .inl hn⟩) hn
  evaluable l hl hn hc := by
    obtain ⟨-, -, -, -, -, haccept⟩ := hr
    exact haccept _ (Theory.evaluable_mem_groundRule.2 ⟨l, hl, rfl, hn, hc⟩)
  pos l hl hn hc q hq hg :=
    hk _ (hs.pos _ (Theory.relational_mem_groundRule.2 ⟨l, hl, rfl, .inr hc⟩) hn) q hq hg

/-- Where a premise holds, exploring it covers it and leaves the valuation. -/
theorem ExploredLiteral.covered {rest : List Literal} (h : M.ExploredLiteral H next l A)
    (hθ : θ ∈ A) (hh : H.Holds M (l :: rest) θ) :
    (l.negated = true → w.registry.contains l.predicate = false →
      H.decided (.of (l.positive.ground θ))) ∧
    (l.negated = false → w.registry.contains l.predicate = false →
      ∃ q, H.called q ∧ l.ground θ ∈ q.instances) ∧
    ∃ A', θ ∈ A' ∧ next A' := by
  have hl : l ∈ l :: rest := List.mem_cons_self
  -- the three kinds of literals, in the order in which they are told apart
  by_cases hn : l.negated = true
  · obtain ⟨b, hb, hd, hnext⟩ := (exploredLiteral_negated hn).1 h
    rw [← hb θ hθ] at hd hnext
    refine ⟨fun _ hc => ?_, fun hn' => by simp [hn] at hn', A, hθ, hnext (hh.neg l hl hn)⟩
    simpa [hc] using hd
  · have hn' : l.negated = false := by simpa using hn
    by_cases hc : w.registry.contains l.predicate = true
    · refine ⟨fun hn' => absurd hn' hn, fun _ hc' => by simp [hc] at hc', _, ?_,
        (exploredLiteral_evaluable hn' hc).1 h⟩
      exact And.intro hθ (hh.evaluable l hl hn' hc)
    · have hc' : w.registry.contains l.predicate = false := by simpa using hc
      obtain ⟨q, hq, hinst, hnext⟩ := (exploredLiteral_relational hn' hc').1 h
      have hmem : l.ground θ ∈ q.instances := (hinst _).2 ⟨θ, hθ, rfl⟩
      have hknown := hh.pos l hl hn' hc' q hq hmem
      refine ⟨fun hn' => absurd hn' hn, fun _ _ => ⟨q, hq, hmem⟩, _, ?_, hnext _ hknown⟩
      exact And.intro hθ rfl

/-- **An exploration gets to the end for every instance whose premises are known.** -/
theorem Explored.finish (h : M.Explored H counts body A) (hθ : θ ∈ A) (hc : counts θ)
    (hh : H.Holds M body θ) : H.finish θ := by
  -- along the body the valuation stays in what is left to explore
  induction body generalizing A with
  | nil => exact h θ hθ hc
  | cons l rest ih =>
    obtain ⟨-, -, A', hA', hnext⟩ := (h ⟨θ, hθ, hc⟩).covered hθ hh
    exact ih hnext hA' hh.tail

/-- **On its way an exploration calls or decides every premise.** -/
theorem Explored.covered (h : M.Explored H counts body A) (hθ : θ ∈ A) (hc : counts θ)
    (hh : H.Holds M body θ) :
    ∀ l ∈ body, w.registry.contains l.predicate = false →
      (l.negated = true → H.decided (.of (l.positive.ground θ))) ∧
      (l.negated = false → ∃ q, H.called q ∧ l.ground θ ∈ q.instances) := by
  induction body generalizing A with
  | nil => simp
  | cons l rest ih =>
    obtain ⟨hneg, hpos, A', hA', hnext⟩ := (h ⟨θ, hθ, hc⟩).covered hθ hh
    intro l' hl' hr
    rcases List.mem_cons.1 hl' with rfl | hl'
    · exact ⟨fun hn => hneg hn hr, fun hn => hpos hn hr⟩
    · exact ih hnext hA' hh.tail l' hl' hr

/-- Where no valuation counts there is nothing to explore. -/
theorem Explored.of_forall_not (h : ∀ θ ∈ A, ¬counts θ) : M.Explored H counts body A := by
  cases body with
  | nil => exact fun θ hθ hc => absurd hc (h θ hθ)
  | cons l rest => exact fun ⟨θ, hθ, hc⟩ => absurd hc (h θ hθ)

/-- A horizon that sees no less. -/
structure Horizon.Le (H H' : Horizon) : Prop where
  called : ∀ q, H.called q → H'.called q
  decided : ∀ q, H.decided q → H'.decided q
  known : ∀ q, H.called q → H'.known q ⊆ H.known q
  finish : ∀ θ, H.finish θ → H'.finish θ

theorem ExploredLiteral.mono (h : M.ExploredLiteral H next l A) (hH : H.Le H')
    (hn : ∀ A, next A → next' A) : M.ExploredLiteral H' next' l A := by
  cases hneg : l.negated with
  | true =>
    rw [exploredLiteral_negated hneg] at h ⊢
    obtain ⟨b, hb, hd, hnext⟩ := h
    exact ⟨b, hb, hd.imp_right (hH.decided _), fun hm => hn _ (hnext hm)⟩
  | false =>
    cases hc : w.registry.contains l.predicate with
    | true =>
      rw [exploredLiteral_evaluable hneg hc] at h ⊢
      exact hn _ h
    | false =>
      rw [exploredLiteral_relational hneg hc] at h ⊢
      obtain ⟨q, hq, hinst, hnext⟩ := h
      exact ⟨q, hH.called q hq, hinst, fun g hg => hn _ (hnext g (hH.known q hq hg))⟩

/-- **Explorations only gain from more calls and fewer answers.** -/
theorem Explored.mono (h : M.Explored H counts body A) (hH : H.Le H') :
    M.Explored H' counts body A := by
  induction body generalizing A with
  | nil => exact fun θ hθ hc => hH.finish θ (h θ hθ hc)
  | cons l rest ih => exact fun hA => (h hA).mono hH fun A' hA' => ih hA'

section Explores

variable {called called' decided decided' : CallPattern → Prop}
variable {known known' : CallPattern → Set Literal} {finish finish' : Proof → Prop}
variable {p : CallPattern} {m n : Nat}

theorem Explores.mono (h : M.Explores called decided known finish p)
    (hc : ∀ q, called q → called' q) (hd : ∀ q, decided q → decided' q)
    (hk : ∀ q, called q → known' q ⊆ known q) (hf : ∀ π, finish π → finish' π) :
    M.Explores called' decided' known' finish' p :=
  fun id c hid => (h id c hid).mono ⟨hc, hd, hk, fun _ => hf _⟩

/-- **Exploring a pattern gets to the end for every supported rule for one of its instances.** -/
theorem Explores.reaches (h : M.Explores called decided known finish p) {π : Proof}
    {facts : Set Literal} (hc : π ∈ M.counted) (hr : π ∈ w.rules) (hp : π.head ∈ p.instances)
    (hs : π.Supported facts M.mustNegate)
    (hk : ∀ g ∈ facts, ∀ q, called q → g ∈ q.instances → g ∈ known q) : finish π := by
  have hr' := hr
  obtain ⟨id, c, θ, hid, rfl, -⟩ := hr
  exact (h id c hid).finish hp hc (.of_supported hr' hs hk)

/-- **What a pattern of layers calls and decides**: all premises of the supported rules for its
instances. -/
theorem Layered.covered {patterns : Set CallPattern} {rank : CallPattern → Nat}
    (h : M.Layered patterns rank) (hp : p ∈ patterns) {π : Proof} (hc : π ∈ M.counted)
    (hr : π ∈ w.rules) (hi : π.head ∈ p.instances) (hs : π.Supported M.required M.mustNegate)
    {l : Literal} (hl : .relational l ∈ π.body) (hrel : w.registry.contains l.predicate = false) :
    (l.negated = false → ∃ q ∈ patterns, rank q ≤ rank p ∧ l ∈ q.instances) ∧
      (l.negated = true → .of l.positive ∈ patterns ∧ rank (.of l.positive) < rank p) := by
  have hr' := hr
  obtain ⟨id, c, θ, hid, rfl, -⟩ := hr
  obtain ⟨l, hl', rfl, -⟩ := Theory.relational_mem_groundRule.1 hl
  -- an exploration knows all required instances, so it comes to the premises of the rule
  have hcov := (h p hp id c hid).covered hi hc
    (.of_supported hr' hs fun g hg q _ hgq => ⟨hg, hgq⟩) l hl' hrel
  refine ⟨fun hn => ?_, fun hn => hcov.1 hn⟩
  obtain ⟨q, ⟨hq, hrank⟩, hlq⟩ := hcov.2 hn
  exact ⟨q, hq, hrank, hlq⟩

end Explores

end Meaning

end ProbDatalog
