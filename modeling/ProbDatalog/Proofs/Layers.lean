import ProbDatalog.Proofs.Evidence
import ProbDatalog.Proofs.Outcomes

/-!
# Searches over layers

Where the pattern of a query can be explored on layers, with negations on lower layers, a search for
it does not fail on a store that works, from whatever state it starts. It may come to patterns that
are not on the layers, but only to such that have no other instances than those that are.

* `Theory.layeredRoute`: a search stays on the layers.
* `complies_layered`: **no call and no decision on the layers fails.**
* `solve_keeps_layered`: no query on the layers fails.
-/

namespace ProbDatalog

variable {w : Theory} {patterns : Set CallPattern} {rank : CallPattern → Nat} {r : Nat}

/-- The search for a query stays on layers: its pattern has no other instances than one of theirs,
and if it is negated, it is a ground literal whose pattern is one of theirs. -/
def Literal.OnLayers (patterns : Set CallPattern) (q : Literal) : Prop :=
  if q.negated then q.isGround = true ∧ CallPattern.of q ∈ patterns
  else ∃ p ∈ patterns, (CallPattern.of q).instances ⊆ p.instances

/-! ## Routes on layers -/

variable (w patterns rank r) in
/-- What is called and decided on the layers up to a rank. -/
def Theory.layer : Meaning.Horizon where
  called p := p ∈ patterns ∧ rank p ≤ r
  decided p := p ∈ patterns ∧ rank p < r
  known p := w.meaning.required ∩ p.instances
  finish _ := True

variable (w patterns rank r) in
/-- A body is explored on the layers up to a rank over more valuations than the given ones. -/
def Theory.OnLayer (body : List Literal) (A : Set Valuation) : Prop :=
  ∃ id c A', w.program.clause? id = some c ∧ A ⊆ A' ∧
    w.meaning.Explored (w.layer patterns rank r) (w.meaning.Counts id c) body A'

namespace Theory.OnLayer

variable {l : Literal} {rest : List Literal} {A : Set Valuation}

theorem step (hw : w.Plain) (h : w.OnLayer patterns rank r (l :: rest) A) (hne : A.Nonempty) :
    ∃ id c A', w.program.clause? id = some c ∧ A ⊆ A' ∧
      w.meaning.ExploredLiteral (w.layer patterns rank r)
        (w.meaning.Explored (w.layer patterns rank r) (w.meaning.Counts id c) rest) l A' := by
  -- over a plain theory every valuation counts, so the exploration does not end here
  obtain ⟨id, c, A', hid, hA, hexp⟩ := h
  obtain ⟨θ, hθ⟩ := hne
  exact ⟨id, c, A', hid, hA, hexp ⟨θ, hA hθ, hw.groundRule_mem_rules hid θ⟩⟩

/-- A negated literal is the same under all valuations, and is decided on a lower layer. -/
theorem negated (hw : w.Plain) (h : w.OnLayer patterns rank r (l :: rest) A) (hne : A.Nonempty)
    (hn : l.negated = true) (hrel : w.registry.contains l.predicate = false) :
    ∃ b, (∀ θ ∈ A, l.positive.ground θ = b) ∧ .of b ∈ patterns ∧ rank (.of b) < r ∧
      (w.meaning.mustNegate b → w.OnLayer patterns rank r rest A) := by
  obtain ⟨id, c, A', hid, hA, hexp⟩ := h.step hw hne
  obtain ⟨b, hb, hdec, hnext⟩ := (Meaning.exploredLiteral_negated hn).1 hexp
  obtain ⟨hin, hlt⟩ := hdec.resolve_left (by simp [hrel])
  exact ⟨b, fun θ hθ => hb θ (hA hθ), hin, hlt, fun hmust => ⟨id, c, A', hid, hA, hnext hmust⟩⟩

/-- A positive literal calls a pattern of the layers or one with fewer instances. -/
theorem positive (hw : w.Plain) (h : w.OnLayer patterns rank r (l :: rest) A) (hne : A.Nonempty)
    (hn : l.negated = false) (hrel : w.registry.contains l.predicate = false) :
    ∃ q ∈ patterns, rank q ≤ r ∧ (∀ θ ∈ A, l.ground θ ∈ q.instances) ∧
      ∀ g ∈ w.meaning.required, g ∈ q.instances →
        w.OnLayer patterns rank r rest {θ ∈ A | l.ground θ = g} := by
  obtain ⟨id, c, A', hid, hA, hexp⟩ := h.step hw hne
  obtain ⟨q, ⟨hq, hqr⟩, hinst, hnext⟩ := (Meaning.exploredLiteral_relational hn hrel).1 hexp
  refine ⟨q, hq, hqr, fun θ hθ => (hinst _).2 ⟨θ, hA hθ, rfl⟩, fun g hg hi => ?_⟩
  exact ⟨id, c, {θ ∈ A' | l.ground θ = g}, hid, fun θ hθ => ⟨hA hθ.1, hθ.2⟩, hnext g ⟨hg, hi⟩⟩

end Theory.OnLayer

/-- **A search for a pattern on the layers stays on them.** It is never asked to decide an open
negation, as all valuations over which a negated literal is explored agree on it. -/
def Theory.layeredRoute (hw : w.Plain) (hlay : w.meaning.Layered patterns rank) (r : Nat) :
    Route w (· = .exhausted) where
  calls p := w.registry.contains p.literal.predicate = false ∧
    ∃ q ∈ patterns, rank q ≤ r ∧ p.instances ⊆ q.instances
  decides b := .of b.positive ∈ patterns ∧ rank (.of b.positive) < r
  through body A := (∀ l ∈ body, w.registry.contains l.predicate = false) ∧
    (A.Nonempty → w.OnLayer patterns rank r body A)
  admits _ _ := True
  start {p id c} hp hid _ _ := by
    obtain ⟨-, q, hq, hqr, hsub⟩ := hp
    refine ⟨fun l hl => hw.relational hid l (List.mem_cons_of_mem _ hl), fun _ => ?_⟩
    refine ⟨id, c, {θ | c.head.ground θ ∈ q.instances}, hid, fun θ hθ => hsub hθ, ?_⟩
    exact (hlay q hq id c hid).mono ⟨fun q' h => ⟨h.1, h.2.trans hqr⟩,
      fun q' h => ⟨h.1, h.2.trans_le hqr⟩, fun _ _ => Set.Subset.rfl, fun _ _ => trivial⟩
  closed {l rest A} h hn := by
    refine .inl fun θ hθ η hη => ?_
    obtain ⟨b, hb, -⟩ := (h.2 ⟨θ, hθ⟩).negated hw ⟨θ, hθ⟩ hn (h.1 l List.mem_cons_self)
    have heq : l.positive.ground θ = l.positive.ground η := (hb θ hθ).trans (hb η hη).symm
    exact Literal.ground_congr_iff.2 ((Literal.ground_congr_iff (l := l.positive)).1 heq)
  decide {l rest A b} h hn hne hall := by
    obtain ⟨b', hb', hin, hlt, -⟩ := (h.2 hne).negated hw hne hn (h.1 l List.mem_cons_self)
    obtain ⟨θ, hθ⟩ := hne
    have heq : b.positive = b' := by
      rw [← hall θ hθ, ← hb' θ hθ]
      rfl
    exact heq ▸ ⟨hin, hlt⟩
  negate {l rest A b} h hn hne hall hmay := by
    refine ⟨fun m hm => h.1 m (List.mem_cons_of_mem _ hm), fun _ => ?_⟩
    obtain ⟨b', hb', -, -, hnext⟩ := (h.2 hne).negated hw hne hn (h.1 l List.mem_cons_self)
    obtain ⟨θ, hθ⟩ := hne
    have heq : b.positive = b' := by
      rw [← hall θ hθ, ← hb' θ hθ]
      rfl
    exact hnext (heq ▸ Reading.mustNegate_of_mayNegate hmay)
  call {l rest A m} h hn hne hinst hpred _ := by
    have hrel := h.1 l List.mem_cons_self
    obtain ⟨q, hq, hqr, hqinst, -⟩ := (h.2 hne).positive hw hne hn hrel
    refine ⟨by rw [CallPattern.of_predicate, hpred, hrel], q, hq, hqr, fun g hg => ?_⟩
    obtain ⟨θ, hθ, rfl⟩ := (hinst g).1 hg
    exact hqinst θ hθ
  answer {l rest A g} h hn hg := by
    refine ⟨fun m hm => h.1 m (List.mem_cons_of_mem _ hm), fun hne => ?_⟩
    obtain ⟨θ, hθ, hθg⟩ := hne
    obtain ⟨q, -, -, hqinst, hnext⟩ :=
      (h.2 ⟨θ, hθ⟩).positive hw ⟨θ, hθ⟩ hn (h.1 l List.mem_cons_self)
    exact hnext g (Reading.derivable_subset_required hg) (hθg ▸ hqinst θ hθ)
  arrive _ _ _ _ _ := trivial

/-! ## Calls and decisions on layers -/

section Layered

variable {σ : Type} [Tables σ] [LawfulTables σ] {P : σ → Prop} {s t : Search σ} {depth : Nat}

/-- The store works, and no negation is being decided below a rank. -/
structure Search.ClearBelow (patterns : Set CallPattern) (rank : CallPattern → Nat) (P : σ → Prop)
    (r : Nat) (s : Search σ) : Prop where
  works : P s.tables
  negating : ∀ p ∈ s.negating, p ∈ patterns → r ≤ rank p

namespace Searching

variable (hw : w.Plain) (hlay : w.meaning.Layered patterns rank) (hP : Tables.Sound P)

include hP

omit [LawfulTables σ] in
theorem guarded_layered :
    Guarded (Theory.layeredRoute hw hlay r) (Search.ClearBelow patterns rank P r) where
  scope h := ⟨h.works, h.negating⟩
  get h hget := by
    obtain ⟨hok, ht⟩ := hP.failing.get h.works hget
    exact ⟨fun e he => (hok e he).elim, ht, h.negating⟩
  put h _ _ hput := by
    obtain ⟨hok, ht⟩ := hP.failing.put h.works hput
    exact ⟨fun e he => (hok e he).elim, fun _ => ⟨ht, h.negating⟩⟩
  answers h he := (hP.failing.answers h.works he).elim
  recorded h he := (hP.failing.recorded h.works he).elim

/-- Where the calls on all layers do not fail, neither do the decisions. -/
theorem complies_of_calls
    (hcall : ∀ {r m} {t : Search σ}, (Theory.layeredRoute hw hlay r).calls (.of m) →
      Consistent w.meaning t → t.ClearBelow patterns rank P r →
      Keeps (· = .exhausted) t (expand w depth (.of m)) fun _ u => u.ClearBelow patterns rank P r)
    (r : Nat) :
    Complies (Theory.layeredRoute hw hlay r) (Search.ClearBelow patterns rank P r)
      (expand w depth) depth where
  onCall := hcall
  onDecide {m t} hm hn hg hrel ht h := by
    obtain ⟨hin, hlt⟩ := hm
    have hcalls := expand_calls (σ := σ) hw.regular hw.lawful hw.judges depth
    have ht' : Consistent w.meaning
        { t with negating := .of m.positive :: t.negating, expanded := [] } := ht.congr rfl rfl
    -- below the negated fact all decisions are on its layer or lower, which keeps them away from
    -- those around it
    refine decideNegation_keeps hw hcalls hrel ht (guarded_layered hw hlay hP) (refuting_keeps
      (J := Search.ClearBelow patterns rank P (rank (.of m.positive))) (fun hold => ?_)
      (fun _ => ?_)
      (fixpoint_leads hcalls (l := m.positive) hrel depth ht')
      (fun u complete hu => ⟨hu.works, h.negating⟩) h)
    · -- what is being decided ranks too high to come back
      have := h.negating _ hold hin
      omega
    · have hself : (Theory.layeredRoute hw hlay (rank (.of m.positive))).calls (.of m.positive) :=
        ⟨hrel, _, hin, Nat.le_refl _, Set.Subset.rfl⟩
      refine fixpoint_keeps (m := m.positive) hcalls hrel (fun u hu hclear => hcall hself hu hclear)
        (fun hu => ⟨hu.works, hu.negating⟩) (.inl rfl) ht' ⟨h.works, fun p hp hpin => ?_⟩
      rcases List.mem_cons.1 hp with rfl | hp
      · exact Nat.le_refl _
      · exact hlt.le.trans (h.negating p hp hpin)

/-- **No call and no decision on the layers fails**, to any depth. -/
theorem complies_layered (r : Nat) :
    Complies (Theory.layeredRoute hw hlay r) (Search.ClearBelow (σ := σ) patterns rank P r)
      (expand w depth) depth := by
  refine complies_of_calls hw hlay hP (fun {r m t} hm ht h => ?_) r
  -- by induction on the depth, for all layers at once, as a call may lead to a lower one
  induction depth generalizing r m t with
  | zero => exact .of_error rfl rfl
  | succ depth ih =>
    exact expandOnce_keeps hw (expand_calls hw.regular hw.lawful hw.judges depth)
      (guarded_layered hw hlay hP) (complies_of_calls hw hlay hP ih r) hm hm.1
      (fun _ _ => ⟨h.works, h.negating⟩) (fun _ hu => hu) ht h

/-! ## Queries on layers -/

include hw hlay in
/-- **No query on the layers fails.** -/
theorem solve_keeps_layered {q : Literal} (depth : Nat)
    (hrel : w.registry.contains q.predicate = false) (hq : q.OnLayers patterns)
    (hs : Consistent w.meaning s) (hneg : s.negating = [])
    (hwork : P s.tables) :
    Keeps (· = .exhausted) s (solve w depth q) fun _ t => P t.tables := by
  have hclear : ∀ r, s.ClearBelow patterns rank P r := fun r => ⟨hwork, by simp [hneg]⟩
  unfold Literal.OnLayers at hq
  by_cases hn : q.negated = true
  · rw [if_pos hn] at hq
    obtain ⟨hg, hin⟩ := hq
    have hdec : (Theory.layeredRoute hw hlay (rank (.of q) + 1)).decides q :=
      ⟨hin, Nat.lt_succ_self _⟩
    exact (solve_keeps_negated hw hn hg hs ((complies_layered hw hlay hP _).onDecide hdec hn hg hrel
      hs (hclear _))).mono fun _ _ h => h.works
  · rw [if_neg hn] at hq
    obtain ⟨p, hp, hsub⟩ := hq
    have hcall : (Theory.layeredRoute hw hlay (rank p)).calls (.of q) :=
      ⟨hrel, p, hp, Nat.le_refl _, hsub⟩
    refine (solve_keeps_relational hw (guarded_layered hw hlay hP (r := rank p)) (by simpa using hn)
      hrel hs (saturating_keeps (J := Search.ClearBelow patterns rank P (rank p)) (fun _ => ?_)
        (fun t complete ht => ⟨ht.works, ht.negating⟩) (hclear _))).mono fun _ _ h => h.works
    exact fixpoint_keeps (expand_calls hw.regular hw.lawful hw.judges depth) hrel
      (fun t ht h => (complies_layered hw hlay hP _).onCall hcall ht h)
      (fun ht => ⟨ht.works, ht.negating⟩) (.inl rfl) (hs.congr rfl rfl) ⟨hwork, by simp [hneg]⟩

end Searching

end Layered

end ProbDatalog
