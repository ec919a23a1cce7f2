import ProbDatalog.Proofs.Callable
import ProbDatalog.Proofs.Deepening
import ProbDatalog.Proofs.Outcomes

/-!
# Queries end

Over a plain theory every query comes to a result or an error, whatever recursion and negation there
is. A call within a pass comes to one more pattern of finitely many, a negation decided within
another one is one more of finitely many, and a pass that is followed by another one adds one of
finitely many answers and proofs. So a bound on the depth of calls and on the number of passes is
large enough once it covers all three together.

The loops within a step have bounds of their own, which are never felt. To follow bindings ends
where it does without a bound (`Substitution.Acyclic.leadsTo_resolve`), and so does the walk that
gathers a justification (`Walk.Explores.run`). The branches of a lineage are no longer than there
are facts (`ProofSet.factLineage_eq_of_room`), and a formula is split no more often than it has
variables (`Formula.measureBy_eq_of_le`, `Formula.validBySplitting_eq_isValid`).

* `Theory.boundedRoute`: a query comes to callable patterns and ground instances over the constants.
* `expand_keeps_bounded`: **an expansion with enough depth is not cut off.**
* `Reached.comesTo`: **every query comes to an outcome.**
-/

namespace ProbDatalog

variable {w : Theory} {U : List Constant} {q : Literal}

/-! ## Where a query leads -/

theorem Program.body_subset_bodyLiterals {p : Program} {id : ClauseId} {c : Clause}
    (hid : p.clause? id = some c) : c.body ⊆ p.bodyLiterals := fun _ hl =>
  Program.mem_bodyLiterals.2 ⟨c, Program.mem_clauses_of_clause? hid, hl⟩

theorem Program.constants_subset_of_bodyLiterals {p : Program} (hU : p.constants ⊆ U) {l : Literal}
    (hl : l ∈ p.bodyLiterals) : l.constants ⊆ U := by
  obtain ⟨c, hc, hl⟩ := Program.mem_bodyLiterals.1 hl
  exact List.Subset.trans (Literal.constants_subset_of_mem hc (List.mem_cons_of_mem _ hl)) hU

/-- **A query comes to callable patterns** and to ground instances over the constants. No error is
excluded, only that the search is cut off. -/
def Theory.boundedRoute (hw : w.Plain) (hU : w.program.constants ⊆ U) (q : Literal) :
    Route w (· ≠ .exhausted) where
  calls := w.Callable U q
  decides b := w.Callable U q (.of b)
  through body A := Generic U A ∧ body ⊆ w.program.bodyLiterals
  admits p π := w.Callable U q p ∧ π ∈ w.groundings U
  start {p id c} hp hid _ _ := by
    have hhead : c.head.constants ⊆ w.program.constants :=
      Literal.constants_subset_of_mem (Program.mem_clauses_of_clause? hid) List.mem_cons_self
    exact ⟨generic_head hp.generic (List.Subset.trans hhead hU),
      Program.body_subset_bodyLiterals hid⟩
  closed _ _ := .inr fun _ => by simp
  decide {l rest A b} h _ hne hall := by
    have hl : l ∈ w.program.bodyLiterals := h.2 List.mem_cons_self
    have hover := Program.constants_subset_of_bodyLiterals hU hl
    have hb := h.1.constants_subset hover hne hall
    obtain ⟨θ, hθ⟩ := hne
    have heq := hall θ hθ
    refine ⟨CallPattern.generic_of_constants hb, b, l, rfl, List.mem_cons_of_mem _ hl, ?_, ?_⟩
    · exact heq ▸ rfl
    · exact heq ▸ l.ground_arity θ
  negate h _ _ _ _ := ⟨h.1, fun _ hm => h.2 (List.mem_cons_of_mem _ hm)⟩
  call {l rest A m} h _ _ hinst hpred harity := by
    have hl : l ∈ w.program.bodyLiterals := h.2 List.mem_cons_self
    have hover := Program.constants_subset_of_bodyLiterals hU hl
    exact ⟨h.1.pattern hover hinst, m, l, rfl, List.mem_cons_of_mem _ hl, hpred, harity⟩
  answer {l rest A g} h _ hg := by
    have hl : l ∈ w.program.bodyLiterals := h.2 List.mem_cons_self
    have hover := Program.constants_subset_of_bodyLiterals hU hl
    exact ⟨h.1.sep hover (hw.constants_subset hU hg), fun _ hm => h.2 (List.mem_cons_of_mem _ hm)⟩
  arrive {p id c A θ} hp hid h hθ hall := by
    refine ⟨hp, Theory.mem_groundings_iff.2 ⟨id, c, θ, hid, rfl, fun v hv => ?_⟩⟩
    obtain ⟨l, hl, hv⟩ := Clause.mem_vars.1 hv
    have hover : l.constants ⊆ U := List.Subset.trans
      (Literal.constants_subset_of_mem (Program.mem_clauses_of_clause? hid) hl) hU
    exact h.1.constants_subset hover ⟨θ, hθ⟩
      (fun η hη => Theory.ground_eq_of_groundRule_eq (hall η hη) l hl)
      (Literal.value_mem_constants hv)

/-! ## How far a query has come -/

section Bounded

variable {σ : Type} [Tables σ] [LawfulTables σ] {s t : Search σ}

variable (w U q) in
/-- The answers and proofs that a query may put into tables. -/
def Theory.additionsFor : Set (CallPattern × (Literal ⊕ Proof)) :=
  {x | w.Callable U q x.1 ∧ ∃ π ∈ w.groundings U, x.2 = .inl π.head ∨ x.2 = .inr π}

theorem Theory.finite_additionsFor : (w.additionsFor U q).Finite := by
  have hfound :
      {x : Literal ⊕ Proof | ∃ π ∈ w.groundings U, x = .inl π.head ∨ x = .inr π}.Finite := by
    refine (List.finite_toSet ((w.groundings U).flatMap fun π => [.inl π.head, .inr π])).subset ?_
    rintro x ⟨π, hπ, hx⟩
    exact List.mem_flatMap.2 ⟨π, hπ, by simpa using hx⟩
  exact ((w.finite_callable U q).prod hfound).subset fun x hx => hx

variable (w U q) in
/-- How far a search for a query has come: the pass has come to at least `reached` callable
patterns, the negations of `nested` callable patterns are being decided, and nothing is held beyond
`held`. -/
structure Search.Bounded (held : Set (CallPattern × (Literal ⊕ Proof))) (nested reached : Nat)
    (s : Search σ) : Prop where
  expanded : s.expanded.Nodup ∧ ∀ p ∈ s.expanded, w.Callable U q p
  reached_le : reached ≤ s.expanded.length
  negating : s.negating.Nodup ∧ ∀ p ∈ s.negating, w.Callable U q p
  nested_eq : s.negating.length = nested
  held : s.holdings ⊆ held

variable {held : Set (CallPattern × (Literal ⊕ Proof))} {nested reached : Nat}

theorem length_le_ncard_of_nodup {α : Type} {l : List α} (h : l.Nodup) {S : Set α}
    (hS : S.Finite) (hl : ∀ x ∈ l, x ∈ S) : l.length ≤ S.ncard := by
  classical
  have hcard : l.toFinset.card = l.length := List.toFinset_card_of_nodup h
  rw [← hcard, ← Set.ncard_coe_finset]
  exact Set.ncard_le_ncard (fun x hx => hl x (by simpa using hx)) hS

/-- A callable pattern that is new to a list of callable patterns leaves room for it. -/
theorem Theory.length_lt_of_not_mem {l : List CallPattern} {p : CallPattern}
    (hl : l.Nodup ∧ ∀ p ∈ l, w.Callable U q p) (hp : w.Callable U q p) (hnew : p ∉ l) :
    l.length < {p | w.Callable U q p}.ncard := by
  have h := length_le_ncard_of_nodup (List.nodup_cons.2 ⟨hnew, hl.1⟩) (w.finite_callable U q)
    (List.forall_mem_cons.2 ⟨hp, hl.2⟩)
  rwa [List.length_cons] at h

namespace Search.Bounded

theorem congr (h : s.Bounded w U q held nested reached) (he : t.expanded = s.expanded)
    (hn : t.negating = s.negating) (ht : t.holdings ⊆ held) :
    t.Bounded w U q held nested reached where
  expanded := he ▸ h.expanded
  reached_le := he ▸ h.reached_le
  negating := hn ▸ h.negating
  nested_eq := hn ▸ h.nested_eq
  held := ht

/-- A new pass has come to no patterns. -/
theorem clear (h : s.Bounded w U q held nested reached) (passes : Nat) :
    Search.Bounded w U q held nested 0 { s with expanded := [], passes } :=
  ⟨by simp, Nat.zero_le _, h.negating, h.nested_eq, h.held⟩

/-- The pass comes to one more pattern. -/
theorem enter (h : s.Bounded w U q held nested reached) {p : CallPattern}
    (hp : w.Callable U q p) (hnew : p ∉ s.expanded) :
    Search.Bounded w U q held nested (reached + 1) { s with expanded := p :: s.expanded } where
  expanded := ⟨List.nodup_cons.2 ⟨hnew, h.expanded.1⟩, List.forall_mem_cons.2 ⟨hp, h.expanded.2⟩⟩
  reached_le := Nat.succ_le_succ h.reached_le
  negating := h.negating
  nested_eq := h.nested_eq
  held := h.held

/-- One more negation is being decided. -/
theorem refute (h : s.Bounded w U q held nested reached) {p : CallPattern}
    (hp : w.Callable U q p) (hnew : p ∉ s.negating) :
    Search.Bounded w U q held (nested + 1) 0
      { s with negating := p :: s.negating, expanded := [] } where
  expanded := by simp
  reached_le := Nat.zero_le _
  negating := ⟨List.nodup_cons.2 ⟨hnew, h.negating.1⟩, List.forall_mem_cons.2 ⟨hp, h.negating.2⟩⟩
  nested_eq := congrArg (· + 1) h.nested_eq
  held := h.held

end Search.Bounded

namespace Searching

variable (hw : w.Plain) (hU : w.program.constants ⊆ U)

theorem guarded_bounded (hheld : w.additionsFor U q ⊆ held) :
    Guarded (σ := σ) (Theory.boundedRoute hw hU q) (Search.Bounded w U q held nested reached) where
  scope h := h.congr rfl rfl h.held
  get {s p r tables} h hget := by
    have hcont : content tables = content s.tables := LawfulTables.content_of_get hget
    refine ⟨by simp, h.congr rfl rfl ?_⟩
    rw [Search.holdings_congr hcont]
    exact h.held
  put {s p π ps r tables} h hadm hps hput := by
    refine ⟨by simp, fun n => h.congr rfl rfl ?_⟩
    cases r with
    | error e =>
      rw [Search.holdings_congr (s := s) (LawfulTables.put_error hput)]
      exact h.held
    | ok news =>
      have hcont := (LawfulTables.put_ok hput).2
      -- an answer or a proof that is new is one of the additions for the query
      rintro ⟨p', f | ρ⟩ hx
      · rcases (Search.mem_answersOf_of_put hcont).1 hx with ⟨rfl, rfl⟩ | hx
        · exact hheld ⟨hadm.1, π, hadm.2, .inl rfl⟩
        · exact h.held hx
      · rcases (Search.mem_recordsOf_of_put hcont).1 hx with ⟨rfl, hρ⟩ | hx
        · rw [List.mem_singleton.1 (hps hρ)]
          exact hheld ⟨hadm.1, π, hadm.2, .inr rfl⟩
        · exact h.held hx
  answers _ _ := by simp
  recorded _ _ := by simp

omit [LawfulTables σ] in
theorem guarded_true :
    Guarded (σ := σ) (Theory.boundedRoute hw hU q) fun _ => True := by
  constructor <;> simp

/-- The depth that covers what a query still may come to, given how many patterns it may call, how
many answers and proofs it may hold, and how far it has come. -/
def enough (patterns additions nested reached : Nat) : Nat :=
  (patterns - nested) * (patterns + 1) + (patterns - reached) + additions + 2

variable {patterns additions depth : Nat}

theorem enough_call (additions nested : Nat) (h : reached < patterns) :
    enough patterns additions nested (reached + 1) < enough patterns additions nested reached := by
  unfold enough
  omega

theorem enough_decide (additions reached : Nat) (h : nested < patterns) :
    enough patterns additions (nested + 1) 0 < enough patterns additions nested reached := by
  obtain ⟨k, rfl⟩ : ∃ k, patterns = nested + 1 + k := ⟨patterns - nested - 1, by omega⟩
  have h1 : nested + 1 + k - (nested + 1) = k := by omega
  have h2 : nested + 1 + k - nested = k + 1 := by omega
  unfold enough
  rw [h1, h2, Nat.succ_mul]
  omega

include hw in
/-- The passes for a pattern are not cut off if none of them is. -/
theorem fixpoint_keeps_bounded {m : Literal} (hrel : w.registry.contains m.predicate = false)
    (hfin : held.Finite) (hdepth : held.ncard < depth)
    (hpass : ∀ t : Search σ, Consistent w.meaning t → t.Bounded w U q held nested 0 →
      Keeps (· ≠ .exhausted) t (expand w depth (.of m)) fun _ u => u.Bounded w U q held nested 0)
    (hs : Consistent w.meaning s) (h : s.Bounded w U q held nested 0) :
    Keeps (· ≠ .exhausted) s (fixpoint (expand w depth) (.of m) depth)
      fun _ t => t.Bounded w U q held nested 0 :=
  fixpoint_keeps (expand_calls hw.regular hw.lawful hw.judges depth) hrel hpass
    (fun ht => ht.clear _)
    (.inr ⟨_, fun _ ht => Set.ncard_le_ncard ht.held hfin, Nat.lt_add_right _ hdepth⟩) hs h

/-- A decision is not cut off if none of the passes for its fact is. -/
theorem decideNegation_keeps_bounded {I : Search σ → Prop} {m : Literal}
    (hI : Guarded (Theory.boundedRoute hw hU q) I) (hm : w.Callable U q (.of m))
    (hrel : w.registry.contains m.predicate = false) (hfin : held.Finite)
    (hdepth : held.ncard < depth)
    (hpass : nested < {p | w.Callable U q p}.ncard → ∀ t : Search σ, Consistent w.meaning t →
      t.Bounded w U q held (nested + 1) 0 →
      Keeps (· ≠ .exhausted) t (expand w depth (.of m.positive)) fun _ u =>
        u.Bounded w U q held (nested + 1) 0)
    (hback : ∀ (t : Search σ) complete, t.Bounded w U q held (nested + 1) 0 →
      I { t with expanded := s.expanded, complete, negating := s.negating })
    (hs : Consistent w.meaning s)
    (h : Search.Bounded w U q held nested 0 { s with expanded := [] }) (hIs : I s) :
    Keeps (· ≠ .exhausted) s (decideNegation w (expand w depth) depth m) fun _ t => I t := by
  have hcall := expand_calls (σ := σ) hw.regular hw.lawful hw.judges depth
  have hs' : Consistent w.meaning
      { s with negating := .of m.positive :: s.negating, expanded := [] } :=
    hs.congr rfl rfl
  refine decideNegation_keeps hw hcall hrel hs hI (refuting_keeps
    (J := Search.Bounded w U q held (nested + 1) 0) (fun _ => by simp) (fun hnew => ?_)
    (fixpoint_leads hcall (l := m.positive) hrel depth hs') hback hIs)
  refine fixpoint_keeps_bounded hw (m := m.positive) hrel hfin hdepth (hpass ?_) hs'
    (h.refute hm hnew)
  exact h.nested_eq ▸ Theory.length_lt_of_not_mem h.negating hm hnew

include hw hU in
/-- **An expansion with enough depth is not cut off.** -/
theorem expand_keeps_bounded (hq : w.registry.contains q.predicate = false)
    (hheld : w.additionsFor U q ⊆ held) (hfin : held.Finite) {m : Literal}
    (hm : w.Callable U q (.of m))
    (hdepth : enough {p | w.Callable U q p}.ncard held.ncard nested reached ≤ depth)
    (hs : Consistent w.meaning s) (h : s.Bounded w U q held nested reached) :
    Keeps (· ≠ .exhausted) s (expand w depth (.of m))
      fun _ t => t.Bounded w U q held nested reached := by
  -- by induction on the depth: a call comes to one more pattern of the pass, and a decision to one
  -- more nested negation, where passes start anew
  induction depth generalizing nested reached m s with
  | zero =>
    unfold enough at hdepth
    omega
  | succ depth ih =>
    have hlarge : held.ncard < depth := by
      unfold enough at hdepth
      omega
    refine expandOnce_keeps hw (expand_calls hw.regular hw.lawful hw.judges depth)
      (guarded_bounded hw hU hheld) ⟨?_, ?_⟩ hm (hm.relational hw hq)
      (fun _ hnew => h.enter hm hnew) (fun t ht => ?_) hs h
    · intro m' t hm' ht hb
      have hroom : reached < {p | w.Callable U q p}.ncard :=
        hb.reached_le.trans (length_le_ncard_of_nodup hb.expanded.1 (w.finite_callable U q)
          hb.expanded.2)
      have hless := enough_call held.ncard nested hroom
      exact ih hm' (by omega) ht hb
    · intro m' t hm' hn hg hrel ht hb
      refine decideNegation_keeps_bounded hw hU (guarded_bounded hw hU hheld) hm' hrel hfin hlarge
        (fun hroom u hu hbu => ih hm' ?_ hu hbu) (fun u complete hu => ?_) ht (hb.clear _) hb
      · have hless := enough_decide held.ncard reached hroom
        omega
      · exact ⟨hb.expanded, hb.reached_le, hb.negating, hb.nested_eq, hu.held⟩
    · exact ⟨ht.expanded, (Nat.le_succ _).trans ht.reached_le, ht.negating, ht.nested_eq, ht.held⟩

end Searching

/-! ## Outcomes -/

section Outcomes

/-- The pattern of a literal over the constants is callable by the literal as a query. -/
theorem Theory.callable_self (hU : q.constants ⊆ U) : w.Callable U q (.of q) where
  generic := by
    refine Generic.pattern (A := Set.univ) (l := q.positive) (fun _ _ _ _ => trivial) hU fun g => ?_
    simp [CallPattern.mem_instances_of]
  exists_literal := ⟨q, q, rfl, List.mem_cons_self, rfl, rfl⟩

namespace Searching

/-- With some depth a query for answers is not cut off. -/
theorem exists_solve_keeps (hw : w.Plain) (q : Literal) (hs : Consistent w.meaning s)
    (hneg : s.negating = []) :
    ∃ depth, Keeps (· ≠ .exhausted) s (solve w depth q) fun _ _ => True := by
  by_cases hq : w.registry.contains q.predicate = true
  · exact ⟨0, solve_keeps_evaluable (fun _ => by simp) hq trivial⟩
  have hrel : w.registry.contains q.predicate = false := by simpa using hq
  -- the constants of the program and the query bound the patterns, and so what may still be put
  -- into tables
  obtain ⟨U, hU, hqU⟩ : ∃ U, w.program.constants ⊆ U ∧ q.constants ⊆ U :=
    ⟨w.program.constants ++ q.constants, List.subset_append_left _ _, List.subset_append_right _ _⟩
  obtain ⟨held, hfin, hheld, hown⟩ :
      ∃ held : Set _, held.Finite ∧ w.additionsFor U q ⊆ held ∧ s.holdings ⊆ held :=
    ⟨w.additionsFor U q ∪ s.holdings, Theory.finite_additionsFor.union s.finite_holdings,
      Set.subset_union_left, Set.subset_union_right⟩
  have hself : w.Callable U q (.of q) := Theory.callable_self hqU
  obtain ⟨depth, hdepth⟩ : ∃ n, enough {p | w.Callable U q p}.ncard held.ncard 0 0 = n := ⟨_, rfl⟩
  have hlarge : held.ncard < depth := by
    rw [← hdepth]
    unfold enough
    omega
  have hI : Guarded (σ := σ) (Theory.boundedRoute hw hU q) fun _ => True := guarded_true hw hU
  refine ⟨depth, ?_⟩
  have hclear : Search.Bounded w U q held 0 0 { s with expanded := [] } :=
    ⟨by simp, Nat.zero_le _, by simp [hneg], by simp [hneg], hown⟩
  cases hn : q.negated with
  | false =>
    refine solve_keeps_relational hw hI hn hrel hs (saturating_keeps
      (J := Search.Bounded w U q held 0 0) (fun _ => ?_) (fun _ _ _ => trivial) trivial)
    exact fixpoint_keeps_bounded hw hrel hfin hlarge (fun t ht hb =>
      expand_keeps_bounded hw hU hrel hheld hfin hself hdepth.le ht hb) (hs.congr rfl rfl) hclear
  | true =>
    by_cases hg : q.isGround = true
    · refine solve_keeps_negated hw hn hg hs (decideNegation_keeps_bounded hw hU hI hself hrel hfin
        hlarge (fun hroom t ht hb => ?_) (fun _ _ _ => trivial) hs hclear trivial)
      have hless := enough_decide held.ncard 0 hroom
      exact expand_keeps_bounded hw hU hrel hheld hfin hself (by omega) ht hb
    · unfold solve
      rw [if_pos hn, if_neg hg]
      exact .fail (by simp)

end Searching

open Searching

omit [Tables σ] [LawfulTables σ] in
/-- What is not cut off with some bound comes to an outcome. -/
theorem Keeps.exists_comesTo {α : Type} {x : Nat → Searching σ α} {n : Nat}
    {Q : α → Search σ → Prop} (h : Keeps (· ≠ .exhausted) s (x n) Q)
    (hx : ∀ m n, m ≤ n → Refines (x m) (x n)) : ∃ r t, ComesTo x s r t := by
  obtain ⟨r, t, hcomes, -⟩ := ComesTo.of_refines hx (n := n) fun heq => h.1 _ heq rfl
  exact ⟨r, t, hcomes⟩

namespace Reached

variable (hw : w.Plain) (hs : Reached w s)

include hw hs

/-- With some bound the answers of a query are not cut off. -/
theorem exists_solve_keeps (q : Literal) :
    ∃ depth, Keeps (· ≠ .exhausted) s (solve w depth q) fun _ _ => True :=
  Searching.exists_solve_keeps hw q (hw.consistent hs) (hs.negating hw.regular hw.lawful hw.judges)

theorem solve_comesTo (q : Literal) : ∃ r t, ComesTo (fun n => solve w n q) s r t := by
  obtain ⟨depth, h⟩ := hs.exists_solve_keeps hw q
  exact h.exists_comesTo fun _ _ hmn => solve_refines hmn q

theorem isAnswer_comesTo (f : Literal) : ∃ r t, ComesTo (fun n => isAnswer w n f) s r t := by
  obtain ⟨depth, h⟩ := hs.exists_solve_keeps hw f
  exact (isAnswer_keeps hw (hw.consistent hs) h).exists_comesTo
    fun _ _ hmn => isAnswer_refines hmn f

theorem proofs_comesTo (q : Literal) : ∃ r t, ComesTo (fun n => proofs w n q) s r t := by
  obtain ⟨depth, h⟩ := hs.exists_solve_keeps hw q
  exact (proofs_keeps hw (hw.consistent hs) (fun _ _ _ _ => by simp) h).exists_comesTo
    fun _ _ hmn => proofs_refines hmn q

theorem probability_comesTo (α : Type) [Weight α] (l : Literal) :
    ∃ r t, ComesTo (fun n => probability w n α l) s r t := by
  obtain ⟨depth, h⟩ := hs.exists_solve_keeps hw l.positive
  exact (probability_keeps hw (hw.consistent hs) (fun _ _ _ _ => by simp) (fun _ => by simp)
    (fun _ _ => by simp) h).exists_comesTo fun _ _ hmn => probability_refines hmn l

/-- **Every query comes to an outcome**, a result or an error, in every state of a session: to the
same one with every bound that is large enough. This is the bound on calls and passes. Those of the
loops within a step cut nothing off either, so the outcome is none of a loop that was left early:
see `Walk.Explores.run`, `Substitution.Acyclic.leadsTo_resolve`, `ProofSet.factLineage_eq_of_room`,
`Formula.measureBy_eq_of_le` and `Formula.validBySplitting_eq_isValid`. -/
theorem comesTo :
    (∀ q, ∃ r t, ComesTo (fun n => solve w n q) s r t) ∧
    (∀ q, ∃ r t, ComesTo (fun n => isAnswer w n q) s r t) ∧
    (∀ q, ∃ r t, ComesTo (fun n => proofs w n q) s r t) ∧
    ∀ (α : Type) [Weight α] l, ∃ r t, ComesTo (fun n => probability w n α l) s r t :=
  ⟨hs.solve_comesTo hw, hs.isAnswer_comesTo hw, hs.proofs_comesTo hw,
    fun α _ => hs.probability_comesTo hw α⟩

end Reached

end Outcomes

end Bounded

/-! ## Disputes -/

namespace Dispute

open Searching

/-- Two claims, each of which stands unless the other one does. -/
def clauses : List Clause :=
  [⟨.of "yes" [], [(Literal.of "no" []).negate], .certain⟩,
    ⟨.of "no" [], [(Literal.of "yes" []).negate], .certain⟩]

/-- The theory of the dispute. -/
def theory : Theory := ⟨(Program.empty.assertAll clauses).2, .empty, .problog⟩

theorem plain : theory.Plain :=
  .of_forall_clauses (.assertAll .empty clauses) (by decide +kernel)

/-- The first claim. -/
def yes : Literal := .of "yes" []

/-- It has been asked whether the first claim stands. -/
def asked : Search Resident := (Request.solve yes).leave theory 9 (.start .empty 0)

/-- Asking for one of the claims ends, with an error, and so does asking for the other one, for its
proofs and for its probability after that. -/
theorem comesTo_claims :
    (solve theory 9 yes (.start Resident.empty 0)).1 =
      .error (.failed (.unstratified (Literal.of "no" []).negate)) ∧
    (∃ r t, ComesTo (fun n => solve theory n yes) (.start Resident.empty 0) r t) ∧
    (∃ r t, ComesTo (fun n => proofs theory n (.of "no" [])) asked r t) ∧
    ∃ r t, ComesTo (fun n => probability theory n Rat (.of "no" [])) asked r t := by
  have hstart : Reached theory (.start Resident.empty 0) := .start (fun _ => rfl) 0
  obtain ⟨-, -, hproofs, hprob⟩ := (hstart.ask 9 (.solve yes)).comesTo plain
  exact ⟨by decide +kernel, (hstart.comesTo plain).1 yes, hproofs _, hprob Rat _⟩

end Dispute

end ProbDatalog
