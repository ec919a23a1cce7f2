import ProbDatalog.Proofs.Universe
import Mathlib.Data.Set.Finite.Lattice
import Mathlib.Data.Set.Finite.List

/-!
# The patterns that a query may come to

A search over a plain theory calls patterns whose constants are mentioned by the clauses or by the
query, for the predicates of the bodies and of the query. There are finitely many of them.

* `Generic.constants_subset`: a generic pattern has no other constants.
* `Theory.finite_callable`: **a query may come to finitely many patterns.**
-/

namespace ProbDatalog

variable {U : List Constant} {w : Theory} {q : Literal}

theorem finite_setOf_forall_mem {α : Type} (among : List α) (n : Nat) :
    {l : List α | l.length = n ∧ ∀ x ∈ l, x ∈ among}.Finite := by
  have : Finite {x // x ∈ among} := among.finite_toSet
  refine ((List.finite_length_eq {x // x ∈ among} n).image (List.map Subtype.val)).subset ?_
  rintro l ⟨hn, hl⟩
  exact ⟨l.attachWith _ hl, by simpa using hn, by simp⟩

namespace CallPattern

variable {p : CallPattern} {m : Literal}

/-- The constants of a generic pattern are mentioned. -/
theorem Generic.constants_subset (h : p.Generic U) : p.literal.constants ⊆ U := by
  refine Literal.constants_subset_of_fixed fun φ hφ => Literal.mapConstants_eq_self_iff.2 ?_
  intro c hc
  -- an instance has the constant at its place, and keeps it there when constants are replaced
  obtain ⟨η, hη⟩ := h φ hφ _ ⟨fun _ => .boolean false, rfl⟩
  have hterms := congrArg Literal.terms hη
  simp only [Literal.ground, Literal.mapConstants, List.map_map] at hterms
  exact Term.const.inj (List.map_inj_left.1 hterms _ (Literal.mem_constants.1 hc)).symm

/-- The terms of the patterns over a list of constants, for a number of arguments. -/
def termsOver (U : List Constant) (arity : Nat) : List Term :=
  U.map .const ++ (List.range arity).map fun i => .var (canonicalVariable i)

theorem mem_termsOver (hU : (of m).literal.constants ⊆ U) :
    ∀ t ∈ (of m).literal.terms, t ∈ termsOver U m.arity := by
  intro t ht
  obtain ⟨u, hu, rfl⟩ := List.mem_map.1 ht
  cases u with
  | const c =>
    exact List.mem_append_left _ (List.mem_map.2 ⟨c, hU (Literal.mem_constants.2 ht), rfl⟩)
  | var v =>
    have hplace : m.vars.eraseDups.idxOf v < m.vars.eraseDups.length :=
      List.idxOf_lt_length_iff.2 (List.mem_eraseDups.2 (Literal.mem_vars.2 hu))
    have herase : m.vars.eraseDups.length ≤ m.vars.length :=
      ((nodup_eraseDups _).subperm fun _ h => List.mem_eraseDups.1 h).length_le
    have hvars : m.vars.length ≤ m.arity := List.length_filterMap_le _ _
    exact List.mem_append_right _ (List.mem_map.2 ⟨_, List.mem_range.2 (by omega), rfl⟩)

/-- The patterns over a list of constants that have the predicate and the number of arguments of a
literal. -/
def shapedLike (U : List Constant) (l : Literal) : Set CallPattern :=
  (fun ts => ⟨.of l.predicate ts⟩) '' {ts | ts.length = l.arity ∧ ∀ t ∈ ts, t ∈ termsOver U l.arity}

theorem finite_shapedLike (U : List Constant) (l : Literal) : (shapedLike U l).Finite :=
  (finite_setOf_forall_mem _ _).image _

end CallPattern

/-! ## Callable patterns -/

/-- All literals of bodies. -/
def Program.bodyLiterals (p : Program) : List Literal := p.clauses.toList.flatMap Clause.body

theorem Program.mem_bodyLiterals {p : Program} {l : Literal} :
    l ∈ p.bodyLiterals ↔ ∃ c ∈ p.clauses, l ∈ c.body := by
  simp [bodyLiterals]

/-- A pattern over the constants with the predicate and the number of arguments of the query or of
a literal of a body. -/
structure Theory.Callable (w : Theory) (U : List Constant) (q : Literal) (p : CallPattern) :
    Prop where
  generic : p.Generic U
  exists_literal : ∃ m l, p = .of m ∧ l ∈ q :: w.program.bodyLiterals ∧
    m.predicate = l.predicate ∧ m.arity = l.arity

namespace Theory

/-- **A query may come to finitely many patterns.** -/
theorem finite_callable (w : Theory) (U : List Constant) (q : Literal) :
    {p | w.Callable U q p}.Finite := by
  have hfin : (⋃ l ∈ {l | l ∈ q :: w.program.bodyLiterals}, CallPattern.shapedLike U l).Finite :=
    (List.finite_toSet _).biUnion fun l _ => CallPattern.finite_shapedLike U l
  -- a generic pattern has no other constants, and as many canonical variables as arguments at most
  refine hfin.subset ?_
  rintro p ⟨hgen, m, l, rfl, hl, hpred, harity⟩
  refine Set.mem_biUnion hl ⟨(CallPattern.of m).literal.terms, ⟨?_, ?_⟩, ?_⟩
  · exact (CallPattern.of_arity m).trans harity
  · rw [← harity]
    exact CallPattern.mem_termsOver hgen.constants_subset
  · rw [← hpred]
    rfl

/-- Callable patterns are those of relational predicates. -/
theorem Callable.relational (hw : w.Plain) (hq : w.registry.contains q.predicate = false)
    {m : Literal} (h : w.Callable U q (.of m)) : w.registry.contains m.predicate = false := by
  obtain ⟨-, m', l, heq, hl, hpred, -⟩ := h
  have hm : m.predicate = m'.predicate := congrArg (·.literal.predicate) heq
  rw [hm, hpred]
  rcases List.mem_cons.1 hl with rfl | hl
  · exact hq
  · obtain ⟨c, hc, hl⟩ := Program.mem_bodyLiterals.1 hl
    obtain ⟨i, hi, rfl⟩ := Array.mem_iff_getElem.1 hc
    have hid : w.program.clause? ⟨i⟩ = some w.program.clauses[i] := Array.getElem?_eq_getElem hi
    exact hw.relational hid l (List.mem_cons_of_mem _ hl)

end Theory

/-! ## What can be derived -/

/-- **Facts that follow from the clauses have only their constants**, as the variables of heads
occur in positive literals of bodies. -/
theorem Theory.Plain.constants_subset (hw : w.Plain) (hU : w.program.constants ⊆ U)
    {admits : Literal → Prop} {f : Literal} (hf : f ∈ consequences w.rules admits) :
    f.constants ⊆ U := by
  -- by induction on the derivation: variables of the head get their values from positive premises
  induction hf with
  | @rule π hπ _ _ ih =>
    obtain ⟨id, c, θ, hid, rfl, -⟩ := hπ
    have hmem : c ∈ w.program.clauses := Program.mem_clauses_of_clause? hid
    refine Literal.constants_ground_subset (List.Subset.trans
      (Literal.constants_subset_of_mem hmem List.mem_cons_self) hU) fun v hv => ?_
    obtain ⟨l, hl, hvl⟩ := List.mem_flatMap.1 (hw.asserted.mem_boundVars hid hv)
    obtain ⟨hl, hn⟩ := List.mem_filter.1 hl
    have hrel := hw.relational hid l (List.mem_cons_of_mem _ hl)
    exact ih _ (Theory.relational_mem_groundRule.2 ⟨l, hl, rfl, .inr hrel⟩) (by simpa using hn)
      (Literal.value_mem_constants hvl)

end ProbDatalog
