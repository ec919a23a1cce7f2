import ProbDatalog.Proofs.WellFounded

/-!
# What complete tables say

A complete table has the answers that have to be found, with the rules that may support them, so two
searches agree wherever both have completed their tables, whatever they have done before.

* `Consistent.mem_answersOf_iff`, `Consistent.mem_recordsOf_iff`: what a complete table holds.
* `Consistent.mem_proofsBelow_iff_evidence`: **the proofs below a fact depend on the theory alone.**
-/

namespace ProbDatalog

variable {w : Theory} {R : Reading w}

/-! ## Evidence -/

namespace Reading

variable (R)

/-- The rules that may support a fact, where proofs are kept. -/
def evidence : Set Proof :=
  {π ∈ w.rules | w.mode = .problog ∧ π.Supported R.meaning.required R.meaning.mustNegate}

/-- A fact rests on another one by a rule that may support it. -/
def Below (f g : Literal) : Prop := ∃ π ∈ R.evidence, π.head = f ∧ g ∈ π.dependencies

/-- The evidence that a fact may rest on. -/
def evidenceBelow (b : Literal) : Set Proof :=
  {π ∈ R.evidence | Relation.ReflTransGen R.Below b π.head}

end Reading

section Consistent

variable {σ : Type} [Tables σ] [LawfulTables σ] {s : Search σ} {p : CallPattern} {f b : Literal}
variable {π : Proof} {found : ProofSet} (hs : Consistent R.meaning s)

include hs

/-- **The answers of a complete table** are those that have to be found. -/
theorem Consistent.mem_answersOf_iff (hp : p ∈ s.complete) :
    f ∈ s.answersOf p ↔ f ∈ R.meaning.required ∧ f ∈ p.instances :=
  ⟨fun h => ⟨Reading.derivable_subset_required (hs.derivable h), hs.instances h⟩,
    fun h => hs.mem_answersOf_of_complete hp h.2 h.1⟩

/-- Recorded proofs are evidence. -/
theorem Consistent.recorded_subset_evidence : s.recorded ⊆ R.evidence := by
  rintro π ⟨p, hπ⟩
  refine ⟨hs.mem_rules hπ, ?_, Reading.supported_required (hs.supported hπ)⟩
  cases hm : w.mode with
  | problog => rfl
  | datalog =>
    rw [hs.recordsOf_eq_nil hm] at hπ
    cases hπ

/-- **The proofs in a complete table** are the evidence for the instances of its pattern. -/
theorem Consistent.mem_recordsOf_iff (hp : p ∈ s.complete) :
    π ∈ s.recordsOf p ↔ π ∈ R.evidence ∧ π.head ∈ p.instances :=
  ⟨fun h => ⟨hs.recorded_subset_evidence ⟨p, h⟩, hs.instances (hs.head_mem h)⟩,
    fun ⟨⟨hr, hm, hsup⟩, hi⟩ => (hs.complete hp hr hi hsup).2 hm⟩

omit [Tables σ] [LawfulTables σ] hs in
/-- A complete pattern covers the fact, or it is one of an evaluable predicate. -/
def Search.Settles (w : Theory) (s : Search σ) (b : Literal) : Prop :=
  w.registry.contains b.predicate = true ∨ ∃ p ∈ s.complete, b ∈ p.instances

/-- The recorded proofs of a settled fact are the evidence for it. -/
theorem Consistent.mem_recorded_iff (hw : w.Plain) (h : s.Settles w π.head) :
    π ∈ s.recorded ↔ π ∈ R.evidence := by
  refine ⟨fun hπ => hs.recorded_subset_evidence hπ, fun hπ => ?_⟩
  rcases h with hc | ⟨p, hp, hi⟩
  · obtain ⟨⟨id, c, θ, hid, rfl, -⟩, -⟩ := hπ
    have := hw.relational hid _ List.mem_cons_self
    rw [Theory.groundRule_head, Literal.ground_predicate, this] at hc
    cases hc
  · exact ⟨p, (hs.mem_recordsOf_iff hp).2 ⟨hπ, hi⟩⟩

/-- What a settled fact rests on is settled. -/
theorem Consistent.settles_of_below (hw : w.Plain) (hf : s.Settles w f) (h : R.Below f b) :
    s.Settles w b := by
  obtain ⟨π, hπ, rfl, hb⟩ := h
  obtain ⟨l, hl, rfl⟩ := Proof.mem_dependencies_iff.1 hb
  obtain ⟨p, hp⟩ := (hs.mem_recorded_iff hw hf).2 hπ
  have hrel := hw.contains_eq_false hπ.1 hl
  obtain ⟨q, hq, hi⟩ := hf.resolve_left (by simp [hs.relational (hs.head_mem hp)])
  obtain ⟨rank, hrank⟩ := hs.layered
  obtain ⟨hpos, hneg⟩ := hrank.covered hq hπ.1 hπ.1 hi hπ.2.2 hl hrel
  right
  cases hn : l.negated with
  | false =>
    obtain ⟨q', hq', -, hlq⟩ := hpos hn
    exact ⟨q', hq', (Literal.positive_eq_self hn).symm ▸ hlq⟩
  | true =>
    refine ⟨_, (hneg hn).1, (CallPattern.mem_instances_of_isGround ?_).2 rfl⟩
    simpa using Theory.isGround_of_mem_rules hπ.1 hl

/-- **The proofs below a settled fact depend on the theory alone.** -/
theorem Consistent.mem_proofsBelow_iff_evidence (hw : w.Plain)
    (hrec : Tables.proofsBelow s.tables b = .ok found) (hb : s.Settles w b) :
    π ∈ found.toList ↔ π ∈ R.evidenceBelow b := by
  -- everything on the way down is settled, so no evidence is missing there
  have hsettled : ∀ {c}, Relation.ReflTransGen R.Below b c → s.Settles w c := by
    intro c h
    induction h with
    | refl => exact hb
    | tail _ hstep ih => exact hs.settles_of_below hw ih hstep
  have hpath : ∀ c,
      Relation.ReflTransGen s.Below b c ↔ Relation.ReflTransGen R.Below b c := by
    have hsub : Relation.ReflTransGen s.Below ≤ Relation.ReflTransGen R.Below := by
      refine Relation.ReflTransGen.mono ?_
      rintro f g ⟨ρ, hρ, hg⟩
      exact ⟨ρ, hs.recorded_subset_evidence hρ, hg⟩
    refine fun c => ⟨fun h => hsub _ _ h, fun h => ?_⟩
    induction h with
    | refl => exact .refl
    | tail hpath hstep ih =>
      obtain ⟨ρ, hρ, rfl, hg⟩ := hstep
      have hrecorded := (hs.mem_recorded_iff hw (hsettled hpath)).2 hρ
      exact ih.tail ⟨ρ, hrecorded, rfl, hg⟩
  rw [hs.mem_proofsBelow_iff hw.asserted hrec, hpath]
  constructor
  · exact fun ⟨h, hπ⟩ => ⟨hs.recorded_subset_evidence hπ, h⟩
  · exact fun ⟨hπ, h⟩ => ⟨h, (hs.mem_recorded_iff hw (hsettled h)).2 hπ⟩

end Consistent

/-! ## Answers -/

/-- What the answers of a query are: the instances that have to be found, or a ground negated query
itself if its negation must not be overlooked. -/
def Theory.Answers (w : Theory) (q f : Literal) : Prop :=
  if q.negated then f = q ∧ q.isGround = true ∧ w.meaning.mustNegate q.positive
  else f ∈ w.meaning.required ∧ f ∈ (CallPattern.of q).instances

section Answers

variable {σ : Type} [Tables σ] [LawfulTables σ] {s : Search σ} {q f : Literal}

omit [Tables σ] [LawfulTables σ] in
/-- What a query answers is settled by its pattern. -/
theorem Theory.Answers.settles (h : w.Answers q f) (hq : .of q ∈ s.complete) :
    s.Settles w f.positive := by
  unfold Answers at h
  -- an answer is an instance of the pattern, or the negation of the query itself
  refine .inr ⟨_, hq, ?_⟩
  by_cases hn : q.negated = true
  · rw [if_pos hn] at h
    obtain ⟨rfl, hg, -⟩ := h
    exact (CallPattern.mem_instances_of_isGround hg).2 rfl
  · rw [if_neg hn] at h
    obtain ⟨θ, rfl⟩ := h.2
    exact h.2

/-- **What a query answers depends on the theory alone.** -/
theorem Searching.solve_leads_answers (hw : w.Plain) (depth : Nat)
    (hrel : w.registry.contains q.predicate = false) (hs : Consistent w.meaning s) :
    Leads w.meaning s (solve w depth q) fun answers t =>
      .of q ∈ t.complete ∧ (q.negated = true → q.isGround = true) ∧
        ∀ f, f ∈ answers ↔ w.Answers q f := by
  unfold Theory.Answers
  cases hn : q.negated with
  | false =>
    refine (solve_leads_relational hw.regular hw.lawful hw.judges depth hn hrel hs).mono ?_
    rintro answers t ht - ⟨hcomp, -, hmem⟩
    refine ⟨hcomp, by simp, fun f => ?_⟩
    rw [hmem, ht.mem_answersOf_iff (R := .wellFounded w) hcomp]
    rfl
  | true =>
    by_cases hg : q.isGround = true
    · refine (solve_leads_negated hw.regular hw.lawful hw.judges depth hn hs).mono ?_
      rintro answers t - - ⟨hdec, hans⟩
      refine ⟨hdec.resolve_left (by simp [hrel]), fun _ => hg, fun f => ?_⟩
      rcases hans with ⟨rfl, hmay⟩ | ⟨rfl, hmust⟩
      · have hmust : w.meaning.mustNegate q.positive := Reading.mustNegate_of_mayNegate hmay
        simp [hg, hmust]
      · simp [hmust]
    · unfold solve
      rw [if_pos hn, if_neg hg]
      exact .fail hs _

end Answers

end ProbDatalog
