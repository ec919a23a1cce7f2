import ProbDatalog.Proofs.Evidence

/-!
# What queries yield

Two runs of a query that succeed yield the same, whatever has been asked before them and whatever
store they use: the same set of answers, the same proofs and the same probability.

* `solve_leads_yields`: **the answers of a query depend on the theory alone.**
* `proofs_leads_shows`, `exists_probability`: **so do its proofs and its probability.**
-/

namespace ProbDatalog

variable {w : Theory}

/-! ## Supports -/

/-- The proofs that take part in showing a literal, among the evidence for it. -/
def Theory.Supports (w : Theory) (l : Literal) (found : ProofSet) : Prop :=
  ∃ S : ProofSet, Sorted.IsSorted S.toList ∧
    (∀ π, π ∈ S.toList ↔ π ∈ (Reading.wellFounded w).evidenceBelow l.positive) ∧
    S.support? l = some found

theorem Theory.Supports.eq {l : Literal} {found found' : ProofSet} (h : w.Supports l found)
    (h' : w.Supports l found') : found = found' := by
  obtain ⟨S, hS, hmem, hfound⟩ := h
  obtain ⟨S', hS', hmem', hfound'⟩ := h'
  obtain rfl : S = S' := ProofSet.eq_of_mem_iff hS hS' fun π => (hmem π).trans (hmem' π).symm
  exact Option.some.inj (hfound.symm.trans hfound')

namespace ProofSet

/-- Several sets together. -/
theorem mem_foldl_insertAll {each : List ProofSet} {start : ProofSet} {π : Proof} :
    π ∈ (each.foldl (fun s t => s.insertAll t.toList) start).toList ↔
      π ∈ start.toList ∨ ∃ s ∈ each, π ∈ s.toList := by
  induction each generalizing start with
  | nil => simp
  | cons s rest ih => simp [ih, mem_insertAll, or_assoc]

theorem isSorted_foldl_insertAll {each : List ProofSet} {start : ProofSet}
    (h : Sorted.IsSorted start.toList) :
    Sorted.IsSorted (each.foldl (fun s t => s.insertAll t.toList) start).toList := by
  induction each generalizing start with
  | nil => exact h
  | cons s rest ih => exact ih (isSorted_insertAll h s.toList)

end ProofSet

namespace Searching

section Settled

variable {σ : Type} [Tables σ] [LawfulTables σ] {s : Search σ} {f : Literal} {depth : Nat}

/-- What is read off the tables for a settled fact is its support. -/
theorem supports_of_settles (hw : w.Plain) (hs : Consistent w.meaning s) {found : ProofSet}
    (h : s.Justifies f found) (hf : s.Settles w f.positive) : w.Supports f found := by
  obtain ⟨below, hrec, hfound⟩ := h
  exact ⟨below, Tables.isSorted_proofsBelow hrec, fun _ =>
    hs.mem_proofsBelow_iff_evidence (R := .wellFounded w) hw hrec hf, hfound⟩

end Settled

end Searching

/-! ## Answers and proofs -/

/-- What is among the answers of a query. -/
def Theory.Yields (w : Theory) (q f : Literal) : Prop :=
  if w.registry.contains q.predicate then
    ∃ answers, w.registry.answers q = .ok answers ∧ f ∈ answers
  else w.Answers q f

/-- What the proofs of a query are: the supports of all its answers together. -/
structure Theory.Shows (w : Theory) (q : Literal) (found : ProofSet) : Prop where
  isSorted : Sorted.IsSorted found.toList
  mem_iff : ∀ π, π ∈ found.toList ↔ ∃ f S, w.Yields q f ∧ w.Supports f S ∧ π ∈ S.toList
  exists_supports : ∀ {f}, w.Yields q f → ∃ S, w.Supports f S

theorem Theory.Shows.eq {q : Literal} {found found' : ProofSet} (h : w.Shows q found)
    (h' : w.Shows q found') : found = found' :=
  ProofSet.eq_of_mem_iff h.isSorted h'.isSorted fun π => (h.mem_iff π).trans (h'.mem_iff π).symm

namespace Searching

section Yielding

variable {σ : Type} [Tables σ] [LawfulTables σ] {s : Search σ} {q : Literal}

/-- **The answers of a query depend on the theory alone.** -/
theorem solve_leads_yields (hw : w.Plain) (depth : Nat) (hs : Consistent w.meaning s) :
    Leads w.meaning s (solve w depth q) fun answers t =>
      (∀ f, w.Yields q f → t.Settles w f.positive) ∧ ∀ f, f ∈ answers ↔ w.Yields q f := by
  unfold Theory.Yields
  -- evaluable predicates answer by themselves, all others from their tables
  by_cases hc : w.registry.contains q.predicate = true
  · unfold Leads After
    simp only [if_pos hc, solve_evaluable hc]
    refine ⟨hs, .refl s, fun answers hans => ⟨?_, fun f => ?_⟩⟩
    · rintro f ⟨answers, hr, hf⟩
      exact .inl (by rw [Literal.positive_predicate, Registry.predicate_of_mem_answers hr hf, hc])
    · cases hr : w.registry.answers q with
      | ok found =>
        rw [hr] at hans
        cases hans
        simp
      | error e =>
        rw [hr] at hans
        cases hans
  · simp only [if_neg hc]
    refine (solve_leads_answers hw depth (by simpa using hc) hs).mono ?_
    rintro answers t - - ⟨hcomp, -, hmem⟩
    exact ⟨fun f hf => Theory.Answers.settles hf hcomp, hmem⟩

/-- **The proofs of a query depend on the theory alone.** -/
theorem proofs_leads_shows (hw : w.Plain) (depth : Nat) (hs : Consistent w.meaning s) :
    Leads w.meaning s (proofs w depth q) fun found _ => w.Shows q found := by
  refine (proofs_leads depth (solve_leads_yields hw depth hs)).mono ?_
  rintro found t ht - ⟨answers, each, ⟨hsettled, hmem⟩, heach, hall, rfl⟩
  have hsup : ∀ {f S}, w.Yields q f → t.Justifies f S → w.Supports f S := fun hf hS =>
    supports_of_settles hw ht hS (hsettled _ hf)
  refine ⟨ProofSet.isSorted_foldl_insertAll Sorted.isSorted_nil, fun π => ?_, fun hf => ?_⟩
  · simp only [ProofSet.mem_foldl_insertAll, ProofSet.empty, List.not_mem_nil, false_or]
    constructor
    · rintro ⟨S, hS, hπ⟩
      obtain ⟨f, hf, hfS⟩ := heach S hS
      exact ⟨f, S, (hmem f).1 hf, hsup ((hmem f).1 hf) hfS, hπ⟩
    · rintro ⟨f, S, hf, hS, hπ⟩
      obtain ⟨S', hS', hfS'⟩ := hall f ((hmem f).2 hf)
      exact ⟨S', hS', hS.eq (hsup hf hfS') ▸ hπ⟩
  · obtain ⟨S, -, hS⟩ := hall _ ((hmem _).2 hf)
    exact ⟨S, hsup hf hS⟩

end Yielding

/-! ## Probabilities -/

/-- A fact is certain or not where it is an answer or not. -/
theorem isAnswer_leads_yields {σ : Type} [Tables σ] [LawfulTables σ] (hw : w.Plain) (depth : Nat)
    {s : Search σ} {f : Literal} (hs : Consistent w.meaning s) :
    Leads w.meaning s (isAnswer w depth f) fun holds _ => holds = true ↔ w.Yields f f := by
  refine (solve_leads_yields hw depth hs).bind ?_
  rintro answers t ht - ⟨-, hmem⟩
  exact .pure ht (by simp [hmem])

end Searching

/-- Where no proofs are read, a fact that is among its own answers has probability one and any other
fact zero; for a negated literal it is the other way round. -/
def Theory.verdicts (w : Theory) (α : Type) [Weight α] (l : Literal) : Set α :=
  {v | ∃ holds : Bool, (holds = true ↔ w.Yields l.positive l.positive) ∧
    v = if l.negated then Weight.one - (if holds then Weight.one else Weight.zero)
      else if holds then Weight.one else Weight.zero}

theorem Theory.subsingleton_verdicts (α : Type) [Weight α] (l : Literal) :
    (w.verdicts α l).Subsingleton := by
  rintro _ ⟨holds, hh, rfl⟩ _ ⟨holds', hh', rfl⟩
  obtain rfl : holds = holds' := Bool.eq_iff_iff.2 (hh.trans hh'.symm)
  rfl

namespace Searching

/-- A probability for which no proofs are read says whether the fact is among its own answers. -/
theorem probability_leads_verdict {α σ : Type} [Weight α] [Tables σ] [LawfulTables σ]
    (hw : w.Plain) (depth : Nat) {s : Search σ} {l : Literal} (hs : Consistent w.meaning s)
    (hm : ¬(w.mode = .problog ∧ w.registry.contains l.predicate = false)) :
    Leads w.meaning s (probability w depth α l) fun v _ => v ∈ w.verdicts α l := by
  unfold probability
  by_cases hg : l.isGround = true
  · rw [if_pos hg]
    refine .ofExcept_bind hs fun evaluable hres => ?_
    have hnot : ¬(w.mode = .problog ∧ evaluable.isNone = true) := by
      rintro ⟨hmode, hnone⟩
      obtain rfl := Option.isNone_iff_eq_none.1 hnone
      exact hm ⟨hmode, Registry.resolve_eq_none (l := l.positive) hres⟩
    rw [if_neg hnot]
    refine (isAnswer_leads_yields hw depth hs).bind ?_
    exact fun holds t ht _ hmem => .pure ht ⟨holds, hmem, rfl⟩
  · rw [if_neg hg]
    exact .fail hs _

/-- **The probability of a fact depends on the theory alone.** -/
theorem exists_probability (hw : w.Plain) (α : Type) [Weight α] (l : Literal) :
    ∃ V : Set α, V.Subsingleton ∧ ∀ {σ : Type} [Tables σ] [LawfulTables σ] (depth : Nat)
      {s : Search σ}, Consistent w.meaning s →
        Leads w.meaning s (probability w depth α l) fun v _ => v ∈ V := by
  -- proofs matter where they are kept; otherwise the answer is certain or impossible
  by_cases hm : w.mode = .problog ∧ w.registry.contains l.predicate = false
  · refine ⟨{v | ∃ S p, w.Supports l.positive S ∧ S.probability? α l.positive = some p ∧
      v = if l.negated then Weight.one - p else p}, ?_, fun {σ} _ _ depth s hs => ?_⟩
    · rintro _ ⟨S, p, hS, hp, rfl⟩ _ ⟨S', p', hS', hp', rfl⟩
      obtain rfl := hS.eq hS'
      obtain rfl := Option.some.inj (hp.symm.trans hp')
      rfl
    · by_cases hg : l.isGround = true
      · refine (probability_leads_relational hw.regular hw.lawful hw.judges depth hg hm.2 hm.1
          hs).mono ?_
        rintro v t ht - ⟨hcomp, below, S, p, hrec, hsup, hp, rfl⟩
        have hsettled : t.Settles w l.positive :=
          .inr ⟨_, hcomp, (CallPattern.mem_instances_of_isGround (by simpa using hg)).2 rfl⟩
        exact ⟨S, p, supports_of_settles hw ht ⟨below, hrec, hsup⟩ hsettled, hp, rfl⟩
      · unfold probability
        rw [if_neg hg]
        exact .fail hs _
  · exact ⟨w.verdicts α l, Theory.subsingleton_verdicts α l, fun depth s hs =>
      probability_leads_verdict hw depth hs hm⟩

end Searching

end ProbDatalog
