import ProbDatalog.Proofs.Consistency
import ProbDatalog.Proofs.PerfectModel
import ProbDatalog.Proofs.Walks

/-!
# Gathering recorded proofs

A walk down from a fact through the tables of a lawful store finds recorded proofs only. Where
proofs are filed under patterns that cover what they show, it finds all recorded proofs of the facts
that the fact may rest on.

* `Search.mem_proofsBelow_iff`: **which recorded proofs are found.**
* `Consistent.mem_proofsBelow_iff`: in consistent tables, all that may matter.
-/

namespace ProbDatalog

variable {σ : Type} [Tables σ] [LawfulTables σ] {s : Search σ} {p : CallPattern} {f g : Literal}
variable {π : Proof} {found : ProofSet}

namespace Search

/-- The recorded proofs of all patterns. -/
def recorded (s : Search σ) : Set Proof := {π | ∃ p, π ∈ s.recordsOf p}

/-- A recorded proof of a fact rests on another fact. -/
def Below (s : Search σ) (a b : Literal) : Prop :=
  ∃ π ∈ s.recorded, π.head = a ∧ b ∈ π.dependencies

/-- What is read has been recorded. -/
theorem mem_recordsOf_of_readable (h : π ∈ Tables.readable s.tables p) : π ∈ s.recordsOf p := by
  cases hl : Tables.recorded s.tables p with
  | ok l =>
    rw [Tables.readable_eq hl] at h
    exact (LawfulTables.recorded_ok hl π).1 h
  | error e => simp [Tables.readable, hl, Except.toOption] at h

theorem mem_recorded_of_proofsOf (h : π ∈ Tables.proofsOf s.tables f) : π ∈ s.recorded := by
  obtain ⟨p, -, hπ⟩ := List.mem_flatMap.1 h
  exact ⟨p, mem_recordsOf_of_readable (List.mem_filter.1 hπ).1⟩

theorem below_of_tables_below (h : Tables.Below s.tables f g) : s.Below f g := by
  obtain ⟨π, hπ, hdep⟩ := h
  exact ⟨π, mem_recorded_of_proofsOf hπ, Tables.head_of_mem_proofsOf hπ, hdep⟩

/-- On the way down, where all tables can be read, a proof is found that is filed under a pattern
that covers what it shows. -/
theorem mem_proofsOf (hread : ∀ e, ¬Tables.Barred s.tables f e)
    (hpath : Relation.ReflTransGen (Tables.Below s.tables) f π.head) (hπ : π ∈ s.recordsOf p)
    (hcov : p.covers π.head = true) : π ∈ Tables.proofsOf s.tables π.head := by
  have hp : p ∈ Tables.patterns s.tables := mem_patterns_of_recordsOf hπ
  cases hl : Tables.recorded s.tables p with
  | error e => exact absurd ⟨_, hpath, p, hp, hcov, hl⟩ (hread e)
  | ok l =>
    refine List.mem_flatMap.2 ⟨p, List.mem_filter.2 ⟨hp, hcov⟩, List.mem_filter.2 ⟨?_, by simp⟩⟩
    rw [Tables.readable_eq hl]
    exact (LawfulTables.recorded_ok hl π).2 hπ

/-- **Which recorded proofs are found**, where proofs on the way down are filed under patterns that
cover what they show. -/
theorem mem_proofsBelow_iff (h : Tables.proofsBelow s.tables f = .ok found)
    (hcov : ∀ {p π}, π ∈ s.recordsOf p → Relation.ReflTransGen s.Below f π.head →
      p.covers π.head = true) :
    π ∈ found.toList ↔ Relation.ReflTransGen s.Below f π.head ∧ π ∈ s.recorded := by
  have hread := Tables.not_barred_of_proofsBelow h
  have hpath : ∀ g, Relation.ReflTransGen (Tables.Below s.tables) f g ↔
      Relation.ReflTransGen s.Below f g := fun g => by
    refine ⟨Relation.ReflTransGen.mono (fun _ _ => below_of_tables_below) f g, fun hg => ?_⟩
    induction hg with
    | refl => exact .refl
    | tail hg hbelow ih =>
      obtain ⟨ρ, ⟨p, hρ⟩, rfl, hdep⟩ := hbelow
      exact ih.tail ⟨ρ, mem_proofsOf hread ih hρ (hcov hρ hg), hdep⟩
  rw [Tables.mem_proofsBelow_iff h, hpath]
  refine and_congr_right fun hg => ⟨mem_recorded_of_proofsOf, fun ⟨p, hπ⟩ => ?_⟩
  exact mem_proofsOf hread ((hpath _).2 hg) hπ (hcov hπ hg)

end Search

/-- **In consistent tables** all recorded proofs of facts on the way down are found. -/
theorem Consistent.mem_proofsBelow_iff {w : Theory} {M : Meaning w} (hw : w.program.Asserted)
    (hs : Consistent M s) (h : Tables.proofsBelow s.tables f = .ok found) :
    π ∈ found.toList ↔ Relation.ReflTransGen s.Below f π.head ∧ π ∈ s.recorded := by
  refine Search.mem_proofsBelow_iff h fun {p ρ} hρ _ => ?_
  have hinst := hs.instances (hs.head_mem hρ)
  rw [CallPattern.covers_iff_mem_instances (CallPattern.isGround_of_mem_instances hinst),
    Literal.positive_eq_self (hw.negated_head (hs.mem_rules hρ))]
  exact hinst

end ProbDatalog
