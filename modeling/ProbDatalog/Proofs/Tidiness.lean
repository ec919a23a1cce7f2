import ProbDatalog.Proofs.Upholding

/-!
# Tables hold instances of their patterns

Whatever evaluable predicates do, a table lists each answer once, and only instances of its pattern.
Proofs are filed with the answer that they show.

* `Search.Tidy.lasting`: no step of a search makes tables untidy.
* `solve_tidy`: **the answers of a query are distinct instances of it.**
* `Reached.tidy`: the tables are tidy in every state of a session.
-/

namespace ProbDatalog

open Searching

variable {σ : Type} [Tables σ] [LawfulTables σ]

/-! ## Tidy tables -/

/-- Each answer is listed once, and is an instance of the pattern of its table. Each proof shows an
answer of its table. -/
structure Search.Tidy (s : Search σ) : Prop where
  nodup : ∀ p, (s.answersOf p).Nodup
  instances : ∀ {p f}, f ∈ s.answersOf p → f ∈ p.instances
  heads : ∀ {p π}, π ∈ s.recordsOf p → π.head ∈ s.answersOf p

namespace Search.Tidy

variable {s t : Search σ} {p : CallPattern} {f : Literal} {ps : List Proof}

theorem of_isFresh {tables : σ} (h : IsFresh tables) (scope : UInt32) :
    (Search.start tables scope).Tidy := by
  have hnil : ∀ p, (Search.start tables scope).answersOf p = [] := fun p => by
    simp [answersOf, start, h p]
  exact ⟨fun p => by simp [hnil], fun hf => by simp [hnil] at hf,
    fun {p _} hπ => by simp [recordsOf, start, h p] at hπ⟩

theorem congr (h : s.Tidy) (ht : content t.tables = content s.tables) : t.Tidy := by
  have heq : ∀ p, t.answersOf p = s.answersOf p := fun p => by simp [answersOf, ht]
  have hrec : ∀ p, t.recordsOf p = s.recordsOf p := fun p => by simp [recordsOf, ht]
  exact ⟨fun p => heq p ▸ h.nodup p, fun {p f} hf => h.instances (heq p ▸ hf),
    fun {p π} hπ => heq p ▸ h.heads (hrec p ▸ hπ)⟩

/-- An instance of a pattern may be added to its table with proofs of it. -/
theorem put (h : s.Tidy) (hf : f ∈ p.instances) (hps : ∀ π ∈ ps, π.head = f)
    (ht : content t.tables =
      Function.update (content s.tables) p (Resident.record (content s.tables p) f ps)) :
    t.Tidy where
  nodup q := by
    unfold answersOf
    rw [ht]
    by_cases hq : q = p
    · subst hq
      rw [Function.update_self]
      exact Resident.nodup_keys_record (h.nodup q)
    · rw [Function.update_of_ne hq]
      exact h.nodup q
  instances {q g} hg := by
    rcases (mem_answersOf_of_put ht).1 hg with ⟨rfl, rfl⟩ | hg
    · exact hf
    · exact h.instances hg
  heads {q π} hπ := by
    rw [mem_answersOf_of_put ht]
    rcases (mem_recordsOf_of_put ht).1 hπ with ⟨rfl, hπ⟩ | hπ
    · exact .inl ⟨rfl, hps π hπ⟩
    · exact .inr (h.heads hπ)

/-- No step of a search makes tables untidy. -/
theorem lasting : Lasting Set.univ (Search.Tidy (σ := σ)) where
  scope h := h.congr rfl
  tables h ht := h.congr ht
  put h _ hf hps ht := h.put hf hps ht
  enter h _ := h.congr rfl
  clear h := h.congr rfl
  negating h := h.congr rfl
  restore _ h := h.congr rfl
  complete _ h := h.congr rfl

end Search.Tidy

/-! ## Queries -/

section Queries

variable {w : Theory} {s : Search σ}

/-- **The answers of a query are distinct instances of it**, unless its predicate is evaluable. -/
theorem solve_tidy (depth : Nat) (q : Literal) :
    Upholds Search.Tidy (solve w depth q : Searching σ (List Literal)) fun answers =>
      q.negated = false → w.registry.contains q.predicate = false →
        answers.Nodup ∧ ∀ f ∈ answers, f ∈ (CallPattern.of q).instances := by
  refine solve_upholds (saturate_upholds Search.Tidy.lasting (fun _ => trivial) depth)
    (decideNegation_expand_upholds Search.Tidy.lasting (fun _ => trivial) depth)
    fun s answers hs hanswers => ?_
  rw [LawfulTables.answers_ok hanswers]
  exact ⟨(hs.nodup _).filter _, fun f hf => hs.instances (List.mem_filter.1 hf).1⟩

/-- **The tables are tidy in every state of a session**, whatever evaluable predicates do. -/
theorem Reached.tidy (hs : Reached w s) : s.Tidy := by
  induction hs with
  | start h scope => exact .of_isFresh h scope
  | ask _ depth r ih =>
    exact leave_upholds (saturate_upholds Search.Tidy.lasting (fun _ => trivial) depth)
      (decideNegation_expand_upholds Search.Tidy.lasting (fun _ => trivial) depth) ih r
  | mend _ ht ih => exact ih.congr ht

end Queries

end ProbDatalog
