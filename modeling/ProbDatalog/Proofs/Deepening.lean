import ProbDatalog.Search.Query
import ProbDatalog.Proofs.Steps

/-!
# Deeper searches

A search is bounded in the depth of calls and the number of passes. If the bound was large enough
for a result or an error, a larger one changes nothing, so a query has one outcome, which it comes
to wherever the bound does not cut it off.

* `Refines.bind`: one step after another.
* `expand_refines`, `solve_refines`, `probability_refines`, `proofs_refines`: **a larger bound
  changes nothing that a smaller one has found.**
* `ComesTo.eq`: a query comes to one outcome.
-/

namespace ProbDatalog.Searching

variable {σ α β : Type}

theorem mapError_ne_exhausted (r : Except Error α) :
    r.mapError Halt.failed ≠ .error .exhausted := by
  cases r <;> simp [Except.mapError]

/-- If the first step has been cut off, so are both together. -/
theorem ne_exhausted_of_bind {x : Searching σ α} {f : α → Searching σ β} {s : Search σ}
    (h : ((x >>= f) s).1 ≠ .error .exhausted) : (x s).1 ≠ .error .exhausted := by
  intro hx
  rw [bind_run] at h
  generalize x s = r at h hx
  obtain ⟨r, t⟩ := r
  cases hx
  exact h rfl

theorem ne_exhausted_of_saturating {x : Searching σ Unit} {p : CallPattern} {s : Search σ}
    (hp : ¬s.complete.contains p = true) (h : (saturating p x s).1 ≠ .error .exhausted) :
    (x { s with expanded := [] }).1 ≠ .error .exhausted := by
  intro hx
  unfold saturating at h
  rw [if_neg hp] at h
  generalize x { s with expanded := [] } = r at h hx
  obtain ⟨r, t⟩ := r
  cases hx
  exact h rfl

/-- A step does what another one does, unless that one was cut off. -/
def Refines (x y : Searching σ α) : Prop := ∀ s, (x s).1 ≠ .error .exhausted → y s = x s

namespace Refines

variable {x y : Searching σ α}

theorem refl (x : Searching σ α) : Refines x x := fun _ _ => rfl

theorem throw (y : Searching σ α) : Refines (MonadExcept.throw Halt.exhausted) y :=
  fun _ h => absurd rfl h

/-- **One step after another.** -/
theorem bind {f g : α → Searching σ β} (h : Refines x y) (hf : ∀ a, Refines (f a) (g a)) :
    Refines (x >>= f) (y >>= g) := by
  intro s hs
  have hx := ne_exhausted_of_bind hs
  rw [bind_run] at hs ⊢
  rw [bind_run, h s hx]
  generalize x s = r at hs
  obtain ⟨h | a, t⟩ := r
  · rfl
  · exact hf a t hs

theorem mapM {ι : Type} {f g : ι → Searching σ α} (l : List ι) (h : ∀ i, Refines (f i) (g i)) :
    Refines (l.mapM f) (l.mapM g) := by
  induction l with
  | nil => exact .refl _
  | cons i rest ih =>
    rw [List.mapM_cons, List.mapM_cons]
    exact (h i).bind fun _ => ih.bind fun _ => .refl _

theorem forM {ι : Type} {f g : ι → Searching σ PUnit} (l : List ι)
    (h : ∀ i, Refines (f i) (g i)) : Refines (l.forM f) (l.forM g) := by
  induction l with
  | nil => exact .refl _
  | cons i rest ih => exact (h i).bind fun _ => ih

theorem saturating {x y : Searching σ Unit} (h : Refines x y) (p : CallPattern) :
    Refines (saturating p x) (saturating p y) := by
  intro s hs
  unfold Searching.saturating
  by_cases hp : s.complete.contains p = true
  · rw [if_pos hp, if_pos hp]
  · rw [if_neg hp, if_neg hp, h _ (ne_exhausted_of_saturating hp hs)]

theorem refuting {x y : Searching σ Unit} (h : Refines x y) (p : CallPattern) (l : Literal) :
    Refines (refuting p l x) (refuting p l y) := by
  intro s hs
  unfold Searching.refuting at hs ⊢
  by_cases hp : s.negating.contains p = true
  · rw [if_pos hp, if_pos hp]
  · rw [if_neg hp] at hs
    rw [if_neg hp, if_neg hp]
    have hx : (x { s with negating := p :: s.negating }).1 ≠ .error .exhausted := hs
    simp only [h _ hx]

end Refines

/-! ## Expansion -/

section Calls

variable [Tables σ] {w : Theory} {call call' : CallPattern → Searching σ Unit} {m n : Nat}

omit [Tables σ] in
theorem fixpoint_refines (hcall : ∀ p, Refines (call p) (call' p)) (hmn : m ≤ n)
    (p : CallPattern) : Refines (fixpoint call p m) (fixpoint call' p n) := by
  induction m generalizing n with
  | zero => exact .throw _
  | succ m ih =>
    obtain ⟨n, rfl⟩ : ∃ k, n = k + 1 := ⟨n - 1, by omega⟩
    unfold fixpoint
    refine (Refines.refl _).bind fun s => (Refines.refl _).bind fun _ => (hcall p).bind fun _ =>
      (Refines.refl _).bind fun t => ?_
    -- both stop after this pass or neither does, as they have come to the same state
    split
    · exact .refl _
    · exact ih (by omega)

theorem decideNegation_refines (hcall : ∀ p, Refines (call p) (call' p)) (hmn : m ≤ n)
    (l : Literal) : Refines (decideNegation w call m l) (decideNegation w call' n l) := by
  unfold decideNegation
  refine (Refines.refl _).bind fun o => ?_
  cases o with
  | some e => exact .refl _
  | none =>
    exact (((fixpoint_refines hcall hmn _).saturating _).refuting _ _).bind fun _ => .refl _

theorem resolveLiteral_refines (hcall : ∀ p, Refines (call p) (call' p)) (hmn : m ≤ n)
    (l : Literal) (s : Substitution) :
    Refines (resolveLiteral w call m l s) (resolveLiteral w call' n l s) := by
  unfold resolveLiteral
  dsimp only
  split
  · split
    · exact (decideNegation_refines hcall hmn _).bind fun _ => .refl _
    · exact .refl _
  · refine (Refines.refl _).bind fun o => ?_
    cases o with
    | some e => exact .refl _
    | none => exact (hcall _).bind fun _ => .refl _

theorem resolveBody_refines (hcall : ∀ p, Refines (call p) (call' p)) (hmn : m ≤ n)
    (body : List Literal) (branch : Branch) :
    Refines (resolveBody w call m body branch) (resolveBody w call' n body branch) := by
  induction body generalizing branch with
  | nil => exact .refl _
  | cons l rest ih =>
    obtain ⟨s, premises⟩ := branch
    unfold resolveBody
    exact (resolveLiteral_refines hcall hmn l s).bind fun nexts =>
      (Refines.mapM nexts fun next => ih _).bind fun _ => .refl _

theorem expandOnce_refines (hcall : ∀ p, Refines (call p) (call' p)) (hmn : m ≤ n)
    (p : CallPattern) : Refines (expandOnce w call m p) (expandOnce w call' n p) := by
  have htry : ∀ x : ClauseId × Clause,
      Refines (tryClause w call m p x.1 x.2) (tryClause w call' n p x.1 x.2) := by
    intro x
    unfold tryClause
    refine (Refines.refl _).bind fun scope => ?_
    dsimp only
    split
    · exact .refl _
    · exact (resolveBody_refines hcall hmn _ _).bind fun _ => .refl _
  unfold expandOnce
  refine (Refines.refl _).bind fun entered => ?_
  cases entered with
  | false =>
    simp only [Bool.false_eq_true, if_false]
    exact .refl _
  | true =>
    simp only [if_true]
    refine (Refines.refl _).bind fun s => ?_
    split
    · exact (Refines.refl _).bind fun _ => Refines.forM _ htry
    · exact Refines.forM _ htry

end Calls

section Queries

variable [Tables σ] {w : Theory} {m n : Nat}

/-- **A larger bound changes nothing that a smaller one has found.** -/
theorem expand_refines (hmn : m ≤ n) (p : CallPattern) :
    Refines (expand w m p : Searching σ Unit) (expand w n p) := by
  induction m generalizing n p with
  | zero => exact .throw _
  | succ m ih =>
    -- the bound limits the calls within calls as well as the passes, so both go down by one
    obtain ⟨n, rfl⟩ : ∃ k, n = k + 1 := ⟨n - 1, by omega⟩
    exact expandOnce_refines (fun q => ih (by omega) q) (by omega) p

theorem saturate_refines (hmn : m ≤ n) (p : CallPattern) :
    Refines (saturate w m p : Searching σ Unit) (saturate w n p) :=
  (fixpoint_refines (expand_refines hmn) hmn p).saturating p

/-! ## Queries -/

theorem solve_refines (hmn : m ≤ n) (q : Literal) :
    Refines (solve w m q : Searching σ (List Literal)) (solve w n q) := by
  unfold solve
  split
  · split
    · exact (decideNegation_refines (expand_refines hmn) hmn q).bind fun _ => .refl _
    · exact .refl _
  · refine (Refines.refl _).bind fun o => ?_
    cases o with
    | some e => exact .refl _
    | none => exact (saturate_refines hmn _).bind fun _ => .refl _

theorem isAnswer_refines (hmn : m ≤ n) (f : Literal) :
    Refines (isAnswer w m f : Searching σ Bool) (isAnswer w n f) :=
  (solve_refines hmn f).bind fun _ => .refl _

theorem probability_refines [Weight α] (hmn : m ≤ n) (l : Literal) :
    Refines (probability w m α l : Searching σ α) (probability w n α l) := by
  unfold probability
  split
  · refine (Refines.refl _).bind fun o => ?_
    dsimp only
    split
    · exact (solve_refines hmn _).bind fun _ => .refl _
    · exact (isAnswer_refines hmn _).bind fun _ => .refl _
  · exact .refl _

theorem proofs_refines (hmn : m ≤ n) (q : Literal) :
    Refines (proofs w m q : Searching σ ProofSet) (proofs w n q) :=
  (solve_refines hmn q).bind fun _ => .refl _

end Queries

/-! ## Outcomes -/

/-- A step that is bounded comes to an outcome, a result or an error, and leaves a state, whatever
the bound is as long as it is large enough. -/
def ComesTo (x : Nat → Searching σ α) (s : Search σ) (r : Except Error α) (t : Search σ) : Prop :=
  ∃ bound, ∀ n, bound ≤ n → x n s = (r.mapError .failed, t)

namespace ComesTo

variable {x : Nat → Searching σ α} {s t t' : Search σ} {r r' : Except Error α}

/-- **There is one outcome.** -/
theorem eq (h : ComesTo x s r t) (h' : ComesTo x s r' t') : r = r' ∧ t = t' := by
  obtain ⟨m, hm⟩ := h
  obtain ⟨n, hn⟩ := h'
  -- beyond both bounds there is one run
  have heq := (hm (max m n) (Nat.le_max_left _ _)).symm.trans (hn (max m n) (Nat.le_max_right _ _))
  obtain ⟨hr, ht⟩ := Prod.mk.inj heq
  refine ⟨?_, ht⟩
  cases r <;> cases r' <;> simp_all [Except.mapError]

/-- A step that is not cut off comes to its outcome. -/
theorem of_refines (hx : ∀ m n, m ≤ n → Refines (x m) (x n)) {n : Nat}
    (h : (x n s).1 ≠ .error .exhausted) :
    ∃ r t, ComesTo x s r t ∧ x n s = (r.mapError .failed, t) := by
  generalize hrun : x n s = run at h
  obtain ⟨r, t⟩ := run
  have hcomes : ∀ r' : Except Error α, r = r'.mapError .failed → ComesTo x s r' t := by
    rintro r' rfl
    refine ⟨n, fun k hk => ?_⟩
    rw [hx n k hk s (hrun ▸ h), hrun]
  cases r with
  | ok a => exact ⟨.ok a, t, hcomes (.ok a) rfl, rfl⟩
  | error e =>
    cases e with
    | failed e => exact ⟨.error e, t, hcomes (.error e) rfl, rfl⟩
    | exhausted => exact absurd rfl h

theorem of_outcome (hx : ∀ m n, m ≤ n → Refines (x m) (x n)) {n : Nat}
    (h : (x n s).1 = r.mapError .failed) : ComesTo x s r (x n s).2 := by
  refine ⟨n, fun k hk => ?_⟩
  rw [hx n k hk s (h ▸ mapError_ne_exhausted r)]
  exact Prod.ext h rfl

theorem of_ok (hx : ∀ m n, m ≤ n → Refines (x m) (x n)) {n : Nat} {a : α}
    (h : (x n s).1 = .ok a) : ComesTo x s (.ok a) (x n s).2 :=
  of_outcome hx h

theorem exists_run (h : ComesTo x s r t) : ∃ n, x n s = (r.mapError .failed, t) := by
  obtain ⟨n, hn⟩ := h
  exact ⟨n, hn n (Nat.le_refl n)⟩

end ComesTo

end ProbDatalog.Searching
