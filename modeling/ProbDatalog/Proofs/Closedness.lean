import ProbDatalog.Proofs.Repetition
import ProbDatalog.Proofs.Stratification
import ProbDatalog.Proofs.Termination
import ProbDatalog.Proofs.Upholding

/-!
# Complete patterns are closed

A search marks patterns as complete in bulk, all those at once that a pass has come to which added
nothing, also while other tables around it are half filled. Still the complete patterns are closed
at any time: to expand one of them again, as if nothing were complete, adds nothing, calls none but
complete patterns, and comes to no error.

* `Reached.expanded`, `Reached.literal`: what a session has noted about patterns.
* `expandWithin`: expansion that is cut off where it calls other patterns than the given ones.
* `expandWithin_repeats`: with enough depth, it goes through complete patterns only.
* `Reached.complete_closed`: **the complete patterns are closed** in all states of a session.
-/

namespace ProbDatalog

open Searching

variable {σ : Type} [Tables σ] [LawfulTables σ] {w : Theory} {s t : Search σ}

/-! ## What is noted about patterns -/

/-- No patterns have been come to or completed but the given ones. -/
def Search.Confined (patterns : Set CallPattern) (s : Search σ) : Prop :=
  ∀ p, p ∈ s.expanded ∨ p ∈ s.complete → p ∈ patterns

theorem Search.Confined.lasting (patterns : Set CallPattern) :
    Lasting patterns (Search.Confined (σ := σ) patterns) where
  scope h := h
  tables h _ := h
  put h _ _ _ _ := h
  enter {s p} h hp q hq := by
    rcases hq with hq | hq
    · rcases List.mem_cons.1 hq with rfl | hq
      · exact hp
      · exact h q (.inl hq)
    · exact h q (.inr hq)
  clear h q hq := h q (.inr (hq.resolve_left (by simp)))
  negating h := h
  restore hs ht q hq := hq.elim (fun hq => hs q (.inl hq)) fun hq => ht q (.inr hq)
  complete hs ht q hq := hq.elim (fun hq => hs q (.inl hq)) fun hq => ht q (List.mem_append.1 hq)

omit [Tables σ] [LawfulTables σ] in
/-- A search for a pattern restores the patterns of the pass around it. -/
theorem Searching.saturating_restores {patterns : List CallPattern} (p : CallPattern)
    (x : Searching σ Unit) :
    Upholds (fun s => s.expanded = patterns) (saturating p x) fun _ => True := by
  intro s hs
  unfold After saturating
  split
  · exact ⟨hs, fun _ _ => trivial⟩
  · generalize x { s with expanded := [] } = run
    obtain ⟨_ | _, t⟩ := run
    · exact ⟨hs, fun _ _ => trivial⟩
    · exact ⟨hs, fun _ _ => trivial⟩

namespace Reached

/-- Between requests no pass is under way. -/
theorem expanded (hs : Reached w s) : s.expanded = [] := by
  induction hs with
  | start h scope => rfl
  | ask _ depth r ih =>
    exact leave_upholds (fun _ => saturating_restores _ _)
      (fun _ => decideNegation_upholds (fun _ _ => id) (saturating_restores _ _)) ih r
  | mend _ ht ih => exact ih

/-- Complete patterns are the patterns of literals. -/
theorem literal (hs : Reached w s) : ∀ p ∈ s.complete, ∃ l, p = .of l := by
  have hconfined : s.Confined {p | ∃ l, p = .of l} := by
    have hlast := Search.Confined.lasting (σ := σ) {p | ∃ l, p = .of l}
    induction hs with
    | start h scope => exact fun p hp => by simp [Search.start] at hp
    | ask _ depth r ih =>
      exact leave_upholds (saturate_upholds hlast (fun l => ⟨l, rfl⟩) depth)
        (decideNegation_expand_upholds hlast (fun l => ⟨l, rfl⟩) depth) ih r
    | mend _ ht ih => exact ih
  exact fun p hp => hconfined p (.inr hp)

end Reached

/-! ## Expansion within patterns -/

namespace Searching

section Within

/-- Expand a pattern as long as no other patterns than the given ones are called. -/
def expandWithin {σ : Type} [Tables σ] (w : Theory) (allowed : List CallPattern) :
    Nat → CallPattern → Searching σ Unit
  | 0, _ => throw .exhausted
  | depth + 1, p =>
    if p ∈ allowed then expandOnce w (expandWithin w allowed depth) depth p else throw .exhausted

variable {allowed : List CallPattern} {m n : Nat}

omit [LawfulTables σ] in
/-- A larger bound changes nothing that a smaller one has found, nor does it if other patterns may
be called as well. -/
theorem expandWithin_refines (hmn : m ≤ n) (p : CallPattern) :
    Refines (expandWithin w allowed m p : Searching σ Unit) (expandWithin w allowed n p) ∧
      Refines (expandWithin w allowed m p : Searching σ Unit) (expand w n p) := by
  induction m generalizing n p with
  | zero => exact ⟨.throw _, .throw _⟩
  | succ m ih =>
    obtain ⟨n, rfl⟩ : ∃ k, n = k + 1 := ⟨n - 1, by omega⟩
    unfold expandWithin expand
    by_cases hp : p ∈ allowed
    · rw [if_pos hp, if_pos hp]
      exact ⟨expandOnce_refines (fun q => (ih (by omega) q).1) (by omega) p,
        expandOnce_refines (fun q => (ih (by omega) q).2) (by omega) p⟩
    · rw [if_neg hp]
      exact ⟨.throw _, .throw _⟩

/-- No patterns are come to but those that may be called. -/
theorem expandWithin_upholds {I : Search σ → Prop} (hI : Lasting {p | p ∈ allowed} I) (depth : Nat)
    (p : CallPattern) : Upholds I (expandWithin w allowed depth p) fun _ => True := by
  induction depth generalizing p with
  | zero => exact .throw .exhausted
  | succ depth ih =>
    unfold expandWithin
    split
    next hp => exact expandOnce_upholds hI (fun l => ih (.of l)) hp
    next => exact .throw .exhausted

end Within

/-! ## Complete patterns -/

variable {rank : CallPattern → Nat} {P : σ → Prop} {F : StoreFault → Prop} {depth : Nat}
variable {N : List CallPattern} {reached r : Nat} {p : CallPattern}

/-- **With enough depth, an expansion goes through complete patterns only**, and repeats what has
been done. -/
theorem expandWithin_repeats (hw : w.Plain) (hs : s.Settled w rank) (hP : Tables.Failing P F)
    (hp : p ∈ s.complete) (hr : rank p ≤ r)
    (hN : N.Nodup ∧ ∀ q ∈ N, q ∈ s.complete ∧ r ≤ rank q)
    (hdepth : enough {q | q ∈ s.complete}.ncard 0 N.length reached ≤ depth)
    (ht : s.Echo P N reached t) :
    Repeats s F t (expandWithin w s.complete depth p) fun _ u => s.Echo P N reached u := by
  have hfin : {q | q ∈ s.complete}.Finite := s.complete.finite_toSet
  -- by induction on the depth: a call comes to one more pattern of the pass, and a decision to one
  -- more nested negation, of a lower rank, where passes start anew
  induction depth generalizing N reached r p t with
  | zero =>
    unfold enough at hdepth
    omega
  | succ depth ih =>
    have hpasses : 0 < depth := by
      unfold enough at hdepth
      omega
    unfold expandWithin
    rw [if_pos hp]
    obtain ⟨m, rfl⟩ := hs.literal p hp
    refine expandOnce_repeats hw hs hP
      ⟨fun {q u} hq hqr hu => ?_, fun {b u} hg hrel hb hlt hu => ?_⟩ hp hr ht
    · have hroom : reached < {q | q ∈ s.complete}.ncard :=
        hu.reached_le.trans (length_le_ncard_of_nodup hu.expanded.1 hfin hu.expanded.2)
      have hless := enough_call 0 N.length hroom
      exact ih hq hqr hN (by omega) hu
    · have hnew : CallPattern.of b.positive ∉ N := fun hmem => by
        have := (hN.2 _ hmem).2
        omega
      have hN' : (CallPattern.of b.positive :: N).Nodup := List.nodup_cons.2 ⟨hnew, hN.1⟩
      have hall : ∀ q ∈ CallPattern.of b.positive :: N, q ∈ s.complete :=
        List.forall_mem_cons.2 ⟨hb, fun q hq => (hN.2 q hq).1⟩
      have hroom : N.length < {q | q ∈ s.complete}.ncard := length_le_ncard_of_nodup hN' hfin hall
      have hless := enough_decide 0 reached hroom
      refine decideNegation_repeats hw hs hP hg hrel hb hnew hpasses (fun v hv => ?_) hu
      refine ih hb le_rfl ⟨hN', List.forall_mem_cons.2 ⟨⟨hb, le_rfl⟩, fun q hq => ?_⟩⟩ ?_ hv
      · exact ⟨(hN.2 q hq).1, hlt.le.trans (hN.2 q hq).2⟩
      · rw [List.length_cons]
        omega

end Searching

/-! ## Sessions -/

omit [LawfulTables σ] in
/-- What an expansion within patterns comes to is what the expansion comes to. -/
theorem Searching.ComesTo.of_within {allowed : List CallPattern} {p : CallPattern}
    {r : Except Error Unit} (h : ComesTo (fun n => expandWithin w allowed n p) s r t) :
    ComesTo (fun n => expand w n p) s r t := by
  obtain ⟨bound, hbound⟩ := h
  refine ⟨bound, fun n hn => ?_⟩
  have hrun : expandWithin w allowed n p s = (r.mapError .failed, t) := hbound n hn
  have hne : (expandWithin w allowed n p s).1 ≠ .error .exhausted := by
    rw [hrun]
    exact mapError_ne_exhausted r
  exact ((expandWithin_refines le_rfl p).2 s hne).trans hrun

/-- The complete patterns of a session have been explored on layers. -/
theorem Reached.exists_settled (hw : w.Plain) (hs : Reached w s) :
    ∃ rank, s.Settled w rank := by
  have hc := hw.consistent hs
  obtain ⟨rank, hrank⟩ := hc.layered
  exact ⟨rank, hc, hrank, hs.literal⟩

/-- **The complete patterns are closed**, in all states of a session over a plain theory. No pass is
under way there and no negation is being decided. To expand a complete pattern again, as if no
pattern were complete, comes to an end. It adds nothing to any table, calls none but complete
patterns, and nothing can fail but the store. -/
theorem Reached.complete_closed (hw : w.Plain) (hs : Reached w s) :
    s.negating = [] ∧ s.expanded = [] ∧ ∀ p ∈ s.complete, ∃ r t,
      ComesTo (fun n => expand w n p) { s with complete := [], expanded := [] } r t ∧
      ComesTo (fun n => expandWithin w s.complete n p) { s with complete := [], expanded := [] }
        r t ∧
      (content t.tables = content s.tables ∧ t.additions = s.additions) ∧
      (∀ q, q ∈ t.expanded ∨ q ∈ t.complete → q ∈ s.complete) ∧
      (∀ e, r = .error e → ∃ f, e = .storage f) ∧ (Tables.Works s.tables → r = .ok ()) := by
  have hneg := hs.negating hw.regular hw.lawful hw.judges
  refine ⟨hneg, hs.expanded, fun p hp => ?_⟩
  obtain ⟨rank, hsettled⟩ := hs.exists_settled hw
  obtain ⟨P, F, hP, hkeeps, hworks⟩ := Tables.exists_failing s.tables
  have hstart : s.Echo P [] 0 { s with complete := [], expanded := [] } :=
    ⟨⟨rfl, rfl⟩, hkeeps, by simp, by simp, Nat.zero_le _, hneg⟩
  obtain ⟨depth, hdepth⟩ : ∃ n, enough {q | q ∈ s.complete}.ncard 0 0 0 = n := ⟨_, rfl⟩
  have hrepeats := expandWithin_repeats hw hsettled hP hp le_rfl ⟨.nil, by simp⟩ hdepth.le hstart
  have hconfined := expandWithin_upholds (w := w) (Search.Confined.lasting {q | q ∈ s.complete})
    depth p { s with complete := [], expanded := [] } (by simp [Search.Confined])
  obtain ⟨r, t, hcomes, hrun⟩ := ComesTo.of_refines
    (fun _ _ hmn => (expandWithin_refines hmn p).1) fun h => by
      obtain ⟨e, -, he⟩ := hrepeats.2.1 _ h
      cases he
  obtain ⟨hsame, herr, -⟩ := hrepeats.of_run hrun
  refine ⟨r, t, hcomes.of_within, hcomes, hsame, (hconfined.of_run hrun).1, fun e he => ?_,
    fun hwork => ?_⟩
  · obtain ⟨f, -, hf⟩ := herr (.failed e) (by rw [he]; rfl)
    exact ⟨f, Halt.failed.inj hf⟩
  · cases r with
    | ok a => rfl
    | error e =>
      obtain ⟨f, hf, -⟩ := herr (.failed e) rfl
      exact absurd hf (hworks hwork f)

/-! ## Birds -/

namespace Birds

/-- It has been asked what flies, and so also whether a bird is heavy. To ask this again finds the
patterns of both complete. -/
theorem closed_flies :
    CallPattern.of (general "flies") ∈ flown.complete ∧
    CallPattern.of (about "heavy" "tweety") ∈ flown.complete ∧
    ∃ t, ComesTo (fun n => expandWithin (theory .problog) flown.complete n (.of (general "flies")))
        { flown with complete := [], expanded := [] } (.ok ()) t ∧
      content t.tables = content flown.tables := by
  have hflies : CallPattern.of (general "flies") ∈ flown.complete := by decide +kernel
  refine ⟨hflies, by decide +kernel, ?_⟩
  obtain ⟨r, t, -, hcomes, hsame, -, -, hworks⟩ :=
    (reached_flown.complete_closed (plain .problog)).2.2 _ hflies
  rw [hworks (Resident.works _)] at hcomes
  exact ⟨t, hcomes, hsame.1⟩

end Birds

end ProbDatalog
