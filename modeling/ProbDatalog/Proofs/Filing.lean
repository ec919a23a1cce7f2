import ProbDatalog.Proofs.Recovery
import ProbDatalog.Proofs.Stratification

/-!
# What is filed under an answer

When a query has succeeded, each of its answers is filed with all of its proofs: one for every
ground instance of a clause whose premises are answers in turn.

* `LawfulProofs`: stores that read the proofs of an answer off its table.
* `Search.Answers.returns`, `Search.Returns.answers`: what a ground literal answers is what the
  theory says.
* `Reached.proofs_filed`: **the proofs of an answer are the instances of clauses whose premises are
  answers, each once.**
-/

namespace ProbDatalog

open Searching

/-- Lawful stores that read the proofs of an answer off its table. -/
class LawfulProofs (σ : Type) [Tables σ] [LawfulTables σ] : Prop where
  proofs_ok : ∀ {s : σ} {p : CallPattern} {f : Literal} {l : List Proof},
    Tables.proofs s p f = .ok l → l = (content s p).proofsOf f

namespace LawfulProofs

variable {σ τ : Type} [Tables σ] [LawfulTables σ] [Tables τ] [LawfulTables τ]

instance : LawfulProofs Resident where
  proofs_ok h := by
    cases h
    rfl

instance : LawfulProofs Quota where
  proofs_ok {s _ _ _} h := LawfulProofs.proofs_ok (s := s.content) h

instance [LawfulProofs σ] [LawfulProofs τ] : LawfulProofs (σ ⊕ τ) where
  proofs_ok {s _ _ _} h := by
    cases s with
    | inl s => exact LawfulProofs.proofs_ok (s := s) h
    | inr s => exact LawfulProofs.proofs_ok (s := s) h

end LawfulProofs

variable {w : Theory}

/-! ## Premises as queries -/

/-- Over a plain theory all premises of a ground instance are relational. -/
theorem Theory.Plain.groundRule_eq (hw : w.Plain) {id : ClauseId} {c : Clause}
    (hid : w.program.clause? id = some c) (θ : Valuation) :
    w.groundRule id c θ =
      ⟨c.head.ground θ, c.body.map fun l => .relational (l.ground θ), c.probability, id⟩ := by
  have hbody : (c.body.map fun l => w.premise (l.ground θ)) =
      c.body.map fun l => .relational (l.ground θ) := by
    refine List.map_congr_left fun l hl => ?_
    simp [Theory.premise, hw.relational hid l (List.mem_cons_of_mem _ hl)]
  unfold Theory.groundRule
  rw [hbody]

/-- A ground negated literal answers itself if its negation must not be overlooked. -/
theorem Theory.answers_self_of_negated {l : Literal} (hg : l.isGround = true)
    (hn : l.negated = true) : w.Answers l l ↔ w.meaning.mustNegate l.positive := by
  unfold Theory.Answers
  rw [if_pos hn]
  simp [hg]

/-- A positive fact answers itself if it has to be found. -/
theorem Theory.answers_self_of_positive {l : Literal} (hg : l.isGround = true)
    (hn : l.negated = false) : w.Answers l l ↔ l ∈ w.meaning.required := by
  unfold Theory.Answers
  rw [if_neg (by simp [hn]), CallPattern.mem_instances_of_isGround hg]
  exact and_iff_left (Literal.positive_eq_self hn)

/-- The premises of a ground instance hold as far as has to be found if they answer themselves. -/
theorem Theory.Plain.supported_groundRule_iff (hw : w.Plain) {id : ClauseId} {c : Clause}
    (hid : w.program.clause? id = some c) (θ : Valuation) :
    (w.groundRule id c θ).Supported w.meaning.required w.meaning.mustNegate ↔
      ∀ l ∈ c.body, w.Answers (l.ground θ) (l.ground θ) := by
  constructor
  · intro h l hl
    have hmem : .relational (l.ground θ) ∈ (w.groundRule id c θ).body :=
      Theory.relational_mem_groundRule.2
        ⟨l, hl, rfl, .inr (hw.relational hid l (List.mem_cons_of_mem _ hl))⟩
    -- the premise is a literal of the body, which answers itself in one of the two ways
    cases hn : (l.ground θ).negated with
    | true => exact (answers_self_of_negated (Literal.isGround_ground l θ) hn).2 (h.neg _ hmem hn)
    | false => exact (answers_self_of_positive (Literal.isGround_ground l θ) hn).2 (h.pos _ hmem hn)
  · intro h
    refine ⟨fun g hg hn => ?_, fun g hg hn => ?_⟩
    · obtain ⟨l, hl, rfl, -⟩ := Theory.relational_mem_groundRule.1 hg
      exact (answers_self_of_positive (Literal.isGround_ground l θ) hn).1 (h l hl)
    · obtain ⟨l, hl, rfl, -⟩ := Theory.relational_mem_groundRule.1 hg
      exact (answers_self_of_negated (Literal.isGround_ground l θ) hn).1 (h l hl)

section Returns

variable {σ : Type} [Tables σ]

/-- A ground literal is among its own answers. -/
def Search.Returns (w : Theory) (s : Search σ) (l : Literal) : Prop :=
  ∃ answers t, ComesTo (fun n => solve w n l) s (.ok answers) t ∧ l ∈ answers

variable [LawfulTables σ] {s t : Search σ} {l : Literal}

/-- What is among its own answers is so by the theory. -/
theorem Search.Returns.answers (hw : w.Plain) (hs : Consistent w.meaning s)
    (hrel : w.registry.contains l.predicate = false) (h : s.Returns w l) : w.Answers l l := by
  obtain ⟨answers, t, hcomes, hl⟩ := h
  have hans := Leads.of_comesTo (fun n => solve_leads_answers hw n hrel hs) hcomes
  exact (hans.2.2 l).1 hl

/-- What is an answer to itself by the theory is among its own answers, if its search stays on
complete patterns and the store works. -/
theorem Theory.Answers.returns (hw : w.Plain) (hs : Reached w s) (hwork : Tables.Works s.tables)
    (hrel : w.registry.contains l.predicate = false) (hl : l.OnLayers {p | p ∈ s.complete})
    (h : w.Answers l l) : s.Returns w l := by
  have hc := hw.consistent hs
  obtain ⟨P, hP, hwork⟩ := hwork
  obtain ⟨rank, hrank⟩ := hc.layered
  -- the search ends; it does not fail, as the layers of complete patterns exclude a circle
  obtain ⟨answers, t, hcomes, -, -, hans⟩ := exists_ok_of_comesTo
    (fun n => solve_keeps_layered hw hrank hP n hrel hl hc
      (hs.negating hw.regular hw.lawful hw.judges) hwork)
    (fun n => solve_leads_answers hw n hrel hc) (hs.solve_comesTo hw l)
  exact ⟨answers, t, hcomes, (hans l).2 h⟩

/-- The premises of a supported instance stay on complete patterns if its head is an instance of
one. -/
theorem Consistent.onLayers_of_supported (hs : Consistent w.meaning s) {p : CallPattern}
    (hp : p ∈ s.complete) {π : Proof} (hπ : π ∈ w.rules) (hi : π.head ∈ p.instances)
    (hsup : π.Supported w.meaning.required w.meaning.mustNegate) (hl : .relational l ∈ π.body)
    (hrel : w.registry.contains l.predicate = false) : l.OnLayers {p | p ∈ s.complete} := by
  obtain ⟨rank, hrank⟩ := hs.layered
  obtain ⟨hpos, hneg⟩ := hrank.covered hp hπ hπ hi hsup hl hrel
  have hg := Theory.isGround_of_mem_rules hπ hl
  unfold Literal.OnLayers
  split
  next hn => exact ⟨hg, CallPattern.of_positive l ▸ (hneg hn).1⟩
  next hn =>
    obtain ⟨q, hq, -, hlq⟩ := hpos (by simpa using hn)
    refine ⟨q, hq, fun g hgl => ?_⟩
    rw [CallPattern.mem_instances_of_isGround hg,
      Literal.positive_eq_self (by simpa using hn)] at hgl
    exact hgl ▸ hlq

end Returns

/-! ## The proofs of an answer -/

/-- **The proofs that are filed under an answer** of a query that has succeeded are one for every
ground instance of a clause that has the answer as its head and whose premises are answers, the
negated ones of their own. None is filed twice. -/
theorem Reached.proofs_filed {σ : Type} [Tables σ] [LawfulTables σ] [LawfulProofs σ] (hw : w.Plain)
    (hm : w.mode = .problog) {s t : Search σ} (hs : Reached w s) (hwork : Tables.Works s.tables)
    {q : Literal} (hn : q.negated = false) (hrel : w.registry.contains q.predicate = false)
    {answers : List Literal} (h : ComesTo (fun n => solve w n q) s (.ok answers) t) {f : Literal}
    (hf : f ∈ answers) :
    ∃ filed, Tables.proofs t.tables (.of q) f = .ok filed ∧ filed.Nodup ∧
      ∀ π, π ∈ filed ↔ ∃ id c θ, w.program.clause? id = some c ∧ c.head.ground θ = f ∧
        π = ⟨f, c.body.map fun l => .relational (l.ground θ), c.probability, id⟩ ∧
        ∀ l ∈ c.body, t.Returns w (l.ground θ) := by
  obtain ⟨P, hP, hPs⟩ := hwork
  obtain ⟨n, hrun⟩ := h.exists_run
  have hleave : (Request.solve q).leave w n s = t := congrArg Prod.snd hrun
  have ht : Reached w t := hleave ▸ hs.ask n (.solve q)
  have hc := hw.consistent hs
  have hct := hw.consistent ht
  obtain ⟨-, -, hPt⟩ := Keeps.of_comesTo (solve_keeps_of_ok hw hc hrun hs hP hPs) h
  obtain ⟨filed, hfiled⟩ := hP.proofs (p := .of q) (f := f) hPt
  obtain ⟨hcomp, -, hans⟩ := Leads.of_comesTo (fun n => solve_leads_answers hw n hrel hc) h
  have hi : f ∈ (CallPattern.of q).instances := by
    have := (hans f).1 hf
    unfold Theory.Answers at this
    rw [if_neg (by simp [hn])] at this
    exact this.2
  obtain rfl := LawfulProofs.proofs_ok hfiled
  refine ⟨_, hfiled, ?_, fun π => ?_⟩
  · obtain ⟨c, hcont, -⟩ := hct.history
    rw [hcont]
    exact Chronicle.nodup_proofsOf_contents
  -- the pattern is complete, so what is filed is what the theory supports
  rw [hct.mem_filed_iff, hct.mem_recordsOf_iff (R := .wellFounded w) hcomp]
  constructor
  · rintro ⟨⟨⟨hπ, -, hsup⟩, -⟩, rfl⟩
    obtain ⟨id, c, θ, hid, rfl, -⟩ := hπ
    refine ⟨id, c, θ, hid, rfl, hw.groundRule_eq hid θ, fun l hl => ?_⟩
    have hlrel := hw.relational hid l (List.mem_cons_of_mem _ hl)
    refine ((hw.supported_groundRule_iff hid θ).1 hsup l hl).returns hw ht ⟨P, hP, hPt⟩ hlrel
      (hct.onLayers_of_supported hcomp (hw.groundRule_mem_rules hid θ) hi hsup
        (Theory.relational_mem_groundRule.2 ⟨l, hl, rfl, .inr hlrel⟩) hlrel)
  · rintro ⟨id, c, θ, hid, rfl, rfl, hret⟩
    have hsup := (hw.supported_groundRule_iff hid θ).2 fun l hl =>
      (hret l hl).answers hw hct (hw.relational hid l (List.mem_cons_of_mem _ hl))
    rw [← hw.groundRule_eq hid θ]
    exact ⟨⟨⟨hw.groundRule_mem_rules hid θ, hm, hsup⟩, hi⟩, rfl⟩

namespace Birds

/-- The one proof that is filed for the bird that flies is that it is a bird that is not heavy. -/
theorem proofs_filed_flies :
    Tables.proofs flown.tables (.of (general "flies")) (about "flies" "tweety") =
      .ok [fliesProof] ∧
    ∀ π, π ∈ [fliesProof] ↔ ∃ id c θ, (theory .problog).program.clause? id = some c ∧
      c.head.ground θ = about "flies" "tweety" ∧
      π = ⟨about "flies" "tweety", c.body.map fun l => .relational (l.ground θ), c.probability, id⟩ ∧
      ∀ l ∈ c.body, flown.Returns (theory .problog) (l.ground θ) := by
  have hcomes : ComesTo (fun n => solve (theory .problog) n (general "flies"))
      (.start Resident.empty 0) (.ok [about "flies" "tweety"]) flown :=
    .of_ok (fun _ _ hmn => solve_refines hmn (general "flies")) (n := 9) (by decide +kernel)
  have hone : Tables.proofs flown.tables (.of (general "flies")) (about "flies" "tweety") =
      .ok [fliesProof] := by decide +kernel
  obtain ⟨filed, hfiled, -, hmem⟩ := Reached.proofs_filed (plain .problog) rfl
    (.start isFresh_empty 0) (Resident.works _) rfl rfl hcomes (List.mem_singleton_self _)
  obtain rfl : filed = [fliesProof] := Except.ok.inj (hfiled.symm.trans hone)
  exact ⟨hone, hmem⟩

end Birds

end ProbDatalog
