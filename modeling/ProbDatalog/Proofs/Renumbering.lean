import ProbDatalog.Proofs.Determinacy
import ProbDatalog.Proofs.Renaming

/-!
# Theories with other clause ids

Theories that have the same clauses under other ids have the same ground rules up to the ids, so the
same facts follow from them in corresponding worlds. Queries yield the same answers, and the same
proofs up to the ids.

* `Theory.Renumbers.rules`: the ground rules are the renamed ones.
* `Theory.Renumbers.required`, `Theory.Renumbers.mustNegate`: the same has to be found.
* `Theory.Renumbers.yields_iff`, `Theory.Renumbers.shows`: **queries have the same answers and
  proofs.**
-/

namespace ProbDatalog

variable {ρ : Equiv.Perm ClauseId} {w w' : Theory}

/-- The same clauses under other ids. -/
structure Theory.Renumbers (ρ : Equiv.Perm ClauseId) (w w' : Theory) : Prop where
  registry : w'.registry = w.registry
  mode : w'.mode = w.mode
  clause : ∀ id, w'.program.clause? (ρ id) = w.program.clause? id

/-- A set that has the renamed proofs of another one has no others. -/
theorem eq_image_renamed {A A' : Set Proof} (h : ∀ π : Proof, π.renamed ρ ∈ A' ↔ π ∈ A) :
    A' = Proof.renamed ρ '' A := by
  ext π
  constructor
  · exact fun hπ => ⟨π.renamed ρ.symm, (h _).1 (by simpa using hπ), by simp⟩
  · rintro ⟨π, hπ, rfl⟩
    exact (h π).2 hπ

/-- What follows from rules does not depend on their ids. -/
theorem consequences_image_renamed (rules : Set Proof) (admits : Literal → Prop) :
    consequences (Proof.renamed ρ '' rules) admits = consequences rules admits := by
  ext f
  constructor
  · intro h
    induction h with
    | @rule π' hπ' _ hneg ih =>
      obtain ⟨π, hmem, rfl⟩ := hπ'
      exact Derives.rule (π := π) hmem ih hneg
  · intro h
    induction h with
    | @rule π hπ _ hneg ih =>
      exact Derives.rule (π := π.renamed ρ) (Set.mem_image_of_mem _ hπ) ih hneg

namespace Theory.Renumbers

variable (h : Renumbers ρ w w')

include h

theorem symm : Renumbers ρ.symm w' w where
  registry := h.registry.symm
  mode := h.mode.symm
  clause id := by rw [← h.clause, Equiv.apply_symm_apply]

/-! ## Rules -/

theorem rejects (l : Literal) : w'.Rejects l ↔ w.Rejects l := by
  unfold Rejects
  rw [h.registry]

theorem refutes (facts : Set Literal) : w'.Refutes facts = w.Refutes facts := by
  funext b
  unfold Refutes
  rw [h.registry, propext (h.rejects b)]

/-- The instance of a clause is the instance under the other id. -/
theorem groundRule (id : ClauseId) (c : Clause) (θ : Valuation) :
    w'.groundRule (ρ id) c θ = (w.groundRule id c θ).renamed ρ := by
  have hpremise : w'.premise = w.premise := by
    funext l
    unfold premise
    rw [h.registry]
  unfold Theory.groundRule
  rw [hpremise]
  rfl

theorem renamed_mem_rules {π : Proof} (hπ : π ∈ w.rules) : π.renamed ρ ∈ w'.rules := by
  obtain ⟨id, c, θ, hid, rfl, hacc⟩ := hπ
  refine ⟨ρ id, c, θ, (h.clause id).trans hid, h.groundRule id c θ, fun l hl => ?_⟩
  unfold Accepts
  rw [h.registry]
  exact hacc l hl

/-- **The ground rules are the renamed ones.** -/
theorem renamed_mem_rules_iff {π : Proof} : π.renamed ρ ∈ w'.rules ↔ π ∈ w.rules :=
  ⟨fun hπ => by simpa using h.symm.renamed_mem_rules hπ, h.renamed_mem_rules⟩

theorem rules : w'.rules = Proof.renamed ρ '' w.rules :=
  eq_image_renamed fun _ => h.renamed_mem_rules_iff

/-- The rules that take effect in a world are renamed ones that take effect in the world that comes
before the renaming. -/
theorem active (ω : World) :
    w'.active ω = Proof.renamed ρ '' w.active fun π => ω (π.renamed ρ) := by
  refine eq_image_renamed fun π => ?_
  unfold Theory.active
  rw [Set.mem_ofPred_eq, Set.mem_ofPred_eq, h.renamed_mem_rules_iff, h.mode,
    Proof.renamed_isProbabilistic]

/-! ## What has to be found -/

/-- What surely holds does not depend on the ids. -/
theorem sureFacts (rules : Set Proof) :
    w'.sureFacts (Proof.renamed ρ '' rules) = w.sureFacts rules := by
  have hout : w'.outcome (Proof.renamed ρ '' rules) = w.outcome rules := by
    funext facts
    unfold outcome
    rw [h.refutes, consequences_image_renamed]
  unfold Theory.sureFacts
  congr 1
  ext1
  simp only [hout]

theorem mustNegate_of_mustNegate {b : Literal} (hb : w'.meaning.mustNegate b) :
    w.meaning.mustNegate b := by
  obtain ⟨ω, hω⟩ := hb
  have hsure : (Reading.wellFounded w').sure (w'.active ω) =
      (Reading.wellFounded w).sure (w.active fun π => ω (π.renamed ρ)) := by
    rw [h.active]
    exact h.sureFacts _
  rw [hsure, h.refutes] at hω
  exact ⟨_, hω⟩

/-- **The same negations must not be overlooked.** -/
theorem mustNegate : w'.meaning.mustNegate = w.meaning.mustNegate :=
  funext fun _ => propext ⟨h.mustNegate_of_mustNegate, h.symm.mustNegate_of_mustNegate⟩

/-- **The same facts have to be found.** -/
theorem required : w'.meaning.required = w.meaning.required := by
  unfold Meaning.required
  rw [h.mustNegate]
  show consequences w'.rules _ = consequences w.rules _
  rw [h.rules, consequences_image_renamed]

/-- **The same facts are among the answers of a query.** -/
theorem yields_iff (q f : Literal) : w'.Yields q f ↔ w.Yields q f := by
  unfold Yields Answers
  rw [h.registry, h.mustNegate, h.required]

/-! ## Proofs -/

theorem renamed_mem_evidence_iff (π : Proof) :
    π.renamed ρ ∈ (Reading.wellFounded w').evidence ↔ π ∈ (Reading.wellFounded w).evidence := by
  have hreq : (Reading.wellFounded w').meaning.required =
      (Reading.wellFounded w).meaning.required :=
    h.required
  have hneg : (Reading.wellFounded w').meaning.mustNegate =
      (Reading.wellFounded w).meaning.mustNegate := h.mustNegate
  have hsup : (π.renamed ρ).Supported (Reading.wellFounded w).meaning.required
      (Reading.wellFounded w).meaning.mustNegate ↔
        π.Supported (Reading.wellFounded w).meaning.required
          (Reading.wellFounded w).meaning.mustNegate :=
    ⟨fun hs => ⟨hs.pos, hs.neg⟩, fun hs => ⟨hs.pos, hs.neg⟩⟩
  unfold Reading.evidence
  rw [Set.mem_ofPred_eq, Set.mem_ofPred_eq, h.renamed_mem_rules_iff, h.mode, hreq, hneg, hsup]

theorem below_of_below {f g : Literal} (hb : (Reading.wellFounded w').Below f g) :
    (Reading.wellFounded w).Below f g := by
  obtain ⟨π', hπ', rfl, hg⟩ := hb
  refine ⟨π'.renamed ρ.symm, ?_, rfl, hg⟩
  rw [← h.renamed_mem_evidence_iff, Proof.renamed_renamed_symm]
  exact hπ'

theorem below : (Reading.wellFounded w').Below = (Reading.wellFounded w).Below :=
  funext fun _ => funext fun _ => propext ⟨h.below_of_below, h.symm.below_of_below⟩

theorem renamed_mem_evidenceBelow_iff (b : Literal) (π : Proof) :
    π.renamed ρ ∈ (Reading.wellFounded w').evidenceBelow b ↔
      π ∈ (Reading.wellFounded w).evidenceBelow b := by
  unfold Reading.evidenceBelow
  rw [Set.mem_ofPred_eq, Set.mem_ofPred_eq, h.renamed_mem_evidence_iff, h.below,
    Proof.renamed_head]

/-- The support of a literal is the same up to the ids. -/
theorem renamed_mem_iff_of_supports {l : Literal} {S S' : ProofSet} (hS : w.Supports l S)
    (hS' : w'.Supports l S') (π : Proof) : π.renamed ρ ∈ S'.toList ↔ π ∈ S.toList := by
  obtain ⟨T, hT, hmem, hsup⟩ := hS
  obtain ⟨T', hT', hmem', hsup'⟩ := hS'
  -- the evidence below the literal is renamed, so the lineages from it are alike
  have hr : ProofSet.Renames ρ T T' := ⟨hT.nodup, hT'.nodup, fun π => by
    rw [hmem, hmem', h.renamed_mem_evidenceBelow_iff]⟩
  exact ProofSet.renamed_mem_support?_iff hr hsup hsup' π

theorem renamed_mem_iff_of_shows {q : Literal} {found found' : ProofSet} (hq : w.Shows q found)
    (hq' : w'.Shows q found') (π : Proof) : π.renamed ρ ∈ found'.toList ↔ π ∈ found.toList := by
  rw [hq.mem_iff, hq'.mem_iff]
  constructor
  · rintro ⟨f, S', hf, hS', hπ⟩
    have hf := (h.yields_iff q f).1 hf
    obtain ⟨S, hS⟩ := hq.exists_supports hf
    exact ⟨f, S, hf, hS, (h.renamed_mem_iff_of_supports hS hS' π).1 hπ⟩
  · rintro ⟨f, S, hf, hS, hπ⟩
    have hf := (h.yields_iff q f).2 hf
    obtain ⟨S', hS'⟩ := hq'.exists_supports hf
    exact ⟨f, S', hf, hS', (h.renamed_mem_iff_of_supports hS hS' π).2 hπ⟩

/-- **The proofs of a query are the renamed ones.** -/
theorem shows {q : Literal} {found found' : ProofSet} (hq : w.Shows q found)
    (hq' : w'.Shows q found') : found' = found.renamed ρ :=
  ProofSet.eq_renamed_of_mem_iff hq'.isSorted (h.renamed_mem_iff_of_shows hq hq')

end Theory.Renumbers

end ProbDatalog
