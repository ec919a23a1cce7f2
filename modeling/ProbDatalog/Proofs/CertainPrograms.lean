import ProbDatalog.Evaluable.Standard
import ProbDatalog.Proofs.Probabilities
import ProbDatalog.Proofs.Recovery

/-!
# Programs without probabilities

Where every clause is certain it makes no difference whether proofs are kept. A fact with proofs
then has a lineage without variables, so its probability is one or zero, and it is one exactly where
the fact is found without regard to proofs.

* `Formula.measure_of_occurrences_eq_nil`: the measure of a formula without variables.
* `probability?_of_certain`: the probability of a literal without probabilistic proofs.
* `probability_leads_certain`: the probability of a fact of a certain program.
* `Reached.modes_agree`: **both modes give the same answers and probabilities.**
-/

namespace ProbDatalog

/-! ## Formulas without variables -/

namespace Formula

variable {α : Type} [Weight α] {weight : Nat → α} {f : Formula}

theorem measure_of_isFalse (h : f.isFalse = true) : f.measure weight = Weight.zero := by
  rw [measure, measureBy_of_isFalse h]
  rfl

theorem measure_of_isTrue (h : f.isTrue = true) : f.measure weight = Weight.one := by
  rw [measure, measureBy_of_isTrue h]
  rfl

/-- **The measure of a formula without variables** is one or zero as the formula holds or not. -/
theorem measure_of_occurrences_eq_nil (hf : f.Proper) (hocc : f.occurrences = [])
    (a : Nat → Bool) :
    f.measure weight = if f.holds a then Weight.one else Weight.zero := by
  cases h : f.holds a with
  | true => exact measure_of_isTrue (isTrue_of_holds hocc h)
  | false =>
    refine measure_of_isFalse ((isFalse_iff hf).2 fun b => ?_)
    rw [← h]
    exact holds_congr fun i hi => by simp [hocc] at hi

end Formula

/-- Arithmetic in which zero and one stay as they are. -/
class Weight.Crisp (α : Type) [Weight α] : Prop where
  clamp_zero : Weight.clamp (Weight.zero : α) = Weight.zero
  clamp_one : Weight.clamp (Weight.one : α) = Weight.one
  one_sub_zero : (Weight.one - Weight.zero : α) = Weight.one
  one_sub_one : (Weight.one - Weight.one : α) = Weight.zero

/-- In doubles zero and one stay as they are, to the bit. -/
instance : Weight.Crisp Float := ⟨by decide, by decide, by decide, by decide⟩

/-! ## Literals without probabilistic proofs -/

namespace ProofSet

variable {α : Type} [Weight α] [Weight.Crisp α] {s : ProofSet} {l : Literal} {v : α}

omit [Weight α] [Weight.Crisp α] in
/-- The lineage of a literal has no variables where no proof is probabilistic. -/
theorem occurrences_numbered_of_certain
    (hcert : ∀ π ∈ s.toList, π.isProbabilistic = false) {L : Lineage} (h : s.lineage? l = some L) :
    L.formula.occurrences = [] ∧ L.numbered.occurrences = [] := by
  have hfits := fits_lineage? h
  have hnil : L.formula.occurrences = [] := List.eq_nil_iff_forall_not_mem.2 fun i hi => by
    obtain ⟨π, hπ, hp⟩ := hfits.probabilistic i (hfits.occurs i hi)
    rw [hcert π (List.mem_of_getElem? hπ)] at hp
    cases hp
  refine ⟨hnil, List.eq_nil_iff_forall_not_mem.2 fun i hi => ?_⟩
  obtain ⟨j, hj, -⟩ := Formula.mem_occurrences_rename hi
  simp [hnil] at hj

/-- **The probability of a literal without probabilistic proofs** is one or zero as it holds or
not. -/
theorem probability?_of_certain (hs : s.dependencies.Stratified)
    (hcert : ∀ π ∈ s.toList, π.isProbabilistic = false) (hl : l.negated = false)
    (h : s.probability? α l = some v) (ω : World) :
    ∃ holds : Bool, (holds = true ↔ l ∈ s.truth ω) ∧
      v = if holds then Weight.one else Weight.zero := by
  obtain ⟨L, hL, h⟩ := Option.bind_eq_some_iff.1 h
  obtain ⟨hnil, hnum⟩ := occurrences_numbered_of_certain hcert hL
  obtain ⟨hproper, hholds⟩ := holds_lineage? (truth_eq hs ω) hL
  have hproper' : L.numbered.Proper := hproper.rename fun i hi => by simp [hnil] at hi
  refine ⟨L.formula.holds (s.assignment ω), by simpa [hl] using hholds, ?_⟩
  -- renaming leaves a formula without variables as it is
  have hsame : L.numbered.holds (s.assignment ω) = L.formula.holds (s.assignment ω) := by
    unfold Lineage.numbered
    rw [Formula.holds_rename]
    exact Formula.holds_congr fun i hi => by simp [hnil] at hi
  cases h
  rw [Formula.measure_of_occurrences_eq_nil hproper' hnum (s.assignment ω), hsame]
  split
  · exact Weight.Crisp.clamp_one
  · exact Weight.Crisp.clamp_zero

end ProofSet

/-! ## Probabilities of facts -/

namespace Searching

section Certain

variable {w : Theory} {σ α : Type} [Tables σ] [LawfulTables σ] [Weight α] [Weight.Crisp α]
variable {s : Search σ}

omit [Tables σ] [LawfulTables σ] [Weight.Crisp α] in
/-- A verdict over the fact says the same as one over whether it holds. -/
theorem mem_verdicts_of_iff {l : Literal} {holds : Bool} {p : α}
    (h : holds = true ↔ w.Yields l.positive l.positive)
    (hp : p = if holds then Weight.one else Weight.zero) :
    (if l.negated then Weight.one - p else p) ∈ w.verdicts α l :=
  ⟨holds, h, hp ▸ rfl⟩

/-- **The probability of a fact of a certain program** says whether the fact is among its own
answers, whether proofs are kept or not. -/
theorem probability_leads_certain (hw : w.Plain) (hcert : w.Certain) (depth : Nat) (l : Literal)
    (hs : Consistent w.meaning s) :
    Leads w.meaning s (probability w depth α l) fun v _ => v ∈ w.verdicts α l := by
  by_cases hm : w.mode = .problog ∧ w.registry.contains l.predicate = false
  swap
  · exact probability_leads_verdict hw depth hs hm
  obtain ⟨hmode, hrel⟩ := hm
  by_cases hg : l.isGround = true
  swap
  · unfold probability
    rw [if_neg hg]
    exact .fail hs _
  refine (probability_leads_relational hw.regular hw.lawful hw.judges depth hg hrel hmode hs).mono
    ?_
  rintro v t ht - ⟨hcomp, found, S, p, hrec, hsup, hp, rfl⟩
  have hground : l.positive.isGround = true := by simpa using hg
  have hstrat := ht.stratified_proofsBelow (R := .wellFounded w) hw.asserted hrec
  obtain ⟨hstratS, htruth⟩ := ProofSet.mem_truth_of_support? (ω := fun _ => true) hstrat hsup
  -- the proofs that are read are recorded, so they come from the rules
  have hnone : ∀ π ∈ S.toList, π.isProbabilistic = false := fun π hπ => by
    obtain ⟨L, -, hsub, -⟩ := ProofSet.exists_lineage_of_support? hsup
    obtain ⟨-, hrecd⟩ := (ht.mem_proofsBelow_iff hw.asserted hrec).1
      (hsub.subset hπ)
    obtain ⟨q, hq⟩ := hrecd
    exact hcert.isProbabilistic_of_mem_rules (ht.mem_rules hq)
  obtain ⟨holds, hholds, hv⟩ := ProofSet.probability?_of_certain hstratS hnone rfl hp
    fun _ => true
  refine mem_verdicts_of_iff (hholds.trans ?_) hv
  have hworld := (ht.mem_truth_proofsBelow_iff (R := .wellFounded w) hw.asserted hrec hmode
    hground rfl hcomp fun _ => true).2
  calc l.positive ∈ S.truth _
      ↔ l.positive ∈ found.truth _ := htruth
    _ ↔ l.positive ∈ w.possibleFacts (w.active _) := hworld
    _ ↔ l.positive ∈ w.meaning.required := by
      rw [hcert.active_eq_rules, hcert.required_eq_possibleFacts]
    _ ↔ w.Yields l.positive l.positive := by
      have hinst : l.positive ∈ (CallPattern.of l).instances :=
        (CallPattern.mem_instances_of_isGround hg).2 rfl
      simp [Theory.Yields, Theory.Answers, hrel, hinst]

end Certain

end Searching

open Searching

variable {w : Theory}

/-- A verdict is exactly one or exactly zero. -/
theorem Theory.eq_zero_or_one_of_mem_verdicts {α : Type} [Weight α] [Weight.Crisp α] {l : Literal}
    {v : α} (h : v ∈ w.verdicts α l) : v = Weight.zero ∨ v = Weight.one := by
  obtain ⟨holds, -, rfl⟩ := h
  cases holds <;> cases l.negated <;>
    simp [Weight.Crisp.one_sub_zero, Weight.Crisp.one_sub_one]

/-! ## Both modes -/

section Modes

variable {σ τ : Type} [Tables σ] [LawfulTables σ] [Tables τ] [LawfulTables τ]
variable {s t : Search σ} {s' : Search τ} {m : Mode} (hw : w.Plain) (hcert : w.Certain)
variable (hs : Reached w s) (hs' : Reached (w.inMode m) s') (hwork : Tables.Works s'.tables)

include hw hcert hs hs' hwork

/-- The probability of a fact that has been found once, in the other mode. -/
theorem Reached.probability_inMode {l : Literal} {v : Float}
    (h : ComesTo (fun n => probability w n Float l) s (.ok v) t) :
    v ∈ w.verdicts Float l ∧
      ∃ t', ComesTo (fun n => probability (w.inMode m) n Float l) s' (.ok v) t' := by
  obtain ⟨P, hP, hwork⟩ := hwork
  have hw' := hw.inMode m
  have hc := hw.consistent hs
  have hc' := hw'.consistent hs'
  have hv := Leads.of_comesTo
    (fun n => probability_leads_certain (α := Float) hw hcert n l hc) h
  obtain ⟨n, hrun⟩ := h.exists_run
  obtain ⟨v', t', h', hv'⟩ := exists_ok_of_comesTo
    (probability_keeps_inMode hw (hcert.agreesIn m) hc hrun hs' hP hwork)
    (fun n => probability_leads_certain hw' (hcert.inMode m) n l hc')
    (hs'.probability_comesTo hw' Float l)
  -- the verdict depends on what the fact yields, which is the same in both modes
  have hsame : (w.inMode m).verdicts Float l = w.verdicts Float l := by
    unfold Theory.verdicts
    rw [(hcert.agreesIn m).yields_iff]
  obtain rfl := Theory.subsingleton_verdicts Float l hv (hsame ▸ hv')
  exact ⟨hv, t', h'⟩

end Modes

/-- **Over a certain program both modes agree**, also where clauses use negation or recursion. A
query succeeds with proofs if and only if it does without, and has the same answers. The probability
of a fact is found with proofs if and only if it is without; it is the same, and exactly zero or
exactly one. -/
theorem Reached.modes_agree {σ τ : Type} [Tables σ] [LawfulTables σ] [Tables τ] [LawfulTables τ]
    (hw : w.Plain) (hcert : w.Certain) {s : Search σ} (hs : Reached (w.inMode .problog) s)
    (hwork : Tables.Works s.tables) {s' : Search τ} (hs' : Reached (w.inMode .datalog) s')
    (hwork' : Tables.Works s'.tables) :
    (∀ q, Agree (fun answers answers' : List Literal => ∀ f, f ∈ answers ↔ f ∈ answers')
      (fun n => solve (w.inMode .problog) n q) s (fun n => solve (w.inMode .datalog) n q) s') ∧
    ∀ f, Agree (fun v v' : Float => v = v' ∧ (v = 0.0 ∨ v = 1.0))
      (fun n => probability (w.inMode .problog) n Float f) s
      (fun n => probability (w.inMode .datalog) n Float f) s' := by
  have hp := hw.inMode .problog
  have hd := hw.inMode .datalog
  have hpcert := hcert.inMode .problog
  have hdcert := hcert.inMode .datalog
  refine ⟨fun q => .of_comesTo (hs.solve_comesTo hp q) (hs'.solve_comesTo hd q) ?_ ?_,
    fun f => .of_comesTo (hs.probability_comesTo hp Float f) (hs'.probability_comesTo hd Float f)
      ?_ ?_⟩
  · intro _ _ h
    obtain ⟨answers, t, hans, hmem⟩ := hs.solve_inMode hp (hpcert.agreesIn .datalog) hs' hwork' h
    exact ⟨answers, t, hans, fun f => (hmem f).symm⟩
  · intro _ _ h
    obtain ⟨answers, t, hans, -⟩ := hs'.solve_inMode hd (hdcert.agreesIn .problog) hs hwork h
    exact ⟨answers, t, hans⟩
  · intro _ _ h
    obtain ⟨hv, t, hprob⟩ := hs.probability_inMode hp hpcert hs' hwork' h
    exact ⟨_, t, hprob, rfl, Theory.eq_zero_or_one_of_mem_verdicts hv⟩
  · intro _ _ h
    obtain ⟨-, t, hprob⟩ := hs'.probability_inMode hd hdcert hs hwork h
    exact ⟨_, t, hprob⟩

/-! ## Ferries -/

namespace Ferries

/-- A ferry from one port to another one. -/
def line (x y : String) : Clause :=
  ⟨.of "line" [.const (.string x), .const (.string y)], [], .certain⟩

/-- Ferries that go to and fro between two ports, and a port that neither of them calls at. -/
def clauses : List Clause :=
  let x : Term := .var ⟨"X", 0⟩
  let y : Term := .var ⟨"Y", 0⟩
  let a : Term := .const (.string "a")
  [line "a" "b", line "b" "a", line "c" "c",
    ⟨.of "reached" [x, y], [.of "line" [x, y]], .certain⟩,
    ⟨.of "reached" [x, y], [.of "reached" [x, .var ⟨"Z", 0⟩], .of "line" [.var ⟨"Z", 0⟩, y]],
      .certain⟩,
    ⟨.of "stranded" [x], [.of "line" [x, y], (Literal.of "reached" [a, x]).negate], .certain⟩]

/-- The theory of ferries. -/
def theory : Theory := ⟨(Program.empty.assertAll clauses).2, .standard, .problog⟩

theorem plain : theory.Plain :=
  .of_forall_clauses (.assertAll .empty clauses) (by decide +kernel)

theorem certain : theory.Certain := fun id c hid => by
  have hall : ∀ c ∈ theory.program.clauses.toList, c.isProbabilistic = false := by decide +kernel
  exact hall c (Array.mem_toList_iff.2 (Program.mem_clauses_of_clause? hid))

/-- Somewhere that is stranded. -/
def stranded : Literal := .of "stranded" [.var ⟨"X", 0⟩]

/-- The port without ferries. -/
def port : Literal := .of "stranded" [.const (.string "c")]

/-- One port is stranded, and both modes agree about that. -/
theorem modes_agree_stranded :
    (solve (theory.inMode .datalog) 9 stranded (.start Resident.empty 0)).1 = .ok [port] ∧
    Agree (fun answers answers' : List Literal => ∀ f, f ∈ answers ↔ f ∈ answers')
      (fun n => solve (theory.inMode .problog) n stranded) (.start Resident.empty 0)
      (fun n => solve (theory.inMode .datalog) n stranded) (.start Resident.empty 0) ∧
    Agree (fun v v' : Float => v = v' ∧ (v = 0.0 ∨ v = 1.0))
      (fun n => probability (theory.inMode .problog) n Float port) (.start Resident.empty 0)
      (fun n => probability (theory.inMode .datalog) n Float port) (.start Resident.empty 0) := by
  have hstart : ∀ m, Reached (theory.inMode m) (.start Resident.empty 0) := fun m =>
    .start (fun _ => rfl) 0
  have h := (hstart .problog).modes_agree plain certain (Resident.works _) (hstart .datalog)
    (Resident.works _)
  exact ⟨by decide +kernel, h.1 stranded, h.2 port⟩

end Ferries

end ProbDatalog
