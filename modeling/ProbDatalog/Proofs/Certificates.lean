import ProbDatalog.Proofs.Evaluables
import ProbDatalog.Proofs.PerfectModel
import ProbDatalog.Proofs.Sessions

/-!
# Recorded proofs are certificates

Whatever a session has asked, and whichever requests have failed, a proof in a table can be checked
on its own: it is an instance of its clause, it stands where it belongs, its evaluable premises are
accepted, and its positive premises are answers. That holds also where calls are rejected while they
are open, so that what is found depends on the way in which it was asked for.

* `Meaning.anything`: the meaning in which every negation may hold and nothing must be found.
* `recorded_isCertificate`: **every recorded proof is a certificate, and answers have proofs from
  earlier answers.**
-/

namespace ProbDatalog

/-- Any negation of a fact that is not evaluable may hold, and nothing has to be found. -/
def Meaning.anything (w : Theory) : Meaning w where
  mayNegate b := w.registry.contains b.predicate = true → w.Rejects b
  mustNegate _ := False
  counted := ∅

namespace Meaning

variable {w : Theory}

theorem anything_lawful : (anything w).Lawful where
  counted_subset := Set.empty_subset _
  mayNegate_of_rejects _ h _ := h
  rejects_of_mustNegate _ h := h.elim
  mayNegate_of_not_required hc _ h := by simp [hc] at h
  not_mustNegate_of_derivable _ _ _ _ h := h
  decides _ _ _ _ h := h.elim

theorem anything_judges {σ : Type} [Tables σ] [LawfulTables σ] : (anything w).Judges σ := by
  intro _ s b found proofs certain _ _ _ hc _ _ _ _
  split
  · exact id
  · exact fun h => by simp [hc] at h

end Meaning

section Certificates

variable {σ : Type} [Tables σ] [LawfulTables σ] {w : Theory} {s : Search σ}

/-- A proof that is filed under a fact in the table of a pattern can be checked. -/
structure IsCertificate (w : Theory) (s : Search σ) (p : CallPattern) (f : Literal) (π : Proof) :
    Prop where
  /-- One valuation makes the head of the clause the head of the proof, and its body, place by
  place, the premises. -/
  ofClause : ∃ c θ, w.program.clause? π.clause = some c ∧ π.head = c.head.ground θ ∧
    π.body.map Premise.literal = c.body.map (·.ground θ) ∧ π.probability = c.probability
  head_eq : π.head = f
  head_negated : π.head.negated = false
  head_isGround : π.head.isGround = true
  covers_head : p.covers π.head = true
  /-- Evaluable premises are ground, and evaluating them accepts them. -/
  accepted : ∀ l, .evaluable l ∈ π.body → l.isGround = true ∧ w.Accepts l
  /-- Positive relational premises are answers of a table that covers them. -/
  answered : ∀ l, .relational l ∈ π.body → l.negated = false →
    ∃ q ∈ Tables.patterns s.tables, q.covers l = true ∧ l ∈ s.answersOf q

theorem Theory.regular_of_standard (hp : w.program.Asserted)
    (hscope : ∀ {id c}, w.program.clause? id = some c → ∀ l ∈ c.head :: c.body, ∀ v ∈ l.vars,
      v.scope = 0) (hr : w.registry = .standard) : w.Regular where
  asserted := hp
  scopes := hscope
  steady _ _ _ _ _ he := Registry.steady_standard (hr ▸ he)

theorem Consistent.covers {M : Meaning w} (hs : Consistent M s) {p : CallPattern} {f : Literal}
    (hf : f ∈ s.answersOf p) (hn : f.negated = false) : p.covers f = true := by
  have hi := hs.instances hf
  rwa [CallPattern.covers_iff_mem_instances (CallPattern.isGround_of_mem_instances hi),
    Literal.positive_eq_self hn]

theorem Consistent.isCertificate {M : Meaning w} (hw : w.program.Asserted) (hs : Consistent M s)
    {p : CallPattern} {f : Literal} {π : Proof} (hπ : π ∈ (content s.tables p).proofsOf f) :
    IsCertificate w s p f π := by
  obtain ⟨hrec, hf⟩ := hs.mem_filed_iff.1 hπ
  have hhead := hs.head_mem hrec
  have hneg := hw.negated_head (hs.mem_rules hrec)
  obtain ⟨id, c, θ, hid, rfl, hacc⟩ := hs.mem_rules hrec
  refine ⟨⟨c, θ, hid, rfl, ?_, rfl⟩, hf, hneg, c.head.isGround_ground θ, hs.covers hhead hneg,
    fun l hl => ?_, fun l hl hn => ?_⟩
  · simp [Theory.groundRule, Theory.premise_literal]
  · obtain ⟨m, -, rfl, -⟩ := Theory.evaluable_mem_groundRule.1 hl
    exact ⟨m.isGround_ground θ, hacc _ hl⟩
  · obtain ⟨q, hq⟩ := hs.exists_answer hrec hl hn
    exact ⟨q, Search.mem_patterns_of_answersOf hq, hs.covers hq hn, hq⟩

/-- Answers have proofs from earlier answers. -/
theorem Consistent.exists_chronicle {M : Meaning w} (hs : Consistent M s) (hm : w.mode = .problog) :
    ∃ h : Chronicle, h.Justified w.mode ∧ content s.tables = h.contents ∧
      ∀ p f, f ∈ s.answersOf p → ∃ e older, e :: older <:+ h ∧ e.pattern = p ∧ e.fact = f ∧
        (∀ e' ∈ older, e'.pattern = p → e'.fact ≠ f) ∧
        ∃ π ∈ (content s.tables p).proofsOf f, ∀ l, .relational l ∈ π.body → l.negated = false →
          ∃ e' ∈ older, e'.fact = l := by
  obtain ⟨h, hcont, hj⟩ := hs.history
  refine ⟨h, hj, hcont, fun p f hf => ?_⟩
  rw [Search.answersOf, hcont] at hf
  -- every answer was first put into its table by some entry, which came with a proof
  obtain ⟨e, older, hsuf, ⟨rfl, rfl⟩, hfirst⟩ :=
    Chronicle.exists_first h (Chronicle.mem_keys_contents.1 hf)
  have hje := hj.of_suffix hsuf
  obtain ⟨π, hπ⟩ := List.exists_mem_of_ne_nil _ (hje.proved hm)
  refine ⟨e, older, hsuf, rfl, rfl, fun e' he' hp hf' => hfirst e' he' ⟨hp, hf'⟩, π, ?_,
    hje.earlier π hπ⟩
  rw [hcont]
  exact Chronicle.mem_proofsOf_iff_exists.2 ⟨e, hsuf.mem List.mem_cons_self, rfl, rfl, hπ⟩

/-- **Every recorded proof is a certificate.** In any state of a session over the standard
predicates, failed requests included, a proof in a table can be checked. The tables can be told from
a chronicle of what was put into them, in which everything was justified by what had been put
before; and every answer has a recorded proof whose positive relational premises had all been put
into tables when it was first put into its own. -/
theorem recorded_isCertificate (hp : w.program.Asserted)
    (hscope : ∀ {id c}, w.program.clause? id = some c → ∀ l ∈ c.head :: c.body, ∀ v ∈ l.vars,
      v.scope = 0)
    (hr : w.registry = .standard) (hm : w.mode = .problog) (hs : Reached w s) :
    (∀ p f, ∀ π ∈ (content s.tables p).proofsOf f, IsCertificate w s p f π) ∧
    ∃ h : Chronicle, h.Justified w.mode ∧ content s.tables = h.contents ∧
      ∀ p f, f ∈ s.answersOf p → ∃ e older, e :: older <:+ h ∧ e.pattern = p ∧ e.fact = f ∧
        (∀ e' ∈ older, e'.pattern = p → e'.fact ≠ f) ∧
        ∃ π ∈ (content s.tables p).proofsOf f, ∀ l, .relational l ∈ π.body → l.negated = false →
          ∃ e' ∈ older, e'.fact = l := by
  -- no reading is needed: whatever the search concludes from negations, its tables are consistent
  have hs' : Consistent (Meaning.anything w) s := hs.consistent
    (Theory.regular_of_standard hp hscope hr) Meaning.anything_lawful Meaning.anything_judges
  exact ⟨fun p f π hπ => hs'.isCertificate hp hπ, hs'.exists_chronicle hm⟩

end Certificates

/-! ## Kinds of things -/

namespace Kinds

/-- A constant that is a string. -/
def string (s : String) : Term := .const (.string s)

/-- A variable of scope `0`. -/
def unknown (name : String) : Term := .var ⟨name, 0⟩

/-- What is known has a kind, which the test of kinds finds. -/
def clauses : List Clause :=
  [⟨.of "known" [string "tweety"], [], .certain⟩,
    ⟨.of "kind" [unknown "X", unknown "K"],
      [.of "known" [unknown "X"], .of "is" [unknown "X", unknown "K"]], .certain⟩]

/-- The theory of kinds. -/
def theory : Theory := ⟨(Program.empty.assertAll clauses).2, .standard, .problog⟩

/-- The clauses are written with variables of scope `0`. -/
theorem scopes {id : ClauseId} {c : Clause} (hid : theory.program.clause? id = some c) :
    ∀ l ∈ c.head :: c.body, ∀ v ∈ l.vars, v.scope = 0 := by
  have hall : ∀ c ∈ theory.program.clauses.toList, ∀ l ∈ c.head :: c.body,
      ∀ v ∈ l.vars, v.scope = 0 := by decide +kernel
  exact hall c (Array.mem_toList_iff.2 (Program.mem_clauses_of_clause? hid))

/-- Everything that has a kind. -/
def query : Literal := .of "kind" [unknown "X", unknown "K"]

/-- A request that fails, and then one that succeeds. -/
def session : Search Resident :=
  (Request.solve query).leave theory 5
    ((Request.solve query.negate).leave theory 5 (.start .empty 0))

/-- The one proof for what the session finds. -/
def proof : Proof where
  head := .of "kind" [string "tweety", string "string"]
  body := [.relational (.of "known" [string "tweety"]),
    .evaluable (.of "is" [string "tweety", string "string"])]
  probability := .certain
  clause := ⟨1⟩

theorem reached_session : Reached theory session :=
  ((Reached.start (fun _ => rfl) 0).ask 5 (.solve query.negate)).ask 5 (.solve query)

/-- The test of kinds was called with an open argument, and the proof has the value. -/
theorem isCertificate_proof :
    IsCertificate theory session (.of query) (.of "kind" [string "tweety", string "string"])
      proof :=
  (recorded_isCertificate (.assertAll .empty clauses) scopes rfl rfl reached_session).1 _ _ _
    (by decide +kernel)

end Kinds

end ProbDatalog
