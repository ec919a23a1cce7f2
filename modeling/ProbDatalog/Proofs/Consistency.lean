import ProbDatalog.Proofs.Chronicles
import ProbDatalog.Proofs.Exploration
import ProbDatalog.Proofs.Steps
import Mathlib.Data.Set.Card
import Mathlib.Data.Set.Finite.Lattice
import Mathlib.Order.CompletePartialOrder

/-!
# What holds of a search at all times

A search is consistent with a meaning if its tables hold only what may be derived and its complete
tables everything that is required. Steps never lose anything, also where they fail.

* `Regular`: the theories that are considered.
* `Meaning.Layered.onTop`: patterns that explore each other go on top of layers.
* `Consistent`: the invariant of searches.
* `Progress`: what changes from an earlier state to a later one.
* `Leads`: a step from a consistent state leads to a consistent state further on.
* `Consistent.complete_expanded`: **patterns that have been explored all together are complete.**
-/

namespace ProbDatalog

/-! ## Theories -/

/-- An evaluable predicate that finds all there is to find: what it accepts is ground, and its
bindings are the one way to make an open call acceptable. -/
structure Evaluable.Steady (e : Evaluable) : Prop where
  isGround_of_accept : ∀ {args : List Term}, e.evaluate args = .ok .accept →
    ∀ t ∈ args, t.isGround = true
  exists_binding : ∀ {args : List Term} {b : Substitution}, e.evaluate args = .ok (.bind b) →
    ∀ v, .var v ∈ args → ∃ c, (v, .const c) ∈ b.toList
  accept_iff : ∀ {args : List Term} {b : Substitution}, e.evaluate args = .ok (.bind b) →
    ∀ θ : Valuation, (∀ x ∈ b.toList, θ x.1 = x.2.value θ) ↔
      e.evaluate (args.map fun t => .const (t.value θ)) = .ok .accept

/-- A theory whose program was asserted from clauses over the variables of scope `0`, and whose
clauses call steady evaluable predicates. -/
structure Theory.Regular (w : Theory) : Prop where
  asserted : w.program.Asserted
  scopes : ∀ {id c}, w.program.clause? id = some c → ∀ l ∈ c.head :: c.body, ∀ v ∈ l.vars,
    v.scope = 0
  steady : ∀ {id c}, w.program.clause? id = some c → ∀ l ∈ c.body, l.negated = false →
    ∀ e, w.registry.get? l.predicate = some e → e.Steady

/-- A call of `l` that leaves open what `θ` gives to variables that are not `bound` yet. -/
def Literal.PartialCall (l : Literal) (θ : Valuation) (bound : List Variable) (args : List Term) :
    Prop :=
  (∃ η : Valuation, args.map (fun t => Term.const (t.value η)) = (l.ground θ).terms) ∧
    ∀ p ∈ l.terms.zip args, (∀ v, p.1 = .var v → v ∈ bound) → p.2.isGround = true

/-- The variables of the positive literals of a list. -/
def boundVarsOf (body : List Literal) : List Variable :=
  (body.filter (!·.negated)).flatMap Literal.vars

/-- A meaning that makes sense. Evaluable calls are negated as they come out, other facts by what
is derivable and required; and no call that is rejected while it is open has a counted instance. -/
structure Meaning.Lawful {w : Theory} (M : Meaning w) : Prop where
  counted_subset : M.counted ⊆ w.rules
  mayNegate_of_rejects : ∀ {b}, w.registry.contains b.predicate = true → w.Rejects b →
    M.mayNegate b
  rejects_of_mustNegate : ∀ {b}, w.registry.contains b.predicate = true → M.mustNegate b →
    w.Rejects b
  mayNegate_of_not_required : ∀ {b}, w.registry.contains b.predicate = false → b ∉ M.required →
    M.mayNegate b
  not_mustNegate_of_derivable : w.mode = .datalog → ∀ {b},
    w.registry.contains b.predicate = false → b ∈ M.derivable → ¬M.mustNegate b
  decides : ∀ {id c before l after θ args e}, w.program.clause? id = some c →
    c.body = before ++ l :: after → l.negated = false → w.registry.get? l.predicate = some e →
    M.Counts id c θ → l.PartialCall θ (boundVarsOf before) args → e.evaluate args ≠ .ok .reject

/-! ## Layers -/

/-- **New layers go on top**: patterns that explore each other, and decide negations of layered
patterns only, are layered together with these. -/
theorem Meaning.Layered.onTop {w : Theory} {M : Meaning w} {patterns more : List CallPattern}
    {rank : CallPattern → Nat} (h : M.Layered {q | q ∈ patterns} rank)
    (hmore : ∀ p ∈ more, M.Explores (fun q => q ∈ more ∨ q ∈ patterns) (· ∈ patterns)
      (fun q => M.required ∩ q.instances) (fun _ => True) p) :
    ∃ rank', M.Layered {q | q ∈ more ++ patterns} rank' := by
  obtain ⟨top, htop⟩ : ∃ top, ∀ q ∈ patterns, rank q ≤ top := by
    obtain ⟨top, htop⟩ := (patterns.finite_toSet.image rank).bddAbove
    exact ⟨top, fun q hq => htop ⟨q, hq, rfl⟩⟩
  let rank' : CallPattern → Nat := fun q => if q ∈ patterns then rank q else top + 1
  have hold {q} (hq : q ∈ patterns) : rank' q = rank q := if_pos hq
  have hnew {q} (hq : q ∉ patterns) : rank' q = top + 1 := if_neg hq
  refine ⟨rank', fun p hp => ?_⟩
  by_cases hpatterns : p ∈ patterns
  · refine (h p hpatterns).mono ?_ ?_ (fun _ _ => le_rfl) fun _ _ => trivial
    · rintro q ⟨hq, hle⟩
      exact ⟨List.mem_append_right _ hq, by rwa [hold hq, hold hpatterns]⟩
    · rintro q ⟨hq, hlt⟩
      exact ⟨List.mem_append_right _ hq, by rwa [hold hq, hold hpatterns]⟩
  · have hpmore : p ∈ more := (List.mem_append.1 hp).resolve_right hpatterns
    refine (hmore p hpmore).mono (fun q hq => ⟨List.mem_append.2 hq, ?_⟩)
      (fun q hq => ⟨List.mem_append_right _ hq, ?_⟩) (fun _ _ => le_rfl) fun _ _ => trivial
    · rw [hnew hpatterns]
      by_cases hq : q ∈ patterns
      · rw [hold hq]
        exact (htop q hq).trans (Nat.le_succ top)
      · rw [hnew hq]
    · rw [hnew hpatterns, hold hq]
      exact Nat.lt_succ_of_le (htop q hq)

/-! ## States -/

variable {σ α β : Type} [Tables σ] [LawfulTables σ] {w : Theory}

namespace Search

/-- The answers that a search has found for a pattern. -/
def answersOf (s : Search σ) (p : CallPattern) : List Literal := (content s.tables p).keys

/-- The proofs that a search has recorded for a pattern. -/
def recordsOf (s : Search σ) (p : CallPattern) : List Proof := (content s.tables p).records

/-- All answers and proofs of all tables. -/
def holdings (s : Search σ) : Set (CallPattern × (Literal ⊕ Proof)) :=
  {x | Sum.elim (· ∈ s.answersOf x.1) (· ∈ s.recordsOf x.1) x.2}

/-- The head of a rule is an answer, and the rule a recorded proof where proofs are kept. -/
def Found (s : Search σ) (mode : Mode) (p : CallPattern) (π : Proof) : Prop :=
  π.head ∈ s.answersOf p ∧ (mode = .problog → π ∈ s.recordsOf p)

/-- A pattern has been explored by what the search has called so far and found by now. -/
def HasExplored (M : Meaning w) (s : Search σ) (p : CallPattern) : Prop :=
  M.Explores (fun q => q ∈ s.expanded ∨ q ∈ s.complete) (· ∈ s.complete)
    (fun q => {f | f ∈ s.answersOf q}) (s.Found w.mode p) p

section Put

variable {s t : Search σ} {p q : CallPattern} {f g : Literal} {ps : List Proof} {π : Proof}

/-- Recording an answer adds it to its table. -/
theorem mem_answersOf_of_put (h : content t.tables =
    Function.update (content s.tables) p (Resident.record (content s.tables p) f ps)) :
    g ∈ t.answersOf q ↔ q = p ∧ g = f ∨ g ∈ s.answersOf q := by
  unfold answersOf
  rw [h]
  by_cases hq : q = p
  · subst hq
    rw [Function.update_self, Resident.mem_keys_record]
    simp
  · rw [Function.update_of_ne hq]
    simp [hq]

/-- Recording an answer adds its proofs to its table. -/
theorem mem_recordsOf_of_put (h : content t.tables =
    Function.update (content s.tables) p (Resident.record (content s.tables p) f ps)) :
    π ∈ t.recordsOf q ↔ q = p ∧ π ∈ ps ∨ π ∈ s.recordsOf q := by
  unfold recordsOf
  rw [h]
  by_cases hq : q = p
  · subst hq
    rw [Function.update_self, Resident.mem_records_record]
    simp [or_comm]
  · rw [Function.update_of_ne hq]
    simp [hq]

/-- Recording an answer lists none twice. -/
theorem nodup_answersOf_of_put (h : content t.tables =
    Function.update (content s.tables) p (Resident.record (content s.tables p) f ps))
    (hs : ∀ q, (s.answersOf q).Nodup) : (t.answersOf q).Nodup := by
  unfold answersOf
  rw [h]
  by_cases hq : q = p
  · subst hq
    rw [Function.update_self]
    exact Resident.nodup_keys_record (hs q)
  · rw [Function.update_of_ne hq]
    exact hs q

end Put

section Holdings

variable {s : Search σ} {p : CallPattern}

@[simp] theorem answer_mem_holdings {f : Literal} :
    (p, .inl f) ∈ s.holdings ↔ f ∈ s.answersOf p := Iff.rfl

@[simp] theorem proof_mem_holdings {π : Proof} :
    (p, .inr π) ∈ s.holdings ↔ π ∈ s.recordsOf p := Iff.rfl

theorem holdings_subset_iff {s t : Search σ} : s.holdings ⊆ t.holdings ↔
    (∀ p, s.answersOf p ⊆ t.answersOf p) ∧ ∀ p, s.recordsOf p ⊆ t.recordsOf p := by
  -- a holding is an answer or a proof of some table
  constructor
  · exact fun h => ⟨fun p f hf => h (a := (p, .inl f)) hf, fun p π hπ => h (a := (p, .inr π)) hπ⟩
  · rintro ⟨ha, hr⟩ ⟨p, f | π⟩ hx
    · exact ha p hx
    · exact hr p hx

/-- Only patterns that have tables have answers. -/
theorem mem_patterns_of_answersOf {s : Search σ} {p : CallPattern} {f : Literal}
    (hf : f ∈ s.answersOf p) : p ∈ Tables.patterns s.tables :=
  LawfulTables.mem_patterns fun hempty => by simp [answersOf, hempty] at hf

/-- Only patterns that have tables have proofs. -/
theorem mem_patterns_of_recordsOf {s : Search σ} {p : CallPattern} {π : Proof}
    (hπ : π ∈ s.recordsOf p) : p ∈ Tables.patterns s.tables :=
  LawfulTables.mem_patterns fun hempty => by simp [recordsOf, hempty] at hπ

/-- Tables are finite. -/
theorem finite_holdings (s : Search σ) : s.holdings.Finite := by
  let all : List (CallPattern × (Literal ⊕ Proof)) := (Tables.patterns s.tables).flatMap fun p =>
    (s.answersOf p).map (fun f => (p, .inl f)) ++ (s.recordsOf p).map fun π => (p, .inr π)
  refine all.finite_toSet.subset ?_
  rintro ⟨p, f | π⟩ hx
  · exact List.mem_flatMap.2 ⟨p, mem_patterns_of_answersOf hx,
      List.mem_append_left _ (List.mem_map.2 ⟨f, hx, rfl⟩)⟩
  · exact List.mem_flatMap.2 ⟨p, mem_patterns_of_recordsOf hx,
      List.mem_append_right _ (List.mem_map.2 ⟨π, hx, rfl⟩)⟩

theorem holdings_congr {s t : Search σ} (h : content t.tables = content s.tables) :
    t.holdings = s.holdings := by
  simp [holdings, answersOf, recordsOf, h]

end Holdings

end Search

/-- Answers have been put. -/
theorem Search.exists_entry_of_answersOf {s : Search σ} {c : Chronicle}
    (hcontent : content s.tables = c.contents) {p : CallPattern} {f : Literal}
    (hf : f ∈ s.answersOf p) : ∃ e ∈ c, e.fact = f := by
  rw [answersOf, hcontent] at hf
  obtain ⟨e, he, -, hfact⟩ := Chronicle.mem_keys_contents.1 hf
  exact ⟨e, he, hfact⟩

/-- The premises of a proof hold for the reasons that a search has for them. -/
structure Search.Warrants (s : Search σ) (M : Meaning w) (π : Proof) : Prop where
  supported : π.Supported M.derivable M.mayNegate
  answered : ∀ l, .relational l ∈ π.body → l.negated = false → ∃ q, l ∈ s.answersOf q
  negated : ∀ l, .relational l ∈ π.body → l.negated = true →
    w.registry.contains l.predicate = false → .of l.positive ∈ s.complete

/-- Tables hold only what may be derived, complete tables hold everything that is required, and
negated premises have been decided from complete tables. What the tables hold has been put into them
one after the other, each answer with proofs from earlier answers. -/
structure Consistent (M : Meaning w) (s : Search σ) : Prop where
  nodup : ∀ p, (s.answersOf p).Nodup
  instances : ∀ {p f}, f ∈ s.answersOf p → f ∈ p.instances
  relational : ∀ {p f}, f ∈ s.answersOf p → w.registry.contains f.predicate = false
  derivable : ∀ {p f}, f ∈ s.answersOf p → f ∈ M.derivable
  proved : w.mode = .problog → ∀ {p f}, f ∈ s.answersOf p → ∃ π ∈ s.recordsOf p, π.head = f
  head_mem : ∀ {p π}, π ∈ s.recordsOf p → π.head ∈ s.answersOf p
  mem_rules : ∀ {p π}, π ∈ s.recordsOf p → π ∈ w.rules
  supported : ∀ {p π}, π ∈ s.recordsOf p → π.Supported M.derivable M.mayNegate
  negated : ∀ {p π l}, π ∈ s.recordsOf p → .relational l ∈ π.body → l.negated = true →
    w.registry.contains l.predicate = false → .of l.positive ∈ s.complete
  complete : ∀ {p π}, p ∈ s.complete → π ∈ M.counted → π.head ∈ p.instances →
    π.Supported M.required M.mustNegate → s.Found w.mode p π
  layered : ∃ rank, M.Layered {p | p ∈ s.complete} rank
  history : ∃ h : Chronicle, content s.tables = h.contents ∧ h.Justified w.mode

/-- Nothing that was there is lost, tables that have not grown are the same, and each growth adds an
answer or a proof. -/
structure Progress (s t : Search σ) : Prop where
  answers : ∀ p, s.answersOf p ⊆ t.answersOf p
  records : ∀ p, s.recordsOf p ⊆ t.recordsOf p
  complete : s.complete ⊆ t.complete
  negating : t.negating = s.negating
  additions : s.additions ≤ t.additions
  content : t.additions = s.additions → content t.tables = content s.tables
  grown : t.additions + s.holdings.ncard ≤ s.additions + t.holdings.ncard

namespace Progress

variable {s t u : Search σ}

/-- A step that does not touch the tables. -/
theorem of_content_eq (ht : LawfulTables.content t.tables = LawfulTables.content s.tables)
    (hc : s.complete ⊆ t.complete) (hn : t.negating = s.negating)
    (ha : t.additions = s.additions) : Progress s t where
  answers p f hf := by rwa [Search.answersOf, ht]
  records p π hπ := by rwa [Search.recordsOf, ht]
  complete := hc
  negating := hn
  additions := ha.ge
  content _ := ht
  grown := by rw [Search.holdings_congr ht, ha]

theorem refl (s : Search σ) : Progress s s :=
  of_content_eq rfl (List.Subset.refl _) rfl rfl

theorem trans (h : Progress s t) (h' : Progress t u) : Progress s u where
  answers p := List.Subset.trans (h.answers p) (h'.answers p)
  records p := List.Subset.trans (h.records p) (h'.records p)
  complete := List.Subset.trans h.complete h'.complete
  negating := h'.negating.trans h.negating
  additions := h.additions.trans h'.additions
  content heq := by
    have h1 := h.additions
    have h2 := h'.additions
    rw [h'.content (by omega), h.content (by omega)]
  grown := by
    have h1 := h.grown
    have h2 := h'.grown
    omega

theorem found (h : Progress s t) {mode : Mode} {p : CallPattern} {π : Proof}
    (hf : s.Found mode p π) : t.Found mode p π :=
  ⟨h.answers p hf.1, fun hm => h.records p (hf.2 hm)⟩

/-- Steps between which no table grows grow no table. -/
theorem additions_eq (h : Progress s t) (h' : Progress t u) (heq : u.additions = s.additions) :
    t.additions = s.additions ∧ u.additions = t.additions := by
  have h1 := h.additions
  have h2 := h'.additions
  omega

end Progress

/-- A step leads from a state to a consistent state further on, and where it succeeds to a result
that satisfies `Q`. -/
def Leads (M : Meaning w) (s : Search σ) (x : Searching σ α) (Q : α → Search σ → Prop) : Prop :=
  Searching.After x s fun r t => Consistent M t ∧ Progress s t ∧ ∀ a, r = .ok a → Q a t

namespace Leads

variable {M : Meaning w} {s : Search σ} {x : Searching σ α} {Q Q' : α → Search σ → Prop}

theorem mono (h : Leads M s x Q) (hQ : ∀ a t, Consistent M t → Progress s t → Q a t → Q' a t) :
    Leads M s x Q' :=
  Searching.After.mono h fun _ _ ⟨hc, hp, hq⟩ => ⟨hc, hp, fun a ha => hQ a _ hc hp (hq a ha)⟩

theorem pure (hs : Consistent M s) {a : α} (h : Q a s) : Leads M s (Pure.pure a) Q :=
  (Searching.after_pure a).2 ⟨hs, .refl s, fun b hb => by cases hb; exact h⟩

theorem throw (hs : Consistent M s) (h : Halt) :
    Leads M s (MonadExcept.throw h : Searching σ α) Q :=
  (Searching.after_throw h).2 ⟨hs, .refl s, fun b hb => by cases hb⟩

theorem fail (hs : Consistent M s) (e : Error) : Leads M s (Searching.fail e) Q := throw hs _

/-- **One step after another.** -/
theorem bind {f : α → Searching σ β} {Q' : β → Search σ → Prop} (h : Leads M s x Q)
    (hf : ∀ a t, Consistent M t → Progress s t → Q a t → Leads M t (f a) Q') :
    Leads M s (x >>= f) Q' := by
  refine Searching.after_bind.2 (Searching.After.mono h ?_)
  rintro (h | a) t ⟨hc, hp, hq⟩
  · exact ⟨hc, hp, fun b hb => by cases hb⟩
  · refine Searching.After.mono (hf a t hc hp (hq a rfl)) ?_
    rintro r u ⟨hc', hp', hq'⟩
    exact ⟨hc', hp.trans hp', hq'⟩

theorem ofExcept (hs : Consistent M s) {x : Except Error α} (h : ∀ a, x = .ok a → Q a s) :
    Leads M s (Searching.ofExcept x) Q := by
  cases x with
  | ok a => exact pure hs (h a rfl)
  | error e => exact throw hs (.failed e)

theorem ofOption (hs : Consistent M s) {x : Option α} (h : ∀ a, x = some a → Q a s) :
    Leads M s (Searching.ofOption x) Q := by
  cases x with
  | some a => exact pure hs (h a rfl)
  | none => exact throw hs .exhausted

theorem readTables (hs : Consistent M s) {f : σ → Except StoreFault α}
    (h : ∀ a, f s.tables = .ok a → Q a s) : Leads M s (Searching.readTables f) Q :=
  (Searching.after_readTables f).2
    ⟨fun a ha => ⟨hs, .refl s, fun b hb => by cases hb; exact h a ha⟩,
      fun e _ => ⟨hs, .refl s, fun b hb => by cases hb⟩⟩

section Unchanged

variable {k : α → Searching σ β} {R : β → Search σ → Prop}

/-- What comes after a step that leaves the state as it is starts from the same state. -/
theorem bind_unchanged {P : α → Prop} (h : Leads M s x fun a t => s = t ∧ P a)
    (hk : ∀ a, P a → Leads M s (k a) R) : Leads M s (x >>= k) R := by
  refine h.bind ?_
  rintro a _ - - ⟨rfl, ha⟩
  exact hk a ha

theorem ofExcept_bind (hs : Consistent M s) {x : Except Error α}
    (h : ∀ a, x = .ok a → Leads M s (k a) R) : Leads M s (Searching.ofExcept x >>= k) R :=
  (ofExcept hs fun _ ha => ⟨rfl, ha⟩).bind_unchanged h

theorem ofOption_bind (hs : Consistent M s) {x : Option α}
    (h : ∀ a, x = some a → Leads M s (k a) R) : Leads M s (Searching.ofOption x >>= k) R :=
  (ofOption hs fun _ ha => ⟨rfl, ha⟩).bind_unchanged h

theorem answers_bind (hs : Consistent M s) {p : CallPattern} {k : List Literal → Searching σ β}
    (h : Leads M s (k (s.answersOf p)) R) :
    Leads M s (Searching.readTables (Tables.answers · p) >>= k) R :=
  (readTables hs fun _ ha => ⟨rfl, LawfulTables.answers_ok ha⟩).bind_unchanged fun a ha =>
    (ha : a = s.answersOf p) ▸ h

end Unchanged

end Leads

namespace Consistent

variable {M : Meaning w} {s t : Search σ}

/-- Consistency is about the tables and about which of them are complete. -/
theorem congr (h : Consistent M s) (ht : content t.tables = content s.tables)
    (hc : t.complete = s.complete) : Consistent M t := by
  have ha : ∀ p, t.answersOf p = s.answersOf p := fun p => by simp [Search.answersOf, ht]
  have hr : ∀ p, t.recordsOf p = s.recordsOf p := fun p => by simp [Search.recordsOf, ht]
  have hf : ∀ mode p π, t.Found mode p π ↔ s.Found mode p π := fun mode p π => by
    simp [Search.Found, ha, hr]
  exact
    { nodup := fun p => ha p ▸ h.nodup p
      instances := fun {p f} hm => h.instances (ha p ▸ hm)
      relational := fun {p f} hm => h.relational (ha p ▸ hm)
      derivable := fun {p f} hm => h.derivable (ha p ▸ hm)
      proved := fun hm {p f} hf => hr p ▸ h.proved hm (ha p ▸ hf)
      head_mem := fun {p π} hm => ha p ▸ h.head_mem (hr p ▸ hm)
      mem_rules := fun {p π} hm => h.mem_rules (hr p ▸ hm)
      supported := fun {p π} hm => h.supported (hr p ▸ hm)
      negated := fun {p π l} hm => hc ▸ h.negated (hr p ▸ hm)
      complete := fun {p π} hp hm hi hs => (hf _ p π).2 (h.complete (hc ▸ hp) hm hi hs)
      layered := hc ▸ h.layered
      history := ht ▸ h.history }

/-- **A derivable answer may be added to a table**, with supported proofs of it. -/
theorem put (h : Consistent M s) {p : CallPattern} {f : Literal} {ps : List Proof}
    (hf : f ∈ p.instances) (hrel : w.registry.contains f.predicate = false)
    (hder : f ∈ M.derivable)
    (hps : ∀ π ∈ ps, π.head = f ∧ π ∈ w.rules ∧ s.Warrants M π)
    (hne : w.mode = .problog → ps ≠ []) (hnil : w.mode = .datalog → ps = [])
    (hc : t.complete = s.complete)
    (ht : content t.tables = Function.update (content s.tables) p
      (Resident.record (content s.tables p) f ps)) : Consistent M t := by
  have ha {q g} := Search.mem_answersOf_of_put ht (q := q) (g := g)
  have hr {q π} := Search.mem_recordsOf_of_put ht (q := q) (π := π)
  -- what is in a table now was there before or has just been put there
  refine ⟨?nodup, ?instances, ?relational, ?derivable, ?proved, ?head_mem, ?mem_rules, ?supported,
    ?negated, ?complete, hc ▸ h.layered, ?history⟩
  case nodup => exact fun q => Search.nodup_answersOf_of_put ht h.nodup
  case instances =>
    intro q g hg
    rcases ha.1 hg with ⟨rfl, rfl⟩ | hg
    · exact hf
    · exact h.instances hg
  case relational =>
    intro q g hg
    rcases ha.1 hg with ⟨-, rfl⟩ | hg
    · exact hrel
    · exact h.relational hg
  case derivable =>
    intro q g hg
    rcases ha.1 hg with ⟨-, rfl⟩ | hg
    · exact hder
    · exact h.derivable hg
  case proved =>
    intro hm q g hg
    rcases ha.1 hg with ⟨rfl, rfl⟩ | hg
    · obtain ⟨π, hπ⟩ := List.exists_mem_of_ne_nil _ (hne hm)
      exact ⟨π, hr.2 (.inl ⟨rfl, hπ⟩), (hps π hπ).1⟩
    · obtain ⟨π, hπ, hhead⟩ := h.proved hm hg
      exact ⟨π, hr.2 (.inr hπ), hhead⟩
  case head_mem =>
    intro q π hπ
    rcases hr.1 hπ with ⟨rfl, hπ⟩ | hπ
    · exact ha.2 (.inl ⟨rfl, (hps π hπ).1⟩)
    · exact ha.2 (.inr (h.head_mem hπ))
  case mem_rules =>
    intro q π hπ
    rcases hr.1 hπ with ⟨-, hπ⟩ | hπ
    · exact (hps π hπ).2.1
    · exact h.mem_rules hπ
  case supported =>
    intro q π hπ
    rcases hr.1 hπ with ⟨-, hπ⟩ | hπ
    · exact (hps π hπ).2.2.supported
    · exact h.supported hπ
  case negated =>
    intro q π l hπ hl hn hrel
    rw [hc]
    rcases hr.1 hπ with ⟨-, hπ⟩ | hπ
    · exact (hps π hπ).2.2.negated l hl hn hrel
    · exact h.negated hπ hl hn hrel
  case complete =>
    intro q π hq hπ hi hs
    obtain ⟨hhead, hrec⟩ := h.complete (hc ▸ hq) hπ hi hs
    exact ⟨ha.2 (.inr hhead), fun hm => hr.2 (.inr (hrec hm))⟩
  case history =>
    obtain ⟨c, hcontent, hj⟩ := h.history
    refine ⟨⟨p, f, ps⟩ :: c, ?_, ⟨fun π hπ => (hps π hπ).1, hne, hnil, fun π hπ l hl hn => ?_⟩, hj⟩
    · rw [ht, hcontent]
      rfl
    · obtain ⟨q, hq⟩ := (hps π hπ).2.2.answered l hl hn
      exact Search.exists_entry_of_answersOf hcontent hq

section History

/-- A proof is filed under its head. -/
theorem mem_filed_iff (h : Consistent M s) {p : CallPattern} {f : Literal} {π : Proof} :
    π ∈ (content s.tables p).proofsOf f ↔ π ∈ s.recordsOf p ∧ π.head = f := by
  obtain ⟨c, hcont, hj⟩ := h.history
  rw [Search.recordsOf, hcont]
  exact hj.mem_proofsOf_contents

/-- Where no proofs are kept there are none. -/
theorem recordsOf_eq_nil (h : Consistent M s) (hm : w.mode = .datalog) (p : CallPattern) :
    s.recordsOf p = [] := by
  obtain ⟨c, hcont, hj⟩ := h.history
  rw [Search.recordsOf, hcont]
  rw [hm] at hj
  exact hj.records_eq_nil

/-- The positive premises of recorded proofs are answers of some table. -/
theorem exists_answer (h : Consistent M s) {p : CallPattern} {π : Proof} (hπ : π ∈ s.recordsOf p)
    {l : Literal} (hl : .relational l ∈ π.body) (hn : l.negated = false) :
    ∃ q, l ∈ s.answersOf q := by
  obtain ⟨c, hcont, hj⟩ := h.history
  simp only [Search.recordsOf, Search.answersOf, hcont] at hπ ⊢
  exact hj.exists_answer hπ hl hn

/-- What is news adds an answer or a proof. -/
theorem holdings_ssubset_of_isNews (h : Consistent M s) {p : CallPattern} {f : Literal}
    {ps : List Proof} (hps : ∀ π ∈ ps, π.head = f)
    (hnews : Resident.isNews (content s.tables p) f ps = true)
    (ht : content t.tables = Function.update (content s.tables) p
      (Resident.record (content s.tables p) f ps)) : s.holdings ⊂ t.holdings := by
  have ha {q g} := Search.mem_answersOf_of_put ht (q := q) (g := g)
  have hr {q π} := Search.mem_recordsOf_of_put ht (q := q) (π := π)
  have hsub : s.holdings ⊆ t.holdings :=
    Search.holdings_subset_iff.2 ⟨fun q g hg => ha.2 (.inr hg), fun q π hπ => hr.2 (.inr hπ)⟩
  rcases Resident.of_isNews hnews with hf | ⟨π, hπ, hnew⟩
  · exact Set.ssubset_iff_exists.2 ⟨hsub, (p, .inl f), ha.2 (.inl ⟨rfl, rfl⟩), hf⟩
  · refine Set.ssubset_iff_exists.2 ⟨hsub, (p, .inr π), hr.2 (.inl ⟨rfl, hπ⟩), fun hold => ?_⟩
    exact hnew (h.mem_filed_iff.2 ⟨hold, hps π hπ⟩)

end History

/-- A table that is complete has all required facts. -/
theorem mem_answersOf_of_complete (h : Consistent M s) {p : CallPattern} {f : Literal}
    (hp : p ∈ s.complete) (hf : f ∈ p.instances) (hr : f ∈ M.required) : f ∈ s.answersOf p := by
  obtain ⟨π, hπ, rfl, hsup⟩ := mem_consequences_iff.1 hr
  exact (h.complete hp hπ hf hsup).1

/-- Where patterns have been explored all together, their tables have all required facts. -/
theorem mem_answersOf_of_explored (h : Consistent M s) (hM : M.Lawful)
    (hE : ∀ p ∈ s.expanded, s.HasExplored M p) {f : Literal} (hf : f ∈ M.required) :
    ∀ p, p ∈ s.expanded ∨ p ∈ s.complete → f ∈ p.instances → f ∈ s.answersOf p := by
  -- by induction on the derivation: what the premises give is known, so the exploration goes on to
  -- the head
  induction hf with
  | @rule π hπ hpos hneg ih =>
    have hsup : π.Supported {g | ∀ q, q ∈ s.expanded ∨ q ∈ s.complete → g ∈ q.instances →
        g ∈ s.answersOf q} M.mustNegate := ⟨ih, hneg⟩
    rintro p (hp | hp) hf
    · exact ((hE p hp).reaches hπ (hM.counted_subset hπ) hf hsup fun g hg q hq hi => hg q hq hi).1
    · exact h.mem_answersOf_of_complete hp hf (.rule hπ hpos hneg)

/-- **Patterns that have been explored all together are complete.** -/
theorem complete_expanded (h : Consistent M s) (hM : M.Lawful)
    (hE : ∀ p ∈ s.expanded, s.HasExplored M p) (before : List CallPattern) :
    Consistent M { s with expanded := before, complete := s.expanded ++ s.complete } where
  nodup := h.nodup
  instances := h.instances
  relational := h.relational
  derivable := h.derivable
  proved := h.proved
  head_mem := h.head_mem
  mem_rules := h.mem_rules
  supported := h.supported
  negated hπ hl hn hc := List.mem_append_right _ (h.negated hπ hl hn hc)
  history := h.history
  complete {p π} hp hπ hi hs := by
    rcases List.mem_append.1 hp with hp | hp
    · refine (hE p hp).reaches hπ (hM.counted_subset hπ) hi hs fun g hg q hq hgi => ?_
      exact h.mem_answersOf_of_explored hM hE hg q hq hgi
    · exact h.complete hp hπ hi hs
  layered := by
    obtain ⟨rank, hrank⟩ := h.layered
    refine hrank.onTop fun p hp => (hE p hp).mono (fun _ => id) (fun _ => id) ?_ fun _ _ => trivial
    exact fun q hq g hg => h.mem_answersOf_of_explored hM hE hg.1 q hq hg.2

end Consistent

end ProbDatalog
