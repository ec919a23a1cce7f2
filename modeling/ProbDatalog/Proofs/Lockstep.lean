import ProbDatalog.Evaluable.Standard
import ProbDatalog.Proofs.Distribution
import ProbDatalog.Proofs.Interchange
import ProbDatalog.Proofs.Simulations

/-!
# Searches in lock-step

A search on one of two stores that agree does at every step what it does on the other. The one thing
that the stores may do differently is to list the proofs of a table in another order. This is read
only to gather a set of proofs, which does not depend on the order; but where tables cannot be read,
it decides which of them is come to first, and so which fault is reported. The steps are gone
through for any errors that are taken to be alike, such faults included, and for theories whose
evaluable predicates have errors that are.

* `Tables.Agree.proofsBelow_cases`: what is found does not depend on the order of listing.
* `Tables.SameOrUnread`: errors that may be reported in each other's place.
* `justification_inStep`: so proofs are gathered alike.
* `matches_simulation`: the searches simulate each other.
* `expand_inStep`: **all steps of an expansion go in lock-step.**
* `results_inStep`: calls have results that are alike.
* `results_alike_of_agree`: **calls have the same results on both stores**, but for such errors.
* `Journals.results_eq_resident`: on files and in memory, the same without exception.
-/

namespace ProbDatalog

/-! ## Reading in another order -/

namespace Tables

variable {σ τ : Type} [Tables σ] [Tables τ] {s : σ} {t : τ}

/-- What is found depends on nothing but what is read. -/
theorem proofsBelow_congr (hpatterns : patterns s = patterns t)
    (hrecorded : ∀ p, recorded s p = recorded t p) (f : Literal) :
    proofsBelow s f = proofsBelow t f := by
  have hlook : ∀ fact, Walk.look s fact = Walk.look t fact := fun fact => by
    funext w p
    simp only [Walk.look, Walk.table, hrecorded]
  have hstep : Walk.step s = Walk.step t := by
    funext w
    simp only [Walk.step, hpatterns, hlook]
  have hrun : ∀ n, Walk.run s n = Walk.run t n := fun n => by
    induction n with
    | zero => rfl
    | succ n ih =>
      funext w
      simp only [Walk.run, hstep, ih]
  simp only [proofsBelow, dependencyCount, readable, hpatterns, hrecorded, hrun]

namespace Agree

variable (h : Agree s t) {p : CallPattern} {f : Literal} {π : Proof} {e : StoreFault}

include h

theorem mem_readable_iff : π ∈ readable s p ↔ π ∈ readable t p := by
  rcases h.recorded p with ⟨l, l', hl, hl', hperm⟩ | ⟨e, he, he'⟩
  · rw [readable_eq hl, readable_eq hl', hperm.mem_iff]
  · rw [readable, readable, he, he']

theorem mem_proofsOf_iff : π ∈ proofsOf s f ↔ π ∈ proofsOf t f := by
  simp only [proofsOf, h.patterns, List.mem_flatMap, List.mem_filter, h.mem_readable_iff]

theorem below_eq : Below s = Below t := by
  funext a b
  simp only [Below, h.mem_proofsOf_iff]

theorem barred_iff : Barred s f e ↔ Barred t f e := by
  have hfault : ∀ p, Tables.recorded s p = .error e ↔ Tables.recorded t p = .error e := fun p => by
    rcases h.recorded p with ⟨l, l', hl, hl', -⟩ | ⟨e', he, he'⟩
    · simp [hl, hl']
    · rw [he, he']
  simp only [Barred, h.below_eq, h.patterns, hfault]

/-- **What is found does not depend on the order of listing**, nor does it whether anything is. -/
theorem proofsBelow_cases (f : Literal) :
    (∃ found, proofsBelow s f = .ok found ∧ proofsBelow t f = .ok found) ∨
      ∃ e e', proofsBelow s f = .error e ∧ proofsBelow t f = .error e' := by
  rcases hs : proofsBelow s f with e | found <;> rcases ht : proofsBelow t f with e' | found'
  · exact .inr ⟨e, e', rfl, rfl⟩
  · exact absurd (h.barred_iff.1 (barred_of_proofsBelow hs)) (not_barred_of_proofsBelow ht e)
  · exact absurd (h.barred_iff.2 (barred_of_proofsBelow ht)) (not_barred_of_proofsBelow hs e')
  · refine .inl ⟨found, rfl, congrArg Except.ok (Eq.symm ?_)⟩
    refine ProofSet.eq_of_mem_iff (isSorted_proofsBelow hs) (isSorted_proofsBelow ht) fun π => ?_
    rw [mem_proofsBelow_iff hs, mem_proofsBelow_iff ht, h.below_eq, h.mem_proofsOf_iff]

end Agree

theorem Sound.next {P : σ → Prop} (hP : Sound P) (h : P s) (op : Operation) :
    P (Operation.next s op) := by
  cases op with
  | get p =>
    obtain ⟨g, s', hs', h'⟩ := hP.get (p := p) h
    exact (congrArg (P ·.2) hs').mpr h'
  | put p f ps =>
    obtain ⟨news, s', hs', h'⟩ : ∃ news s', Tables.put s p f ps = (.ok news, s') ∧ P s' := hP.put h
    exact (congrArg (P ·.2) hs').mpr h'
  | _ => exact h

theorem Sound.after {P : σ → Prop} (hP : Sound P) (h : P s) (ops : List Operation) :
    P (Operation.after s ops) :=
  List.foldlRecOn (motive := P) ops _ h fun _ h op _ => hP.next h op

/-- Errors that are the same, or that are faults of tables which cannot be read, at a time when the
two stores list the proofs of some table in different orders. -/
inductive SameOrUnread (s : σ) (t : τ) : Error → Error → Prop
  | same (e : Error) : SameOrUnread s t e e
  | unread {ops : List Operation} {p q r : CallPattern} {e e' : StoreFault}
      (hp : recorded (Operation.after s ops) p = .error e)
      (hq : recorded (Operation.after t ops) q = .error e')
      (hr : recorded (Operation.after s ops) r ≠ recorded (Operation.after t ops) r) :
      SameOrUnread s t (.storage e) (.storage e')

/-- Where every table can be read, the errors are the same. -/
theorem SameOrUnread.eq_of_works {e e' : Error} (h : SameOrUnread s t e e') (ht : Works t) :
    e = e' := by
  cases h with
  | same => rfl
  | @unread ops _ q _ _ _ _ hq _ =>
    obtain ⟨P, hP, ht⟩ := ht
    obtain ⟨l, hl⟩ := hP.recorded (p := q) (hP.after ht ops)
    cases hq.symm.trans hl

/-- On one store a fault stands in the place of no other. -/
theorem SameOrUnread.eq_of_same {e e' : Error} (h : SameOrUnread s s e e') : e' = e := by
  cases h with
  | same => rfl
  | unread _ _ hr => exact absurd rfl hr

end Tables

/-! ## Steps -/

variable {σ τ α : Type} [Tables σ] [Tables τ]

/-- Searches that differ in nothing but the store, where the same has been done to two stores. -/
structure Search.Matches (s₀ : σ) (t₀ : τ) (s : Search σ) (t : Search τ) : Prop where
  tables : ∃ ops, s.tables = Operation.after s₀ ops ∧ t.tables = Operation.after t₀ ops
  expanded : s.expanded = t.expanded
  complete : s.complete = t.complete
  negating : s.negating = t.negating
  additions : s.additions = t.additions
  scope : s.scope = t.scope
  passes : s.passes = t.passes

theorem Search.Matches.start (s₀ : σ) (t₀ : τ) (scope : UInt32) :
    Matches s₀ t₀ (Search.start s₀ scope) (Search.start t₀ scope) :=
  ⟨⟨[], rfl, rfl⟩, rfl, rfl, rfl, rfl, rfl, rfl⟩

section Agreeing

variable {s₀ : σ} {t₀ : τ} {E : Error → Error → Prop} (h : Tables.Agree s₀ t₀)
  (hE : ∀ {e e'}, Tables.SameOrUnread s₀ t₀ e e' → E e e')

include h

theorem Search.Matches.agree {s : Search σ} {t : Search τ} (hst : Matches s₀ t₀ s t) :
    Tables.Agree s.tables t.tables := by
  obtain ⟨ops, hs, ht⟩ := hst.tables
  rw [hs, ht]
  exact h.after ops

namespace Searching

omit h in
/-- Steps that have the same result on searches that match, or fail for reasons that are alike, and
keep the searches so. -/
abbrev InStep (s₀ : σ) (t₀ : τ) (E : Error → Error → Prop) (x : Searching σ α)
    (y : Searching τ α) : Prop :=
  Relates (Search.Matches s₀ t₀) E x y Eq

include hE

/-- What a store lists in an order of its own is read only to gather a set. -/
theorem justification_inStep (l : Literal) :
    InStep s₀ t₀ E (justification l) (justification l) := by
  refine (Relates.readTables_alike fun s t hst => ?_).bind_same fun _ => .ofOption_same _
  have hagree := hst.agree h
  rcases hagree.proofsBelow_cases l.positive with hfound | ⟨e, e', hs, ht⟩
  · exact .inl hfound
  refine .inr ⟨e, e', hs, ht, ?_⟩
  obtain ⟨-, -, p, -, -, hp⟩ := Tables.barred_of_proofsBelow hs
  obtain ⟨-, -, q, -, -, hq⟩ := Tables.barred_of_proofsBelow ht
  obtain ⟨ops, hs', ht'⟩ := hst.tables
  -- the faults can only differ if some table is listed in different orders
  by_cases hreads : ∀ r, Tables.recorded s.tables r = Tables.recorded t.tables r
  · have heq := Tables.proofsBelow_congr hagree.patterns hreads l.positive
    obtain rfl := Except.error.inj (hs.symm.trans (heq.trans ht))
    exact hE (.same _)
  · obtain ⟨r, hr⟩ := not_forall.1 hreads
    rw [hs'] at hp hr
    rw [ht'] at hq hr
    exact hE (.unread hp hq hr)

/-- Stores that agree reply alike to what changes them. -/
theorem operation_inStep {f : σ → Except StoreFault α × σ} {g : τ → Except StoreFault α × τ}
    (op : Operation) (hf : ∀ s, (f s).2 = op.next s) (hg : ∀ t, (g t).2 = op.next t)
    (hr : ∀ s t, Tables.Agree s t → (f s).1 = (g t).1) :
    InStep s₀ t₀ E (onTables f) (onTables g) :=
  .onTables (fun e => hE (.same e)) fun s t hst => by
    obtain ⟨ops, hs, ht⟩ := hst.tables
    refine ⟨hr _ _ (hst.agree h), { hst with tables := ⟨ops ++ [op], ?_, ?_⟩ }⟩
    · rw [Operation.after_append, ← hs]
      exact hf _
    · rw [Operation.after_append, ← ht]
      exact hg _

/-- **A search on one store simulates one on another store that agrees.** -/
theorem matches_simulation : Simulation (Search.Matches s₀ t₀) E where
  refl e := hE (.same e)
  books h := { h with }
  congr h hb htables hscope htables' hscope' :=
    { hb with
      tables := by rw [htables, htables']; exact h.tables
      scope := hscope.trans (h.scope.trans hscope'.symm) }
  contains hst := (hst.agree h).contains
  patterns hst := (hst.agree h).patterns
  size hst := (hst.agree h).size
  get p := operation_inStep h hE (.get p) (fun _ => rfl) (fun _ => rfl) fun _ _ hst => hst.get p
  answers p := .readTables (fun e => hE (.same e)) fun _ _ hst => (hst.agree h).answers p
  justification l := justification_inStep h hE l

/-! ## Expansion -/

omit h hE in
theorem freshScope_inStep : InStep s₀ t₀ E freshScope freshScope := by
  refine .get_bind fun s t hst => ?_
  rw [hst.scope]
  refine (Relates.change ?_).bind_same fun _ => .pure rfl
  exact fun s t h => { h with scope := rfl }

section Calls

variable {w w' : Theory} (hw : w.EvaluatesAlike E w') {call : CallPattern → Searching σ Unit}
  {call' : CallPattern → Searching τ Unit}

include hw

section

variable (hcall : ∀ l, InStep s₀ t₀ E (call (.of l)) (call' (.of l))) (passes : Nat)

include hcall

theorem resolveLiteral_inStep (l : Literal) (s : Substitution) :
    InStep s₀ t₀ E (resolveLiteral w call passes l s) (resolveLiteral w' call' passes l s) := by
  unfold resolveLiteral
  dsimp only
  split
  · split
    · exact ((matches_simulation h hE).decideNegation hw passes hcall _).bind_same fun _ =>
        .pure rfl
    · exact .fail (hE (.same _))
  · refine (matches_simulation h hE).resolve hw (fun outcome => ?_) ?_
    · cases outcome <;> exact .pure rfl
    · exact (hcall _).bind_same fun _ => ((matches_simulation h hE).answers _).bind_same fun _ =>
        .pure rfl

theorem resolveBody_inStep (body : List Literal) (branch : Branch) :
    InStep s₀ t₀ E (resolveBody w call passes body branch)
      (resolveBody w' call' passes body branch) := by
  induction body generalizing branch with
  | nil => exact .pure rfl
  | cons l rest ih =>
    obtain ⟨s, premises⟩ := branch
    unfold resolveBody
    exact (resolveLiteral_inStep h hE hw hcall passes l s).bind_same fun nexts =>
      (Relates.mapM_same nexts fun next => ih _).bind_same fun _ => .pure rfl

omit hcall in
theorem addAnswer_inStep (p : CallPattern) (id : ClauseId) (c : Clause) (branch : Branch) :
    InStep s₀ t₀ E (addAnswer w p id c branch) (addAnswer w' p id c branch) := by
  unfold addAnswer
  dsimp only
  rw [hw.mode]
  split
  · refine (operation_inStep h hE (.put p _ _) (fun _ => rfl) (fun _ => rfl) fun s t hst =>
      hst.put p _ _).bind_same fun news => ?_
    split
    · exact (matches_simulation h hE).added
    · exact .pure rfl
  · exact .pure rfl

theorem tryClause_inStep (p : CallPattern) (id : ClauseId) (c : Clause) :
    InStep s₀ t₀ E (tryClause w call passes p id c) (tryClause w' call' passes p id c) := by
  unfold tryClause
  refine freshScope_inStep.bind_same fun scope => ?_
  dsimp only
  split
  · exact .pure rfl
  · exact (resolveBody_inStep h hE hw hcall passes _ _).bind_same fun branches =>
      .forM_same branches fun branch _ =>
        (addAnswer_inStep h hE hw p id _ branch).mono fun _ _ _ => trivial

end

variable (depth : Nat)

/-- **All steps of an expansion go in lock-step.** -/
theorem expand_inStep (p : CallPattern) :
    InStep s₀ t₀ E (expand w depth p) (expand w' depth p) := by
  induction depth generalizing p with
  | zero => exact .exhausted
  | succ depth ih =>
    exact (matches_simulation h hE).expandOnce hw depth p fun x _ =>
      (tryClause_inStep h hE hw (fun _ => ih _) depth p x.1 x.2).mono fun _ _ _ => trivial

theorem solve_inStep (q : Literal) : InStep s₀ t₀ E (solve w depth q) (solve w' depth q) :=
  (matches_simulation h hE).solve hw (fun _ => expand_inStep h hE hw depth _) q

theorem probability_inStep [Weight α] (l : Literal) :
    InStep s₀ t₀ E (probability w depth α l) (probability w' depth α l) :=
  (matches_simulation h hE).probability hw (fun _ => expand_inStep h hE hw depth _) l

end Calls

end Searching

/-! ## Calls -/

include hE in
/-- **Calls have results that are alike** on stores that agree, over theories that differ in nothing
but the errors of evaluable predicates. -/
theorem results_inStep {w w' : Theory} (hw : w.EvaluatesAlike E w') (α : Type) [Weight α]
    (scope : UInt32) (calls : List (Nat × Call)) :
    List.Forall₂ (Searching.Alike E Eq) (Call.results w α (Search.start s₀ scope) calls)
      (Call.results w' α (Search.start t₀ scope) calls) :=
  (Searching.matches_simulation h hE).results hw
    (fun depth _ => Searching.expand_inStep h hE hw depth _) (.start s₀ t₀ scope) calls

end Agreeing

/-- **A search can hardly tell stores apart that agree.** Whatever is called, in whatever order, and
whether it succeeds or fails, a call has the same result on both, or fails on both for the same
reason. Only if there are tables that cannot be read, and other tables whose proofs the stores list
in different orders, may the reasons be faults of different tables that cannot be read. -/
theorem results_alike_of_agree {s : σ} {t : τ} (h : Tables.Agree s t) (w : Theory) (α : Type)
    [Weight α] (scope : UInt32) (calls : List (Nat × Call)) :
    List.Forall₂ (Searching.Alike (Tables.SameOrUnread s t) Eq)
      (Call.results w α (Search.start s scope) calls)
      (Call.results w α (Search.start t scope) calls) :=
  results_inStep h id (.refl .same w) α scope calls

/-! ## Shelves -/

/-- Tables in memory, where some cannot be listed, and the others may be listed backwards. -/
structure Shelf where
  content : Resident
  /-- Why a table cannot be listed. -/
  fault : CallPattern → Option StoreFault
  backwards : Bool

namespace Shelf

/-- Put other tables on the shelf. -/
def refill (s : Shelf) (content : Resident) : Shelf := { s with content }

instance instTables : Tables Shelf where
  get s p := (Tables.get s.content p).map id s.refill
  contains s := Tables.contains s.content
  put s p f ps := (Tables.put s.content p f ps).map id s.refill
  answers s := Tables.answers s.content
  proofs s := Tables.proofs s.content
  recorded s p :=
    match s.fault p with
    | some e => .error e
    | none => (Tables.recorded s.content p).map fun l => if s.backwards then l.reverse else l
  patterns s := Tables.patterns s.content
  size s := Tables.size s.content
  close s := (Tables.close s.content).map id s.refill

theorem after_eq (s : Shelf) (ops : List Operation) :
    Operation.after s ops = s.refill (Operation.after s.content ops) := by
  induction ops generalizing s with
  | nil => rfl
  | cons op rest ih =>
    have hnext : op.next s = s.refill (op.next s.content) := by cases op <;> rfl
    show Operation.after (op.next s) rest = s.refill (Operation.after (op.next s.content) rest)
    rw [hnext, ih]
    rfl

theorem perm_of_listing (backwards : Bool) (l : List Proof) :
    (if backwards then l.reverse else l).Perm l := by
  cases backwards with
  | false => exact .refl l
  | true => exact l.reverse_perm

/-- Shelves with the same tables and the same faults agree, whichever way they list. -/
theorem agree (s : Shelf) (backwards : Bool) : Tables.Agree s { s with backwards } := by
  intro before op
  rw [after_eq, after_eq]
  generalize Operation.after s.content before = content
  cases op with
  | recorded p =>
    simp only [Operation.reply, Tables.recorded, refill]
    cases s.fault p with
    | some e => exact .same _
    | none => exact .listed ((perm_of_listing _ _).trans (perm_of_listing _ _).symm)
  | _ => exact .same _

open Birds

/-- The grass is wet if it rains, and if the sprinkler is on. -/
def theory : Theory := ⟨(Program.empty.assertAll
  [⟨.of "wet" [], [.of "rain" []], .certain⟩, ⟨.of "wet" [], [.of "sprinkler" []], .certain⟩,
    ⟨.of "rain" [], [], half⟩, ⟨.of "sprinkler" [], [], half⟩]).2, .standard, .problog⟩

/-- A shelf without tables that will not list what it has on rain and on the sprinkler. -/
def sealed (backwards : Bool) : Shelf where
  content := .empty
  fault p := if p.literal.predicate = "wet" then none else some (.refused p.literal.predicate)
  backwards

/-- The two shelves agree on every operation. The reasons for wet grass are looked up in the order
in which they are listed, and the first one that cannot be is reported. -/
theorem results_differ : Tables.Agree (sealed false) (sealed true) ∧
    Call.results theory Float (.start (sealed false) 0) [(5, .probability (.of "wet" []))] =
      [.error (.failed (.storage (.refused "rain")))] ∧
    Call.results theory Float (.start (sealed true) 0) [(5, .probability (.of "wet" []))] =
      [.error (.failed (.storage (.refused "sprinkler")))] := by
  have hrun : ∀ {l : List (Except Halt (Call.Result Float))} {h : Halt},
      l.map (Except.map fun _ => ()) = [.error h] → l = [.error h] := fun hl => by
    obtain ⟨r, rfl, hr⟩ := List.map_eq_singleton_iff.1 hl
    rw [Except.eq_error_of_map_eq_error hr]
  exact ⟨agree _ _, hrun (by decide +kernel), hrun (by decide +kernel)⟩

end Shelf

/-! ## Showers -/

namespace Showers

open Birds Journal

/-- It may rain, on Monday for two reasons, and it is dry on days without rain. -/
def clauses : List Clause :=
  [⟨about "rain" "mon", [], half⟩, ⟨about "rain" "tue", [], half⟩, ⟨about "rain" "mon", [], half⟩,
    ⟨about "day" "mon", [], .certain⟩,
    ⟨general "dry", [general "day", (general "rain").negate], .certain⟩]

/-- The theory of showers. -/
def theory : Theory := ⟨(Program.empty.assertAll clauses).2, .empty, .problog⟩

/-- Journals whose records all share one digest. -/
def oneDigest : Format (Option Record) :=
  { Format.plain with factDigest := fun _ => 0, proofDigest := fun _ => 0 }

theorem oneDigest_reads (r : Record) : oneDigest.Reads r :=
  ⟨rfl, by simp [oneDigest, Format.plain], by simp [oneDigest, Format.plain]⟩

/-- What a store lists after it has been asked when it rains. -/
def listed {σ : Type} [Tables σ] (s : σ) : Except StoreFault (List Proof) :=
  let asked := (Searching.solve theory 5 (general "rain") (.start s 0)).2
  Tables.recorded asked.tables (.of (general "rain"))

/-- The two stores list the reasons for rain in different orders, and the results are the same. -/
theorem results_agree :
    listed (Journals.empty : Journals oneDigest) ≠ listed Resident.empty ∧
      let calls : List (Nat × Call) :=
        [(5, .solve (general "rain")), (5, .solve (general "dry")),
          (5, .justification (about "dry" "mon")), (5, .probability (about "dry" "mon")),
          (5, .effort)]
      List.Forall₂ (Searching.Alike
          (Tables.SameOrUnread (Journals.empty : Journals oneDigest) Resident.empty) Eq)
        (Call.results theory Float (.start (Journals.empty : Journals oneDigest) 0) calls)
        (Call.results theory Float (.start Resident.empty 0) calls) :=
  ⟨by decide +kernel,
    results_alike_of_agree (Journals.agree_resident oneDigest_reads) theory Float 0 _⟩

end Showers

/-- **A search cannot tell tables on files from tables in memory**, as long as what is written reads
back. -/
theorem Journals.results_eq_resident {α : Type} [DecidableEq α] {F : Journal.Format α}
    (hF : ∀ r, F.Reads r) (w : Theory) (β : Type) [Weight β] (scope : UInt32)
    (calls : List (Nat × Call)) :
    Call.results w β (Search.start (empty : Journals F) scope) calls =
      Call.results w β (Search.start Resident.empty scope) calls := by
  have hresults := results_inStep (E := Eq) (agree_resident hF)
    (fun he => he.eq_of_works (Resident.works _)) (.refl (fun _ => rfl) w) β scope calls
  have hequal := hresults.imp fun _ _ => Searching.alike_eq_iff.1
  rwa [List.forall₂_eq_eq_eq] at hequal

end ProbDatalog
