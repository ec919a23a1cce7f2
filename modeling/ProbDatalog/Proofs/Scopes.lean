import ProbDatalog.Proofs.Lockstep
import ProbDatalog.Proofs.Sessions
import ProbDatalog.Proofs.Ways

/-!
# Searches that number scopes differently

Each use of a clause has a scope of its own, and scopes start over when there are no more. Two
searches on one store that count scopes from different numbers do the same at every step: the
bindings of one use of a clause mix its scope with that of the pattern only, which is never given
to a clause, so the bindings of both searches differ by an exchange of two scopes. What is put into
tables is ground and the same. It makes no difference which scopes are in use elsewhere, so neither
does it matter when scopes start over.

* `Tables.KeepsFacts`: stores that list facts as long as facts are put.
* `Rescoped`, `Unscoped`: steps that do the same in any two scopes.
* `tryClause_rescoped`: clauses are tried alike in all scopes.
* `upToScope_simulation`: the searches simulate each other.
* `expand_unscoped`, `Call.run_unscoped`: **steps of a search do the same in all scopes.**
* `results_in_any_scope`: **calls have the same results in all scopes**, and leave the same tables.
-/

namespace ProbDatalog

variable {σ τ α β : Type} [Tables σ] [Tables τ]

/-! ## Stores of facts -/

/-- An operation that puts nothing but a fact. -/
def Operation.PutsFact : Operation → Prop
  | put _ f _ => f.isGround = true
  | _ => True

/-- A store that lists nothing but facts as answers, as long as nothing else is put into it. -/
def Tables.KeepsFacts (s : σ) : Prop :=
  ∀ ops : List Operation, (∀ op ∈ ops, op.PutsFact) →
    ∀ p l, Tables.answers (Operation.after s ops) p = .ok l → ∀ f ∈ l, f.isGround = true

namespace Tables.KeepsFacts

variable {s : σ} {t : τ}

theorem next (h : KeepsFacts s) (op : Operation) (hop : op.PutsFact) :
    KeepsFacts (Operation.next s op) :=
  fun ops hops => h (op :: ops) (List.forall_mem_cons.2 ⟨hop, hops⟩)

theorem isGround (h : KeepsFacts s) {p : CallPattern} {l : List Literal}
    (hl : Tables.answers s p = .ok l) : ∀ f ∈ l, f.isGround = true :=
  h [] (by simp) p l hl

/-- A store that agrees with one that keeps facts keeps facts, too. -/
theorem of_agree (h : Agree s t) (ht : KeepsFacts t) : KeepsFacts s := by
  intro ops hops p l hl
  have hr := (h ops (.answers p)).eq (by simp [Operation.reply])
  exact ht ops hops p l ((Reply.answers.inj hr).symm.trans hl)

/-- Lawful stores keep facts if they have nothing else at first. -/
theorem of_content [LawfulTables σ] (h : ∀ p, ∀ f ∈ (content s p).keys, f.isGround = true) :
    KeepsFacts s := by
  intro ops hops p l hl
  rw [LawfulTables.answers_ok hl]
  clear hl
  -- an operation leaves a store that has nothing but facts, so the rest of them do, too
  induction ops generalizing s with
  | nil => exact h p
  | cons op rest ih =>
    obtain ⟨hop, hrest⟩ := List.forall_mem_cons.1 hops
    refine ih (s := Operation.next s op) ?_ hrest
    cases op with
    | get q =>
      have hget : content (Operation.next s (.get q)) = content s := LawfulTables.get_content s q
      rwa [hget]
    | put q f ps =>
      show ∀ p, ∀ g ∈ (content (Tables.put s q f ps).2 p).keys, g.isGround = true
      rcases hput : Tables.put s q f ps with ⟨_ | news, s'⟩
      · rwa [LawfulTables.put_error hput]
      · rw [(LawfulTables.put_ok hput).2]
        intro p g hg
        by_cases hp : p = q
        · subst hp
          rw [Function.update_self, Resident.mem_keys_record] at hg
          rcases hg with rfl | hg
          · exact hop
          · exact h p g hg
        · rw [Function.update_of_ne hp] at hg
          exact h p g hg
    | _ => exact h

theorem of_isFresh [LawfulTables σ] (h : IsFresh s) : KeepsFacts s :=
  .of_content fun p f hf => by
    rw [h p] at hf
    cases hf

end Tables.KeepsFacts

/-- Files keep facts where what is written reads back. -/
theorem Journals.keepsFacts {κ : Type} [DecidableEq κ] {F : Journal.Format κ}
    (hF : ∀ r, F.Reads r) : Tables.KeepsFacts (empty : Journals F) :=
  .of_agree (agree_resident hF) (.of_isFresh fun _ => rfl)

/-! ## Steps -/

/-- Searches in the same state but for the scope that was used last, on a store that keeps facts. -/
structure Search.UpToScope (s t : Search σ) : Prop where
  facts : Tables.KeepsFacts s.tables
  tables : s.tables = t.tables
  expanded : s.expanded = t.expanded
  complete : s.complete = t.complete
  negating : s.negating = t.negating
  additions : s.additions = t.additions
  passes : s.passes = t.passes

/-- Errors that say the same, up to the names of the variables that they show. -/
def Error.UpToNames (e e' : Error) : Prop := ∃ ρ : Equiv.Perm Variable, e' = e.renameVars ρ

theorem Error.UpToNames.refl (e : Error) : e.UpToNames e :=
  ⟨Equiv.refl Variable, e.renameVars_refl.symm⟩

namespace Searching

/-- Steps that come to the same outcome in any two scopes, with results that `Q` relates. -/
abbrev Rescoped (x : Searching σ α) (y : Searching σ β) (Q : α → β → Prop) : Prop :=
  Relates Search.UpToScope Error.UpToNames x y Q

/-- A step that comes to the same outcome in all scopes. -/
abbrev Unscoped (x : Searching σ α) : Prop := Rescoped x x Eq

/-- An operation on the tables that keeps facts. -/
theorem onTables_unscoped {f : σ → Except StoreFault α × σ}
    (h : ∀ s, Tables.KeepsFacts s → Tables.KeepsFacts (f s).2) : Unscoped (onTables f) :=
  .onTables .refl fun s t hst => by
    rw [← hst.tables]
    exact ⟨rfl, { hst with facts := h _ hst.facts, tables := rfl }⟩

theorem readTables_unscoped (f : σ → Except StoreFault α) : Unscoped (readTables f) :=
  .readTables .refl fun _ _ hst => congrArg f hst.tables

/-- **A search in one scope simulates one in another scope.** -/
theorem upToScope_simulation : Simulation (σ := σ) Search.UpToScope Error.UpToNames where
  refl := .refl
  books h := { h with }
  congr h hb htables _ htables' _ :=
    { hb with
      facts := htables ▸ h.facts
      tables := htables.trans (h.tables.trans htables'.symm) }
  contains h _ := by rw [h.tables]
  patterns h := by rw [h.tables]
  size h := by rw [h.tables]
  get p := onTables_unscoped fun _ hs => hs.next (.get p) trivial
  answers p := readTables_unscoped _
  justification l := (readTables_unscoped _).bind_same fun _ => .ofOption_same _

/-- Clauses never get scope `0`, which patterns have. -/
theorem freshScope_rescoped : Rescoped (freshScope : Searching σ UInt32) freshScope
    fun n k => n ≠ 0 ∧ k ≠ 0 :=
  fun _ _ hst => ⟨.ok ⟨max_one_ne_zero _, max_one_ne_zero _⟩, { hst with }⟩

theorem answers_rescoped (p : CallPattern) :
    Rescoped (readTables (Tables.answers · p) : Searching σ (List Literal))
      (readTables (Tables.answers · p)) fun l l' => l = l' ∧ ∀ f ∈ l, f.isGround = true := by
  intro s t hst
  unfold readTables onTables
  rw [← hst.tables]
  dsimp only
  cases hl : Tables.answers s.tables p with
  | ok l => exact ⟨.ok ⟨rfl, hst.facts.isGround hl⟩, { hst with tables := rfl }⟩
  | error e => exact ⟨.failed (.refl _), { hst with tables := rfl }⟩

/-! ## Expansion -/

section Calls

variable {w : Theory} {call : CallPattern → Searching σ Unit} (hcall : ∀ l, Unscoped (call (.of l)))
variable (passes : Nat) (hreg : w.registry = .standard) {ρ : Equiv.Perm Variable}

include hcall hreg

/-- The ways to make a literal hold differ by the names of variables. -/
theorem resolveLiteral_rescoped (l : Literal) {b : Substitution} (hb : b.Acyclic) :
    Rescoped (resolveLiteral w call passes l b)
      (resolveLiteral w call passes (l.renameVars ρ) (b.renameVars ρ)) (SameWays ρ) := by
  cases hn : l.negated with
  | true =>
    have hleft : (b.apply l).negated = true := hn
    have hright : ((b.apply l).renameVars ρ).negated = true := hn
    unfold resolveLiteral
    dsimp only
    rw [Substitution.apply_renameVars, if_pos hleft, if_pos hright, Literal.isGround_renameVars]
    by_cases hground : (b.apply l).isGround = true
    · rw [if_pos hground, if_pos hground, Literal.renameVars_of_isGround hground]
      refine (upToScope_simulation.decideNegation (.refl .refl w) passes hcall _).bind ?_
      rintro holds _ rfl
      refine .pure ?_
      cases holds <;> simp [SameWays, renameVars, hb]
    · -- the error shows the literal, with variables of the clause
      rw [if_neg hground, if_neg hground]
      exact .fail ⟨ρ, rfl⟩
  | false =>
    exact resolveLiteral_relates hreg hreg (fun ρ _ => ⟨ρ, rfl⟩)
      (fun l => (hcall l).mono fun _ _ _ => trivial) answers_rescoped hn hb

omit hcall hreg in
/-- The heads that two ways through a body have led to are put alike. -/
theorem addAnswer_rescoped (p : CallPattern) (id : ClauseId) (c : Clause) (branch : Branch) :
    Rescoped (addAnswer w p id c branch : Searching σ Unit)
      (addAnswer w p id (c.renameVars ρ) (renameVars ρ branch)) Eq := by
  have hhead : (renameVars ρ branch).1.apply (c.renameVars ρ).head =
      (branch.1.apply c.head).renameVars ρ := Substitution.apply_renameVars _ _
  unfold addAnswer
  dsimp only
  rw [hhead, Literal.isGround_renameVars]
  by_cases hground : (branch.1.apply c.head).isGround = true
  · rw [if_pos hground, if_pos hground, Literal.renameVars_of_isGround hground]
    refine (onTables_unscoped fun s hs => hs.next (.put p _ _) hground).bind_same fun news => ?_
    split
    · exact upToScope_simulation.added
    · exact .pure rfl
  · rw [if_neg hground, if_neg hground]
    exact .pure rfl

/-- **Clauses are tried alike in all scopes.** -/
theorem tryClause_rescoped (l : Literal) (id : ClauseId) (c : Clause) :
    Rescoped (tryClause w call passes (.of l) id c) (tryClause w call passes (.of l) id c)
      fun _ _ => True :=
  tryClause_relates freshScope_rescoped
    (fun _ _ b _ _ hs => resolveLiteral_rescoped hcall passes hreg b hs)
    fun _ _ branch => (addAnswer_rescoped (.of l) id _ branch).mono fun _ _ _ => trivial

omit hcall in
/-- **Expansion does the same in all scopes.** -/
theorem expand_unscoped (depth : Nat) (l : Literal) :
    Unscoped (expand w depth (.of l) : Searching σ Unit) := by
  induction depth generalizing l with
  | zero => exact .exhausted
  | succ depth ih =>
    exact upToScope_simulation.expandOnce (.refl .refl w) depth (.of l) fun x _ =>
      tryClause_rescoped ih depth hreg l x.1 x.2

end Calls

end Searching

/-! ## Calls -/

theorem Search.UpToScope.eq {s t : Search σ} (h : UpToScope s t) :
    t = { s with scope := t.scope } := by
  obtain ⟨tables, expanded, complete, negating, additions, scope, passes⟩ := t
  obtain ⟨-, rfl, rfl, rfl, rfl, rfl, rfl⟩ := h
  rfl

section Calls

variable {w : Theory} (hreg : w.registry = .standard)

include hreg

/-- **Calls do the same in all scopes.** -/
theorem Call.run_unscoped (α : Type) [Weight α] (depth : Nat) (c : Call) :
    Searching.Unscoped (c.run w α depth : Searching σ (Call.Result α)) :=
  Searching.upToScope_simulation.run (.refl .refl w) (Searching.expand_unscoped hreg depth) c

namespace Search.UpToScope

variable {s t : Search σ} (h : UpToScope s t)

include h

theorem results (α : Type) [Weight α] (calls : List (Nat × Call)) :
    List.Forall₂ (Searching.Alike Error.UpToNames Eq) (Call.results w α s calls)
      (Call.results w α t calls) :=
  Searching.upToScope_simulation.results (.refl .refl w) (Searching.expand_unscoped hreg) h calls

theorem leave (calls : List (Nat × Call)) :
    UpToScope (Call.leave w s calls) (Call.leave w t calls) := by
  unfold Call.leave
  induction calls generalizing s t with
  | nil => exact h
  | cons call rest ih =>
    obtain ⟨depth, c⟩ := call
    exact ih (Call.run_unscoped hreg Float depth c s t h).2

end Search.UpToScope

/-- **It makes no difference from which scope a search counts.** Whatever is called, and in whatever
order, the same calls succeed; their results are the same, and so are the errors of the others but
for the names of the variables that they show. The searches are left with the same tables, and
differ in nothing but the scope. -/
theorem results_in_any_scope {s : Search σ} (hs : Tables.KeepsFacts s.tables) (α : Type) [Weight α]
    (n m : UInt32) (calls : List (Nat × Call)) :
    List.Forall₂ (Searching.Alike Error.UpToNames Eq)
        (Call.results w α { s with scope := n } calls)
        (Call.results w α { s with scope := m } calls) ∧
      ∃ last, Call.leave w { s with scope := m } calls =
        { Call.leave w { s with scope := n } calls with scope := last } := by
  have h : Search.UpToScope { s with scope := n } { s with scope := m } :=
    ⟨hs, rfl, rfl, rfl, rfl, rfl, rfl⟩
  exact ⟨h.results hreg α calls, _, (h.leave hreg calls).eq⟩

end Calls

namespace Showers

open Birds

/-- Rain on any day. -/
def anyRain : Literal := .of "rain" [.var ⟨"Y", 0⟩]

/-- The theory of showers with a rule that asks too early whether there is no rain. -/
def hasty : Theory :=
  ⟨(Program.empty.assertAll (clauses ++
    [⟨general "bright", [general "day", anyRain.negate, anyRain], .certain⟩])).2,
    .standard, .problog⟩

/-- A search that has found nothing. -/
def early : Search Resident := .start .empty 0

/-- The same where there is one more scope before they start over. -/
def late : Search Resident := .start .empty 4294967294

/-- Questions about the weather, the hasty one first. -/
def forecast : List (Nat × Call) :=
  [(5, .solve (general "bright")), (5, .solve (general "dry")), (5, .proofs (general "dry")),
    (5, .probability (about "dry" "mon")), (5, .effort)]

/-- Scopes start over in the second search. Only the error of the hasty rule tells the searches
apart, as it shows a variable of the clause. -/
theorem results_after_last_scope :
    Tables.KeepsFacts early.tables ∧ hasty.registry = .standard ∧
    (Searching.solve hasty 5 (general "dry") late).1 = .ok [about "dry" "mon"] ∧
    (Searching.solve hasty 5 (general "dry") late).2.scope = 9 ∧
    (Searching.solve hasty 5 (general "bright") early).1 ≠
      (Searching.solve hasty 5 (general "bright") late).1 ∧
    List.Forall₂ (Searching.Alike Error.UpToNames Eq) (Call.results hasty Float early forecast)
      (Call.results hasty Float late forecast) ∧
    ∃ last, Call.leave hasty late forecast =
      { Call.leave hasty early forecast with scope := last } := by
  have hfacts : Tables.KeepsFacts early.tables := .of_isFresh fun _ => rfl
  exact ⟨hfacts, rfl, by decide +kernel, by decide +kernel, by decide +kernel,
    results_in_any_scope rfl hfacts Float 0 4294967294 forecast⟩

end Showers

end ProbDatalog
