import ProbDatalog.Proofs.Deepening
import ProbDatalog.Proofs.Growth
import ProbDatalog.Proofs.Modes
import ProbDatalog.Proofs.Ways

/-!
# Searches side by side

Two searches of a program without negation, in any two modes, do the same wherever their tables hold
the same answers. They number the scopes of clauses as they like, and one of them may keep proofs
where the other one does not: each entry that one puts, the other one puts as well, up to its
proofs.

* `Abreast`: searches that have put the same since they started.
* `addAnswer_keepsAbreast`, `tryClause_keepsAbreast`: what is put, and what a clause leads to.
* `expand_keepsAbreast`: **calls keep searches abreast.**
-/

namespace ProbDatalog

open Searching

/-! ## Searches side by side -/

namespace Search

/-- What a search has put since `s`, newest first, on top of a chronicle of the tables of `s`. -/
structure Logs (s : Search Resident) (older log : Chronicle) (u : Search Resident) : Prop where
  tables : content u.tables = (log ++ older).contents
  additions : u.additions = s.additions + older.growth log
  complete : u.complete = s.complete

/-- Two searches whose tables have come of chronicles and hold the same answers, and which have
completed the same patterns. -/
structure Level (s s' : Search Resident) (older older' : Chronicle) : Prop where
  tables : content s.tables = older.contents
  tables' : content s'.tables = older'.contents
  answers : ∀ p, (older.contents p).keys = (older'.contents p).keys
  ground : ∀ p, ∀ f ∈ (older.contents p).keys, f.isGround = true
  complete : s.complete = s'.complete

/-- Two searches that have put the same answers since `s` and `s'`, each as its mode has it, and
have come to the same patterns. -/
structure Abreast (m m' : Mode) (s s' : Search Resident) (older older' : Chronicle)
    (u v : Search Resident) : Prop where
  logged : ∃ log : Chronicle, (∀ e ∈ log, e.fact.isGround = true) ∧
    s.Logs older (log.map (.inMode m)) u ∧ s'.Logs older' (log.map (.inMode m')) v
  expanded : u.expanded = v.expanded

variable {s s' u v : Search Resident} {older older' log : Chronicle} {m m' : Mode}

/-- Searches that have put the same answers are level. -/
theorem Abreast.level (h : Level s s' older older') (hab : Abreast m m' s s' older older' u v) :
    ∃ log : Chronicle,
      Level u v (log.map (.inMode m) ++ older) (log.map (.inMode m') ++ older') := by
  obtain ⟨⟨log, hground, hu, hv⟩, -⟩ := hab
  refine ⟨log, hu.tables, hv.tables, Chronicle.keys_inMode h.answers m m' log, ?_, ?_⟩
  · intro p f hf
    obtain ⟨e, he, hp, rfl⟩ := Chronicle.mem_keys_contents.1 hf
    rcases List.mem_append.1 he with he | he
    · obtain ⟨e', he', rfl⟩ := List.mem_map.1 he
      simpa using hground e' he'
    · exact h.ground p _ (Chronicle.mem_keys_contents.2 ⟨e, he, hp, rfl⟩)
  · rw [hu.complete, hv.complete, h.complete]

theorem Logs.congr (h : s.Logs older log u) (ht : content v.tables = content u.tables)
    (ha : v.additions = u.additions) (hc : v.complete = u.complete) : s.Logs older log v :=
  ⟨ht.trans h.tables, ha.trans h.additions, hc.trans h.complete⟩

/-- One more entry is put. -/
theorem Logs.put (h : s.Logs older log u) (e : Entry) : ∃ w, (do
      if ← onTables (Tables.put · e.pattern e.fact e.proofs) then
        modify fun s => { s with additions := s.additions + 1 } : Searching Resident Unit) u =
      (.ok (), w) ∧ s.Logs older (e :: log) w ∧ w.expanded = u.expanded := by
  have hnews : Chronicle.isNews (log ++ older) e =
      Resident.isNews (content u.tables e.pattern) e.fact e.proofs := by
    rw [h.tables]
    rfl
  have hcontent : content (Tables.put u.tables e.pattern e.fact e.proofs).2 =
      Chronicle.contents (e :: log ++ older) := by
    have hput : content (Tables.put u.tables e.pattern e.fact e.proofs).2 =
        Function.update (content u.tables) e.pattern
          (Resident.record (content u.tables e.pattern) e.fact e.proofs) :=
      (LawfulTables.put_ok rfl).2
    rw [hput, h.tables]
    rfl
  have hrun : (onTables (Tables.put · e.pattern e.fact e.proofs) : Searching Resident Bool) u =
      (.ok (Chronicle.isNews (log ++ older) e),
        { u with tables := (Tables.put u.tables e.pattern e.fact e.proofs).2 }) := by
    rw [hnews]
    rfl
  rw [bind_run, hrun]
  cases hn : Chronicle.isNews (log ++ older) e with
  | true =>
    refine ⟨_, rfl, ⟨hcontent, ?_, h.complete⟩, rfl⟩
    simp [Chronicle.growth, hn, h.additions, Nat.add_assoc]
  | false =>
    refine ⟨_, rfl, ⟨hcontent, ?_, h.complete⟩, rfl⟩
    simp [Chronicle.growth, hn, h.additions]

end Search

/-! ## Steps -/

namespace Searching

variable {α β γ δ : Type} {m m' : Mode} {s s' : Search Resident} {older older' : Chronicle}
variable {Q : α → β → Prop}

/-- Steps that keep searches abreast, with results that `Q` relates. -/
abbrev KeepsAbreast (m m' : Mode) (s s' : Search Resident) (older older' : Chronicle)
    (x : Searching Resident α) (y : Searching Resident β) (Q : α → β → Prop) : Prop :=
  Relates (Search.Abreast m m' s s' older older') (fun _ _ => True) x y Q

/-- Scopes of clauses are never `0`. -/
theorem freshScope_keepsAbreast :
    KeepsAbreast m m' s s' older older' freshScope freshScope fun n k => n ≠ 0 ∧ k ≠ 0 := by
  rintro u v ⟨⟨log, hg, hu, hv⟩, hexp⟩
  exact ⟨.ok ⟨max_one_ne_zero _, max_one_ne_zero _⟩,
    ⟨log, hg, hu.congr rfl rfl rfl, hv.congr rfl rfl rfl⟩, hexp⟩

/-- Creating a table without answers makes no difference to one of the searches. -/
theorem get_keepsAbreast_left {x : Searching Resident α} {y : Searching Resident β}
    (h : KeepsAbreast m m' s s' older older' x y Q) (p : CallPattern) :
    KeepsAbreast m m' s s' older older' (onTables (Tables.get · p) >>= fun _ => x) y Q := by
  rintro u v ⟨⟨log, hg, hu, hv⟩, hexp⟩
  exact h { u with tables := (Tables.get u.tables p).2 } v
    ⟨⟨log, hg, hu.congr (LawfulTables.get_content _ p) rfl rfl, hv⟩, hexp⟩

/-- Creating a table without answers makes no difference to the other search. -/
theorem get_keepsAbreast_right {x : Searching Resident α} {y : Searching Resident β}
    (h : KeepsAbreast m m' s s' older older' x y Q) (p : CallPattern) :
    KeepsAbreast m m' s s' older older' x (onTables (Tables.get · p) >>= fun _ => y) Q := by
  rintro u v ⟨⟨log, hg, hu, hv⟩, hexp⟩
  exact h u { v with tables := (Tables.get v.tables p).2 }
    ⟨⟨log, hg, hu, hv.congr (LawfulTables.get_content _ p) rfl rfl⟩, hexp⟩

variable (hlevel : Search.Level s s' older older')

include hlevel

/-- Both searches read the same answers. -/
theorem answers_keepsAbreast (p : CallPattern) : KeepsAbreast m m' s s' older older'
    (readTables (Tables.answers · p)) (readTables (Tables.answers · p))
    fun l l' => l = l' ∧ ∀ f ∈ l, f.isGround = true := by
  intro u v huv
  obtain ⟨log, hl⟩ := huv.level hlevel
  have hu : Tables.answers u.tables p = .ok (content u.tables p).keys := rfl
  have hv : Tables.answers v.tables p = .ok (content v.tables p).keys := rfl
  unfold readTables onTables
  simp only [hu, hv]
  refine ⟨.ok ⟨?_, ?_⟩, huv⟩
  · rw [hl.tables, hl.tables', hl.answers]
  · rw [hl.tables]
    exact hl.ground p

theorem enter_keepsAbreast (p : CallPattern) :
    KeepsAbreast m m' s s' older older' (enter p) (enter p) Eq := by
  intro u v huv
  obtain ⟨_, hl⟩ := huv.level hlevel
  obtain ⟨⟨log, hg, hu, hv⟩, hexp⟩ := huv
  have hcond : (u.complete.contains p || u.expanded.contains p) =
      (v.complete.contains p || v.expanded.contains p) := by
    rw [hl.complete, hexp]
  unfold enter
  rw [hcond]
  split
  · exact ⟨.ok rfl, ⟨log, hg, hu, hv⟩, hexp⟩
  · exact ⟨.ok rfl, ⟨log, hg, hu.congr rfl rfl rfl, hv.congr rfl rfl rfl⟩,
      congrArg (p :: ·) hexp⟩

end Searching

/-! ## Expansion -/

theorem Program.clause?_of_mem_candidates {p : Program} {l : Literal} {x : ClauseId × Clause}
    (h : x ∈ p.candidates l) : p.clause? x.1 = some x.2 := by
  obtain ⟨id, -, hid⟩ := List.mem_filterMap.1 h
  obtain ⟨c, hc, rfl⟩ := Option.map_eq_some_iff.1 hid
  exact hc

namespace Searching

/-- The entry that a way through the body of a clause leads to. -/
def entryOf (p : CallPattern) (id : ClauseId) (c : Clause) (branch : Branch) : Entry :=
  let head := branch.1.apply c.head
  ⟨p, head, [⟨head, branch.2, c.probability, id⟩]⟩

theorem addAnswer_logs (w : Theory) (m : Mode) (p : CallPattern) (id : ClauseId)
    {s u : Search Resident} {older log : Chronicle} {c : Clause} {branch : Branch}
    (hu : s.Logs older log u) (hg : (branch.1.apply c.head).isGround = true) :
    ∃ v, addAnswer (w.inMode m) p id c branch u = (.ok (), v) ∧
      s.Logs older ((entryOf p id c branch).inMode m :: log) v ∧ v.expanded = u.expanded := by
  obtain ⟨v, hrun, hv⟩ := hu.put ((entryOf p id c branch).inMode m)
  refine ⟨v, ?_, hv⟩
  unfold addAnswer
  dsimp only
  rw [if_pos hg, ← hrun]
  cases m <;> rfl

section Expansion

variable {w : Theory} (hreg : w.registry = .standard)
variable {m m' : Mode} {s s' : Search Resident} {older older' : Chronicle}
variable (hlevel : Search.Level s s' older older')
variable {call call' : CallPattern → Searching Resident Unit}
variable (hcall : ∀ l, KeepsAbreast m m' s s' older older' (call (.of l)) (call' (.of l))
  fun _ _ => True)
variable (passes : Nat) {ρ : Equiv.Perm Variable}

include hreg hlevel hcall

omit hreg hlevel hcall in
/-- The heads that two ways through a body have led to are put alike. -/
theorem addAnswer_keepsAbreast (p : CallPattern) (id : ClauseId) (c : Clause) (branch : Branch) :
    KeepsAbreast m m' s s' older older' (addAnswer (w.inMode m) p id c branch)
      (addAnswer (w.inMode m') p id (c.renameVars ρ) (renameVars ρ branch)) fun _ _ => True := by
  have hhead : (renameVars ρ branch).1.apply (c.renameVars ρ).head =
      (branch.1.apply c.head).renameVars ρ := Substitution.apply_renameVars _ _
  by_cases hg : (branch.1.apply c.head).isGround = true
  · have hentry : entryOf p id (c.renameVars ρ) (renameVars ρ branch) = entryOf p id c branch := by
      unfold entryOf
      rw [hhead, Literal.renameVars_of_isGround hg]
      rfl
    have hg' : ((renameVars ρ branch).1.apply (c.renameVars ρ).head).isGround = true := by
      rw [hhead, Literal.isGround_renameVars, hg]
    rintro u v ⟨⟨log, hground, hu, hv⟩, hexp⟩
    obtain ⟨u', hrun, hu', hexpu⟩ := addAnswer_logs w m p id hu hg
    obtain ⟨v', hrun', hv', hexpv⟩ := addAnswer_logs w m' p id hv hg'
    rw [hentry] at hv'
    rw [hrun, hrun']
    refine ⟨.ok trivial, ⟨entryOf p id c branch :: log, ?_, hu', hv'⟩, ?_⟩
    · exact List.forall_mem_cons.2 ⟨hg, hground⟩
    · rw [hexpu, hexpv, hexp]
  · unfold addAnswer
    dsimp only
    rw [hhead, Literal.isGround_renameVars, if_neg hg, if_neg hg]
    exact .pure trivial

/-- Clauses are tried alike, whatever the scopes that they get. -/
theorem tryClause_keepsAbreast (l : Literal) (id : ClauseId) {c : Clause}
    (hc : ∀ b ∈ c.body, b.negated = false) : KeepsAbreast m m' s s' older older'
      (tryClause (w.inMode m) call passes (.of l) id c)
      (tryClause (w.inMode m') call' passes (.of l) id c) fun _ _ => True := by
  refine tryClause_relates freshScope_keepsAbreast (fun ρ n b hb t ht => ?_)
    fun ρ n branch => addAnswer_keepsAbreast (.of l) id _ branch
  obtain ⟨b', hb', rfl⟩ := List.mem_map.1 hb
  have hn : (b'.rescoped n).negated = false := hc b' hb'
  exact resolveLiteral_relates hreg hreg (fun _ _ => trivial) hcall
    (answers_keepsAbreast hlevel) hn ht

variable (hpos : ∀ id c, w.program.clause? id = some c → ∀ l ∈ c.body, l.negated = false)

include hpos

theorem expandOnce_keepsAbreast (l : Literal) : KeepsAbreast m m' s s' older older'
    (expandOnce (w.inMode m) call passes (.of l)) (expandOnce (w.inMode m') call' passes (.of l))
    fun _ _ => True := by
  have htry : KeepsAbreast m m' s s' older older'
      ((w.program.candidates (CallPattern.of l).literal).forM fun x =>
        tryClause (w.inMode m) call passes (.of l) x.1 x.2)
      ((w.program.candidates (CallPattern.of l).literal).forM fun x =>
        tryClause (w.inMode m') call' passes (.of l) x.1 x.2) fun _ _ => True := by
    refine .forM (List.forall₂_same.2 fun x hx => ?_)
    exact tryClause_keepsAbreast hreg hlevel hcall passes l x.1
      (hpos x.1 x.2 (Program.clause?_of_mem_candidates hx))
  unfold expandOnce
  refine (enter_keepsAbreast hlevel _).bind ?_
  rintro entered _ rfl
  cases entered with
  | false => exact .pure trivial
  | true =>
    simp only [if_true]
    refine .get_bind fun u v _ => ?_
    split <;> split
    · exact get_keepsAbreast_left (get_keepsAbreast_right htry _) _
    · exact get_keepsAbreast_left htry _
    · exact get_keepsAbreast_right htry _
    · exact htry

end Expansion

/-- **Calls keep searches abreast.** -/
theorem expand_keepsAbreast {w : Theory} (hreg : w.registry = .standard)
    (hpos : ∀ id c, w.program.clause? id = some c → ∀ l ∈ c.body, l.negated = false)
    {m m' : Mode} {s s' : Search Resident} {older older' : Chronicle}
    (hlevel : Search.Level s s' older older') (depth : Nat) (l : Literal) :
    KeepsAbreast m m' s s' older older' (expand (w.inMode m) depth (.of l))
      (expand (w.inMode m') depth (.of l)) fun _ _ => True := by
  induction depth generalizing l with
  | zero => exact .exhausted
  | succ depth ih => exact expandOnce_keepsAbreast hreg hlevel ih depth hpos l

end Searching

end ProbDatalog
