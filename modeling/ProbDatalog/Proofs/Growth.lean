import ProbDatalog.Proofs.Chronicles

/-!
# Growth of tables

Tables grow where an entry is news when it is put. What is put twice is news only once, so tables
that do not grow do not change, and putting what they hold does not make them grow. Entries that are
put with and without their proofs lead to tables with the same answers, but with their proofs they
may be news more often.

* `growth_eq_zero_iff`: tables do not grow where no entry is news from the start.
* `contents_of_growth_eq_zero`: **tables that do not grow do not change.**
* `growth_of_contents`: **what is put again is no news.**
* `keys_inMode`: **the answers are the same with and without proofs.**
-/

namespace ProbDatalog

/-- An entry as it is put in a mode: proofs are kept in one of them only. -/
def Entry.inMode (m : Mode) (e : Entry) : Entry :=
  match m with
  | .datalog => { e with proofs := [] }
  | .problog => e

@[simp] theorem Entry.inMode_pattern (m : Mode) (e : Entry) :
    (e.inMode m).pattern = e.pattern := by
  cases m <;> rfl

@[simp] theorem Entry.inMode_fact (m : Mode) (e : Entry) : (e.inMode m).fact = e.fact := by
  cases m <;> rfl

namespace Chronicle

/-- Whether an entry is news to the tables that come of a chronicle. -/
def isNews (older : Chronicle) (e : Entry) : Bool :=
  Resident.isNews (older.contents e.pattern) e.fact e.proofs

/-- How often the tables of a chronicle grow where the entries of a log are put on top of it. -/
def growth (older : Chronicle) : Chronicle → Nat
  | [] => 0
  | e :: log => growth older log + if isNews (log ++ older) e then 1 else 0

variable {older older' log : Chronicle} {e : Entry}

theorem isNews_eq_false_iff : isNews older e = false ↔
    e.fact ∈ (older.contents e.pattern).keys ∧
      ∀ π ∈ e.proofs, π ∈ (older.contents e.pattern).proofsOf e.fact :=
  Resident.isNews_eq_false_iff

theorem isNews_congr (h : older.contents = older'.contents) (e : Entry) :
    isNews older e = isNews older' e := by
  unfold isNews
  rw [h]

/-- What has been put is no news. -/
theorem isNews_eq_false_of_mem (h : e ∈ older) : isNews older e = false :=
  isNews_eq_false_iff.2 ⟨mem_keys_contents.2 ⟨e, h, rfl, rfl⟩,
    fun _ hπ => mem_proofsOf_iff_exists.2 ⟨e, h, rfl, rfl, hπ⟩⟩

/-- Putting what is no news changes nothing. -/
theorem contents_cons_of_isNews_eq_false (h : isNews older e = false) :
    contents (e :: older) = older.contents := by
  rw [contents, Resident.record_eq_self h, Function.update_eq_self]

/-- **Tables that do not grow do not change.** -/
theorem contents_of_growth_eq_zero (h : growth older log = 0) :
    contents (log ++ older) = older.contents := by
  induction log with
  | nil => rfl
  | cons e log ih =>
    obtain ⟨hlog, he⟩ := Nat.add_eq_zero_iff.1 h
    have hnews : isNews (log ++ older) e = false := by
      by_contra hnews
      simp [hnews] at he
    exact (contents_cons_of_isNews_eq_false hnews).trans (ih hlog)

/-- Tables do not grow where no entry is news from the start. -/
theorem growth_eq_zero_iff : growth older log = 0 ↔ ∀ e ∈ log, isNews older e = false := by
  induction log with
  | nil => simp [growth]
  | cons e log ih =>
    rw [growth, Nat.add_eq_zero_iff, List.forall_mem_cons, ← ih, and_comm]
    -- as long as nothing was news, the next entry is put on what there was at the start
    refine and_congr_left fun hlog => ?_
    rw [isNews_congr (contents_of_growth_eq_zero hlog)]
    cases isNews older e <;> simp

/-- **What is put again is no news.** -/
theorem growth_of_contents (h : older'.contents = contents (log ++ older)) :
    growth older' log = 0 :=
  growth_eq_zero_iff.2 fun e he => by
    rw [isNews_congr h]
    exact isNews_eq_false_of_mem (List.mem_append_left _ he)

/-! ## Two modes -/

section Modes

variable {m m' : Mode} (h : ∀ p, (older.contents p).keys = (older'.contents p).keys)

include h

/-- **The answers are the same with and without proofs.** -/
theorem keys_inMode (m m' : Mode) (log : Chronicle) (p : CallPattern) :
    (contents (log.map (.inMode m) ++ older) p).keys =
      (contents (log.map (.inMode m') ++ older') p).keys := by
  induction log generalizing p with
  | nil => exact h p
  | cons e log ih =>
    rw [List.map_cons, List.map_cons, List.cons_append, List.cons_append, contents, contents]
    by_cases hp : p = e.pattern
    · subst hp
      simp only [Entry.inMode_pattern, Entry.inMode_fact, Function.update_self,
        Resident.keys_record, ih]
    · simp only [Entry.inMode_pattern, ne_eq, hp, not_false_eq_true, Function.update_of_ne, ih]

/-- Tables with proofs that do not grow do not do so without proofs either. -/
theorem growth_datalog_eq_zero (hgrowth : growth older' (log.map (.inMode m)) = 0) :
    growth older (log.map (.inMode .datalog)) = 0 := by
  rw [growth_eq_zero_iff, List.forall_mem_map] at hgrowth ⊢
  intro e he
  obtain ⟨hfact, -⟩ := isNews_eq_false_iff.1 (hgrowth e he)
  rw [Entry.inMode_pattern, Entry.inMode_fact, ← h] at hfact
  exact isNews_eq_false_iff.2 ⟨hfact, fun π hπ => by simp [Entry.inMode] at hπ⟩

end Modes

end Chronicle

end ProbDatalog
