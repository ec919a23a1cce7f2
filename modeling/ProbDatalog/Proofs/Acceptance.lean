import ProbDatalog.Proofs.Assertion

/-!
# Which clauses are accepted

Clauses are accepted one after the other if each of them is well formed and all of them together
use every predicate name with one arity. The arities that a program has recorded are those of its
literals, so they tell whether one more clause fits.

* `Knows.extend`: when the arities of literals can be added, and what is known then.
* `Program.exists_assertAll_iff`: which lists of clauses are accepted as a whole.
-/

namespace ProbDatalog

/-- The literals use every predicate name with one arity. -/
def Uniform (ls : List Literal) : Prop :=
  ∀ l ∈ ls, ∀ m ∈ ls, l.predicate = m.predicate → l.arity = m.arity

/-- The arities that are known are those of the literals. -/
def Knows (known : Assoc String Nat) (ls : List Literal) : Prop :=
  ∀ name n, known.get? name = some n ↔ ∃ l ∈ ls, l.predicate = name ∧ l.arity = n

namespace Knows

variable {known : Assoc String Nat} {l : Literal} {done : List Literal}

theorem uniform (h : Knows known done) : Uniform done := by
  intro l hl m hm heq
  have hl' := (h m.predicate l.arity).2 ⟨l, hl, heq, rfl⟩
  have hm' := (h m.predicate m.arity).2 ⟨m, hm, rfl, rfl⟩
  exact Option.some.inj (hl'.symm.trans hm')

/-- A literal whose arity is known adds nothing. -/
theorem append (h : Knows known done) (hl : known.get? l.predicate = some l.arity) :
    Knows known (done ++ [l]) := by
  intro name n
  rw [h name n]
  simp only [List.mem_append, List.mem_singleton, or_and_right, exists_or, exists_eq_left]
  refine ⟨.inl, ?_⟩
  rintro (hm | ⟨rfl, rfl⟩)
  · exact hm
  · exact (h _ _).1 hl

/-- The arity of a literal with a new name is added. -/
theorem insert (h : Knows known done) (hl : known.get? l.predicate = none) :
    Knows (known.insert l.predicate l.arity) (done ++ [l]) := by
  intro name n
  rw [Assoc.get?_insert]
  simp only [List.mem_append, List.mem_singleton, or_and_right, exists_or, exists_eq_left]
  split
  next heq =>
    subst heq
    rw [← h, hl]
    simp
  next hne => simp [h name n, hne]

/-- The arities of literals can be added if they are uniform together with those before. Some of
those before may be pending. -/
theorem pendingArities {pending : Assoc String Nat} (h : Knows (known.extend pending.entries) done)
    (hget : ∀ name, (known.extend pending.entries).get? name =
      (known.get? name).or (pending.get? name)) (ls : List Literal) :
    ((∃ all, Program.pendingArities known pending ls = .ok all) ↔ Uniform (done ++ ls)) ∧
      ∀ all, Program.pendingArities known pending ls = .ok all →
        Knows (known.extend all.entries) (done ++ ls) := by
  induction ls generalizing pending done with
  | nil =>
    simp only [Program.pendingArities, List.append_nil]
    exact ⟨iff_of_true ⟨pending, rfl⟩ h.uniform, fun _ hk => by cases hk; exact h⟩
  | cons l rest ih =>
    unfold Program.pendingArities
    rw [List.append_cons, ← hget]
    cases hl : (known.extend pending.entries).get? l.predicate with
    | none =>
      obtain ⟨hnew, hnew'⟩ : known.get? l.predicate = none ∧ pending.get? l.predicate = none :=
        Option.or_eq_none_iff.1 ((hget _).symm.trans hl)
      have hext : known.extend (pending.insert l.predicate l.arity).entries =
          (known.extend pending.entries).insert l.predicate l.arity := Assoc.extend_insert hnew'
      refine ih (hext ▸ h.insert hl) fun name => ?_
      rw [hext, Assoc.get?_insert, Assoc.get?_insert, hget]
      split
      next heq => rw [← heq, hnew, Option.none_or]
      next => rfl
    | some expected =>
      by_cases heq : expected = l.arity
      · subst heq
        simpa using ih (h.append hl) hget
      · -- the name was used with another arity before
        obtain ⟨m, hm, hpred, harity⟩ := (h _ _).1 hl
        have hnot : ¬Uniform (done ++ [l] ++ rest) := fun hall =>
          heq (harity ▸ hall m (by simp [hm]) l (by simp) hpred)
        simp only [if_neg heq, reduceCtorEq, exists_false, false_iff, false_implies, implies_true,
          and_true]
        exact hnot

/-- The arities of a clause can be added if they are uniform together with those before. -/
theorem extend (h : Knows known done) (ls : List Literal) :
    ((∃ all, Program.pendingArities known .empty ls = .ok all) ↔ Uniform (done ++ ls)) ∧
      ∀ all, Program.pendingArities known .empty ls = .ok all →
        Knows (known.extend all.entries) (done ++ ls) := by
  have hnone : Knows (known.extend (Assoc.empty : Assoc String Nat).entries) done := h
  exact hnone.pendingArities (fun _ => Option.or_none.symm) ls

end Knows

namespace Program

variable {p p' : Program} {c : Clause} {id : ClauseId} {cs : List Clause} {done : List Literal}

/-- A clause can be asserted if it is well formed and its arities can be added. -/
theorem exists_assert_iff : (∃ id p', p.assert c = (.ok id, p')) ↔ c.validate = .ok () ∧
    ∃ pending, pendingArities p.arities .empty (c.head :: c.body) = .ok pending := by
  rcases assert_cases p c with ⟨e, heq, hno⟩ | ⟨pending, hv, hpending, heq⟩
  · exact iff_of_false (by simp [heq]) hno
  · exact iff_of_true ⟨_, _, heq⟩ ⟨hv, pending, hpending⟩

/-- The literals of clauses. -/
def literals (cs : List Clause) : List Literal := cs.flatMap fun c => c.head :: c.body

/-- **Clauses can be asserted if they are well formed and uniform** together with those before. -/
theorem exists_assertAll_iff (h : Knows p.arities done) : (∃ ids, (p.assertAll cs).1 = .ok ids) ↔
    (∀ c ∈ cs, c.validate = .ok ()) ∧ Uniform (done ++ literals cs) := by
  induction cs generalizing p done with
  | nil => simpa [assertAll_nil, literals] using h.uniform
  | cons c rest ih =>
    have hsplit : done ++ literals (c :: rest) = done ++ (c.head :: c.body) ++ literals rest := by
      simp [literals]
    rw [hsplit]
    obtain ⟨hiff, hknows⟩ := h.extend (c.head :: c.body)
    rcases ha : p.assert c with ⟨e | id, p'⟩
    · have hno : ¬∃ id p', p.assert c = (.ok id, p') := by simp [ha]
      rw [exists_assert_iff, hiff] at hno
      rw [assertAll_of_error ha]
      refine iff_of_false (by simp) fun hall => hno ⟨hall.1 c List.mem_cons_self, ?_⟩
      exact fun l hl m hm => hall.2 l (List.mem_append_left _ hl) m (List.mem_append_left _ hm)
    · obtain ⟨hv, -, -, -, pending, hpending, harities⟩ := assert_eq_ok ha
      rw [assertAll_of_ok ha, List.forall_mem_cons, and_assoc, and_iff_right hv,
        ← ih (harities ▸ hknows _ hpending)]
      cases (p'.assertAll rest).1 <;> simp [Except.map]

/-- Clauses that have been asserted stand behind each other. -/
theorem clauses_of_assertAll {ids : List ClauseId} (h : p.assertAll cs = (.ok ids, p')) :
    p'.clauses.toList = p.clauses.toList ++ cs := by
  induction cs generalizing p ids with
  | nil =>
    cases h
    simp
  | cons c rest ih =>
    rcases ha : p.assert c with ⟨e | id, p₁⟩
    · rw [assertAll_of_error ha] at h
      cases h
    · rw [assertAll_of_ok ha] at h
      obtain ⟨hids, hp⟩ := Prod.mk.inj h
      cases hrest : (p₁.assertAll rest).1 with
      | error e =>
        rw [hrest] at hids
        cases hids
      | ok ids' =>
        rw [ih (Prod.ext hrest hp), (assert_eq_ok ha).2.2.1]
        simp

end Program

end ProbDatalog
