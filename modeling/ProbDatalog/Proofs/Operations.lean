import ProbDatalog.Tables.Journal

/-!
# Operations on stores

What can be asked of a store as long as it is not given up, and what it replies. Two stores agree if
they reply the same to every operation, failures included, whatever was asked before; but all proofs
of a table may be listed in different orders.

* `Tables.Agree`: stores that agree.
* `Tables.Agree.after`: stores that agree still do so after any operations.
* `Tables.Agree.recorded`: what may differ.
-/

namespace ProbDatalog

/-- An operation on a store, short of giving it up. -/
inductive Operation where
  | get (p : CallPattern)
  | contains (p : CallPattern)
  | put (p : CallPattern) (f : Literal) (ps : List Proof)
  | answers (p : CallPattern)
  | proofs (p : CallPattern) (f : Literal)
  | recorded (p : CallPattern)
  | patterns
  | size
  | isEmpty

/-- What a store replies. -/
inductive Reply where
  | subgoal (r : Except StoreFault Subgoal)
  | contained (b : Bool)
  | news (r : Except StoreFault Bool)
  | answers (r : Except StoreFault (List Literal))
  | proofs (r : Except StoreFault (List Proof))
  | recorded (r : Except StoreFault (List Proof))
  | patterns (ps : List CallPattern)
  | size (n : Nat)
  | empty (b : Bool)

/-- Replies that are the same, or list the same proofs of a table in some order. -/
inductive Reply.Alike : Reply → Reply → Prop
  | same (r : Reply) : Alike r r
  | listed {l l' : List Proof} (h : l.Perm l') : Alike (.recorded (.ok l)) (.recorded (.ok l'))

/-- Only lists of all proofs of a table can differ. -/
theorem Reply.Alike.eq {r r' : Reply} (h : Alike r r') (hr : ∀ l, r ≠ .recorded l) : r = r' := by
  cases h with
  | same => rfl
  | listed => exact absurd rfl (hr _)

theorem Reply.Alike.symm {r r' : Reply} (h : Alike r r') : Alike r' r := by
  cases h with
  | same => exact .same r
  | listed hl => exact .listed hl.symm

namespace Operation

section Runs

variable {σ : Type} [Tables σ]

/-- The reply of a store. -/
def reply (s : σ) : Operation → Reply
  | get p => .subgoal (Tables.get s p).1
  | contains p => .contained (Tables.contains s p)
  | put p f ps => .news (Tables.put s p f ps).1
  | answers p => .answers (Tables.answers s p)
  | proofs p f => .proofs (Tables.proofs s p f)
  | recorded p => .recorded (Tables.recorded s p)
  | patterns => .patterns (Tables.patterns s)
  | size => .size (Tables.size s)
  | isEmpty => .empty (Tables.isEmpty s)

/-- The store after an operation. -/
def next (s : σ) : Operation → σ
  | get p => (Tables.get s p).2
  | put p f ps => (Tables.put s p f ps).2
  | _ => s

/-- The store after operations. -/
def after (s : σ) (ops : List Operation) : σ := ops.foldl next s

theorem after_append (s : σ) (ops ops' : List Operation) :
    after s (ops ++ ops') = after (after s ops) ops' :=
  List.foldl_append

end Runs

open Journal

/-- The records that an operation puts into some table. -/
def written : Operation → List Record
  | put _ f ps => recordsOf f ps
  | _ => []

/-- The records that an operation puts into the table of a pattern. -/
def writtenTo (p : CallPattern) : Operation → List Record
  | put q f ps => if q = p then recordsOf f ps else []
  | _ => []

/-- The records that operations have put into the table of a pattern, each once. -/
def filed (p : CallPattern) (ops : List Operation) : List Record :=
  (ops.flatMap (writtenTo p)).eraseDups

end Operation

namespace Tables

variable {σ τ : Type} [Tables σ] [Tables τ]

/-- Stores that reply alike to every operation after any others. -/
def Agree (s : σ) (t : τ) : Prop :=
  ∀ before op, Reply.Alike (Operation.reply (Operation.after s before) op)
    (Operation.reply (Operation.after t before) op)

namespace Agree

variable {s : σ} {t : τ}

/-- Every store agrees with itself. -/
theorem refl (s : σ) : Agree s s := fun _ _ => .same _

theorem symm (h : Agree s t) : Agree t s := fun before op => (h before op).symm

/-- Stores that agree still do so after any operations. -/
theorem after (h : Agree s t) (ops : List Operation) :
    Agree (Operation.after s ops) (Operation.after t ops) := fun before op => by
  rw [← Operation.after_append, ← Operation.after_append]
  exact h (ops ++ before) op

theorem reply (h : Agree s t) (op : Operation) :
    Reply.Alike (Operation.reply s op) (Operation.reply t op) := h [] op

theorem get (h : Agree s t) (p : CallPattern) : (Tables.get s p).1 = (Tables.get t p).1 :=
  Reply.subgoal.inj ((h.reply (.get p)).eq (by simp [Operation.reply]))

theorem put (h : Agree s t) (p : CallPattern) (f : Literal) (ps : List Proof) :
    (Tables.put s p f ps).1 = (Tables.put t p f ps).1 :=
  Reply.news.inj ((h.reply (.put p f ps)).eq (by simp [Operation.reply]))

theorem contains (h : Agree s t) (p : CallPattern) : Tables.contains s p = Tables.contains t p :=
  Reply.contained.inj ((h.reply (.contains p)).eq (by simp [Operation.reply]))

theorem answers (h : Agree s t) (p : CallPattern) : Tables.answers s p = Tables.answers t p :=
  Reply.answers.inj ((h.reply (.answers p)).eq (by simp [Operation.reply]))

theorem patterns (h : Agree s t) : Tables.patterns s = Tables.patterns t :=
  Reply.patterns.inj ((h.reply .patterns).eq (by simp [Operation.reply]))

theorem size (h : Agree s t) : Tables.size s = Tables.size t :=
  Reply.size.inj ((h.reply .size).eq (by simp [Operation.reply]))

/-- The same proofs of a table are listed in some order, or they cannot be read for the same
reason. -/
theorem recorded (h : Agree s t) (p : CallPattern) :
    (∃ l l', Tables.recorded s p = .ok l ∧ Tables.recorded t p = .ok l' ∧ l.Perm l') ∨
      ∃ e, Tables.recorded s p = .error e ∧ Tables.recorded t p = .error e := by
  have hr : Reply.Alike (.recorded (Tables.recorded s p)) (.recorded (Tables.recorded t p)) :=
    h.reply (.recorded p)
  generalize Tables.recorded s p = a at hr ⊢
  generalize Tables.recorded t p = b at hr ⊢
  cases hr with
  | same =>
    cases a with
    | ok l => exact .inl ⟨l, l, rfl, rfl, .refl l⟩
    | error e => exact .inr ⟨e, rfl, rfl⟩
  | listed hl => exact .inl ⟨_, _, rfl, rfl, hl⟩

end Agree

end Tables

end ProbDatalog
