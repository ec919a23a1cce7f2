import ProbDatalog.Proofs.Acceptance
import ProbDatalog.Substitution
import Mathlib.Data.List.Induction
import Mathlib.Logic.ExistsUnique

/-!
# Programs and their indexes

A program keeps its clauses in the order of acceptance, the arity of every predicate name, and for
every predicate and arity the ids of its clauses. Any calls that assert clauses, refused ones
included, leave these three in agreement, and what a program holds is told by the accepted clauses
alone.

* `Clause.Follows`: when a clause is accepted.
* `Asserted.stores`: every program made by assertion stores its clauses with all indexes.
* `Asserted.clauses_assertAll`: clauses asserted in turn are kept up to the first that is refused.
* `Program.stores_after`: **what any calls that assert clauses leave behind.**
-/

namespace ProbDatalog

/-! ## Accepted clauses -/

/-- A clause may follow the accepted ones: it is well formed, and its literals agree in the arity of
every predicate name with each other and with those of the accepted clauses. -/
def Clause.Follows (c : Clause) (accepted : List Clause) : Prop :=
  c.validate = .ok () ∧ ∀ l ∈ c.head :: c.body, ∀ m ∈ Program.literals (accepted ++ [c]),
    l.predicate = m.predicate → l.arity = m.arity

instance (c : Clause) (accepted : List Clause) : Decidable (c.Follows accepted) :=
  inferInstanceAs (Decidable (_ ∧ _))

/-- The clauses up to the first one that may not follow those before it. -/
def following (accepted : List Clause) : List Clause → List Clause
  | [] => []
  | c :: rest =>
    if c.Follows accepted then c :: following (accepted ++ [c]) rest else []

/-- A call that asserts clauses. -/
inductive Assertion where
  /-- One clause. -/
  | one (c : Clause)
  /-- Several clauses in turn. -/
  | all (cs : List Clause)

namespace Assertion

/-- What a call replies, and the program that it leaves behind. -/
def perform (p : Program) : Assertion → Except Error (List ClauseId) × Program
  | one c => (p.assert c).map (Except.map fun id => [id]) id
  | all cs => p.assertAll cs

/-- The clauses of a call. -/
def clauses : Assertion → List Clause
  | one c => [c]
  | all cs => cs

end Assertion

/-- The clauses that calls on the program without clauses get accepted. -/
def accepted (calls : List Assertion) : List Clause :=
  calls.foldl (fun before a => before ++ following before a.clauses) []

namespace Program

/-- The program after calls on the program without clauses. -/
def after (calls : List Assertion) : Program :=
  calls.foldl (fun p a => (a.perform p).2) .empty

/-- The program holds exactly the listed clauses, and its indexes tell what they should. -/
structure Stores (p : Program) (cs : List Clause) : Prop where
  /-- A clause stands at the index of its id. -/
  clauses : p.clauses.toList = cs
  /-- The recorded arities are those of the literals of the clauses. -/
  arities : Knows p.arities (literals cs)
  /-- A bucket lists the clauses whose head has its predicate and arity. -/
  mem_bucket : ∀ key id, id ∈ (p.buckets.get? key).getD [] ↔
    ∃ c, cs[id.index]? = some c ∧ (c.head.predicate, c.head.arity) = key
  /-- Every bucket is in ascending order. -/
  ascending : ∀ key, ((p.buckets.get? key).getD []).Pairwise fun i j => i.index < j.index
  /-- There are no empty buckets. -/
  nonempty : ∀ key, p.buckets.get? key ≠ some []

variable {p p' : Program} {c : Clause} {cs done : List Clause} {id : ClauseId}

theorem literals_append (cs cs' : List Clause) :
    literals (cs ++ cs') = literals cs ++ literals cs' :=
  List.flatMap_append

theorem literals_singleton (c : Clause) : literals [c] = c.head :: c.body :=
  List.append_nil _

/-- The id of a clause is the number of clauses before it. -/
theorem id_of_assert (h : p.assert c = (.ok id, p')) : id = ⟨p.clauses.toList.length⟩ := by
  rw [(assert_eq_ok h).2.1, Array.length_toList]

theorem toList_of_assert (h : p.assert c = (.ok id, p')) :
    p'.clauses.toList = p.clauses.toList ++ [c] := by
  rw [(assert_eq_ok h).2.2.1, Array.toList_push]

/-! ## What every asserted program holds -/

namespace Asserted

theorem knows (hp : p.Asserted) : Knows p.arities (literals p.clauses.toList) := by
  induction hp with
  | empty => simp [Knows, Program.empty, literals]
  | assert _ ha ih =>
    obtain ⟨-, -, -, -, pending, hpending, harities⟩ := assert_eq_ok ha
    rw [toList_of_assert ha, literals_append, literals_singleton, harities]
    exact (ih.extend _).2 _ hpending

/-- New ids are greater than all ids in the buckets. -/
theorem ascending (hp : p.Asserted) (key : String × Nat) :
    ((p.buckets.get? key).getD []).Pairwise fun i j => i.index < j.index := by
  induction hp with
  | empty => exact .nil
  | @assert p p' c id hp ha ih =>
    rw [(assert_eq_ok ha).2.2.2.1, Assoc.get?_alter]
    split
    next heq =>
      rw [heq, Option.getD_some]
      refine List.pairwise_append.2 ⟨ih, List.pairwise_singleton _ _, fun i hi j hj => ?_⟩
      obtain ⟨c', hc', -⟩ := (hp.mem_bucket_iff key.1 key.2 i).1 hi
      have hlt : i.index < p.clauses.size := (Array.getElem?_eq_some_iff.1 hc').1
      rw [List.mem_singleton.1 hj]
      exact hlt
    next => exact ih

theorem bucket_ne_nil (hp : p.Asserted) (key : String × Nat) :
    p.buckets.get? key ≠ some [] := by
  induction hp with
  | empty => simp [Program.empty]
  | assert _ ha ih =>
    rw [(assert_eq_ok ha).2.2.2.1, Assoc.get?_alter]
    split
    · simp
    · exact ih

/-- **Every program made by assertion stores its clauses** with all indexes. -/
theorem stores (hp : p.Asserted) : p.Stores p.clauses.toList where
  clauses := rfl
  arities := hp.knows
  mem_bucket key id := by
    rw [hp.mem_bucket_iff key.1 key.2 id]
    simp only [clause?, Array.getElem?_toList, Prod.ext_iff]
  ascending := hp.ascending
  nonempty := hp.bucket_ne_nil

/-- **When a clause is accepted.** -/
theorem exists_assert_iff_follows (hp : p.Asserted) :
    (∃ id p', p.assert c = (.ok id, p')) ↔ c.Follows p.clauses.toList := by
  rw [exists_assert_iff, (hp.knows.extend _).1, Clause.Follows, literals_append,
    literals_singleton]
  refine and_congr_right fun _ => ?_
  constructor
  · intro h l hl m hm
    exact h l (List.mem_append_right _ hl) m hm
  · -- literals that were there before agree with each other, and with the new ones by symmetry
    intro h l hl m hm heq
    rcases List.mem_append.1 hl with hl' | hl'
    · rcases List.mem_append.1 hm with hm' | hm'
      · exact hp.knows.uniform l hl' m hm' heq
      · exact (h m hm' l hl heq.symm).symm
    · exact h l hl' m hm heq

/-- **A clause is refused**, and nothing changes, if it may not follow the clauses before. -/
theorem exists_error_of_not_follows (hp : p.Asserted) (h : ¬c.Follows p.clauses.toList) :
    ∃ e, p.assert c = (.error e, p) := by
  rcases ha : p.assert c with ⟨e | id, p'⟩
  · exact ⟨e, congrArg (Prod.mk _) (eq_self_of_assert ha)⟩
  · exact absurd (hp.exists_assert_iff_follows.1 ⟨id, p', ha⟩) h

/-- **Clauses asserted in turn are kept up to the first that is refused.** -/
theorem clauses_assertAll (hp : p.Asserted) (cs : List Clause) :
    (p.assertAll cs).2.clauses.toList =
      p.clauses.toList ++ following p.clauses.toList cs := by
  induction cs generalizing p with
  | nil => simp [assertAll_nil, following]
  | cons c rest ih =>
    unfold following
    split
    next hc =>
      obtain ⟨id, p', ha⟩ := hp.exists_assert_iff_follows.2 hc
      rw [assertAll_of_ok ha, ih (hp.assert ha), toList_of_assert ha, List.append_assoc]
      rfl
    next hc =>
      obtain ⟨e, ha⟩ := hp.exists_error_of_not_follows hc
      rw [assertAll_of_error ha, List.append_nil]

end Asserted

/-! ## Calls -/

/-- The clauses kept by a call with several clauses could have been asserted one by one. -/
theorem assertAll_eq_foldl (hp : p.Asserted) (cs : List Clause) : (p.assertAll cs).2 =
    ((following p.clauses.toList cs).map Assertion.one).foldl (fun p a => (a.perform p).2) p := by
  induction cs generalizing p with
  | nil => rfl
  | cons c rest ih =>
    unfold following
    split
    next hc =>
      obtain ⟨id, p', ha⟩ := hp.exists_assert_iff_follows.2 hc
      have hone : ((Assertion.one c).perform p).2 = p' := congrArg Prod.snd ha
      rw [assertAll_of_ok ha, ih (hp.assert ha), toList_of_assert ha, List.map_cons,
        List.foldl_cons, hone]
    next hc =>
      obtain ⟨e, ha⟩ := hp.exists_error_of_not_follows hc
      rw [assertAll_of_error ha]
      rfl

/-- Several clauses are accepted as a whole if none of them is refused, and then their ids follow
those of the clauses before them. -/
theorem assertAll_eq_ok_iff (hp : p.Asserted) (cs : List Clause) (ids : List ClauseId) :
    (p.assertAll cs).1 = .ok ids ↔ following p.clauses.toList cs = cs ∧
      ids = (List.range' p.clauses.toList.length cs.length).map ClauseId.mk := by
  induction cs generalizing p ids with
  | nil => simp [assertAll_nil, following, eq_comm]
  | cons c rest ih =>
    unfold following
    split
    next hc =>
      obtain ⟨id, p', ha⟩ := hp.exists_assert_iff_follows.2 hc
      have hid := id_of_assert ha
      have hrest := ih (hp.assert ha)
      rw [toList_of_assert ha, List.length_append, List.length_singleton] at hrest
      rw [assertAll_of_ok ha, List.length_cons, List.range'_succ, List.map_cons, ← hid,
        List.cons.injEq, and_iff_right rfl]
      cases hr : (p'.assertAll rest).1 with
      | error e =>
        have hno : following (p.clauses.toList ++ [c]) rest ≠ rest := fun heq => by
          have := (hrest _).2 ⟨heq, rfl⟩
          rw [hr] at this
          cases this
        simp [Except.map, hno]
      | ok ids' =>
        have := (hrest ids').1 hr
        simp [Except.map, this, eq_comm]
    next hc =>
      obtain ⟨e, ha⟩ := hp.exists_error_of_not_follows hc
      rw [assertAll_of_error ha]
      simp

theorem perform_eq (p : Program) (a : Assertion) : a.perform p = p.assertAll a.clauses := by
  cases a with
  | all cs => rfl
  | one c =>
    simp only [Assertion.perform, Assertion.clauses]
    rcases ha : p.assert c with ⟨e | id, p'⟩
    · rw [assertAll_of_error ha]
      rfl
    · rw [assertAll_of_ok ha]
      rfl

theorem after_concat (calls : List Assertion) (a : Assertion) :
    after (calls ++ [a]) = (a.perform (after calls)).2 := by
  simp [after]

/-- Calls leave a program that is made by assertion, and its clauses are the accepted ones. -/
theorem asserted_after (calls : List Assertion) :
    (after calls).Asserted ∧ (after calls).clauses.toList = accepted calls := by
  induction calls using List.reverseRecOn with
  | nil => exact ⟨.empty, rfl⟩
  | append_singleton calls a ih =>
    obtain ⟨hp, hcs⟩ := ih
    rw [after_concat, perform_eq]
    refine ⟨hp.assertAll a.clauses, ?_⟩
    rw [hp.clauses_assertAll, hcs]
    simp [accepted]

/-- A clause whose head unifies with a call is among those that the call tries. -/
theorem Asserted.mem_candidates_of_unify? (hp : p.Asserted) (hc : p.clause? id = some c)
    {l : Literal} {scope : UInt32} {base : Substitution}
    (h : ((c.head.rescoped scope).unify? l.positive base).isSome = true) :
    (id, c) ∈ p.candidates l := by
  rw [hp.mem_candidates_iff]
  unfold Literal.unify? at h
  split at h
  next heq =>
    have harity : (c.head.rescoped scope).arity = c.head.arity := List.length_map _
    exact ⟨hc, heq.1, harity.symm.trans heq.2.1⟩
  next => cases h

/-- **What any calls that assert clauses leave behind.** The program stores the clauses accepted so
far with all of its indexes, and every id is in exactly one bucket. One more clause is accepted,
with their number as its id, if it is well formed and agrees with them in the arities; otherwise
nothing changes. Of several clauses those before the first refused one are kept, as if each had been
asserted by itself. What a call of a literal tries has all clauses whose head unifies with it. -/
theorem stores_after (calls : List Assertion) :
    (after calls).Stores (accepted calls) ∧
    (∀ id : ClauseId, id.index < (accepted calls).length →
      ∃! key, id ∈ ((after calls).buckets.get? key).getD []) ∧
    (∀ c, c.Follows (accepted calls) → ∃ p,
      (after calls).assert c = (.ok ⟨(accepted calls).length⟩, p) ∧
        p.Stores (accepted calls ++ [c])) ∧
    (∀ c, ¬c.Follows (accepted calls) → ∃ e, (after calls).assert c = (.error e, after calls)) ∧
    (∀ cs, ((after calls).assertAll cs).2 =
        after (calls ++ (following (accepted calls) cs).map .one) ∧
      ∀ ids, ((after calls).assertAll cs).1 = .ok ids ↔ following (accepted calls) cs = cs ∧
        ids = (List.range' (accepted calls).length cs.length).map ClauseId.mk) ∧
    ∀ l id c scope base, (after calls).clause? id = some c →
      ((c.head.rescoped scope).unify? l.positive base).isSome = true →
        (id, c) ∈ (after calls).candidates l := by
  obtain ⟨hp, hcs⟩ := asserted_after calls
  have hstores : (after calls).Stores (accepted calls) := hcs ▸ hp.stores
  refine ⟨hstores, ?_, ?_, ?_, ?_, ?_⟩
  · intro id hid
    have hc : (accepted calls)[id.index]? = some (accepted calls)[id.index] :=
      List.getElem?_eq_getElem hid
    refine ⟨_, (hstores.mem_bucket _ id).2 ⟨_, hc, rfl⟩, fun key hkey => ?_⟩
    -- the head of the clause tells the bucket
    obtain ⟨c, hc', rfl⟩ := (hstores.mem_bucket key id).1 hkey
    rw [Option.some.inj (hc.symm.trans hc')]
  · intro c hc
    obtain ⟨id, p, ha⟩ := hp.exists_assert_iff_follows.2 (hcs ▸ hc)
    have hid := id_of_assert ha
    have hp' := (hp.assert ha).stores
    rw [hcs] at hid
    rw [toList_of_assert ha, hcs] at hp'
    exact ⟨p, hid ▸ ha, hp'⟩
  · intro c hc
    obtain ⟨e, ha⟩ := hp.exists_error_of_not_follows (hcs ▸ hc)
    exact ⟨e, ha⟩
  · intro cs
    rw [assertAll_eq_foldl hp cs, hcs]
    refine ⟨by simp [after], fun ids => ?_⟩
    rw [assertAll_eq_ok_iff hp, hcs]
  · intro l id c scope base hc h
    exact hp.mem_candidates_of_unify? hc h

end Program

namespace Roads

/-- A literal on places, which are constants here. -/
def between (predicate : String) (places : List String) : Literal :=
  .of predicate (places.map fun place => .const (.string place))

/-- There is a road. -/
def road (source target : String) : Clause := ⟨between "road" [source, target], [], .certain⟩

/-- A road with one end. -/
def stub : Clause := ⟨between "road" ["b"], [], .certain⟩

/-- A place that would be known from a road with one end; the name of the head is new. -/
def unknown : Clause := ⟨between "place" ["b"], [between "road" ["b"]], .certain⟩

/-- Calls, in two of which a clause is refused. -/
def calls : List Assertion :=
  [.one (road "a" "b"), .one unknown, .all [road "b" "c", stub, road "c" "d"]]

/-- Two roads are kept. The next one is accepted with the third id, and a clause that uses a name
with another arity than before changes nothing. -/
theorem stores_roads : (Program.after calls).Stores [road "a" "b", road "b" "c"] ∧
    (∃ p, (Program.after calls).assert (road "c" "d") = (.ok ⟨2⟩, p) ∧
      p.Stores [road "a" "b", road "b" "c", road "c" "d"]) ∧
    ∃ e, (Program.after calls).assert unknown = (.error e, Program.after calls) := by
  have haccepted : accepted calls = [road "a" "b", road "b" "c"] := by decide +kernel
  obtain ⟨hstores, -, hnext, hrefused, -⟩ := Program.stores_after calls
  rw [haccepted] at hstores hnext hrefused
  exact ⟨hstores, hnext (road "c" "d") (by decide +kernel), hrefused unknown (by decide +kernel)⟩

end Roads

end ProbDatalog
