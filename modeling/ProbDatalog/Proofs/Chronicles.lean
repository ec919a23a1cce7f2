import ProbDatalog.Proofs.Contents
import ProbDatalog.Theory

/-!
# Chronicles of tables

Tables only come about by putting one answer after the other, so what they hold can be told from a
list of what was put, newest first. In a justified chronicle every answer comes with proofs whose
positive premises were put before it.

* `mem_keys_contents`, `mem_records_contents`: tables hold what was put into them, and no more.
* `mem_proofsOf_contents`: a proof is filed under its head.
* `Justified.of_suffix`: **every answer was justified when it was put.**
-/

namespace ProbDatalog

/-- An answer that was put into a table, with proofs of it. -/
structure Entry where
  pattern : CallPattern
  fact : Literal
  proofs : List Proof

/-- What was put into tables, newest first. -/
abbrev Chronicle := List Entry

/-- An answer has proofs where proofs are kept, and their positive relational premises have been
put into tables before. -/
structure Entry.Justified (mode : Mode) (older : Chronicle) (e : Entry) : Prop where
  head : ∀ π ∈ e.proofs, π.head = e.fact
  proved : mode = .problog → e.proofs ≠ []
  unproved : mode = .datalog → e.proofs = []
  earlier : ∀ π ∈ e.proofs, ∀ l, .relational l ∈ π.body → l.negated = false →
    ∃ e' ∈ older, e'.fact = l

namespace AnswerTable

/-- The proofs of one answer. -/
def proofsOf (t : AnswerTable) (f : Literal) : List Proof := (t.get? f).getD []

@[simp] theorem proofsOf_empty (f : Literal) : proofsOf .empty f = [] := rfl

theorem proofsOf_record {t : AnswerTable} {f g : Literal} {ps : List Proof} :
    proofsOf (Resident.record t f ps) g =
      if f = g then Resident.appendNew (proofsOf t f) ps else proofsOf t g := by
  unfold proofsOf Resident.record
  rw [Assoc.get?_alter]
  split <;> rfl

theorem nodup_appendNew {known : List Proof} (h : known.Nodup) (ps : List Proof) :
    (Resident.appendNew known ps).Nodup := by
  unfold Resident.appendNew
  induction ps generalizing known with
  | nil => exact h
  | cons π ps ih =>
    rw [List.foldl_cons]
    split
    · exact ih h
    next hπ => exact ih (List.nodup_append.2 ⟨h, by simp, by grind⟩)

end AnswerTable

/-- What is news is a new answer, or a proof that was not filed under the answer. -/
theorem Resident.of_isNews {t : AnswerTable} {f : Literal} {ps : List Proof}
    (h : isNews t f ps = true) : f ∉ t.keys ∨ ∃ π ∈ ps, π ∉ t.proofsOf f := by
  have hnew : ¬(f ∈ t.keys ∧ ∀ π ∈ ps, π ∈ t.proofsOf f) := fun hknown => by
    rw [isNews_eq_false_iff.2 hknown] at h
    cases h
  exact (Classical.not_and_iff_not_or_not.1 hnew).imp_right fun hps => by simpa using hps

namespace Chronicle

/-- The tables that come of a chronicle. -/
def contents : Chronicle → Contents
  | [] => fun _ => .empty
  | e :: older => Function.update (contents older) e.pattern
      (Resident.record (contents older e.pattern) e.fact e.proofs)

/-- Every answer was justified by what had been put before it. -/
def Justified (mode : Mode) : Chronicle → Prop
  | [] => True
  | e :: older => e.Justified mode older ∧ Justified mode older

variable {h older : Chronicle} {e : Entry} {p : CallPattern} {f : Literal} {π : Proof}
variable {mode : Mode}

/-- A table has what the entries for its pattern have brought to it. -/
theorem of_contents_iff {Q : AnswerTable → Prop} {B : Entry → Prop} (hempty : ¬Q .empty)
    (hrecord : ∀ t (e : Entry), Q (Resident.record t e.fact e.proofs) ↔ B e ∨ Q t) :
    Q (contents h p) ↔ ∃ e ∈ h, e.pattern = p ∧ B e := by
  -- by induction on the chronicle: the newest entry changes one table
  induction h with
  | nil => simp [contents, hempty]
  | cons e older ih =>
    unfold contents
    by_cases hp : p = e.pattern
    · subst hp
      rw [Function.update_self, hrecord, ih]
      simp
    · rw [Function.update_of_ne hp, ih]
      simp [Ne.symm hp]

/-- **The answers of a table are those that were put into it.** -/
theorem mem_keys_contents : f ∈ (contents h p).keys ↔ ∃ e ∈ h, e.pattern = p ∧ e.fact = f :=
  of_contents_iff (Q := (f ∈ ·.keys)) (by simp) fun t e => by
    rw [Resident.mem_keys_record, eq_comm]

/-- **The proofs of a table are those that were put into it.** -/
theorem mem_records_contents :
    π ∈ (contents h p).records ↔ ∃ e ∈ h, e.pattern = p ∧ π ∈ e.proofs :=
  of_contents_iff (Q := (π ∈ ·.records)) (by simp) fun t e => by
    rw [Resident.mem_records_record, or_comm]

theorem mem_proofsOf_iff_exists :
    π ∈ (contents h p).proofsOf f ↔ ∃ e ∈ h, e.pattern = p ∧ e.fact = f ∧ π ∈ e.proofs := by
  refine of_contents_iff (Q := (π ∈ ·.proofsOf f)) (by simp) fun t e => ?_
  rw [AnswerTable.proofsOf_record]
  by_cases hf : e.fact = f
  · subst hf
    rw [if_pos rfl, Resident.mem_appendNew]
    simp [or_comm]
  · rw [if_neg hf]
    simp [hf]

/-- No proof is filed twice under one answer. -/
theorem nodup_proofsOf_contents : ((contents h p).proofsOf f).Nodup := by
  induction h with
  | nil => exact List.nodup_nil
  | cons e older ih =>
    unfold contents
    by_cases hp : p = e.pattern
    · subst hp
      rw [Function.update_self, AnswerTable.proofsOf_record]
      split
      next hf => exact AnswerTable.nodup_appendNew (hf ▸ ih) e.proofs
      next => exact ih
    · rw [Function.update_of_ne hp]
      exact ih

/-- Some entry of a kind was put first. -/
theorem exists_first {P : Entry → Prop} (h : Chronicle) (he : ∃ e ∈ h, P e) :
    ∃ e older, e :: older <:+ h ∧ P e ∧ ∀ e' ∈ older, ¬P e' := by
  induction h with
  | nil => simp at he
  | cons e' h ih =>
    by_cases hold : ∃ e ∈ h, P e
    · obtain ⟨e, older, hs, hrest⟩ := ih hold
      exact ⟨e, older, hs.trans (List.suffix_cons e' h), hrest⟩
    · rcases he with ⟨e, he, hP⟩
      rcases List.mem_cons.1 he with rfl | he
      · exact ⟨e, h, List.suffix_rfl, hP, fun e' he' hP' => hold ⟨e', he', hP'⟩⟩
      · exact absurd ⟨e, he, hP⟩ hold

namespace Justified

/-- **Every answer was justified when it was put.** -/
theorem of_suffix (hj : Justified mode h) (hs : e :: older <:+ h) : e.Justified mode older := by
  -- what an answer was justified by is what had been put before it, in any longer chronicle
  induction h with
  | nil => simp at hs
  | cons e' h ih =>
    rcases List.suffix_cons_iff.1 hs with heq | hs
    · cases heq
      exact hj.1
    · exact ih hj.2 hs

theorem of_mem (hj : Justified mode h) (he : e ∈ h) :
    ∃ older, e :: older <:+ h ∧ e.Justified mode older := by
  obtain ⟨before, older, rfl⟩ := List.append_of_mem he
  have hs : e :: older <:+ before ++ e :: older := List.suffix_append _ _
  exact ⟨older, hs, hj.of_suffix hs⟩

/-- A proof is filed under its head. -/
theorem mem_proofsOf_contents (hj : Justified mode h) :
    π ∈ (contents h p).proofsOf f ↔ π ∈ (contents h p).records ∧ π.head = f := by
  rw [mem_proofsOf_iff_exists, mem_records_contents]
  constructor
  · rintro ⟨e, he, rfl, rfl, hπ⟩
    obtain ⟨older, -, hje⟩ := hj.of_mem he
    exact ⟨⟨e, he, rfl, hπ⟩, hje.head π hπ⟩
  · rintro ⟨⟨e, he, rfl, hπ⟩, rfl⟩
    obtain ⟨older, -, hje⟩ := hj.of_mem he
    exact ⟨e, he, rfl, (hje.head π hπ).symm, hπ⟩

/-- Where no proofs are kept there are none. -/
theorem records_eq_nil (hj : Justified .datalog h) : (contents h p).records = [] := by
  refine List.eq_nil_iff_forall_not_mem.2 fun π hπ => ?_
  obtain ⟨e, he, -, hmem⟩ := mem_records_contents.1 hπ
  obtain ⟨older, -, hje⟩ := hj.of_mem he
  rw [hje.unproved rfl] at hmem
  cases hmem

/-- The positive premises of recorded proofs are answers of some table. -/
theorem exists_answer (hj : Justified mode h) (hπ : π ∈ (contents h p).records) {l : Literal}
    (hl : .relational l ∈ π.body) (hn : l.negated = false) :
    ∃ q, l ∈ (contents h q).keys := by
  obtain ⟨e, he, -, hmem⟩ := mem_records_contents.1 hπ
  obtain ⟨older, hs, hje⟩ := hj.of_mem he
  obtain ⟨e', he', hfact⟩ := hje.earlier π hmem l hl hn
  refine ⟨e'.pattern, mem_keys_contents.2 ⟨e', ?_, rfl, hfact⟩⟩
  exact hs.subset (List.mem_cons_of_mem _ he')

end Justified

end Chronicle

end ProbDatalog
