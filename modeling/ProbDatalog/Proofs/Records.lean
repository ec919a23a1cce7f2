import ProbDatalog.Tables.Journal
import ProbDatalog.Proofs.Contents
import ProbDatalog.Proofs.Instances
import Mathlib.Data.List.Induction
import Mathlib.Data.List.Nodup

/-!
# Histories of a table

A table in memory as what a list of records comes to: every record is added where its fact stands,
and one that is there already changes nothing. So the table is the list without repetitions, grouped
by fact.

* `keys_gathered`, `get?_gathered`: the answers of the table, and the proofs of each.
* `records_gathered`: **the proofs of the table are those of the list, grouped by fact.**
* `grouped_perm`: grouping only changes the order.
* `isNews_gathered`: what is added is news unless all its records are in the list.
-/

namespace ProbDatalog

section Lists

variable {α β : Type} [DecidableEq α] [DecidableEq β]

theorem eraseDups_concat (l : List α) (a : α) :
    (l ++ [a]).eraseDups = if a ∈ l then l.eraseDups else l.eraseDups ++ [a] := by
  rw [List.eraseDups_append]
  by_cases h : a ∈ l
  · simp [List.removeAll, h]
  · simp [List.removeAll, h, List.eraseDups_cons]

/-- Repetitions may be left out before the last step. -/
theorem eraseDups_map_eraseDups (f : α → β) (l : List α) :
    (l.eraseDups.map f).eraseDups = (l.map f).eraseDups := by
  induction l using List.reverseRecOn with
  | nil => rfl
  | append_singleton l a ih =>
    rw [eraseDups_concat, List.map_append, List.map_singleton, eraseDups_concat]
    by_cases ha : a ∈ l
    · have hfa : f a ∈ l.map f := List.mem_map_of_mem ha
      rw [if_pos ha, if_pos hfa, ih]
    · have hmem : f a ∈ l.eraseDups.map f ↔ f a ∈ l.map f := by simp [List.mem_eraseDups]
      rw [if_neg ha, List.map_append, List.map_singleton, eraseDups_concat, ih,
        if_congr hmem rfl rfl]

omit [DecidableEq α] in
/-- To group a list by all keys that occur only changes the order. -/
theorem flatMap_filter_perm (key : α → β) {keys : List β} {l : List α} (hkeys : keys.Nodup)
    (hl : ∀ a ∈ l, key a ∈ keys) : (keys.flatMap fun k => l.filter (key · = k)).Perm l := by
  induction keys generalizing l with
  | nil =>
    cases l with
    | nil => exact .nil
    | cons a l => exact absurd (hl a (by simp)) (by simp)
  | cons k keys ih =>
    obtain ⟨hk, hkeys⟩ := List.nodup_cons.1 hkeys
    -- the groups of the other keys lie in what the first group leaves
    have hrest : (keys.flatMap fun k' => l.filter (key · = k')) =
        keys.flatMap fun k' => (l.filter fun a => !decide (key a = k)).filter (key · = k') := by
      refine List.flatMap_congr fun k' hk' => ?_
      rw [List.filter_filter]
      refine List.filter_congr fun a _ => ?_
      by_cases ha : key a = k'
      · have hne : k' ≠ k := fun h => hk (h ▸ hk')
        simp [ha, hne]
      · simp [ha]
    have hperm : (keys.flatMap fun k' =>
        (l.filter fun a => !decide (key a = k)).filter (key · = k')).Perm
          (l.filter fun a => !decide (key a = k)) := by
      refine ih hkeys fun a ha => ?_
      obtain ⟨ha, hne⟩ := List.mem_filter.1 ha
      exact (List.mem_cons.1 (hl a ha)).resolve_left (by simpa using hne)
    rw [List.flatMap_cons, hrest]
    exact (hperm.append_left _).trans (List.filter_append_perm _ l)

end Lists

namespace Journal

open Resident

/-- The facts of records, in the order of their first records. -/
def facts (rs : List Record) : List Literal := (rs.map Record.fact).eraseDups

/-- Records stably grouped by fact, in the order of the first records of the facts. -/
def grouped (rs : List Record) : List Record :=
  (facts rs).flatMap fun f => rs.filter (·.fact = f)

/-- The proofs of a fact among records. -/
def proofsFor (rs : List Record) (f : Literal) : List Proof :=
  (rs.filter (·.fact = f)).filterMap Record.proof

/-- The table in memory that records come to. -/
def gathered (rs : List Record) : AnswerTable :=
  rs.foldl (fun t r => record t r.fact r.proof.toList) .empty

variable {rs : List Record} {f : Literal} {ps : List Proof} {r : Record}

@[simp] theorem mem_facts : f ∈ facts rs ↔ ∃ r ∈ rs, r.fact = f := by
  simp [facts, List.mem_eraseDups]

theorem nodup_facts (rs : List Record) : (facts rs).Nodup := nodup_eraseDups _

theorem facts_eraseDups (rs : List Record) : facts rs.eraseDups = facts rs :=
  eraseDups_map_eraseDups _ _

theorem mem_proofsFor {π : Proof} : π ∈ proofsFor rs f ↔ ⟨f, some π⟩ ∈ rs := by
  unfold proofsFor
  simp only [List.mem_filterMap, List.mem_filter, decide_eq_true_eq]
  constructor
  · rintro ⟨⟨g, q⟩, ⟨hr, rfl⟩, rfl⟩
    exact hr
  · intro h
    exact ⟨_, ⟨h, rfl⟩, rfl⟩

/-- Among records without repetition, no proof of a fact is repeated. -/
theorem nodup_proofsFor (h : rs.Nodup) (f : Literal) : (proofsFor rs f).Nodup := by
  rw [proofsFor, List.filterMap_filter]
  refine h.filterMap fun r r' π hr hr' => ?_
  obtain ⟨g, q⟩ := r
  obtain ⟨g', q'⟩ := r'
  by_cases hg : g = f <;> by_cases hg' : g' = f <;> simp_all

/-- Grouping only changes the order. -/
theorem grouped_perm (rs : List Record) : (grouped rs).Perm rs :=
  flatMap_filter_perm Record.fact (nodup_facts rs) fun r hr => mem_facts.2 ⟨r, hr, rfl⟩

theorem gathered_concat (rs : List Record) (r : Record) :
    gathered (rs ++ [r]) = record (gathered rs) r.fact r.proof.toList := by
  simp [gathered]

/-- The answers of the table. -/
theorem keys_gathered (rs : List Record) : (gathered rs).keys = facts rs := by
  induction rs using List.reverseRecOn with
  | nil => rfl
  | append_singleton rs r ih =>
    have hmem : r.fact ∈ facts rs ↔ r.fact ∈ rs.map Record.fact := List.mem_eraseDups
    rw [gathered_concat, keys_record, ih, if_congr hmem rfl rfl]
    simp [facts, eraseDups_concat]

/-- The proofs of an answer of the table. -/
theorem get?_gathered (rs : List Record) (f : Literal) :
    ((gathered rs).get? f).getD [] = proofsFor rs.eraseDups f := by
  induction rs using List.reverseRecOn with
  | nil => rfl
  | append_singleton rs r ih =>
    have hget : ((gathered (rs ++ [r])).get? f).getD [] =
        if r.fact = f then appendNew (((gathered rs).get? f).getD []) r.proof.toList
        else ((gathered rs).get? f).getD [] := by
      rw [gathered_concat, record, Assoc.get?_alter]
      by_cases h : r.fact = f
      · rw [if_pos h, if_pos h, h, Option.getD_some]
      · rw [if_neg h, if_neg h]
    rw [hget, ih, eraseDups_concat]
    obtain ⟨g, q⟩ := r
    by_cases hg : g = f
    · subst hg
      have hmem : ∀ π, π ∈ proofsFor rs.eraseDups g ↔ ⟨g, some π⟩ ∈ rs := fun π =>
        mem_proofsFor.trans List.mem_eraseDups
      cases q with
      | none =>
        rw [if_pos rfl]
        by_cases hr : (⟨g, none⟩ : Record) ∈ rs <;> simp [appendNew, proofsFor, hr]
      | some π =>
        by_cases hr : (⟨g, some π⟩ : Record) ∈ rs
        · simp [appendNew, (hmem π).2 hr, hr]
        · have hπ : π ∉ proofsFor rs.eraseDups g := fun h => hr ((hmem π).1 h)
          simp only [appendNew, Option.toList_some, List.foldl_cons, List.foldl_nil, if_neg hπ,
            if_neg hr, if_true]
          simp [proofsFor]
    · rw [if_neg hg]
      split
      · rfl
      · simp [proofsFor, hg]

/-- **The proofs of the table are those of the list, grouped by fact.** -/
theorem records_gathered (rs : List Record) :
    (gathered rs).records = (grouped rs.eraseDups).filterMap Record.proof := by
  have hkeys : (gathered rs).keys.Nodup := keys_gathered rs ▸ nodup_facts rs
  have hvalues : (gathered rs).values = (facts rs).map (proofsFor rs.eraseDups) := by
    rw [Assoc.values_eq_map hkeys [], keys_gathered]
    exact List.map_congr_left fun f _ => get?_gathered rs f
  rw [AnswerTable.records, hvalues, grouped, facts_eraseDups, List.filterMap_flatMap,
    List.flatMap_def]
  rfl

/-- Adding an answer with proofs is adding its records one after the other. -/
theorem record_eq_foldl (t : AnswerTable) (f : Literal) (ps : List Proof) :
    (recordsOf f ps).foldl (fun t r => record t r.fact r.proof.toList) t = record t f ps := by
  have hcons : ∀ (t : AnswerTable) (qs : List Proof) (π : Proof),
      record (record t f qs) f [π] = record t f (qs ++ [π]) := by
    intro t qs π
    unfold record Assoc.alter
    congr 1
    induction t.entries with
    | nil => simp [Assoc.alterEntries, appendNew]
    | cons e rest ih => grind [Assoc.alterEntries, appendNew]
  have key : ∀ ps qs, (ps.map fun π => (⟨f, some π⟩ : Record)).foldl
      (fun t r => record t r.fact r.proof.toList) (record t f qs) = record t f (qs ++ ps) := by
    intro ps
    induction ps with
    | nil => simp
    | cons π ps ih =>
      intro qs
      rw [List.map_cons, List.foldl_cons]
      simp only [Option.toList_some]
      rw [hcons, ih, List.append_assoc, List.singleton_append]
  exact key ps []

theorem gathered_append_recordsOf (rs : List Record) (f : Literal) (ps : List Proof) :
    gathered (rs ++ recordsOf f ps) = record (gathered rs) f ps := by
  rw [gathered, List.foldl_append, record_eq_foldl]
  rfl

/-! ## Histories of answers with proofs -/

/-- Every fact that has a record is an answer. -/
def Headed (rs : List Record) : Prop := ∀ r ∈ rs, ⟨r.fact, none⟩ ∈ rs

theorem headed_nil : Headed [] := by simp [Headed]

theorem Headed.append_recordsOf (h : Headed rs) (f : Literal) (ps : List Proof) :
    Headed (rs ++ recordsOf f ps) := by
  intro r hr
  rcases List.mem_append.1 hr with hr | hr
  · exact List.mem_append_left _ (h r hr)
  · have hf : r.fact = f := by
      rcases List.mem_cons.1 hr with rfl | hr
      · rfl
      · obtain ⟨π, -, rfl⟩ := List.mem_map.1 hr
        rfl
    rw [hf]
    exact List.mem_append_right _ (by simp [recordsOf])

/-- The number of answers of the table. -/
theorem size_gathered (h : Headed rs) :
    (gathered rs).size = (rs.eraseDups.filter (·.proof.isSome == false)).length := by
  have hsize : (gathered rs).size = (facts rs).length := by
    rw [← keys_gathered, Assoc.keys, List.length_map]
    rfl
  -- the facts are what the records of answers are about
  have hperm :
      ((rs.eraseDups.filter (·.proof.isSome == false)).map Record.fact).Perm (facts rs) := by
    refine (List.perm_ext_iff_of_nodup ?_ (nodup_facts rs)).2 fun f => ?_
    · refine List.Nodup.map_on ?_ ((nodup_eraseDups rs).filter _)
      rintro ⟨f, p⟩ hr ⟨g, q⟩ hs hfg
      have hp := (List.mem_filter.1 hr).2
      have hq := (List.mem_filter.1 hs).2
      cases p <;> cases q <;> simp_all
    · simp only [List.mem_map, List.mem_filter, List.mem_eraseDups, mem_facts]
      constructor
      · rintro ⟨r, ⟨hr, -⟩, hf⟩
        exact ⟨r, hr, hf⟩
      · rintro ⟨r, hr, rfl⟩
        exact ⟨⟨r.fact, none⟩, ⟨h r hr, rfl⟩, rfl⟩
  rw [hsize, ← hperm.length_eq, List.length_map]

/-- The number of proofs of the table. -/
theorem length_records_gathered (rs : List Record) :
    (gathered rs).records.length = (rs.eraseDups.filter (·.proof.isSome == true)).length := by
  have hlength : ∀ l : List Record,
      (l.filterMap Record.proof).length = (l.filter (·.proof.isSome == true)).length := by
    intro l
    induction l with
    | nil => rfl
    | cons r l ih => cases h : r.proof <;> simp [h, ih]
  rw [records_gathered, ((grouped_perm _).filterMap _).length_eq, hlength]

/-- What is added is news unless all its records are in the list. -/
theorem isNews_gathered (h : Headed rs) :
    isNews (gathered rs) f ps = false ↔ ∀ r ∈ recordsOf f ps, r ∈ rs := by
  have hfact : f ∈ facts rs ↔ ⟨f, none⟩ ∈ rs := by
    rw [mem_facts]
    constructor
    · rintro ⟨r, hr, rfl⟩
      exact h r hr
    · exact fun hf => ⟨_, hf, rfl⟩
  rw [isNews_eq_false_iff, keys_gathered, get?_gathered, hfact]
  simp [recordsOf, mem_proofsFor, List.mem_eraseDups]

end Journal

end ProbDatalog
