import ProbDatalog.Proofs.Sorting
import ProbDatalog.Search.Justification
import Mathlib.Data.List.Flatten
import Mathlib.Logic.Relation

/-!
# Walks down from a fact

A walk finds the proofs of a fact, of the facts that these rest on, and so on, and reads the tables
that it needs on the way. A proof is found once and then queues the facts that it rests on, so a
walk takes no more steps than there are dependencies of recorded proofs. What it finds does not
depend on the order in which proofs are listed: either a table that covers a fact on the way down
cannot be read, and the walk ends with its fault or that of another such table, or all proofs are
found.

* `Walk.Ends`: what a walk ends with, after as many steps as it takes.
* `Walk.Faithful.foldlM_look`: looking one fact up.
* `Walk.Explores.step`: **what a step keeps**, and that it leaves less to do.
* `Walk.Explores.run`: **a walk ends before the bound on its steps is felt.**
* `Tables.proofsBelow_cases`: **which proofs are found**, and when none are.
-/

namespace ProbDatalog

variable {σ : Type} [Tables σ]

/-! ## The way down -/

namespace Tables

variable (tables : σ)

/-- The proofs of a fact in the tables of all patterns that cover it. -/
def proofsOf (fact : Literal) : List Proof :=
  ((patterns tables).filter (·.covers fact)).flatMap fun p =>
    (readable tables p).filter (·.head = fact)

/-- A proof of a fact rests on another fact. -/
def Below (a b : Literal) : Prop := ∃ π ∈ proofsOf tables a, b ∈ π.dependencies

/-- A table that covers a fact on the way down cannot be read. -/
def Barred (fact : Literal) (e : StoreFault) : Prop :=
  ∃ g, Relation.ReflTransGen (Below tables) fact g ∧
    ∃ p ∈ patterns tables, p.covers g = true ∧ recorded tables p = .error e

/-- The facts that are still to be queued, each counted for every proof that queues it. -/
def remaining (seen : List Literal) : Nat :=
  ((((patterns tables).flatMap (readable tables)).filter (·.head ∉ seen)).flatMap
    Proof.dependencies).length

/-- How many steps may still be needed. -/
def pending (queue seen : List Literal) : Nat := queue.length + remaining tables seen

variable {tables} {fact : Literal} {queue seen : List Literal} {p : CallPattern} {π : Proof}

theorem readable_eq {l : List Proof} (h : recorded tables p = .ok l) : readable tables p = l := by
  rw [readable, h]
  rfl

/-- Only proofs of the fact itself are its own. -/
theorem head_of_mem_proofsOf (h : π ∈ proofsOf tables fact) : π.head = fact := by
  obtain ⟨p, -, hp⟩ := List.mem_flatMap.1 h
  exact of_decide_eq_true (List.mem_filter.1 hp).2

theorem dependencyCount_eq : dependencyCount tables = remaining tables [] := by
  unfold dependencyCount remaining
  rw [List.filter_eq_self.2 (by simp), List.flatMap_assoc]

/-- The proofs of a fact are some of the proofs that can be read. -/
theorem proofsOf_sublist : (proofsOf tables fact).Sublist
    (((patterns tables).flatMap (readable tables)).filter (·.head = fact)) := by
  unfold proofsOf
  rw [List.filter_flatMap]
  exact List.filter_sublist.flatMap _

/-- The facts that a new fact queues are not to be queued any more. -/
theorem length_add_remaining_le (h : fact ∉ seen) :
    ((proofsOf tables fact).flatMap Proof.dependencies).length +
      remaining tables (fact :: seen) ≤ remaining tables seen := by
  have hle : ((proofsOf tables fact).flatMap Proof.dependencies).length ≤
      ((((patterns tables).flatMap (readable tables)).filter (·.head = fact)).flatMap
        Proof.dependencies).length :=
    (proofsOf_sublist.flatMap _).length_le
  refine Nat.le_trans (Nat.add_le_add_right hle _) ?_
  unfold remaining
  generalize (patterns tables).flatMap (readable tables) = all
  induction all with
  | nil => simp
  | cons π rest ih =>
    -- a proof of the new fact moves its dependencies to the queue; other proofs stay where they are
    by_cases hfact : π.head = fact
    · have hseen : π.head ∉ seen := hfact ▸ h
      rw [List.filter_cons_of_pos (by simpa using hfact),
        List.filter_cons_of_neg (by simp [hfact]), List.filter_cons_of_pos (by simpa using hseen)]
      simp only [List.flatMap_cons, List.length_append]
      omega
    · rw [List.filter_cons_of_neg (by simpa using hfact)]
      by_cases hseen : π.head ∈ seen
      · rw [List.filter_cons_of_neg (by simp [hseen]), List.filter_cons_of_neg (by simp [hseen])]
        exact ih
      · rw [List.filter_cons_of_pos (by simp [hseen, hfact]),
          List.filter_cons_of_pos (by simpa using hseen)]
        simp only [List.flatMap_cons, List.length_append]
        omega

/-- As many steps are taken as may be needed from the start. -/
theorem pending_start_le : pending tables [fact] [] ≤ dependencyCount tables + 1 := by
  simp [pending, dependencyCount_eq, Nat.add_comm]

/-- A fact that is passed over takes a step. -/
theorem pending_pass_lt : pending tables queue seen < pending tables (fact :: queue) seen := by
  simp [pending]

/-- A fact that is dealt with takes a step. -/
theorem pending_see_lt (h : fact ∉ seen) :
    pending tables (queue ++ (proofsOf tables fact).flatMap Proof.dependencies) (fact :: seen) <
      pending tables (fact :: queue) seen := by
  have hrem : _ + remaining tables (fact :: seen) ≤ remaining tables seen :=
    length_add_remaining_le h
  simp only [pending, List.length_cons, List.length_append]
  omega

end Tables

/-! ## Looking facts up -/

namespace Walk

/-- What a walk ends with, after as many steps as it takes: no fact is left to be looked up, or a
table cannot be read. -/
inductive Ends (tables : σ) : Walk → Except StoreFault Walk → Prop
  | done {w : Walk} (h : w.queue = []) : Ends tables w (.ok w)
  | fault {w : Walk} {e : StoreFault} (h : w.step tables = .error e) : Ends tables w (.error e)
  | step {w v : Walk} {r : Except StoreFault Walk} (hq : w.queue ≠ [])
      (h : w.step tables = .ok v) (hr : Ends tables v r) : Ends tables w r

variable {tables : σ} {w v : Walk} {p : CallPattern} {fact : Literal} {π : Proof}

/-- What is kept is what the tables hold, and each of them has been read once. -/
structure Faithful (tables : σ) (w : Walk) : Prop where
  recorded : ∀ {p l}, w.kept.get? p = some l → Tables.recorded tables p = .ok l
  reads : w.reads = w.kept.keys
  nodup : w.reads.Nodup
  subset : w.reads ⊆ Tables.patterns tables

theorem Faithful.start (tables : σ) (fact : Literal) : (start fact).Faithful tables where
  recorded h := by cases h
  reads := rfl
  nodup := List.nodup_nil
  subset := List.nil_subset _

theorem Faithful.congr (h : w.Faithful tables) (hkept : v.kept = w.kept)
    (hreads : v.reads = w.reads) : v.Faithful tables where
  recorded hp := h.recorded (hkept ▸ hp)
  reads := hkept ▸ hreads ▸ h.reads
  nodup := hreads ▸ h.nodup
  subset := hreads ▸ h.subset

/-- A table that has not been kept has not been read. -/
theorem Faithful.read (h : w.Faithful tables) (hp : p ∈ Tables.patterns tables)
    (hnew : w.kept.get? p = none) {l : List Proof} (hl : Tables.recorded tables p = .ok l) :
    Faithful tables { w with kept := w.kept.insert p l, reads := w.reads ++ [p] } := by
  have hkey : p ∉ w.kept.keys := (Assoc.get?_eq_none_iff w.kept p).1 hnew
  constructor
  · intro q l' hq
    rw [Assoc.get?_insert] at hq
    split at hq
    next heq =>
      cases hq
      exact heq ▸ hl
    next => exact h.recorded hq
  · simp [Assoc.keys_insert, hkey, h.reads]
  · rw [← h.reads] at hkey
    simpa [List.nodup_append, h.nodup] using fun a ha => ne_of_mem_of_not_mem ha hkey
  · exact List.append_subset.2 ⟨h.subset, by simpa using hp⟩

/-- A walk has found proofs of the fact that it has looked up, and queued what they rest on. -/
structure Finds (tables : σ) (w v : Walk) (proofs : List Proof) : Prop where
  faithful : v.Faithful tables
  seen : v.seen = w.seen
  queue : v.queue = w.queue ++ proofs.flatMap Proof.dependencies
  found : v.found = w.found.insertAll proofs

theorem Faithful.finds_nil (h : w.Faithful tables) : w.Finds tables w [] :=
  ⟨h, rfl, by simp, rfl⟩

theorem Finds.append {u : Walk} {ps qs : List Proof} (h : w.Finds tables u ps)
    (h' : u.Finds tables v qs) : w.Finds tables v (ps ++ qs) where
  faithful := h'.faithful
  seen := h'.seen.trans h.seen
  queue := by simp [h'.queue, h.queue]
  found := by simp [h'.found, h.found, ProofSet.insertAll, List.foldl_append]

/-- What was seen or queued when the next fact was looked up is so still. -/
theorem Finds.seen_or_queued {a g : Literal} {queue seen : List Literal}
    {kept : Assoc CallPattern (List Proof)} {reads : List CallPattern} {found : ProofSet}
    {proofs : List Proof} (h : Finds tables ⟨queue, g :: seen, kept, reads, found⟩ v proofs)
    (ha : a ∈ seen ∨ a ∈ g :: queue) : a ∈ v.seen ∨ a ∈ v.queue := by
  rw [h.seen, h.queue]
  rcases ha with ha | ha
  · exact .inl (List.mem_cons_of_mem _ ha)
  · rcases List.mem_cons.1 ha with rfl | ha
    · exact .inl List.mem_cons_self
    · exact .inr (List.mem_append_left _ ha)

/-- A fact that is looked up in one table has found its proofs there. -/
theorem Faithful.look (h : w.Faithful tables) (hp : p ∈ Tables.patterns tables) (fact : Literal) :
    (∃ e, Tables.recorded tables p = .error e ∧ w.look tables fact p = .error e) ∨
      (∃ l, Tables.recorded tables p = .ok l) ∧ ∃ v, w.look tables fact p = .ok v ∧
        w.Finds tables v ((Tables.readable tables p).filter (·.head = fact)) := by
  unfold Walk.look Walk.table
  cases hkept : w.kept.get? p with
  | some l =>
    rw [Tables.readable_eq (h.recorded hkept)]
    exact .inr ⟨⟨l, h.recorded hkept⟩, _, rfl, h.congr rfl rfl, rfl, rfl, rfl⟩
  | none =>
    cases hl : Tables.recorded tables p with
    | error e => exact .inl ⟨e, rfl, rfl⟩
    | ok l =>
      rw [Tables.readable_eq hl]
      exact .inr ⟨⟨l, rfl⟩, _, rfl, (h.read hp hkept hl).congr rfl rfl, rfl, rfl, rfl⟩

/-- **A fact that is looked up in several tables** has found its proofs in all of them, unless one
of them cannot be read. -/
theorem Faithful.foldlM_look (h : w.Faithful tables) {ps : List CallPattern}
    (hps : ps ⊆ Tables.patterns tables) (fact : Literal) :
    (∃ p ∈ ps, ∃ e, Tables.recorded tables p = .error e ∧
      ps.foldlM (Walk.look tables fact) w = .error e) ∨
      (∀ p ∈ ps, ∃ l, Tables.recorded tables p = .ok l) ∧
        ∃ v, ps.foldlM (Walk.look tables fact) w = .ok v ∧
          w.Finds tables v (ps.flatMap fun p =>
            (Tables.readable tables p).filter (·.head = fact)) := by
  induction ps generalizing w with
  | nil => exact .inr ⟨by simp, w, rfl, h.finds_nil⟩
  | cons p rest ih =>
    obtain ⟨hp, hrest⟩ := List.cons_subset.1 hps
    rw [List.foldlM_cons]
    rcases h.look hp fact with ⟨e, hfault, hlook⟩ | ⟨hread, u, hlook, hu⟩
    · exact .inl ⟨p, List.mem_cons_self, e, hfault, by rw [hlook]; rfl⟩
    · rw [hlook]
      rcases ih hu.faithful hrest with ⟨q, hq, e, hfault, hrun⟩ | ⟨hreads, v, hrun, hv⟩
      · exact .inl ⟨q, List.mem_cons_of_mem _ hq, e, hfault, hrun⟩
      · exact .inr ⟨List.forall_mem_cons.2 ⟨hread, hreads⟩, v, hrun, hu.append hv⟩

/-! ## Going down -/

/-- What holds all along the way down from a fact: what has been seen is dealt with, what is queued
and found is below the fact. -/
structure Explores (tables : σ) (fact : Literal) (w : Walk) : Prop extends Faithful tables w where
  start : fact ∈ w.seen ∨ fact ∈ w.queue
  queue : ∀ g ∈ w.queue, Relation.ReflTransGen (Tables.Below tables) fact g
  readable : ∀ a ∈ w.seen, ∀ p ∈ Tables.patterns tables, p.covers a = true →
    ∃ l, Tables.recorded tables p = .ok l
  dealt : ∀ a ∈ w.seen, ∀ π ∈ Tables.proofsOf tables a,
    π ∈ w.found.toList ∧ ∀ b ∈ π.dependencies, b ∈ w.seen ∨ b ∈ w.queue
  sound : ∀ π ∈ w.found.toList, Relation.ReflTransGen (Tables.Below tables) fact π.head ∧
    π ∈ Tables.proofsOf tables π.head
  sorted : Sorted.IsSorted w.found.toList

namespace Explores

theorem of_start (tables : σ) (fact : Literal) : (Walk.start fact).Explores tables fact where
  toFaithful := .start tables fact
  start := .inr List.mem_cons_self
  queue g hg := List.mem_singleton.1 hg ▸ .refl
  readable a ha := by cases ha
  dealt a ha := by cases ha
  sound π hπ := by cases hπ
  sorted := Sorted.isSorted_nil

variable {g : Literal} {queue seen : List Literal} {kept : Assoc CallPattern (List Proof)}
variable {reads : List CallPattern} {found : ProofSet}

/-- A fact that was seen is dropped from the queue. -/
theorem pass (h : Explores tables fact ⟨g :: queue, seen, kept, reads, found⟩) (hg : g ∈ seen) :
    Explores tables fact ⟨queue, seen, kept, reads, found⟩ where
  toFaithful := h.toFaithful.congr rfl rfl
  start := by
    rcases h.start with hs | hs
    · exact .inl hs
    · exact (List.mem_cons.1 hs).imp (fun heq : fact = g => heq ▸ hg) id
  queue b hb := h.queue b (List.mem_cons_of_mem _ hb)
  readable := h.readable
  dealt a ha π hπ := by
    refine ⟨(h.dealt a ha π hπ).1, fun b hb => ?_⟩
    rcases (h.dealt a ha π hπ).2 b hb with hb | hb
    · exact .inl hb
    · exact (List.mem_cons.1 hb).imp (fun heq : b = g => heq ▸ hg) id
  sound := h.sound
  sorted := h.sorted

/-- A fact has been seen once its proofs are found and what they rest on is in the queue. -/
theorem see (h : Explores tables fact ⟨g :: queue, seen, kept, reads, found⟩)
    (hread : ∀ p ∈ Tables.patterns tables, p.covers g = true →
      ∃ l, Tables.recorded tables p = .ok l)
    (hv : Finds tables ⟨queue, g :: seen, kept, reads, found⟩ v (Tables.proofsOf tables g)) :
    v.Explores tables fact where
  toFaithful := hv.faithful
  start := hv.seen_or_queued h.start
  queue := by
    rw [hv.queue]
    intro b hb
    rcases List.mem_append.1 hb with hb | hb
    · exact h.queue b (List.mem_cons_of_mem _ hb)
    · obtain ⟨ρ, hρ, hdep⟩ := List.mem_flatMap.1 hb
      exact (h.queue g List.mem_cons_self).tail ⟨ρ, hρ, hdep⟩
  readable := by
    rw [hv.seen]
    exact List.forall_mem_cons.2 ⟨hread, h.readable⟩
  dealt := by
    rw [hv.seen]
    refine List.forall_mem_cons.2 ⟨fun π hπ => ?_, fun a ha π hπ => ?_⟩
    · rw [hv.found, hv.queue]
      refine ⟨ProofSet.mem_insertAll.2 (.inr hπ), fun b hb => .inr ?_⟩
      exact List.mem_append_right _ (List.mem_flatMap.2 ⟨π, hπ, hb⟩)
    · obtain ⟨hfound, hdeps⟩ := h.dealt a ha π hπ
      rw [hv.found, ← hv.seen]
      exact ⟨ProofSet.mem_insertAll.2 (.inl hfound), fun b hb => hv.seen_or_queued (hdeps b hb)⟩
  sound := by
    rw [hv.found]
    intro π hπ
    rcases ProofSet.mem_insertAll.1 hπ with hπ | hπ
    · exact h.sound π hπ
    · obtain rfl := Tables.head_of_mem_proofsOf hπ
      exact ⟨h.queue _ List.mem_cons_self, hπ⟩
  sorted := by
    rw [hv.found]
    exact ProofSet.isSorted_insertAll h.sorted _

/-- **What a step keeps**, and that it leaves less to do, unless a table cannot be read. -/
theorem step (h : w.Explores tables fact) (hq : w.queue ≠ []) :
    (∃ e, Tables.Barred tables fact e ∧ w.step tables = .error e) ∨
      ∃ v, w.step tables = .ok v ∧ v.Explores tables fact ∧
        Tables.pending tables v.queue v.seen < Tables.pending tables w.queue w.seen := by
  obtain ⟨_ | ⟨g, queue⟩, seen, kept, reads, found⟩ := w
  · exact absurd rfl hq
  unfold Walk.step
  dsimp only
  split
  next hseen =>
    exact .inr ⟨_, rfl, h.pass (by simpa using hseen), Tables.pending_pass_lt⟩
  next hseen =>
    have hseen' : g ∉ seen := by simpa using hseen
    have h' : Faithful tables ⟨queue, g :: seen, kept, reads, found⟩ := h.toFaithful.congr rfl rfl
    rcases h'.foldlM_look (List.filter_subset_self _) g with
      ⟨p, hp, e, hfault, hrun⟩ | ⟨hread, v, hrun, hv⟩
    · obtain ⟨hp, hcov⟩ := List.mem_filter.1 hp
      exact .inl ⟨e, ⟨g, h.queue g List.mem_cons_self, p, hp, hcov, hfault⟩, hrun⟩
    · refine .inr ⟨v, hrun, h.see (fun p hp hcov => hread p ?_) hv, ?_⟩
      · exact List.mem_filter.2 ⟨hp, hcov⟩
      · rw [hv.queue, hv.seen]
        exact Tables.pending_see_lt hseen'

/-- **A walk ends before the bound on its steps is felt**: with nothing left to be looked up, or
with the fault of a table that cannot be read. -/
theorem run {steps : Nat} (h : w.Explores tables fact)
    (hsteps : Tables.pending tables w.queue w.seen ≤ steps) :
    (∃ e, Tables.Barred tables fact e ∧ w.run tables steps = .error e ∧
      Ends tables w (.error e)) ∨
      ∃ v, w.run tables steps = .ok v ∧ Ends tables w (.ok v) ∧ v.Explores tables fact ∧
        v.queue = [] := by
  induction steps generalizing w with
  | zero =>
    have hq : w.queue = [] := by
      unfold Tables.pending at hsteps
      exact List.length_eq_zero_iff.1 (by omega)
    exact .inr ⟨w, rfl, .done hq, h, hq⟩
  | succ steps ih =>
    unfold Walk.run
    cases hq : w.queue with
    | nil => exact .inr ⟨w, rfl, .done hq, h, hq⟩
    | cons g queue =>
      have hne : w.queue ≠ [] := by simp [hq]
      rcases h.step hne with ⟨e, he, hstep⟩ | ⟨v, hstep, hv, hlt⟩
      · exact .inl ⟨e, he, by rw [hstep]; rfl, .fault hstep⟩
      · rw [hstep]
        rcases ih hv (Nat.le_of_lt_succ (Nat.lt_of_lt_of_le hlt hsteps)) with
          ⟨e, he, hrun, hends⟩ | ⟨u, hrun, hends, hu⟩
        · exact .inl ⟨e, he, hrun, .step hne hstep hends⟩
        · exact .inr ⟨u, hrun, .step hne hstep hends, hu⟩

variable (h : w.Explores tables fact) (hq : w.queue = [])

include h hq

/-- In the end everything on the way down has been seen. -/
theorem mem_seen (hpath : Relation.ReflTransGen (Tables.Below tables) fact g) : g ∈ w.seen := by
  induction hpath with
  | refl => simpa [hq] using h.start
  | tail _ hbelow ih =>
    obtain ⟨ρ, hρ, hdep⟩ := hbelow
    simpa [hq] using (h.dealt _ ih ρ hρ).2 _ hdep

/-- In the end all proofs have been found. -/
theorem mem_found_iff : π ∈ w.found.toList ↔
    Relation.ReflTransGen (Tables.Below tables) fact π.head ∧
      π ∈ Tables.proofsOf tables π.head :=
  ⟨h.sound π, fun ⟨hpath, hπ⟩ => (h.dealt _ (h.mem_seen hq hpath) π hπ).1⟩

/-- If a walk has ended so, all tables on the way down can be read. -/
theorem not_barred (e : StoreFault) : ¬Tables.Barred tables fact e := by
  rintro ⟨g, hpath, p, hp, hcov, hfault⟩
  obtain ⟨l, hl⟩ := h.readable g (h.mem_seen hq hpath) p hp hcov
  cases hl.symm.trans hfault

end Explores

end Walk

/-! ## What is found -/

namespace Tables

variable (tables : σ) (fact : Literal)

/-- **Which proofs are found**: where some table on the way down cannot be read, none, and otherwise
those of all facts on the way down. -/
theorem proofsBelow_cases :
    (∃ e, Barred tables fact e ∧ proofsBelow tables fact = .error e ∧
      Walk.Ends tables (.start fact) (.error e)) ∨
    (∀ e, ¬Barred tables fact e) ∧
      ∃ v, proofsBelow tables fact = .ok v.found ∧ Walk.Ends tables (.start fact) (.ok v) ∧
        v.Faithful tables ∧ Sorted.IsSorted v.found.toList ∧
        ∀ π, π ∈ v.found.toList ↔
          Relation.ReflTransGen (Below tables) fact π.head ∧ π ∈ proofsOf tables π.head := by
  unfold proofsBelow
  rcases (Walk.Explores.of_start tables fact).run pending_start_le with
    ⟨e, he, hrun, hends⟩ | ⟨v, hrun, hends, hv, hq⟩
  · exact .inl ⟨e, he, by rw [hrun]; rfl, hends⟩
  · exact .inr ⟨hv.not_barred hq, v, by rw [hrun]; rfl, hends, hv.toFaithful, hv.sorted,
      fun π => hv.mem_found_iff hq⟩

variable {tables fact} {found : ProofSet} {e : StoreFault}

theorem mem_proofsBelow_iff (h : proofsBelow tables fact = .ok found) {π : Proof} :
    π ∈ found.toList ↔
      Relation.ReflTransGen (Below tables) fact π.head ∧ π ∈ proofsOf tables π.head := by
  rcases proofsBelow_cases tables fact with ⟨e, -, he, -⟩ | ⟨-, v, hv, -, -, -, hmem⟩
  · cases h.symm.trans he
  · cases h.symm.trans hv
    exact hmem π

/-- What is found stands in order. -/
theorem isSorted_proofsBelow (h : proofsBelow tables fact = .ok found) :
    Sorted.IsSorted found.toList := by
  rcases proofsBelow_cases tables fact with ⟨e, -, he, -⟩ | ⟨-, v, hv, -, -, hsorted, -⟩
  · cases h.symm.trans he
  · cases h.symm.trans hv
    exact hsorted

/-- Where proofs are found, all tables on the way down can be read. -/
theorem not_barred_of_proofsBelow (h : proofsBelow tables fact = .ok found) (e : StoreFault) :
    ¬Barred tables fact e := by
  rcases proofsBelow_cases tables fact with ⟨e, -, he, -⟩ | ⟨hno, -⟩
  · cases h.symm.trans he
  · exact hno e

theorem barred_of_proofsBelow (h : proofsBelow tables fact = .error e) :
    Barred tables fact e := by
  rcases proofsBelow_cases tables fact with ⟨e', he, heq, -⟩ | ⟨-, v, hv, -⟩
  · cases h.symm.trans heq
    exact he
  · cases h.symm.trans hv

end Tables

end ProbDatalog
