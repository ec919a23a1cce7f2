import ProbDatalog.Proofs.Interchange
import ProbDatalog.Proofs.Lineages

/-!
# Proofs grouped by their heads

A set of proofs can be kept as a map from facts to sets of their proofs, both found by comparing.
As the heads come first in the order of proofs, this lists the same proofs in the same order as the
ordered set of all of them, whatever the order in which they are put in. Tables, which look proofs
up by equality, hold the same proofs, since just equal ones compare as equal.

* `Groups.Valid`: what is kept when a proof is put into its group.
* `Groups.ofList_eq`: **the groups are the facts of the ordered set with their proofs.**
* `Operation.identifies`: tables and ordered sets identify the same proofs.
* `order_tells_identity`: **order and equality agree on all keys.**
-/

namespace ProbDatalog

open Sorted

theorem eraseDups_sublist {α : Type} [DecidableEq α] (l : List α) : l.eraseDups.Sublist l := by
  induction l using List.reverseRecOn with
  | nil => exact .slnil
  | append_singleton l a ih =>
    rw [eraseDups_concat]
    split
    · exact ih.trans (List.sublist_append_left l [a])
    · exact ih.append_right [a]

/-! ## Facts in order -/

/-- The heads of proofs are compared first. -/
theorem Proof.compare_eq_then (π q : Proof) : compare π q = (compare π.head q.head).then
    ((compare π.body q.body).then
      ((compare π.probability q.probability).then (compare π.clause q.clause))) := rfl

/-- The facts of an ordered set ascend. -/
theorem ProofSet.isSorted_facts {s : ProofSet} (hs : IsSorted s.toList) : IsSorted s.facts := by
  have hle : (s.toList.map Proof.head).Pairwise fun f g => compare f g ≠ .gt := by
    refine List.pairwise_map.2 (hs.imp fun {π q} hlt hgt => ?_)
    rw [Proof.compare_eq_then, hgt] at hlt
    cases hlt
  -- without repetitions the heads ascend strictly
  have hne : s.facts.Pairwise fun f g => f ≠ g := nodup_eraseDups _
  refine ((hle.sublist (eraseDups_sublist _)).and hne).imp fun {f g} h => ?_
  cases hc : compare f g with
  | lt => rfl
  | eq => exact absurd (Std.LawfulEqOrd.eq_of_compare hc) h.2
  | gt => exact absurd hc h.1

/-! ## Groups -/

/-- Facts, each with a list of proofs. -/
abbrev Groups := List (Literal × List Proof)

namespace Groups

variable {g : Groups} {ps : List Proof} {π q : Proof}

/-- Put a proof into the group of its head. The group and the place in it are found by comparing. -/
def insert (π : Proof) : Groups → Groups
  | [] => [(π.head, [π])]
  | (head, group) :: rest =>
    match compare π.head head with
    | .lt => (π.head, [π]) :: (head, group) :: rest
    | .eq => (head, Sorted.insert π group) :: rest
    | .gt => (head, group) :: insert π rest

/-- The groups of the listed proofs. -/
def ofList (ps : List Proof) : Groups := ps.foldl (fun g π => insert π g) []

/-- The facts with groups. -/
def heads (g : Groups) : List Literal := g.map Prod.fst

/-- All proofs, group by group. -/
def toList (g : Groups) : List Proof := g.flatMap Prod.snd

/-- A set of proofs of a fact, at least one. -/
structure IsGroup (head : Literal) (group : List Proof) : Prop where
  sorted : IsSorted group
  heads : ∀ π ∈ group, π.head = head
  ne_nil : group ≠ []

/-- The facts ascend, and each has a set of its own proofs. -/
structure Valid (g : Groups) : Prop where
  ascending : IsSorted g.heads
  groups : ∀ e ∈ g, IsGroup e.1 e.2

theorem valid_nil : Valid [] := ⟨isSorted_nil, by simp⟩

theorem isGroup_singleton (π : Proof) : IsGroup π.head [π] :=
  ⟨isSorted_singleton π, by simp, by simp⟩

theorem IsGroup.insert {head : Literal} {group : List Proof} (h : IsGroup head group)
    (hπ : π.head = head) : IsGroup head (Sorted.insert π group) := by
  have hmem : π ∈ Sorted.insert π group := mem_insert.2 (.inl rfl)
  refine ⟨isSorted_insert h.sorted π, fun q hq => ?_, List.ne_nil_of_mem hmem⟩
  rcases mem_insert.1 hq with rfl | hq
  · exact hπ
  · exact h.heads q hq

theorem heads_insert (π : Proof) (g : Groups) :
    (insert π g).heads = Sorted.insert π.head g.heads := by
  induction g with
  | nil => rfl
  | cons e rest ih =>
    obtain ⟨head, group⟩ := e
    cases hc : compare π.head head with
    | lt => simp [insert, Sorted.insert, heads, hc]
    | eq => simp [insert, Sorted.insert, heads, hc]
    | gt => simpa [insert, Sorted.insert, heads, hc] using ih

/-- **A proof may be put into its group.** -/
theorem Valid.insert (h : g.Valid) (π : Proof) : (insert π g).Valid := by
  refine ⟨heads_insert π g ▸ isSorted_insert h.ascending π.head, ?_⟩
  have hgroups := h.groups
  -- by induction on the groups, for which it does not matter here that their facts ascend
  clear h
  induction g with
  | nil => simpa [Groups.insert] using isGroup_singleton π
  | cons e rest ih =>
    obtain ⟨head, group⟩ := e
    obtain ⟨hhead, hrest⟩ := List.forall_mem_cons.1 hgroups
    unfold Groups.insert
    split
    · exact List.forall_mem_cons.2 ⟨isGroup_singleton π, hgroups⟩
    next heq =>
      have hπ : π.head = head := Std.LawfulEqOrd.eq_of_compare heq
      exact List.forall_mem_cons.2 ⟨hhead.insert hπ, hrest⟩
    · exact List.forall_mem_cons.2 ⟨hhead, ih hrest⟩

theorem mem_toList_insert : q ∈ (insert π g).toList ↔ q = π ∨ q ∈ g.toList := by
  induction g with
  | nil => simp [insert, toList]
  | cons e rest ih =>
    obtain ⟨head, group⟩ := e
    have hcons : ∀ (e : Literal × List Proof) (g : Groups),
        q ∈ toList (e :: g) ↔ q ∈ e.2 ∨ q ∈ g.toList := fun e g => by simp [toList]
    unfold insert
    split
    · simp only [hcons, List.mem_singleton]
    · simp only [hcons, mem_insert, or_assoc]
    · simp only [hcons, ih]
      tauto

theorem valid_foldl (h : g.Valid) (ps : List Proof) :
    (ps.foldl (fun g π => insert π g) g).Valid := by
  induction ps generalizing g with
  | nil => exact h
  | cons π ps ih => exact ih (h.insert π)

theorem mem_toList_foldl :
    q ∈ toList (ps.foldl (fun g π => insert π g) g) ↔ q ∈ g.toList ∨ q ∈ ps := by
  induction ps generalizing g with
  | nil => simp
  | cons π ps ih =>
    rw [List.foldl_cons, ih, mem_toList_insert, List.mem_cons]
    tauto

theorem valid_ofList (ps : List Proof) : (ofList ps).Valid := valid_foldl valid_nil ps

/-- The proofs of valid groups ascend. -/
theorem Valid.isSorted_toList (h : g.Valid) : IsSorted g.toList := by
  refine List.pairwise_flatMap.2 ⟨fun e he => (h.groups e he).sorted, ?_⟩
  -- proofs of two groups are compared by their heads, which are the facts of the groups
  refine (List.pairwise_map.1 h.ascending).imp_of_mem fun {e e'} he he' hlt π hπ q hq => ?_
  rw [Proof.compare_eq_then, (h.groups e he).heads π hπ, (h.groups e' he').heads q hq, hlt]
  rfl

/-- The facts of valid groups are the heads of their proofs. -/
theorem Valid.mem_heads (h : g.Valid) {f : Literal} :
    f ∈ g.heads ↔ ∃ π ∈ g.toList, π.head = f := by
  constructor
  · intro hf
    obtain ⟨e, he, rfl⟩ := List.mem_map.1 hf
    obtain ⟨π, hπ⟩ := List.exists_mem_of_ne_nil _ (h.groups e he).ne_nil
    exact ⟨π, List.mem_flatMap.2 ⟨e, he, hπ⟩, (h.groups e he).heads π hπ⟩
  · rintro ⟨π, hπ, rfl⟩
    obtain ⟨e, he, hπ⟩ := List.mem_flatMap.1 hπ
    exact List.mem_map.2 ⟨e, he, ((h.groups e he).heads π hπ).symm⟩

/-- The group of a fact has all proofs of it. -/
theorem Valid.group_eq (h : g.Valid) {e : Literal × List Proof} (he : e ∈ g) :
    e.2 = g.toList.filter (·.head = e.1) := by
  refine (h.groups e he).sorted.eq_of_mem_iff (h.isSorted_toList.filter _) fun π => ?_
  simp only [List.mem_filter, toList, List.mem_flatMap, decide_eq_true_eq]
  constructor
  · exact fun hπ => ⟨⟨e, he, hπ⟩, (h.groups e he).heads π hπ⟩
  · rintro ⟨⟨e', he', hπ⟩, hhead⟩
    -- no two groups are of one fact
    have hkey : e'.1 = e.1 := ((h.groups e' he').heads π hπ).symm.trans hhead
    rwa [← List.inj_on_of_nodup_map h.ascending.nodup he' he hkey]

/-- **Valid groups are the facts of the ordered set of their proofs, each with its proofs.** -/
theorem Valid.eq_map (h : g.Valid) {s : ProofSet} (hs : s.toList = g.toList) :
    g = s.facts.map fun f => (f, s.proofsOf f) := by
  have hfacts : g.heads = s.facts := by
    refine h.ascending.eq_of_mem_iff (ProofSet.isSorted_facts (hs ▸ h.isSorted_toList)) fun f => ?_
    rw [h.mem_heads, ProofSet.mem_facts_iff, hs]
  have hgroup : ∀ e ∈ g, (e.1, s.proofsOf e.1) = e := fun e he => by
    rw [ProofSet.proofsOf, hs, ← h.group_eq he]
  rw [← hfacts, heads, List.map_map]
  exact ((List.map_congr_left hgroup).trans (List.map_id g)).symm

/-- Grouped in any order, proofs come out as the ordered set of all of them lists them. -/
theorem toList_ofList (ps : List Proof) : (ofList ps).toList = (ProofSet.ofList ps).toList := by
  have hmem : ∀ π, π ∈ (ofList ps).toList ↔ π ∈ ps := fun π =>
    mem_toList_foldl.trans (by simp [toList])
  refine (valid_ofList ps).isSorted_toList.eq_of_mem_iff (ProofSet.isSorted_ofList ps) fun π => ?_
  rw [hmem, ProofSet.mem_ofList]

/-- **The groups are the facts of the ordered set with their proofs.** -/
theorem ofList_eq (ps : List Proof) : ofList ps =
    (ProofSet.ofList ps).facts.map fun f => (f, (ProofSet.ofList ps).proofsOf f) :=
  (valid_ofList ps).eq_map (toList_ofList ps).symm

/-- What is visited of an ordered set of the listed proofs, which may be kept in groups. -/
structure Visits (ps : List Proof) : Prop where
  /-- The proofs ascend, so none is visited twice. -/
  ascending : IsSorted (ofList ps).toList
  mem (π : Proof) : π ∈ (ofList ps).toList ↔ π ∈ ps
  /-- The groups make up the ordered set of all proofs. -/
  toList : (ofList ps).toList = (ProofSet.ofList ps).toList
  /-- The facts ascend, and each has its proofs together. -/
  facts : IsSorted (ProofSet.ofList ps).facts
  grouped : ofList ps =
    (ProofSet.ofList ps).facts.map fun f => (f, (ProofSet.ofList ps).proofsOf f)
  /-- The order in which proofs are put in and repetitions of them do not matter. -/
  anyOrder (qs : List Proof) (h : ∀ π, π ∈ qs ↔ π ∈ ps) :
    ofList qs = ofList ps ∧ ProofSet.ofList qs = ProofSet.ofList ps

theorem visits (ps : List Proof) : Visits ps where
  ascending := (valid_ofList ps).isSorted_toList
  mem π := by rw [toList_ofList, ProofSet.mem_ofList]
  toList := toList_ofList ps
  facts := ProofSet.isSorted_facts (ProofSet.isSorted_ofList ps)
  grouped := ofList_eq ps
  anyOrder qs h := by
    have hsets : ProofSet.ofList qs = ProofSet.ofList ps := ProofSet.ofList_eq_iff.2 h
    exact ⟨by rw [ofList_eq, ofList_eq, hsets], hsets⟩

end Groups

/-! ## Tables -/

namespace Operation

open Journal

variable {ops : List Operation} {p : CallPattern} {f : Literal}

/-- The proofs that are put for a fact into the table of a pattern, with repetitions. -/
def putFor (p : CallPattern) (f : Literal) (ops : List Operation) : List Proof :=
  ops.flatMap fun
    | put q g ps => if q = p ∧ g = f then ps else []
    | _ => []

theorem mem_putFor {π : Proof} : π ∈ putFor p f ops ↔ ⟨f, some π⟩ ∈ ops.flatMap (writtenTo p) := by
  unfold putFor
  simp only [List.mem_flatMap]
  refine exists_congr fun op => and_congr_right fun _ => ?_
  cases op with
  | put q g ps =>
    by_cases hq : q = p
    · by_cases hg : g = f <;> simp [writtenTo, recordsOf, hq, hg]
    · simp [writtenTo, hq]
  | _ => simp [writtenTo]

/-- What the tables in memory hold is what the operations put into them. -/
theorem follows_memory (ops : List Operation) :
    Journals.Follows (after (Journals.empty : Journal) ops) (after Resident.empty ops)
      fun p => ops.flatMap (writtenTo p) := by
  simpa using Journals.follows_empty.after fun _ _ r _ => Format.plain_reads r

/-- Tables hold the proofs that an ordered set holds, and tell the same proofs from those that are
new. -/
structure Identifies (ops : List Operation) : Prop where
  /-- Memory holds each proof once. -/
  memory (p : CallPattern) (f : Literal) :
    ∃ stored, Tables.proofs (after Resident.empty ops) p f = .ok stored ∧ stored.Nodup ∧
      stored.Perm (ProofSet.ofList (putFor p f ops)).toList
  /-- A proof of an answer is news if it changes the ordered set. -/
  news (p : CallPattern) (f : Literal) (π : Proof) (known : List Literal)
    (hknown : Tables.answers (after Resident.empty ops) p = .ok known) (hf : f ∈ known) :
    (Tables.put (after Resident.empty ops) p f [π]).1 =
      .ok (decide ((ProofSet.ofList (putFor p f ops)).insert π ≠ .ofList (putFor p f ops)))
  /-- Journals hold the same, if what is put reads back. -/
  journals {α : Type} [DecidableEq α] (F : Format α)
    (hr : ∀ op ∈ ops, ∀ r ∈ op.written, F.Reads r) (p : CallPattern) (f : Literal) :
    Tables.proofs (after (Journals.empty : Journals F) ops) p f =
      Tables.proofs (after Resident.empty ops) p f

/-- **Tables and ordered sets identify the same proofs.** -/
theorem identifies (ops : List Operation) : Identifies ops where
  memory p f := by
    have hnodup := nodup_proofsFor (nodup_eraseDups (ops.flatMap (writtenTo p))) f
    have hsorted := ProofSet.isSorted_ofList (putFor p f ops)
    refine ⟨_, (follows_memory ops).proofs_memory p f, hnodup, ?_⟩
    refine (List.perm_ext_iff_of_nodup hnodup hsorted.nodup).2 fun π => ?_
    rw [mem_proofsFor, List.mem_eraseDups, ProofSet.mem_ofList, mem_putFor]
  news p f π known hknown hf := by
    have hfollows := follows_memory ops
    obtain ⟨news, hput, hnews⟩ := hfollows.put_memory p f [π]
    have hanswer : ⟨f, none⟩ ∈ ops.flatMap (writtenTo p) := by
      rw [hfollows.answers_memory, Except.ok.injEq] at hknown
      obtain ⟨r, hr, rfl⟩ := mem_facts.1 (hknown ▸ hf)
      exact hfollows.headed p r hr
    have hrecords : (∀ r ∈ recordsOf f [π], r ∈ ops.flatMap (writtenTo p)) ↔
        ⟨f, some π⟩ ∈ ops.flatMap (writtenTo p) := by
      rw [recordsOf, List.map_singleton, List.forall_mem_cons, and_iff_right hanswer,
        List.forall_mem_singleton]
    have hiff : news = false ↔
        (ProofSet.ofList (putFor p f ops)).insert π = .ofList (putFor p f ops) := by
      rw [hnews, hrecords, ProofSet.insert_eq_self_iff (ProofSet.isSorted_ofList _),
        ProofSet.mem_ofList, mem_putFor]
    rw [hput, Except.ok.injEq]
    cases news with
    | false => simpa using hiff.1 rfl
    | true => simpa using fun heq => Bool.noConfusion (hiff.2 heq)
  journals F hr p f := (Journals.follows_empty.after hr).proofs_eq p f

end Operation

/-! ## Keys -/

/-- **Order and equality agree on all keys.** The order of numbers is the total order of doubles,
and their equality that of bits. So a set that finds proofs by comparing lists those that were put
into it, each once and by their heads, and tables that find them by equality hold the same. -/
theorem order_tells_identity (ps : List Proof) (ops : List Operation) :
    (TotallyOrdered Number ∧ TotallyOrdered Constant ∧ TotallyOrdered Variable ∧
      TotallyOrdered Term ∧ TotallyOrdered Literal ∧ TotallyOrdered Premise ∧
      TotallyOrdered Probability ∧ TotallyOrdered Clause ∧ TotallyOrdered Proof ∧
      TotallyOrdered CallPattern) ∧
    (∀ a b : Number, compare a b = compare a.key.toInt b.key.toInt ∧
      (a == b) = (a.bits == b.bits)) ∧
    Groups.Visits ps ∧ Operation.Identifies ops :=
  ⟨⟨totallyOrdered _, totallyOrdered _, totallyOrdered _, totallyOrdered _, totallyOrdered _,
    totallyOrdered _, totallyOrdered _, totallyOrdered _, totallyOrdered _, totallyOrdered _⟩,
    fun a b => ⟨Number.compare_eq_key a b, Number.beq_eq_bits a b⟩, Groups.visits ps,
    Operation.identifies ops⟩

namespace Doubles

/-- A NaN with a sign and a payload. -/
def signedNaN : Number := ⟨0xfff8000000000001⟩

/-- That a number was read. -/
def reading (x : Number) : Literal := .of "reading" [.const (.number x)]

/-- That a clause says so. -/
def asserted (x : Number) : Proof := ⟨reading x, [], .certain, ⟨0⟩⟩

/-- All readings. -/
def readings : CallPattern := .of (.of "reading" [.var ⟨"X", 0⟩])

/-- Two readings with a repetition. -/
def calls : List Operation :=
  [.put readings (reading .nan) [asserted .nan, asserted .nan],
    .put readings (reading signedNaN) [asserted signedNaN]]

/-- Zeros and NaNs are told apart by their bits, and come in the order of these. -/
theorem zeros_and_NaNs :
    Groups.ofList [asserted .nan, asserted .zero, asserted signedNaN, asserted .negativeZero,
        asserted .nan] =
      [(reading signedNaN, [asserted signedNaN]), (reading .negativeZero, [asserted .negativeZero]),
        (reading .zero, [asserted .zero]), (reading .nan, [asserted .nan])] ∧
      ∃ stored, Tables.proofs (Operation.after (Journals.empty : Journal) calls) readings
          (reading .nan) = .ok stored ∧ stored.Perm [asserted .nan] := by
  let ascending : List Proof :=
    [asserted signedNaN, asserted .negativeZero, asserted .zero, asserted .nan]
  obtain ⟨-, -, hvisits, htables⟩ := order_tells_identity ascending calls
  refine ⟨?_, ?_⟩
  · refine (hvisits.anyOrder _ fun π => ?_).1.trans (by decide +kernel)
    simp only [ascending, List.mem_cons, List.not_mem_nil, or_false]
    tauto
  · obtain ⟨stored, hstored, -, hperm⟩ := htables.memory readings (reading .nan)
    have hput : (ProofSet.ofList (Operation.putFor readings (reading .nan) calls)).toList =
        [asserted .nan] := by
      decide +kernel
    refine ⟨stored, ?_, hput ▸ hperm⟩
    rw [htables.journals _ (fun _ _ r _ => Journal.Format.plain_reads r), hstored]

end Doubles

end ProbDatalog
