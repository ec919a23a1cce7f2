import ProbDatalog.Proofs.Journals
import ProbDatalog.Proofs.Operations

/-!
# Journals and memory

Tables on files follow tables in memory operation by operation: the tables of both have the same
patterns in the same order, and for every pattern the journal holds the records that were put there,
each once, while the table in memory is what these records come to.

* `Journals.Follows`: what a store of journals and one in memory have in common.
* `Journals.Follows.next`: every operation keeps it.
* `Journals.replies_like_resident`: **both reply the same, and list the proofs of a table in the
  order of writing or grouped by fact.**
* `Journals.agree_resident`: where all records read back, the two stores agree.
-/

namespace ProbDatalog.Journals

open Journal

variable {α : Type} {F : Format α} {s : Journals F} {m : Resident}
  {h : CallPattern → List Record}

/-- A store that was not closed opens every journal. -/
theorem open?_eq (hs : s.isOpen = true) (p : CallPattern) : s.open? p = .ok (s.table p) := by
  unfold open? table
  cases s.tables.get? p with
  | none => rw [hs]; rfl
  | some t => rfl

theorem table_insert (s : Journals F) (p q : CallPattern) (t : Table α) :
    table (⟨s.isOpen, s.tables.insert p t⟩ : Journals F) q = if p = q then t else s.table q := by
  unfold table
  rw [Assoc.get?_insert]
  split <;> rfl

/-- What a store of journals and one in memory have in common: `h` are the records that were put
into the tables. -/
structure Follows (s : Journals F) (m : Resident) (h : CallPattern → List Record) : Prop where
  isOpen : s.isOpen = true
  keys : s.tables.keys = m.tables.keys
  journal (p : CallPattern) : (s.table p).Lists F (h p).eraseDups
  memory (p : CallPattern) : m.table p = gathered (h p)
  headed (p : CallPattern) : Headed (h p)

theorem follows_empty : Follows (empty : Journals F) Resident.empty fun _ => [] :=
  ⟨rfl, rfl, fun _ => Table.lists_empty F, fun _ => rfl, fun _ => headed_nil⟩

namespace Follows

/-- Both stores create the same tables. -/
theorem keys_insert (hf : Follows s m h) (p : CallPattern) (t : Table α) (t' : AnswerTable) :
    (s.tables.insert p t).keys = (m.tables.insert p t').keys := by
  rw [Assoc.keys_insert, Assoc.keys_insert, hf.keys]

/-- Tables in memory list the proofs of a table grouped by fact. -/
theorem recorded_memory (hf : Follows s m h) (p : CallPattern) :
    Tables.recorded m p = .ok ((grouped (h p).eraseDups).filterMap Record.proof) := by
  rw [← records_gathered, ← hf.memory p]
  rfl

/-- Tables in memory have the facts that were put as answers. -/
theorem answers_memory (hf : Follows s m h) (p : CallPattern) :
    Tables.answers m p = .ok (facts (h p)) := by
  rw [← keys_gathered, ← hf.memory p]
  rfl

/-- Tables in memory have the proofs that were put, each once. -/
theorem proofs_memory (hf : Follows s m h) (p : CallPattern) (f : Literal) :
    Tables.proofs m p f = .ok (proofsFor (h p).eraseDups f) := by
  rw [← get?_gathered, ← hf.memory p]
  rfl

/-- An answer with proofs is news in memory unless all its records were put. -/
theorem put_memory (hf : Follows s m h) (p : CallPattern) (f : Literal) (ps : List Proof) :
    ∃ news, (Tables.put m p f ps).1 = .ok news ∧
      (news = false ↔ ∀ r ∈ recordsOf f ps, r ∈ h p) := by
  refine ⟨Resident.isNews (m.table p) f ps, rfl, ?_⟩
  rw [hf.memory p, isNews_gathered (hf.headed p)]

end Follows

variable [DecidableEq α]

theorem get_eq (hs : s.isOpen = true) (p : CallPattern) :
    Tables.get s p =
      (.ok ⟨p, ((s.tables.insert p (s.table p)).indexOf? p).getD 0, (s.table p).answers.count,
        (s.table p).proofs.count⟩, { s with tables := s.tables.insert p (s.table p) }) := by
  simp only [Tables.get, open?_eq hs]

theorem put_eq (hs : s.isOpen = true) {p : CallPattern} {f : Literal} {ps : List Proof}
    {news : List Record} (hn : (s.table p).missing F (recordsOf f ps) = .ok news) :
    Tables.put s p f ps =
      (.ok !news.isEmpty,
        { s with tables := s.tables.insert p (news.foldl (Table.append F) (s.table p)) }) := by
  simp only [Tables.put, open?_eq hs, hn]

namespace Follows

/-- A table may be created. -/
theorem get (hf : Follows s m h) (p : CallPattern) :
    Follows (Tables.get s p).2 (Tables.get m p).2 h := by
  rw [get_eq hf.isOpen]
  refine ⟨hf.isOpen, hf.keys_insert p _ _, fun q => ?_, fun q => ?_, hf.headed⟩
  · rw [table_insert]
    split
    next hpq => exact hpq ▸ hf.journal p
    next => exact hf.journal q
  · have htable : Resident.table ⟨m.tables.insert p (m.table p)⟩ q = m.table q := by
      rw [Resident.table_insert, Function.update_eq_self]
    exact htable.trans (hf.memory q)

/-- **An answer may be put.** -/
theorem put (hf : Follows s m h) (p : CallPattern) (f : Literal) (ps : List Proof)
    (hr : ∀ r ∈ recordsOf f ps, F.Reads r) :
    (Tables.put s p f ps).1 = (Tables.put m p f ps).1 ∧
      Follows (Tables.put s p f ps).2 (Tables.put m p f ps).2
        fun q => h q ++ if p = q then recordsOf f ps else [] := by
  obtain ⟨news, hnews, hempty, hlists⟩ := (hf.journal p).put hr
  rw [put_eq hf.isOpen hnews]
  refine ⟨?_, hf.isOpen, hf.keys_insert p _ _, fun q => ?_, fun q => ?_, fun q => ?_⟩
  · -- both count as news what the history lacks
    have hiff : Resident.isNews (m.table p) f ps = false ↔ news.isEmpty = true := by
      rw [hf.memory p, isNews_gathered (hf.headed p), hempty]
    have heq : (!news.isEmpty) = Resident.isNews (m.table p) f ps := by
      cases hi : Resident.isNews (m.table p) f ps with
      | true =>
        cases hn : news.isEmpty with
        | true => rw [hiff.2 hn] at hi; cases hi
        | false => rfl
      | false => rw [hiff.1 hi]; rfl
    exact congrArg Except.ok heq
  · rw [table_insert]
    by_cases hpq : p = q
    · subst hpq
      rw [if_pos rfl, if_pos rfl]
      exact hlists
    · rw [if_neg hpq, if_neg hpq, List.append_nil]
      exact hf.journal q
  · have htable : Resident.table ⟨m.tables.insert p (Resident.record (m.table p) f ps)⟩ q =
        if p = q then Resident.record (m.table p) f ps else m.table q := by
      rw [Resident.table_insert, Function.update_apply, if_congr eq_comm rfl rfl]
    refine htable.trans ?_
    by_cases hpq : p = q
    · subst hpq
      rw [if_pos rfl, if_pos rfl, gathered_append_recordsOf, hf.memory]
    · rw [if_neg hpq, if_neg hpq, List.append_nil, hf.memory]
  · split
    next => exact (hf.headed q).append_recordsOf f ps
    next => simpa using hf.headed q

/-- Every operation is followed. -/
theorem next (hf : Follows s m h) {op : Operation} (hr : ∀ r ∈ op.written, F.Reads r) :
    Follows (op.next s) (op.next m) fun q => h q ++ op.writtenTo q := by
  cases op with
  | get p => simpa [Operation.writtenTo, Operation.next] using hf.get p
  | put p f ps => exact (hf.put p f ps hr).2
  | contains p => simpa [Operation.writtenTo, Operation.next] using hf
  | answers p => simpa [Operation.writtenTo, Operation.next] using hf
  | proofs p f => simpa [Operation.writtenTo, Operation.next] using hf
  | recorded p => simpa [Operation.writtenTo, Operation.next] using hf
  | patterns => simpa [Operation.writtenTo, Operation.next] using hf
  | size => simpa [Operation.writtenTo, Operation.next] using hf
  | isEmpty => simpa [Operation.writtenTo, Operation.next] using hf

theorem after (hf : Follows s m h) {ops : List Operation}
    (hr : ∀ op ∈ ops, ∀ r ∈ op.written, F.Reads r) :
    Follows (Operation.after s ops) (Operation.after m ops)
      fun q => h q ++ ops.flatMap (Operation.writtenTo q) := by
  induction ops generalizing s m h with
  | nil => simpa [Operation.after] using hf
  | cons op ops ih =>
    have hrest := ih (hf.next (hr op (by simp))) fun op' h' => hr op' (List.mem_cons_of_mem _ h')
    simpa [Operation.after] using hrest

/-! ## Replies -/

/-- A journal reads back as the records that were put into it. -/
theorem records_eq (hf : Follows s m h) (p : CallPattern) :
    s.records p = .ok (h p).eraseDups := by
  rw [records, (hf.journal p).file]
  exact Format.readAll_text (hf.journal p).reads

theorem subgoal_eq (hf : Follows s m h) (p : CallPattern) :
    (Tables.get s p).1 = (Tables.get m p).1 := by
  have hanswers : (s.table p).answers.count = (m.table p).size := by
    rw [(hf.journal p).answers.count, hf.memory p, size_gathered (hf.headed p)]
  have hproofs : (s.table p).proofs.count = (m.table p).values.flatten.length := by
    rw [(hf.journal p).proofs.count, hf.memory p]
    exact (length_records_gathered _).symm
  have hrank : (s.tables.insert p (s.table p)).indexOf? p =
      (m.tables.insert p (m.table p)).indexOf? p := by
    rw [Assoc.indexOf?, hf.keys_insert p _ (m.table p), Assoc.indexOf?]
  rw [get_eq hf.isOpen, hanswers, hproofs, hrank]
  rfl

theorem answers_eq (hf : Follows s m h) (p : CallPattern) :
    Tables.answers s p = Tables.answers m p := by
  have hdisk : Tables.answers s p = .ok (facts (h p).eraseDups) := by
    have hread : Tables.answers s p = (s.records p).map facts := rfl
    rw [hread, hf.records_eq]
    rfl
  rw [hdisk, hf.answers_memory, facts_eraseDups]

theorem proofs_eq (hf : Follows s m h) (p : CallPattern) (f : Literal) :
    Tables.proofs s p f = Tables.proofs m p f := by
  have hdisk : Tables.proofs s p f = .ok (proofsFor (h p).eraseDups f) := by
    have hread : Tables.proofs s p f = (s.records p).map (proofsFor · f) := rfl
    rw [hread, hf.records_eq]
    rfl
  rw [hdisk, hf.proofs_memory]

/-- Journals list the proofs of a table in the order of writing. -/
theorem recorded_journal (hf : Follows s m h) (p : CallPattern) :
    Tables.recorded s p = .ok ((h p).eraseDups.filterMap Record.proof) := by
  have hread : Tables.recorded s p = (s.records p).map (List.filterMap Record.proof) := rfl
  rw [hread, hf.records_eq]
  rfl

theorem contains_eq (hf : Follows s m h) (p : CallPattern) :
    Tables.contains s p = Tables.contains m p := by
  have hiff : s.tables.get? p = none ↔ m.tables.get? p = none := by
    rw [Assoc.get?_eq_none_iff, Assoc.get?_eq_none_iff, hf.keys]
  show (s.tables.get? p).isSome = (m.tables.get? p).isSome
  cases hs : s.tables.get? p <;> cases hm : m.tables.get? p <;> simp_all

theorem size_eq (hf : Follows s m h) : Tables.size s = Tables.size m := by
  have hlength := congrArg List.length hf.keys
  rw [Assoc.keys, Assoc.keys, List.length_map, List.length_map] at hlength
  exact hlength

/-- What is asked, other than for all proofs of a table, is replied the same. -/
theorem reply_eq (hf : Follows s m h) {op : Operation} (hr : ∀ r ∈ op.written, F.Reads r)
    (hop : ∀ p, op ≠ .recorded p) : op.reply s = op.reply m := by
  cases op with
  | get p => exact congrArg Reply.subgoal (hf.subgoal_eq p)
  | contains p => exact congrArg Reply.contained (hf.contains_eq p)
  | put p f ps => exact congrArg Reply.news (hf.put p f ps hr).1
  | answers p => exact congrArg Reply.answers (hf.answers_eq p)
  | proofs p f => exact congrArg Reply.proofs (hf.proofs_eq p f)
  | recorded p => exact absurd rfl (hop p)
  | patterns => exact congrArg Reply.patterns hf.keys
  | size => exact congrArg Reply.size hf.size_eq
  | isEmpty =>
    have hempty : Tables.isEmpty s = Tables.isEmpty m := by
      rw [Tables.isEmpty, Tables.isEmpty, hf.size_eq]
    exact congrArg Reply.empty hempty

end Follows

/-- **Tables on files reply like tables in memory**, whatever the digests are, as long as the
records that were put read back. At every point all operations have the same reply but for the one
that lists all proofs of a table: a journal lists them in the order of writing, and memory lists the
same ones grouped by fact. -/
theorem replies_like_resident (F : Format α) (before : List Operation)
    (hr : ∀ op ∈ before, ∀ r ∈ op.written, F.Reads r) :
    let disk : Journals F := Operation.after empty before
    let memory : Resident := Operation.after Resident.empty before
    (∀ op : Operation, (∀ r ∈ op.written, F.Reads r) → (∀ p, op ≠ .recorded p) →
      op.reply disk = op.reply memory) ∧
    ∀ p, Tables.recorded disk p = .ok ((Operation.filed p before).filterMap Record.proof) ∧
      Tables.recorded memory p =
        .ok ((grouped (Operation.filed p before)).filterMap Record.proof) := by
  have hf := follows_empty.after hr
  simp only [List.nil_append] at hf
  exact ⟨fun op hop => hf.reply_eq hop, fun p => ⟨hf.recorded_journal p, hf.recorded_memory p⟩⟩

namespace Weather

/-- The weather of a day. -/
def sky (day : String) : Literal := .of "sky" [.const (.string day)]

/-- The pattern of the weather of all days. -/
def skies : CallPattern := .of (.of "sky" [.var ⟨"Day", 0⟩])

/-- That a clause says so. -/
def asserted (f : Literal) (clause : Nat) : Proof := ⟨f, [], .certain, ⟨clause⟩⟩

/-- Answers put with repetitions, within one call and over several. -/
def calls : List Operation :=
  [.get skies, .put skies (sky "mon") [asserted (sky "mon") 0, asserted (sky "mon") 0],
    .put skies (sky "tue") [asserted (sky "tue") 1], .put skies (sky "mon") [],
    .put skies (sky "mon") [asserted (sky "mon") 2, asserted (sky "mon") 0]]

/-- The JSON text of a fact over one plain string. -/
def factText (f : Literal) : List Char :=
  "\x7b\"predicate\":\"".toList ++ f.predicate.toList ++
    "\",\"terms\":[\x7b\"Constant\":\x7b\"String\":\"".toList ++
    (match f.terms with
      | [.const (.string s)] => s.toList
      | _ => []) ++ "\"\x7d\x7d],\"negated\":false\x7d".toList

/-- The JSON text of a record of such a fact, or of its proof by a certain clause without a body. -/
def recordText (r : Record) : List Char :=
  "\x7b\"fact\":".toList ++ factText r.fact ++ ",\"proof\":".toList ++
    (match r.proof with
      | none => "null".toList
      | some p => "\x7b\"head\":".toList ++ factText p.head ++
        ",\"body\":[],\"probability\":1.0,\"clause\":".toList ++
        (toString p.clause.index).toList ++ "\x7d".toList) ++ "\x7d".toList

/-- Lines of JSON, all under one digest. -/
def json : Format Char where
  factDigest _ := 0
  proofDigest _ := 0
  lineBreak := '\n'
  encode := recordText
  decode text :=
    match (Operation.filed skies calls).find? fun r => recordText r = text with
    | some r => .ok r
    | none => .error "expected value"

theorem reads : ∀ op ∈ calls, ∀ r ∈ op.written, json.Reads r := by
  have hfiled : ∀ op ∈ calls, ∀ r ∈ op.written, r ∈ Operation.filed skies calls := by
    decide +kernel
  have hfind : ∀ r ∈ Operation.filed skies calls,
      (Operation.filed skies calls).find? (fun r' => recordText r' = recordText r) = some r := by
    decide +kernel
  have hline : ∀ r ∈ Operation.filed skies calls,
      recordText r ≠ [] ∧ '\n' ∉ recordText r := by
    decide +kernel
  intro op hop r hr
  have hr := hfiled op hop r hr
  have hdecode : json.decode (recordText r) = .ok r := by
    simp only [json, hfind r hr]
  exact ⟨hdecode, (hline r hr).1, (hline r hr).2⟩

/-- The journal lists the proof of Tuesday between those of Monday, and memory after them. -/
theorem recorded_skies :
    let disk : Journals json := Operation.after empty calls
    let memory : Resident := Operation.after Resident.empty calls
    (Operation.get skies).reply disk = (Operation.get skies).reply memory ∧
      Tables.recorded disk skies =
        .ok [asserted (sky "mon") 0, asserted (sky "tue") 1, asserted (sky "mon") 2] ∧
      Tables.recorded memory skies =
        .ok [asserted (sky "mon") 0, asserted (sky "mon") 2, asserted (sky "tue") 1] := by
  obtain ⟨hreply, hrecorded⟩ := replies_like_resident json calls reads
  refine ⟨hreply (.get skies) (by simp [Operation.written]) (by simp), ?_, ?_⟩
  · rw [(hrecorded skies).1]
    decide +kernel
  · rw [(hrecorded skies).2]
    decide +kernel

end Weather

/-- Where all records read back, the two stores agree. -/
theorem agree_resident (hF : ∀ r, F.Reads r) :
    Tables.Agree (empty : Journals F) Resident.empty := by
  intro before op
  have hreads : ∀ op ∈ before, ∀ r ∈ op.written, F.Reads r := fun _ _ r _ => hF r
  have hf := follows_empty.after hreads
  by_cases hop : ∃ p, op = .recorded p
  · obtain ⟨p, rfl⟩ := hop
    have hperm := (grouped_perm (before.flatMap (Operation.writtenTo p)).eraseDups).symm
    simp only [Operation.reply, hf.recorded_journal, hf.recorded_memory, List.nil_append]
    exact .listed (hperm.filterMap _)
  · have heq := hf.reply_eq (fun r _ => hF r) fun p hp => hop ⟨p, hp⟩
    rw [heq]
    exact .same _

end ProbDatalog.Journals
