import ProbDatalog.Proofs.Records

/-!
# Journals on files

What a journal holds, as a list of records: its file has their lines one after the other, its length
is the place where the next line goes, and under every digest each index has the places of exactly
the lines whose records have it. Then a record is found if and only if it is in the list, whatever
the digests are.

* `Table.Lists`: a journal that holds a list of records.
* `Table.Lists.append`: writing a record adds it to the list.
* `Table.Lists.holds`, `Table.Lists.missing_eq`: **what is found, and what is written.**
* `Format.readAll_text`: reading the file gives back the list.
-/

namespace ProbDatalog.Journal

variable {α : Type} {F : Format α} {r : Record} {rs : List Record}

namespace Format

/-- A record reads back as it was written, from a text on a single line. -/
structure Reads (F : Format α) (r : Record) : Prop where
  decode : F.decode (F.encode r) = .ok r
  ne_nil : F.encode r ≠ []
  unbroken : F.lineBreak ∉ F.encode r

/-- In the usual journals every record reads back. -/
theorem plain_reads (r : Record) : plain.Reads r := ⟨rfl, by simp [plain], by simp [plain]⟩

theorem Reads.read (h : F.Reads r) : F.read (F.encode r) = .ok r := by
  rw [Format.read, h.decode]
  rfl

/-- The lines of records. -/
def text (F : Format α) (rs : List Record) : List α := rs.flatMap F.line

@[simp] theorem text_cons : F.text (r :: rs) = F.line r ++ F.text rs := rfl

theorem text_append (rs rs' : List Record) : F.text (rs ++ rs') = F.text rs ++ F.text rs' :=
  List.flatMap_append

/-- Records with the places where their lines start. -/
def placed (F : Format α) (start : Nat) : List Record → List (Record × Nat)
  | [] => []
  | r :: rs => (r, start) :: placed F (start + (F.line r).length) rs

theorem placed_concat (start : Nat) (rs : List Record) (r : Record) :
    F.placed start (rs ++ [r]) = F.placed start rs ++ [(r, start + (F.text rs).length)] := by
  induction rs generalizing start with
  | nil => rfl
  | cons r' rs ih =>
    have hlength : start + (F.line r').length + (F.text rs).length =
        start + (F.text (r' :: rs)).length := by
      rw [text_cons, List.length_append]
      omega
    rw [List.cons_append, placed, placed, ih, hlength, List.cons_append]

theorem map_fst_placed (start : Nat) (rs : List Record) :
    (F.placed start rs).map Prod.fst = rs := by
  induction rs generalizing start with
  | nil => rfl
  | cons r rs ih => rw [placed, List.map_cons, ih]

/-- A line starts after those before it. -/
theorem exists_of_mem_placed {start place : Nat} (h : (r, place) ∈ F.placed start rs) :
    ∃ before after, rs = before ++ r :: after ∧ place = start + (F.text before).length := by
  induction rs generalizing start with
  | nil => simp [placed] at h
  | cons r' rs ih =>
    rcases List.mem_cons.1 h with h | h
    · cases h
      exact ⟨[], rs, rfl, rfl⟩
    · obtain ⟨before, after, rfl, rfl⟩ := ih h
      refine ⟨r' :: before, after, rfl, ?_⟩
      rw [text_cons, List.length_append]
      omega

theorem mapM_read (h : ∀ r ∈ rs, F.Reads r) : (rs.map F.encode).mapM F.read = .ok rs := by
  induction rs with
  | nil => rfl
  | cons r rs ih =>
    have hrest := ih fun r' hr' => h r' (List.mem_cons_of_mem _ hr')
    rw [List.map_cons, List.mapM_cons, (h r (by simp)).read, hrest]
    rfl

variable [DecidableEq α]

/-- The first line ends at the first break. -/
theorem lines_append {l : List α} (h : F.lineBreak ∉ l) (rest : List α) :
    F.lines (l ++ F.lineBreak :: rest) = l :: F.lines rest := by
  induction l with
  | nil => simp [lines]
  | cons a l ih =>
    obtain ⟨ha, hl⟩ := not_or.1 (mt List.mem_cons.2 h)
    rw [List.cons_append, lines, if_neg (Ne.symm ha), ih hl]

theorem lines_text (h : ∀ r ∈ rs, F.Reads r) : F.lines (F.text rs) = rs.map F.encode := by
  induction rs with
  | nil => rfl
  | cons r rs ih =>
    have hr : F.Reads r := h r (by simp)
    have hrest := ih fun r' hr' => h r' (List.mem_cons_of_mem _ hr')
    rw [text_cons, line, List.append_assoc, List.singleton_append, lines_append hr.unbroken, hrest,
      List.map_cons]

/-- Reading the file gives back the list. -/
theorem readAll_text (h : ∀ r ∈ rs, F.Reads r) : F.readAll (F.text rs) = .ok rs := by
  have hfull : ∀ l ∈ rs.map F.encode, (!l.isEmpty) = true := by
    intro l hl
    obtain ⟨r, hr, rfl⟩ := List.mem_map.1 hl
    simpa using (h r hr).ne_nil
  rw [readAll, lines_text h, List.filter_eq_self.2 hfull, mapM_read h]

/-- Reading the line at the place where one starts gives its record. -/
theorem read_drop_text {before after : List Record} (h : F.Reads r) :
    F.read (((F.text (before ++ r :: after)).drop (F.text before).length).takeWhile
      fun a => a ≠ F.lineBreak) = .ok r := by
  have htake :
      (F.text (r :: after)).takeWhile (fun a => decide (a ≠ F.lineBreak)) = F.encode r := by
    have hall : ∀ a ∈ F.encode r, decide (a ≠ F.lineBreak) = true := by
      intro a ha
      exact decide_eq_true fun h' => h.unbroken (h' ▸ ha)
    rw [text_cons, line, List.append_assoc, List.takeWhile_append_of_pos hall]
    simp
  rw [text_append, List.drop_left, htake, h.read]

end Format

/-! ## Indexes -/

/-- An index that lists the places of the answers among records, or of the proofs. -/
structure Index.Lists (F : Format α) (index : Index) (rs : List Record) (proofs : Bool) : Prop where
  places (d : UInt64) : (index.get? d).getD [] =
    ((F.placed 0 rs).filter fun e => e.1.proof.isSome == proofs && F.digest e.1 == d).map Prod.snd
  count : index.count = (rs.filter (·.proof.isSome == proofs)).length

namespace Index

variable {index : Index} {proofs : Bool}

theorem lists_empty (F : Format α) (proofs : Bool) : Lists F .empty [] proofs := ⟨fun _ => rfl, rfl⟩

/-- A new place adds one to the number of places. -/
theorem count_alter (index : Index) (d : UInt64) (place : Nat) :
    count (index.alter d fun places => places.getD [] ++ [place]) = index.count + 1 := by
  unfold count Assoc.values Assoc.alter
  induction index.entries with
  | nil => simp [Assoc.alterEntries]
  | cons e rest ih =>
    unfold Assoc.alterEntries
    split
    · simp
      omega
    · simp only [List.map_cons, List.flatten_cons, List.length_append, ih]
      omega

/-- A record of the other kind goes to the other index. -/
theorem Lists.skip (h : Lists F index rs proofs) (hr : r.proof.isSome ≠ proofs) :
    Lists F index (rs ++ [r]) proofs := by
  have hb : (r.proof.isSome == proofs) = false := beq_eq_false_iff_ne.2 hr
  constructor
  · intro d
    rw [h.places, Format.placed_concat, List.filter_append]
    simp [hb]
  · rw [h.count, List.filter_append]
    simp [hb]

/-- The place of a new record is noted under its digest. -/
theorem Lists.note (h : Lists F index rs proofs) (hr : r.proof.isSome = proofs) :
    Lists F (index.alter (F.digest r) fun places => places.getD [] ++ [(F.text rs).length])
      (rs ++ [r]) proofs := by
  have hb : (r.proof.isSome == proofs) = true := beq_iff_eq.2 hr
  constructor
  · intro d
    rw [Assoc.get?_alter, Format.placed_concat, List.filter_append, List.map_append, ← h.places d]
    by_cases hd : F.digest r = d
    · subst hd
      simp [hb]
    · simp [hb, hd]
  · rw [count_alter, h.count, List.filter_append]
    simp [hb]

end Index

/-! ## Journals -/

namespace Table

/-- A journal that holds a list of records. -/
structure Lists (F : Format α) (t : Table α) (rs : List Record) : Prop where
  file : t.file = F.text rs
  length : t.length = (F.text rs).length
  answers : t.answers.Lists F rs false
  proofs : t.proofs.Lists F rs true
  reads : ∀ r ∈ rs, F.Reads r

theorem lists_empty (F : Format α) : Lists F empty [] :=
  ⟨rfl, rfl, Index.lists_empty F false, Index.lists_empty F true, by simp⟩

variable {t : Table α}

/-- **Writing a record adds it to the list.** -/
theorem Lists.append (h : t.Lists F rs) (hr : F.Reads r) : (t.append F r).Lists F (rs ++ [r]) := by
  have hfile : t.file ++ F.line r = F.text (rs ++ [r]) := by
    rw [h.file, Format.text_append, Format.text_cons]
    simp [Format.text]
  have hlength : t.length + (F.line r).length = (F.text (rs ++ [r])).length := by
    rw [← hfile, h.file, h.length, List.length_append]
  have hreads : ∀ r' ∈ rs ++ [r], F.Reads r' := by
    intro r' hr'
    rcases List.mem_append.1 hr' with hr' | hr'
    · exact h.reads r' hr'
    · exact List.mem_singleton.1 hr' ▸ hr
  unfold Table.append
  cases hp : r.proof.isSome with
  | true =>
    have hnote := h.proofs.note hp
    rw [← h.length] at hnote
    exact ⟨hfile, hlength, h.answers.skip (by simp [hp]), hnote, hreads⟩
  | false =>
    have hnote := h.answers.note hp
    rw [← h.length] at hnote
    exact ⟨hfile, hlength, hnote, h.proofs.skip (by simp [hp]), hreads⟩

theorem Lists.foldl_append {news : List Record} (h : t.Lists F rs) (hn : ∀ r ∈ news, F.Reads r) :
    (news.foldl (Table.append F) t).Lists F (rs ++ news) := by
  induction news generalizing t rs with
  | nil => simpa using h
  | cons r news ih =>
    have hrest := ih (h.append (hn r (by simp))) fun r' hr' => hn r' (List.mem_cons_of_mem _ hr')
    simpa using hrest

variable [DecidableEq α]

/-- Whatever an index points to reads back. -/
theorem Lists.readAt (h : t.Lists F rs) {place : Nat} (hr : (r, place) ∈ F.placed 0 rs) :
    t.readAt F place = .ok r := by
  obtain ⟨before, after, rfl, rfl⟩ := Format.exists_of_mem_placed hr
  have hreads : F.Reads r := h.reads r (by simp)
  rw [Table.readAt, h.file, Nat.zero_add]
  exact Format.read_drop_text hreads

/-- Lines are read until one of them has the record. -/
theorem Lists.anyM_readAt (h : t.Lists F rs) (r : Record) {l : List (Record × Nat)}
    (hl : ∀ e ∈ l, e ∈ F.placed 0 rs) :
    ((l.map Prod.snd).anyM fun place => return (← t.readAt F place) = r) =
      (.ok (decide (r ∈ l.map Prod.fst)) : Except StoreFault Bool) := by
  induction l with
  | nil => rfl
  | cons e l ih =>
    have he : t.readAt F e.2 = .ok e.1 := h.readAt (hl e (by simp))
    have hrest := ih fun e' he' => hl e' (List.mem_cons_of_mem _ he')
    rw [List.map_cons, List.anyM, he]
    by_cases hr : e.1 = r
    · simp [hr, bind, Except.bind, pure, Except.pure]
    · have hr' : ¬r = e.1 := Ne.symm hr
      simp only [bind, Except.bind, pure, Except.pure, hr, decide_false] at hrest ⊢
      rw [hrest]
      simp [hr']

/-- **A record is found if and only if it is in the list.** -/
theorem Lists.holds (h : t.Lists F rs) (r : Record) : t.holds F r = .ok (decide (r ∈ rs)) := by
  have hindex : ((t.indexFor r).get? (F.digest r)).getD [] = ((F.placed 0 rs).filter fun e =>
      e.1.proof.isSome == r.proof.isSome && F.digest e.1 == F.digest r).map Prod.snd := by
    unfold indexFor
    cases r.proof.isSome with
    | true => exact h.proofs.places _
    | false => exact h.answers.places _
  rw [Table.holds, hindex, h.anyM_readAt r fun e he => (List.mem_filter.1 he).1]
  congr 1
  refine decide_eq_decide.2 ⟨fun hr => ?_, fun hr => ?_⟩
  · obtain ⟨e, he, rfl⟩ := List.mem_map.1 hr
    rw [← Format.map_fst_placed (F := F) 0 rs]
    exact List.mem_map_of_mem (List.mem_filter.1 he).1
  · rw [← Format.map_fst_placed (F := F) 0 rs] at hr
    obtain ⟨e, he, rfl⟩ := List.mem_map.1 hr
    exact List.mem_map_of_mem (List.mem_filter.2 ⟨he, by simp⟩)

/-- **What is written is what the list lacks, each record once.** -/
theorem Lists.missing_eq (h : t.Lists F rs) (cs : List Record) :
    t.missing F cs = .ok (cs.removeAll rs).eraseDups := by
  unfold missing
  induction cs using List.reverseRecOn with
  | nil => rfl
  | append_singleton cs c ih =>
    have hmem : c ∈ (cs.removeAll rs).eraseDups ↔ c ∈ cs ∧ c ∉ rs := by
      simp [List.mem_eraseDups, List.removeAll]
    have hremove : (cs ++ [c]).removeAll rs =
        if c ∈ rs then cs.removeAll rs else cs.removeAll rs ++ [c] := by
      by_cases hc : c ∈ rs <;> simp [List.removeAll, hc]
    rw [List.foldlM_append, ih, hremove]
    simp only [bind, Except.bind, pure, Except.pure, List.foldlM_cons, List.foldlM_nil, h.holds,
      hmem]
    by_cases hc : c ∈ rs
    · simp [hc]
    · by_cases hcs : c ∈ cs
      · have hin : c ∈ cs.removeAll rs := by simp [List.removeAll, hc, hcs]
        simp [hc, hcs, eraseDups_concat, hin]
      · have hout : c ∉ cs.removeAll rs := by simp [List.removeAll, hcs]
        simp [hc, hcs, eraseDups_concat, hout]

/-- Writing what a history without repetitions lacks is to go on with the history. -/
theorem Lists.put (h : t.Lists F rs.eraseDups) {cs : List Record} (hcs : ∀ r ∈ cs, F.Reads r) :
    ∃ news, t.missing F cs = .ok news ∧ (news.isEmpty = true ↔ ∀ r ∈ cs, r ∈ rs) ∧
      (news.foldl (Table.append F) t).Lists F (rs ++ cs).eraseDups := by
  have hremove : cs.removeAll rs.eraseDups = cs.removeAll rs := by
    simp [List.removeAll, List.elem_eq_contains, List.mem_eraseDups]
  refine ⟨(cs.removeAll rs).eraseDups, ?_, ?_, ?_⟩
  · rw [h.missing_eq, hremove]
  · rw [List.isEmpty_iff, List.eq_nil_iff_forall_not_mem]
    simp [List.mem_eraseDups, List.removeAll]
  · rw [List.eraseDups_append]
    refine h.foldl_append fun r hr => hcs r ?_
    exact (List.mem_filter.1 (List.mem_eraseDups.1 hr)).1

end Table

end ProbDatalog.Journal
