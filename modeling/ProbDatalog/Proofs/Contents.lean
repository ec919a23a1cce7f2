import ProbDatalog.Tables.Quota
import Mathlib.Logic.Function.Basic

/-!
# Lawful stores of tables

A store is lawful if it can be read as a map from call patterns to tables: an operation that
succeeds does to this map what it does to tables in memory, and one that fails leaves it as it is.
Which operations fail, and when, is up to the store.

* `Resident.keys_record`, `Resident.mem_records_record`: what recording an answer adds.
* `Resident.isNews_eq_false_iff`: what is news.
* `Resident.record_eq_self`: recording what is no news changes nothing.
* `Resident.instLawfulTables`, `Quota.instLawfulTables`, `Sum.instLawfulTables`: lawful stores.
* `Tables.Works`: stores that do not fail.
* `Tables.Failing`: stores that fail for certain reasons only.
* `Tables.Embeds.works`: stores of either of two kinds do not fail where the stores that they are do
  not.
-/

namespace ProbDatalog

/-- The answers of one table with their proofs. -/
abbrev AnswerTable := Assoc Literal (List Proof)

namespace AnswerTable

/-- All proofs of a table. -/
def records (t : AnswerTable) : List Proof := t.values.flatten

@[simp] theorem keys_empty : (Assoc.empty : AnswerTable).keys = [] := rfl

@[simp] theorem records_empty : records .empty = [] := rfl

end AnswerTable

namespace Resident

variable {t : AnswerTable} {f g : Literal} {ps : List Proof} {π : Proof}

theorem mem_appendNew (known ps : List Proof) (π : Proof) :
    π ∈ appendNew known ps ↔ π ∈ known ∨ π ∈ ps := by
  unfold appendNew
  induction ps generalizing known with
  | nil => simp
  | cons p ps ih =>
    rw [List.foldl_cons, ih, List.mem_cons]
    split <;> grind

theorem appendNew_eq_self {known ps : List Proof} (h : ∀ π ∈ ps, π ∈ known) :
    appendNew known ps = known := by
  unfold appendNew
  induction ps with
  | nil => rfl
  | cons p ps ih =>
    rw [List.foldl_cons, if_pos (h p (by simp))]
    exact ih fun π hπ => h π (by simp [hπ])

/-- Recording an answer adds it at the end of the answers, unless it is one of them. -/
theorem keys_record (t : AnswerTable) (f : Literal) (ps : List Proof) :
    (record t f ps).keys = if f ∈ t.keys then t.keys else t.keys ++ [f] :=
  Assoc.keys_alter t f _

theorem mem_keys_record : g ∈ (record t f ps).keys ↔ g = f ∨ g ∈ t.keys := by
  rw [keys_record]
  split
  next hf => exact ⟨.inr, fun h => h.elim (fun heq => heq ▸ hf) id⟩
  next => simp [or_comm]

/-- Recording an answer adds its proofs to the proofs of the table. -/
theorem mem_records_record :
    π ∈ AnswerTable.records (record t f ps) ↔ π ∈ t.records ∨ π ∈ ps := by
  unfold record AnswerTable.records Assoc.values Assoc.alter
  induction t.entries with
  | nil => simp [Assoc.alterEntries, mem_appendNew]
  | cons e rest ih =>
    unfold Assoc.alterEntries
    split
    · simp only [List.map_cons, List.flatten_cons, List.mem_append, mem_appendNew,
        Option.getD_some]
      grind
    · simp only [List.map_cons, List.flatten_cons, List.mem_append, ih]
      grind

theorem nodup_keys_record (h : t.keys.Nodup) : (record t f ps).keys.Nodup := by
  rw [keys_record]
  split
  · exact h
  next hf => exact List.nodup_append.2 ⟨h, by simp, by grind⟩

/-- What is no news is known, with all its proofs. -/
theorem isNews_eq_false_iff :
    isNews t f ps = false ↔ f ∈ t.keys ∧ ∀ π ∈ ps, π ∈ (t.get? f).getD [] := by
  have hkeys := not_congr (Assoc.get?_eq_none_iff t f)
  unfold isNews
  cases hf : t.get? f with
  | none => simp_all
  | some known => simp_all

/-- Recording what is no news changes nothing. -/
theorem record_eq_self (h : isNews t f ps = false) : record t f ps = t := by
  obtain ⟨entries⟩ := t
  simp only [isNews, Assoc.get?] at h
  -- the entry of the answer is there, and appending known proofs leaves it as it is
  have key : Assoc.alterEntries f (fun known => appendNew (known.getD []) ps) entries =
      entries := by
    induction entries with
    | nil => simp [Assoc.find?] at h
    | cons e rest ih =>
      obtain ⟨k, known⟩ := e
      unfold Assoc.find? at h
      unfold Assoc.alterEntries
      by_cases hk : k = f
      · rw [if_pos hk] at h ⊢
        simp only [Option.getD_some, appendNew_eq_self (by simpa using h)]
      · rw [if_neg hk] at h ⊢
        rw [ih h]
  simp only [record, Assoc.alter, key]

end Resident

/-- The tables of a store, by pattern. -/
abbrev Contents := CallPattern → AnswerTable

/-- Stores that can be read as maps from patterns to tables. -/
class LawfulTables (σ : Type) [Tables σ] where
  /-- The tables of a store. -/
  content : σ → Contents
  get_content (s : σ) (p : CallPattern) : content (Tables.get s p).2 = content s
  put_ok {s s' : σ} {p : CallPattern} {f : Literal} {ps : List Proof} {news : Bool} :
    Tables.put s p f ps = (.ok news, s') →
      news = Resident.isNews (content s p) f ps ∧
        content s' = Function.update (content s) p (Resident.record (content s p) f ps)
  put_error {s s' : σ} {p : CallPattern} {f : Literal} {ps : List Proof} {e : StoreFault} :
    Tables.put s p f ps = (.error e, s') → content s' = content s
  answers_ok {s : σ} {p : CallPattern} {l : List Literal} :
    Tables.answers s p = .ok l → l = (content s p).keys
  recorded_ok {s : σ} {p : CallPattern} {l : List Proof} :
    Tables.recorded s p = .ok l → ∀ π, π ∈ l ↔ π ∈ (content s p).records
  mem_patterns {s : σ} {p : CallPattern} : content s p ≠ .empty → p ∈ Tables.patterns s

export LawfulTables (content)

/-- Looking a table up changes no table. -/
theorem LawfulTables.content_of_get {σ : Type} [Tables σ] [LawfulTables σ] {s t : σ}
    {p : CallPattern} {r : Except StoreFault Subgoal} (h : Tables.get s p = (r, t)) :
    content t = content s :=
  (congrArg (content ·.2) h).symm.trans (LawfulTables.get_content s p)

namespace Resident

theorem table_insert (s : Resident) (p q : CallPattern) (t : AnswerTable) :
    table ⟨s.tables.insert p t⟩ q = Function.update s.table p t q := by
  by_cases h : p = q
  · subst h
    simp [table, Assoc.get?_insert]
  · simp [table, Assoc.get?_insert, h, Function.update_of_ne (Ne.symm h)]

instance instLawfulTables : LawfulTables Resident where
  content := table
  get_content s p := by
    funext q
    show table ⟨s.tables.insert p (s.table p)⟩ q = s.table q
    rw [table_insert, Function.update_eq_self]
  put_ok h := by
    cases h
    exact ⟨rfl, funext fun q => table_insert _ _ _ _⟩
  put_error h := by cases h
  answers_ok h := by
    cases h
    rfl
  recorded_ok h π := by
    cases h
    rfl
  mem_patterns {s p} h := by
    show p ∈ s.tables.keys
    by_contra hp
    rw [← Assoc.get?_eq_none_iff] at hp
    exact h (by simp [table, hp])

@[simp] theorem content_empty (p : CallPattern) : content empty p = .empty := rfl

end Resident

namespace Quota

instance instLawfulTables : LawfulTables Quota where
  content s := s.content.table
  get_content s p := LawfulTables.get_content s.content p
  put_ok {s s' p f ps news} h := by
    obtain ⟨c, left, staysOpen⟩ := s
    cases left with
    | zero => cases h
    | succ left =>
      cases h
      exact LawfulTables.put_ok (s := c) rfl
  put_error {s s' p f ps e} h := by
    obtain ⟨c, left, staysOpen⟩ := s
    cases left with
    | zero =>
      cases h
      rfl
    | succ left => cases h
  answers_ok {s p l} h := LawfulTables.answers_ok (s := s.content) h
  recorded_ok {s p l} h := LawfulTables.recorded_ok (s := s.content) h
  mem_patterns {s p} h := LawfulTables.mem_patterns (s := s.content) h

end Quota

namespace Sum

variable {σ τ : Type} [Tables σ] [Tables τ] [LawfulTables σ] [LawfulTables τ]

instance instLawfulTables : LawfulTables (σ ⊕ τ) where
  content
    | .inl s => LawfulTables.content s
    | .inr s => LawfulTables.content s
  get_content s p := by
    cases s with
    | inl s => exact LawfulTables.get_content s p
    | inr s => exact LawfulTables.get_content s p
  put_ok {s s' p f ps news} h := by
    cases s with
    | inl s =>
      obtain ⟨hr, rfl⟩ := Prod.mk.inj h
      exact LawfulTables.put_ok (s := s) (Prod.ext hr rfl)
    | inr s =>
      obtain ⟨hr, rfl⟩ := Prod.mk.inj h
      exact LawfulTables.put_ok (s := s) (Prod.ext hr rfl)
  put_error {s s' p f ps e} h := by
    cases s with
    | inl s =>
      obtain ⟨hr, rfl⟩ := Prod.mk.inj h
      exact LawfulTables.put_error (s := s) (Prod.ext hr rfl)
    | inr s =>
      obtain ⟨hr, rfl⟩ := Prod.mk.inj h
      exact LawfulTables.put_error (s := s) (Prod.ext hr rfl)
  answers_ok {s p l} h := by
    cases s with
    | inl s => exact LawfulTables.answers_ok (s := s) h
    | inr s => exact LawfulTables.answers_ok (s := s) h
  recorded_ok {s p l} h := by
    cases s with
    | inl s => exact LawfulTables.recorded_ok (s := s) h
    | inr s => exact LawfulTables.recorded_ok (s := s) h
  mem_patterns {s p} h := by
    cases s with
    | inl s => exact LawfulTables.mem_patterns (s := s) h
    | inr s => exact LawfulTables.mem_patterns (s := s) h

end Sum

/-! ## Stores that do not fail -/

/-- Stores that satisfy `P` do not fail, and still satisfy `P` after every operation. -/
structure Tables.Sound {σ : Type} [Tables σ] (P : σ → Prop) : Prop where
  get : ∀ {s p}, P s → ∃ g t, Tables.get s p = (.ok g, t) ∧ P t
  put : ∀ {s p f ps}, P s → ∃ news t, Tables.put s p f ps = (.ok news, t) ∧ P t
  answers : ∀ {s p}, P s → ∃ l, Tables.answers s p = .ok l
  proofs : ∀ {s p f}, P s → ∃ l, Tables.proofs s p f = .ok l
  recorded : ∀ {s p}, P s → ∃ l, Tables.recorded s p = .ok l

/-- A store that does not fail, whatever is done with it. -/
def Tables.Works {σ : Type} [Tables σ] (s : σ) : Prop := ∃ P, Tables.Sound P ∧ P s

/-- Tables in memory do not fail. -/
theorem Resident.works (s : Resident) : Tables.Works s :=
  ⟨fun _ => True, ⟨fun _ => ⟨_, _, rfl, trivial⟩, fun _ => ⟨_, _, rfl, trivial⟩, fun _ => ⟨_, rfl⟩,
    fun _ => ⟨_, rfl⟩, fun _ => ⟨_, rfl⟩⟩, trivial⟩

section Faults

variable {σ : Type} [Tables σ] {P : σ → Prop}

/-- Stores that satisfy `P` fail for the given reasons only, and still satisfy `P` after every
operation, also after one that fails. -/
structure Tables.Failing (P : σ → Prop) (F : StoreFault → Prop) : Prop where
  get : ∀ {s p r t}, P s → Tables.get s p = (r, t) → (∀ e, r = .error e → F e) ∧ P t
  put : ∀ {s p f ps r t}, P s → Tables.put s p f ps = (r, t) → (∀ e, r = .error e → F e) ∧ P t
  answers : ∀ {s p e}, P s → Tables.answers s p = .error e → F e
  recorded : ∀ {s p e}, P s → Tables.recorded s p = .error e → F e

/-- Stores that work fail for no reason. -/
theorem Tables.Sound.failing (hP : Tables.Sound P) : Tables.Failing P fun _ => False where
  get {s p r t} hs h := by
    obtain ⟨g, u, hok, hu⟩ := hP.get (p := p) hs
    cases hok.symm.trans h
    exact ⟨by simp, hu⟩
  put {s p f ps r t} hs h := by
    obtain ⟨news, u, hok, hu⟩ : ∃ news u, Tables.put s p f ps = (.ok news, u) ∧ P u := hP.put hs
    cases hok.symm.trans h
    exact ⟨by simp, hu⟩
  answers {s p e} hs h := by
    obtain ⟨l, hok⟩ := hP.answers (p := p) hs
    cases hok.symm.trans h
  recorded {s p e} hs h := by
    obtain ⟨l, hok⟩ := hP.recorded (p := p) hs
    cases hok.symm.trans h

/-- Any store fails for some reasons, and for none if it works. -/
theorem Tables.exists_failing (tables : σ) : ∃ (P : σ → Prop) (F : StoreFault → Prop),
    Tables.Failing P F ∧ P tables ∧ (Tables.Works tables → ∀ e, ¬F e) := by
  by_cases h : Tables.Works tables
  · obtain ⟨P, hP, htables⟩ := h
    exact ⟨P, fun _ => False, hP.failing, htables, fun _ _ => id⟩
  · exact ⟨fun _ => True, fun _ => True, by constructor <;> simp, trivial, fun hw => absurd hw h⟩

end Faults

/-- Stores of one type as stores of another one that do the same. -/
structure Tables.Embeds {σ τ : Type} [Tables σ] [Tables τ] (e : σ → τ) : Prop where
  get : ∀ s p, Tables.get (e s) p = (Tables.get s p).map id e
  contains : ∀ s p, Tables.contains (e s) p = Tables.contains s p
  put : ∀ s p f ps, Tables.put (e s) p f ps = (Tables.put s p f ps).map id e
  answers : ∀ s p, Tables.answers (e s) p = Tables.answers s p
  proofs : ∀ s p f, Tables.proofs (e s) p f = Tables.proofs s p f
  recorded : ∀ s p, Tables.recorded (e s) p = Tables.recorded s p
  patterns : ∀ s, Tables.patterns (e s) = Tables.patterns s
  size : ∀ s, Tables.size (e s) = Tables.size s

namespace Tables

variable {σ τ : Type} [Tables σ] [Tables τ]

/-- A store that is embedded does not fail where the store itself does not. -/
theorem Embeds.works {e : σ → τ} (he : Embeds e) {s : σ} (h : Works s) : Works (e s) := by
  obtain ⟨P, hP, hs⟩ := h
  refine ⟨fun t => ∃ u, t = e u ∧ P u, ⟨?_, ?_, ?_, ?_, ?_⟩, s, rfl, hs⟩
  · rintro _ p ⟨u, rfl, hu⟩
    obtain ⟨g, t, hg, ht⟩ := hP.get (p := p) hu
    exact ⟨g, e t, by rw [he.get, hg]; rfl, t, rfl, ht⟩
  · rintro _ p f ps ⟨u, rfl, hu⟩
    obtain ⟨news, t, hnews, ht⟩ : ∃ news t, Tables.put u p f ps = (.ok news, t) ∧ P t := hP.put hu
    exact ⟨news, e t, by rw [he.put, hnews]; rfl, t, rfl, ht⟩
  · rintro _ p ⟨u, rfl, hu⟩
    exact he.answers u p ▸ hP.answers hu
  · rintro _ p f ⟨u, rfl, hu⟩
    exact he.proofs u p f ▸ hP.proofs hu
  · rintro _ p ⟨u, rfl, hu⟩
    exact he.recorded u p ▸ hP.recorded hu

/-- Stores of the first kind among those of either kind. -/
theorem embeds_inl : Embeds (Sum.inl : σ → σ ⊕ τ) := by
  constructor <;> intros <;> rfl

/-- Stores of the second kind among those of either kind. -/
theorem embeds_inr : Embeds (Sum.inr : τ → σ ⊕ τ) := by
  constructor <;> intros <;> rfl

end Tables

end ProbDatalog
