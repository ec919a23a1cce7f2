import ProbDatalog.Proofs.Answers
import ProbDatalog.Proofs.Lockstep
import ProbDatalog.Proofs.Recovery

/-!
# Entry points of reasoners

Each query of a reasoner keeps its tables in a store of its own. The probabilities of answers are
found one after the other on the tables that the query has filled, and the probability of a fact
that is asked for directly on tables without answers. As long as stores work, this makes no
difference.

* `Tables.Embeds.agree`: a store that is embedded agrees with what the store itself agrees with.
* `Reasoner.exists_lawful_of_openStore`: what is opened agrees with a lawful store without tables.
* `Reasoner.probability_of_answer`: **the probability of an answer is what asking for it yields.**
* `Relays.probability_refused`: where stores fail, asking for it may fail.
-/

namespace ProbDatalog

open Searching

/-! ## Stores of either kind -/

namespace Tables

variable {σ τ ρ : Type} [Tables σ] [Tables τ] [Tables ρ] {s : σ} {t : τ}

/-- A store that is embedded agrees with what the store itself agrees with. -/
theorem Embeds.agree {e : σ → ρ} (he : Embeds e) (h : Agree s t) : Agree (e s) t := by
  have hnext : ∀ s op, Operation.next (e s) op = e (Operation.next s op) := fun s op => by
    cases op with
    | get p => exact congrArg Prod.snd (he.get s p)
    | put p f ps => exact congrArg Prod.snd (he.put s p f ps)
    | _ => rfl
  have hreply : ∀ s op, Operation.reply (e s) op = Operation.reply s op := fun s op => by
    cases op with
    | get p => exact congrArg (Reply.subgoal ·.1) (he.get s p)
    | contains p => exact congrArg Reply.contained (he.contains s p)
    | put p f ps => exact congrArg (Reply.news ·.1) (he.put s p f ps)
    | answers p => exact congrArg Reply.answers (he.answers s p)
    | proofs p f => exact congrArg Reply.proofs (he.proofs s p f)
    | recorded p => exact congrArg Reply.recorded (he.recorded s p)
    | patterns => exact congrArg Reply.patterns (he.patterns s)
    | size => exact congrArg Reply.size (he.size s)
    | isEmpty => exact congrArg (fun n => Reply.empty (n = 0)) (he.size s)
  have hafter : ∀ (ops : List Operation) s,
      Operation.after (e s) ops = e (Operation.after s ops) := fun ops => by
    induction ops with
    | nil => exact fun s => rfl
    | cons op rest ih =>
      exact fun s => (congrArg (Operation.after · rest) (hnext s op)).trans (ih _)
  intro before op
  rw [hafter, hreply]
  exact h before op

end Tables

/-- A search that is in lock-step with a session on a lawful store. -/
def Search.Follows {σ τ : Type} [Tables σ] [Tables τ] [LawfulTables τ] (w : Theory) (u₀ : σ)
    (s₀ : τ) (u : Search σ) : Prop :=
  ∃ s : Search τ, Reached w s ∧ Search.Matches u₀ s₀ u s

/-- What is opened in memory or on files agrees with memory. -/
theorem Storage.agree_of_openStore {storage : Storage} {isDirectory : String → Bool}
    {opened : Resident ⊕ Journal} (h : storage.openStore isDirectory = .ok opened) :
    Tables.Agree opened Resident.empty := by
  have hdisk : Tables.Agree (.inr Journals.empty : Resident ⊕ Journal) Resident.empty :=
    Tables.embeds_inr.agree (Journals.agree_resident Journal.Format.plain_reads)
  unfold openStore at h
  split at h
  · cases h
    exact Tables.embeds_inl.agree (.refl _)
  · cases h
    exact hdisk
  · split at h
    · cases h
      exact hdisk
    · cases h

/-! ## Reasoners -/

namespace Reasoner

variable {σ : Type} [Tables σ] {r : Reasoner σ}

/-- **A larger bound changes nothing that a smaller one has found.** -/
theorem run_refines {α : Type} {x y : Searching (Store σ) α} (hxy : Refines x y)
    (h : r.run x ≠ .error .exhausted) : r.run y = r.run x := by
  unfold run at h ⊢
  cases hopen : r.openStore with
  | error e => rfl
  | ok tables =>
    simp only [hopen] at h ⊢
    have hx : (x (.start tables 0)).1 ≠ .error .exhausted := fun hx => by
      rcases hrun : x (.start tables 0) with ⟨result, t⟩
      rw [hrun] at hx h
      cases hx
      exact h rfl
    rw [hxy _ hx]

theorem probability_refines {m n : Nat} (hmn : m ≤ n) {l : Literal}
    (h : r.probability m l ≠ .error .exhausted) : r.probability n l = r.probability m l :=
  run_refines ((Searching.probability_refines hmn l).bind fun _ => .refl _) h

/-- Stores in memory and on files are always given up. -/
theorem close_eq_ok (hclose : ∀ s : σ, (Tables.close s).1 = .ok ()) (t : Search (Store σ)) :
    (Searching.close t).1 = .ok () := by
  have htables : (Tables.close t.tables).1 = .ok () := by
    obtain ⟨(s | s) | s, -⟩ := t
    · rfl
    · rfl
    · exact hclose s
  unfold Searching.close onTables
  rcases hrun : Tables.close t.tables with ⟨closed, tables⟩
  rw [hrun] at htables
  cases htables
  rfl

variable [LawfulTables σ]

/-- Where what a factory opens works and has no tables, what is opened agrees with a lawful store
without tables that works. -/
theorem exists_lawful_of_openStore
    (hfactory : ∀ s, r.factory = some (.ok s) → IsFresh s ∧ Tables.Works s) {tables : Store σ}
    (h : r.openStore = .ok tables) :
    ∃ s : Resident ⊕ σ, Tables.Agree tables s ∧ IsFresh s ∧ Tables.Works s := by
  unfold openStore at h
  cases hf : r.factory with
  | some factory =>
    rw [hf] at h
    cases factory with
    | error e => cases h
    | ok s =>
      cases h
      obtain ⟨hfresh, hwork⟩ := hfactory s hf
      exact ⟨.inr s, Tables.embeds_inr.agree (Tables.embeds_inr.agree (.refl s)).symm,
        hfresh, Tables.embeds_inr.works hwork⟩
  | none =>
    rw [hf] at h
    cases hs : r.config.storage.openStore r.isDirectory with
    | error e =>
      rw [hs] at h
      cases h
    | ok opened =>
      rw [hs] at h
      cases h
      have hopened : Tables.Agree opened (.inl Resident.empty : Resident ⊕ σ) :=
        (Tables.embeds_inl.agree (Storage.agree_of_openStore hs).symm).symm
      exact ⟨.inl .empty, Tables.embeds_inl.agree hopened, fun _ => rfl,
        Tables.embeds_inl.works (Resident.works _)⟩

/-- **The probability of an answer is what asking for it yields**, to the bit, whatever other
answers there are and however probabilities are rounded. Asking for it succeeds, as long as stores
of a factory have no tables at first, do not fail and can be given up. -/
theorem probability_of_answer (hw : r.theory.Plain)
    (hfactory : ∀ s, r.factory = some (.ok s) → IsFresh s ∧ Tables.Works s)
    (hclose : ∀ s : σ, (Tables.close s).1 = .ok ()) {depth : Nat} {q : Literal}
    {answers : List Answer} (h : r.query depth q = .ok answers) :
    ∀ a ∈ answers, ∃ bound, ∀ n, bound ≤ n → r.probability n a.fact = .ok a.probability := by
  obtain ⟨tables, facts, t, hopen, hsolve, hanswers⟩ := answers_of_query h
  obtain ⟨fresh, hagree, hfresh, hwork⟩ := exists_lawful_of_openStore hfactory hopen
  have hmatch : Search.Matches tables fresh (.start tables 0) (.start fresh 0) := .start _ _ 0
  have hstart : Reached r.theory (.start fresh 0) := .start hfresh 0
  have hsame : r.theory.EvaluatesAlike (Tables.SameOrUnread tables fresh) r.theory := .refl .same _
  -- all that the query does is in lock-step with a session on the lawful store
  have ht : t.Follows r.theory tables fresh := by
    have hrun := (solve_inStep hagree id hsame depth q _ _ hmatch).2
    rw [hsolve] at hrun
    exact ⟨_, hstart.ask depth (.solve q), hrun⟩
  have hkeep : ∀ f (u : Search (Store σ)), u.Follows r.theory tables fresh →
      (Searching.probability r.theory depth Float f u).2.Follows r.theory tables fresh := by
    rintro f u ⟨s, hs, hus⟩
    have hrun := (probability_inStep (α := Float) hagree id hsame depth f u s hus).2
    exact ⟨_, hs.ask depth (.probability f), hrun⟩
  intro a ha
  obtain ⟨-, -, u, v, p, ⟨s, hs, hus⟩, hp, hround⟩ := hanswers _ ht hkeep a ha
  -- the session has found the probability, so it is found on tables without answers
  have hfound : (Searching.probability r.theory depth Float a.fact s).1 = .ok p := by
    have hrun := (probability_inStep (α := Float) hagree id hsame depth a.fact u s hus).1
    exact (hrun.eq_ok_iff p).1 (congrArg Prod.fst hp)
  have hcomes := ComesTo.of_ok
    (fun m n hmn => Searching.probability_refines (w := r.theory) hmn a.fact) hfound
  obtain ⟨t', bound, hbound⟩ := hs.probability_again hw hstart hwork hcomes
  refine ⟨bound, fun n hn => run_eq_ok_iff.2 ?_⟩
  have hdirect : (Searching.probability r.theory n Float a.fact (.start tables 0)).1 = .ok p := by
    have hrun := (probability_inStep (α := Float) hagree id hsame n a.fact _ _ hmatch).1
    exact (hrun.eq_ok_iff p).2 (congrArg Prod.fst (hbound n hn))
  rcases hrun : Searching.probability r.theory n Float a.fact (.start tables 0) with ⟨result, t⟩
  rw [hrun] at hdirect
  cases hdirect
  refine ⟨tables, t, hopen, ?_, close_eq_ok hclose t⟩
  rw [bind_run, hrun, hround]
  rfl

end Reasoner

/-! ## Relays -/

namespace Relays

open Birds

/-- A relay of the line. -/
def relay (n : String) : Literal := about "relay" n

/-- A relay passes on what comes from another one. -/
def passes (n m : String) : Clause := ⟨relay m, [relay n], .certain⟩

/-- Relays are on where there is power. It may come in at the far end of a line of relays, and the
lamp in the attic needs the near end of the line for itself. -/
def clauses : List Clause :=
  [⟨general "on", [general "lamp", .of "power" []], .certain⟩,
    ⟨about "lamp" "hall", [], .certain⟩, ⟨about "lamp" "attic", [relay "1"], .certain⟩,
    ⟨.of "power" [], [relay "4"], .certain⟩,
    passes "1" "2", passes "2" "3", passes "3" "4", passes "2" "1", passes "3" "2", passes "4" "3",
    ⟨relay "4", [], half⟩]

/-- The reasoner about lamps, with stores of a factory. -/
def reasoner {σ : Type} (config : Config) (factory : Except StoreFault σ) : Reasoner σ where
  program := (Program.empty.assertAll clauses).2
  registry := .standard
  config := config
  factory := some factory
  isDirectory _ := false

theorem plain {σ : Type} (config : Config) (factory : Except StoreFault σ) :
    (reasoner config factory).theory.Plain := by
  refine .of_forall_clauses (.assertAll .empty clauses) ?_
  show ∀ c ∈ (Program.empty.assertAll clauses).2.clauses.toList, ∀ l ∈ c.head :: c.body,
    (∀ v ∈ l.vars, v.scope = 0) ∧ Registry.standard.contains l.predicate = false
  decide +kernel

/-- The reasoner that rounds probabilities, with stores in memory. -/
def rounding : Reasoner Resident := reasoner ⟨.problog, .memory, some 1⟩ (.ok .empty)

/-- Both lamps may be on, and asking for one of them yields the probability that the query tells. -/
theorem probability_of_lamp : ∃ answers, rounding.query 20 (general "on") = .ok answers ∧
    answers.map Answer.fact = [about "on" "hall", about "on" "attic"] ∧
    ∀ a ∈ answers, ∃ bound, ∀ n, bound ≤ n → rounding.probability n a.fact = .ok a.probability := by
  have hfacts : (rounding.query 20 (general "on")).map (List.map Answer.fact) =
      .ok [about "on" "hall", about "on" "attic"] := by decide +kernel
  obtain ⟨answers, hquery, hmap⟩ := Except.exists_of_map_eq_ok hfacts
  refine ⟨answers, hquery, hmap, Reasoner.probability_of_answer (plain _ _) ?_ ?_ hquery⟩
  · rintro s ⟨⟩
    exact ⟨isFresh_empty, Resident.works _⟩
  · exact fun _ => rfl

/-- The reasoner with stores that refuse to take more than thirty answers. -/
def limited : Reasoner Quota := reasoner ⟨.datalog, .memory, none⟩ (.ok (.new 30 false))

/-- The query goes along the line from its near end, which is where the passes end early, and stays
within the limit. Asking for the lamp in the hall goes along the line from its far end, and does
not, whatever the bound is. -/
theorem probability_refused : limited.theory.Plain ∧
    ∃ answers, limited.query 30 (general "on") = .ok answers ∧
      ∃ a ∈ answers, ∀ n, 30 ≤ n →
        limited.probability n a.fact = .error (.failed (.storage (.refused "limit"))) := by
  have hfacts : (limited.query 30 (general "on")).map (List.map Answer.fact) =
      .ok [about "on" "hall", about "on" "attic"] := by decide +kernel
  have herror : (limited.probability 30 (about "on" "hall")).map (fun _ => ()) =
      .error (.failed (.storage (.refused "limit"))) := by decide +kernel
  obtain ⟨answers, hquery, hmap⟩ := Except.exists_of_map_eq_ok hfacts
  obtain ⟨a, ha, hfact⟩ := List.mem_map.1 (hmap ▸ List.mem_cons_self : _ ∈ answers.map Answer.fact)
  have hrefused := Except.eq_error_of_map_eq_error herror
  refine ⟨plain _ _, answers, hquery, a, ha, fun n hn => ?_⟩
  rw [hfact, Reasoner.probability_refines hn (by simp [hrefused]), hrefused]

end Relays

end ProbDatalog
