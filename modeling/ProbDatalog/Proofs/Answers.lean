import ProbDatalog.Reasoner
import ProbDatalog.Proofs.Maps
import ProbDatalog.Proofs.Tidiness

/-!
# Answers and their bindings

A query of a reasoner yields facts, each with the values that it gives to the variables of the
query. The values are found by unifying the query with the fact, so filling them in gives the fact
back.

* `Reasoner.answers_of_query`: where the answers of a query come from.
* `exists_ground_of_solve`: what is ground among the answers of a literal is an instance of it.
* `Answer.bindingsOf_ground`: the values that an instance gives to the variables of a literal.
* `answers_instantiate`: **answers are distinct ground instances of the query, and their bindings
  give them back.**
-/

namespace ProbDatalog

open Searching

/-! ## Instances -/

/-- What is ground after applying bindings is an instance. -/
theorem Substitution.exists_ground_of_isGround_apply {s : Substitution} {l : Literal}
    (h : (s.apply l).isGround = true) : ∃ θ, l.ground θ = s.apply l := by
  refine ⟨fun v => (s.resolve (.var v)).value fun _ => .boolean false, ?_⟩
  unfold Literal.ground apply
  congr 1
  refine List.map_congr_left fun t ht => ?_
  cases t with
  | const c => exact (resolve_const c).symm
  | var v =>
    have hg := List.all_eq_true.1 h _ (List.mem_map_of_mem (f := s.resolve) ht)
    exact (Term.eq_const_of_isGround hg _).symm

theorem Registry.exists_ground_of_mem_answers {r : Registry} {q f : Literal}
    {answers : List Literal} (h : r.answers q = .ok answers) (hf : f ∈ answers)
    (hg : f.isGround = true) : ∃ θ, q.ground θ = f := by
  have hself : ∀ {θ : Valuation}, f = q → q.ground θ = f := by
    rintro θ rfl
    exact Literal.ground_of_isGround hg θ
  unfold Registry.answers at h
  split at h
  · split at h
    · obtain ⟨o, -, h⟩ := Except.exists_of_bind_eq_ok h
      cases o with
      | none =>
        cases h
        cases hf
      | some e =>
        obtain ⟨outcome, -, h⟩ := Except.exists_of_bind_eq_ok h
        cases h
        split at hf
        · exact ⟨fun _ => .boolean false, hself (List.mem_singleton.1 hf)⟩
        · cases hf
    · cases h
  · obtain ⟨o, -, h⟩ := Except.exists_of_bind_eq_ok h
    cases o with
    | none =>
      cases h
      cases hf
    | some e =>
      obtain ⟨outcome, -, h⟩ := Except.exists_of_bind_eq_ok h
      cases outcome with
      | reject =>
        cases h
        cases hf
      | accept =>
        cases h
        exact ⟨fun _ => .boolean false, hself (List.mem_singleton.1 hf)⟩
      | bind b =>
        cases h
        obtain rfl := List.mem_singleton.1 hf
        exact Substitution.exists_ground_of_isGround_apply hg

/-- **What is ground among the answers of a literal is an instance of it.** -/
theorem exists_ground_of_solve {σ : Type} [Tables σ] {w : Theory} {depth : Nat} {q f : Literal}
    {s t : Search σ} {answers : List Literal} (h : solve w depth q s = (.ok answers, t))
    (hf : f ∈ answers) (hg : f.isGround = true) : ∃ θ, q.ground θ = f := by
  by_cases hc : w.registry.contains q.predicate = true
  · rw [solve_evaluable hc, Prod.mk.injEq] at h
    cases hr : w.registry.answers q with
    | error e =>
      rw [hr] at h
      cases h.1
    | ok found =>
      rw [hr] at h
      cases h.1
      exact Registry.exists_ground_of_mem_answers hr hf hg
  unfold solve at h
  split at h
  · split at h
    · obtain ⟨holds, u, -, h⟩ := bind_eq_ok h
      cases h
      split at hf
      · obtain rfl := List.mem_singleton.1 hf
        exact ⟨fun _ => .boolean false, Literal.ground_of_isGround hg _⟩
      · cases hf
    · cases h
  · rw [Registry.resolve_of_not_contains (by simpa using hc)] at h
    obtain ⟨o, u, hres, h⟩ := bind_eq_ok h
    cases hres
    obtain ⟨-, v, -, h⟩ := bind_eq_ok h
    obtain ⟨found, v, -, h⟩ := bind_eq_ok h
    cases h
    exact (Literal.unify?_isSome_iff hg).1 (List.mem_filter.1 hf).2

/-! ## Bindings -/

/-- Put the values of their names in place of the variables; a variable without one stays. -/
def Literal.fill (l : Literal) (values : Assoc String Constant) : Literal :=
  { l with terms := l.terms.map fun t =>
    match t with
    | .const c => .const c
    | .var v => ((values.get? v.name).map Term.const).getD (.var v) }

section Bindings

variable {q : Literal} {θ : Valuation}

/-- The values that an instance gives to the variables of a literal. -/
theorem Answer.bindingsOf_ground (q : Literal) (θ : Valuation) :
    Answer.bindingsOf q (q.ground θ) = .ofList (q.vars.map fun v => (v.name, θ v)) := by
  have hself : ∀ η, (q.ground θ).ground η = q.ground θ :=
    Literal.ground_of_isGround (q.isGround_ground θ)
  have hsol : ∃ s, q.unify? (q.ground θ) .empty = some s ∧ s.Acyclic ∧
      ∀ η, s.SolvedBy η ↔ ∀ v ∈ q.vars, η v = θ v := by
    rcases Literal.unify?_spec Substitution.acyclic_empty q (q.ground θ) with
      ⟨s, hs, hac, hsol⟩ | ⟨-, hne⟩
    · refine ⟨s, hs, hac, fun η => ?_⟩
      rw [hsol, hself, Literal.ground_congr_iff]
      exact and_iff_right (Substitution.solvedBy_empty η)
    · exact absurd (hself θ).symm (hne θ (Substitution.solvedBy_empty θ))
  obtain ⟨s, hs, hac, hsol⟩ := hsol
  -- all solutions agree on the variables of the literal, so each of them has a value
  have hvalue : ∀ v ∈ q.vars, s.resolve (.var v) = .const (θ v) := fun v hv => by
    have hθ : s.SolvedBy θ := (hsol θ).2 fun _ _ => rfl
    have hg : (s.resolve (.var v)).isGround = true := hac.isGround_resolve fun η η' hη hη' =>
      ((hsol η).1 hη v hv).trans ((hsol η').1 hη' v hv).symm
    rw [Term.eq_const_of_isGround hg θ, hθ.value_resolve]
    rfl
  unfold bindingsOf
  rw [hs, ← List.filterMap_eq_map]
  refine congrArg Assoc.ofList (List.filterMap_congr fun v hv => ?_)
  rw [Option.getD_some, hvalue v hv]
  rfl

variable (hscope : ∀ v ∈ q.vars, v.scope = 0)

include hscope

/-- Over the variables of one scope, the value of a variable is bound to its name. -/
theorem Answer.get?_bindingsOf {v : Variable} (hv : v ∈ q.vars) :
    (Answer.bindingsOf q (q.ground θ)).get? v.name = some (θ v) := by
  rw [bindingsOf_ground]
  refine Assoc.get?_ofList ⟨_, List.mem_map_of_mem hv, rfl⟩ fun e he hname => ?_
  obtain ⟨u, hu, rfl⟩ := List.mem_map.1 he
  have huv : u = v := by
    obtain ⟨x, n⟩ := u
    obtain ⟨y, m⟩ := v
    have hn : n = 0 := hscope _ hu
    have hm : m = 0 := hscope _ hv
    have hxy : x = y := hname
    rw [hn, hm, hxy]
  exact congrArg θ huv

/-- **Filling in the values of an instance gives it back.** -/
theorem Literal.fill_bindingsOf (θ : Valuation) :
    q.fill (Answer.bindingsOf q (q.ground θ)) = q.ground θ := by
  unfold fill
  conv_rhs => unfold ground
  congr 1
  refine List.map_congr_left fun t ht => ?_
  cases t with
  | const c => rfl
  | var v => simp [Answer.get?_bindingsOf hscope (Literal.mem_vars.2 ht)]

omit hscope in
/-- The bound names are those of the variables. -/
theorem Answer.mem_keys_bindingsOf {name : String} :
    name ∈ (Answer.bindingsOf q (q.ground θ)).keys ↔ ∃ v ∈ q.vars, v.name = name := by
  rw [bindingsOf_ground, Assoc.mem_keys_ofList]
  simp

end Bindings

/-! ## Queries of reasoners -/

/-- What each member of a list led to, where every one of them keeps `I`. -/
theorem Searching.of_mapM_eq_ok {σ ι α : Type} {I : Search σ → Prop} {f : ι → Searching σ α}
    (hI : ∀ i u, I u → I (f i u).2) {l : List ι} {s t : Search σ} {results : List α} (hs : I s)
    (h : l.mapM f s = (.ok results, t)) :
    ∀ a ∈ results, ∃ i ∈ l, ∃ u v, I u ∧ f i u = (.ok a, v) := by
  induction l generalizing s results with
  | nil =>
    cases h
    simp
  | cons i rest ih =>
    rw [List.mapM_cons] at h
    obtain ⟨a, u, ha, h⟩ := bind_eq_ok h
    obtain ⟨more, v, hmore, h⟩ := bind_eq_ok h
    cases h
    have hu := hI i s hs
    rw [ha] at hu
    refine List.forall_mem_cons.2 ⟨⟨i, by simp, s, u, hs, ha⟩, fun b hb => ?_⟩
    obtain ⟨j, hj, hrun⟩ := ih hu hmore b hb
    exact ⟨j, by simp [hj], hrun⟩

namespace Reasoner

variable {σ α : Type} [Tables σ] {r : Reasoner σ} {x : Searching (Store σ) α} {a : α}

theorem run_eq_ok_iff : r.run x = .ok a ↔ ∃ tables t, r.openStore = .ok tables ∧
    x (.start tables 0) = (.ok a, t) ∧ (close t).1 = .ok () := by
  unfold run
  constructor
  · intro h
    split at h
    · cases h
    next tables hopen =>
      rcases hx : x (.start tables 0) with ⟨result, t⟩
      rw [hx] at h
      rcases hc : close t with ⟨closed, u⟩
      simp only [hc] at h
      split at h
      · cases h
      · cases h
      · cases h
        exact ⟨tables, t, hopen, hx, by rw [hc]⟩
  · rintro ⟨tables, t, hopen, hx, hc⟩
    rcases hclose : close t with ⟨closed, u⟩
    rw [hclose] at hc
    obtain rfl : closed = .ok () := hc
    simp only [hopen, hx, hclose]

/-- **Where the answers of a query come from.** The facts are found first. The probability of each
is found in some state that the search for the others has left, which has what every search for a
probability keeps. -/
theorem answers_of_query {depth : Nat} {q : Literal} {answers : List Answer}
    (h : r.query depth q = .ok answers) : ∃ tables facts t, r.openStore = .ok tables ∧
      solve r.theory depth q (.start tables 0) = (.ok facts, t) ∧
      ∀ I : Search (Store σ) → Prop, I t →
        (∀ f u, I u → I (Searching.probability r.theory depth Float f u).2) → ∀ a ∈ answers,
          a.fact ∈ facts ∧ a.bindings = Answer.bindingsOf q a.fact ∧
          ∃ u v p, I u ∧ Searching.probability r.theory depth Float a.fact u = (.ok p, v) ∧
            a.probability = r.config.round p := by
  obtain ⟨tables, u, hopen, hrun, -⟩ := run_eq_ok_iff.1 h
  obtain ⟨facts, t, hsolve, hmap⟩ := bind_eq_ok hrun
  refine ⟨tables, facts, t, hopen, hsolve, fun I ht hI a ha => ?_⟩
  have hkeep : ∀ f u, I u → I ((do
      let p ← Searching.probability r.theory depth Float f
      return (⟨f, Answer.bindingsOf q f, r.config.round p⟩ : Answer)) u).2 := fun f u hu => by
    have hkeep := hI f u hu
    rw [bind_run]
    rcases hrun : Searching.probability r.theory depth Float f u with ⟨_ | p, v⟩
    · rwa [hrun] at hkeep
    · rwa [hrun] at hkeep
  obtain ⟨f, hf, u, v, hu, hrun⟩ := of_mapM_eq_ok hkeep ht hmap a ha
  obtain ⟨p, v, hp, hrest⟩ := bind_eq_ok hrun
  cases hrest
  exact ⟨hf, rfl, u, _, p, hu, hp, rfl⟩

end Reasoner

/-! ## Answers and bindings -/

/-- **Answers are distinct ground instances of the query, and their bindings give them back**,
whatever the clauses say and evaluable predicates do. In every state of a session, the answers of a
positive query to clauses are positive and ground instances of it, and none is listed twice. And
where the variables of a query of a reasoner are of scope `0`, each of its answers is a ground fact
with one binding for each name of a variable; with the bound values in place of the variables the
query is the fact. -/
theorem answers_instantiate {σ τ : Type} [Tables σ] [LawfulTables σ] [Tables τ] :
    (∀ (w : Theory) (s : Search σ) (depth : Nat) (q : Literal) (answers : List Literal),
      Reached w s → q.negated = false → w.registry.contains q.predicate = false →
      (solve w depth q s).1 = .ok answers →
      answers.Nodup ∧ ∀ f ∈ answers, f.negated = false ∧ f.isGround = true ∧
        ∃ θ, q.ground θ = f) ∧
    ∀ (r : Reasoner τ) (depth : Nat) (q : Literal) (answers : List Answer),
      (∀ v ∈ q.vars, v.scope = 0) → r.query depth q = .ok answers → ∀ a ∈ answers,
        a.fact.isGround = true ∧ a.bindings.keys.Nodup ∧
        (∀ name, name ∈ a.bindings.keys ↔ ∃ v ∈ q.vars, v.name = name) ∧
        q.fill a.bindings = a.fact := by
  constructor
  · intro w s depth q answers hs hn hrel h
    obtain ⟨hnodup, hinst⟩ := (solve_tidy depth q s hs.tidy).2 answers h hn hrel
    refine ⟨hnodup, fun f hf => ?_⟩
    obtain ⟨θ, rfl⟩ := CallPattern.mem_instances_of.1 (hinst f hf)
    exact ⟨rfl, Literal.isGround_ground _ θ, θ, by rw [Literal.positive_eq_self hn]⟩
  · intro r depth q answers hscope h a ha
    obtain ⟨tables, facts, t, -, hsolve, hfacts⟩ := Reasoner.answers_of_query h
    obtain ⟨hf, hbind, u, v, p, -, hp, -⟩ :=
      hfacts (fun _ => True) trivial (fun _ _ _ => trivial) a ha
    -- only ground facts have a probability
    have hg : a.fact.isGround = true := by
      by_contra hopen
      unfold probability at hp
      rw [if_neg hopen] at hp
      cases hp
    obtain ⟨θ, hθ⟩ := exists_ground_of_solve hsolve hf hg
    rw [hbind, ← hθ]
    refine ⟨q.isGround_ground θ, ?_, fun name => Answer.mem_keys_bindingsOf,
      Literal.fill_bindingsOf hscope θ⟩
    rw [Answer.bindingsOf_ground]
    exact Assoc.nodup_keys_ofList _

/-! ## Nicknames -/

namespace Nicknames

/-- Binds its first argument to the second one, which may be open as well. -/
def nickname : Evaluable where
  name := "nickname"
  arity := 2
  evaluate
    | [.var v, t] => .ok (.bind (Substitution.empty.bind v t))
    | [.const c, .const d] => .ok (.ofBool (c = d))
    | _ => .ok .reject

/-- A variable of scope `0`. -/
def unknown (name : String) : Term := .var ⟨name, 0⟩

/-- A phone reaches its owner under every nickname. -/
def clauses : List Clause :=
  [⟨.of "phone" [.const (.string "ann"), .const (.string "42")], [], .certain⟩,
    ⟨.of "reach" [unknown "X", unknown "Y", unknown "N"],
      [.of "nickname" [unknown "X", unknown "Y"], .of "phone" [unknown "Y", unknown "N"]],
      .certain⟩]

/-- The reasoner about nicknames. -/
def reasoner : Reasoner Resident where
  program := (Program.empty.assertAll clauses).2
  registry := .ofList [nickname]
  config := .standard
  factory := none
  isDirectory _ := false

/-- Whom a phone reaches. -/
def reached : Literal := .of "reach" [unknown "A", unknown "A", unknown "N"]

/-- The one answer. -/
def fact : Literal :=
  .of "reach" [.const (.string "ann"), .const (.string "ann"), .const (.string "42")]

/-- One variable is bound by way of another one, and the bindings of the answer give it back. -/
theorem answers_instantiate_reached :
    (solve reasoner.theory 9 reached (.start Resident.empty 0)).1 = .ok [fact] ∧
    [fact].Nodup ∧ (∀ f ∈ [fact], f.negated = false ∧ f.isGround = true ∧
      ∃ θ, reached.ground θ = f) ∧
    ∃ answers, reasoner.query 9 reached = .ok answers ∧ answers.map Answer.fact = [fact] ∧
      ∀ a ∈ answers, a.fact.isGround = true ∧ a.bindings.keys.Nodup ∧
        (∀ name, name ∈ a.bindings.keys ↔ ∃ v ∈ reached.vars, v.name = name) ∧
        reached.fill a.bindings = a.fact := by
  have h := answers_instantiate (σ := Resident) (τ := Resident)
  have hsolve : (solve reasoner.theory 9 reached (.start Resident.empty 0)).1 = .ok [fact] := by
    decide +kernel
  have hstart : Reached reasoner.theory (.start Resident.empty 0) := .start (fun _ => rfl) 0
  obtain ⟨hnodup, hinst⟩ := h.1 _ _ 9 reached [fact] hstart rfl (by decide +kernel)
    hsolve
  have hfacts : (reasoner.query 9 reached).map (List.map Answer.fact) = .ok [fact] := by
    decide +kernel
  obtain ⟨answers, hquery, hmap⟩ := Except.exists_of_map_eq_ok hfacts
  exact ⟨hsolve, hnodup, hinst, answers, hquery, hmap,
    h.2 reasoner 9 reached answers (by decide) hquery⟩

end Nicknames

end ProbDatalog
