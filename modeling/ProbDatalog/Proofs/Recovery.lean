import ProbDatalog.Proofs.Datalog
import ProbDatalog.Proofs.Layers
import ProbDatalog.Proofs.Modes
import ProbDatalog.Proofs.Termination

/-!
# Asking again

What has been asked before, and what of it has failed, has no influence on what is answered later:
on a store that works, a query succeeds in every state of a session if it succeeds in one, and
always yields the same.

* `solve_keeps_of_ok`: a query that has succeeded once does not fail.
* `Reached.as_fresh`: **in every state of a session a query yields what it yields on tables without
  answers.**
-/

namespace ProbDatalog

open Searching

variable {w : Theory}

/-- What is on layers of complete patterns. -/
theorem Searching.onLayers_of_complete {σ : Type} {s : Search σ} {q : Literal}
    (hq : .of q ∈ s.complete) (hg : q.negated = true → q.isGround = true) :
    q.OnLayers {p | p ∈ s.complete} := by
  unfold Literal.OnLayers
  by_cases hn : q.negated = true
  · rw [if_pos hn]
    exact ⟨hg hn, hq⟩
  · rw [if_neg hn]
    exact ⟨_, hq, Set.Subset.rfl⟩

theorem Keeps.of_comesTo {σ α : Type} {s t : Search σ} {x : Nat → Searching σ α}
    {Q : α → Search σ → Prop} {r : Except Error α} (h : ∀ n, Keeps (· = .exhausted) s (x n) Q)
    (hx : ComesTo x s r t) : ∃ a, r = .ok a ∧ Q a t := by
  obtain ⟨n, hn⟩ := hx.exists_run
  have hk := h n
  unfold Keeps After at hk
  rw [hn] at hk
  cases r with
  | ok a => exact ⟨a, rfl, hk.2 a rfl⟩
  | error e => exact absurd (hk.1 _ rfl) (by simp)

theorem Leads.of_comesTo {σ α : Type} [Tables σ] [LawfulTables σ] {M : Meaning w} {s t : Search σ}
    {x : Nat → Searching σ α} {Q : α → Search σ → Prop} {a : α} (h : ∀ n, Leads M s (x n) Q)
    (hx : ComesTo x s (.ok a) t) : Q a t := by
  obtain ⟨n, hn⟩ := hx.exists_run
  have hl := h n
  unfold Leads After at hl
  rw [hn] at hl
  exact hl.2.2 a rfl

/-- A step that comes to an outcome and does not fail has the result that it leads to. -/
theorem exists_ok_of_comesTo {σ α : Type} [Tables σ] [LawfulTables σ] {M : Meaning w} {s : Search σ}
    {x : Nat → Searching σ α} {P Q : α → Search σ → Prop}
    (hkeeps : ∀ n, Keeps (· = .exhausted) s (x n) P) (hleads : ∀ n, Leads M s (x n) Q)
    (hx : ∃ r t, ComesTo x s r t) : ∃ a t, ComesTo x s (.ok a) t ∧ Q a t := by
  obtain ⟨r, t, h⟩ := hx
  obtain ⟨a, rfl, -⟩ := Keeps.of_comesTo hkeeps h
  exact ⟨a, t, h, Leads.of_comesTo hleads h⟩

/-- A probability that is found comes after the answers to the fact. -/
theorem Searching.exists_solve_of_probability {σ α : Type} [Tables σ] [Weight α] {s t : Search σ}
    {l : Literal} {v : α} {n : Nat} (h : probability w n α l s = (.ok v, t)) :
    l.isGround = true ∧ ∃ evaluable, w.registry.resolve l.positive = .ok evaluable ∧
      ∃ answers u, solve w n l.positive s = (.ok answers, u) := by
  unfold probability at h
  by_cases hg : l.isGround = true
  · rw [if_pos hg] at h
    obtain ⟨evaluable, u, hres, h⟩ := bind_eq_ok h
    refine ⟨hg, evaluable, ?_⟩
    cases hr : w.registry.resolve l.positive with
    | error e =>
      rw [hr] at hres
      cases hres
    | ok o =>
      rw [hr] at hres
      cases hres
      refine ⟨rfl, ?_⟩
      -- both ways to a probability start with the answers
      by_cases hm : w.mode = .problog ∧ evaluable.isNone = true
      · rw [if_pos hm] at h
        obtain ⟨answers, u, hsolve, -⟩ := bind_eq_ok h
        exact ⟨answers, u, hsolve⟩
      · rw [if_neg hm] at h
        obtain ⟨holds, u, hans, -⟩ := bind_eq_ok h
        obtain ⟨answers, u, hsolve, -⟩ := bind_eq_ok hans
        exact ⟨answers, u, hsolve⟩
  · rw [if_neg hg] at h
    cases h

section Again

variable {σ τ : Type} [Tables σ] [LawfulTables σ] [Tables τ] [LawfulTables τ]
variable {s t : Search σ} {s' : Search τ} {q : Literal} {P : τ → Prop}

/-- A query that has succeeded once does not fail in any mode in which the same negations must not
be overlooked. -/
theorem solve_keeps_inMode {m : Mode} (hw : w.Plain) (hm : w.AgreesIn m)
    (hs : Consistent w.meaning s) {depth : Nat} {answers : List Literal}
    (h : solve w depth q s = (.ok answers, t)) (hs' : Reached (w.inMode m) s')
    (hP : Tables.Sound P) (hwork : P s'.tables) (n : Nat) :
    Keeps (· = .exhausted) s' (solve (w.inMode m) n q) fun _ u => P u.tables := by
  have hw' := hw.inMode m
  by_cases hc : w.registry.contains q.predicate = true
  · have hok : (w.registry.answers q).mapError Halt.failed = .ok answers :=
      congrArg Prod.fst ((solve_evaluable hc depth s).symm.trans h)
    have hsolve : solve (w.inMode m) n q s' = (.ok answers, s') :=
      (solve_evaluable (w := w.inMode m) hc n s').trans (congrArg (·, s') hok)
    exact .of_ok hsolve hwork
  · have hrel : w.registry.contains q.predicate = false := by simpa using hc
    obtain ⟨ht, -, hq⟩ := (solve_leads_answers (q := q) hw depth hrel hs).of_run h
    obtain ⟨hcomp, hg, -⟩ := hq answers rfl
    -- the patterns that the first run has completed are layers for any other run
    obtain ⟨rank, hrank⟩ := ht.layered
    exact solve_keeps_layered hw' (hm.layered hrank) hP n hrel (onLayers_of_complete hcomp hg)
      (hw'.consistent hs') (hs'.negating hw'.regular hw'.lawful hw'.judges) hwork

/-- **A query that has succeeded once does not fail** in any state of a session, on a store that
works. -/
theorem solve_keeps_of_ok (hw : w.Plain) (hs : Consistent w.meaning s) {depth : Nat}
    {answers : List Literal} (h : solve w depth q s = (.ok answers, t)) (hs' : Reached w s')
    (hP : Tables.Sound P) (hwork : P s'.tables) (n : Nat) :
    Keeps (· = .exhausted) s' (solve w n q) fun _ u => P u.tables :=
  solve_keeps_inMode hw w.agreesIn_mode hs h hs' hP hwork n

/-- Neither does the search for a probability that has been found once. -/
theorem probability_keeps_inMode {m : Mode} {α : Type} [Weight α] (hw : w.Plain)
    (hm : w.AgreesIn m) (hs : Consistent w.meaning s) {depth : Nat} {l : Literal} {v : α}
    (h : probability w depth α l s = (.ok v, t)) (hs' : Reached (w.inMode m) s')
    (hP : Tables.Sound P) (hwork : P s'.tables) (n : Nat) :
    Keeps (· = .exhausted) s' (probability (w.inMode m) n α l) fun _ u => P u.tables := by
  obtain ⟨hg, evaluable, hres, answers, u, hsolve⟩ := exists_solve_of_probability h
  have hres' : (w.inMode m).registry.resolve l.positive = .ok evaluable := hres
  exact probability_keeps (hw.inMode m) ((hw.inMode m).consistent hs')
    (fun _ _ _ hv he => (hP.failing.recorded hv he).elim)
    (fun hopen => by simp [hg] at hopen) (fun e he => by simp [hres'] at he)
    (solve_keeps_inMode hw hm hs hsolve hs' hP hwork n)

/-- The answers of a query that has succeeded once, in another mode in which the same negations must
not be overlooked. -/
theorem Reached.solve_inMode {m : Mode} (hw : w.Plain) (hm : w.AgreesIn m) (hs : Reached w s)
    (hs' : Reached (w.inMode m) s') (hwork : Tables.Works s'.tables) {answers : List Literal}
    (h : ComesTo (fun n => solve w n q) s (.ok answers) t) :
    ∃ answers' t', ComesTo (fun n => solve (w.inMode m) n q) s' (.ok answers') t' ∧
      ∀ f, f ∈ answers' ↔ f ∈ answers := by
  obtain ⟨P, hP, hwork⟩ := hwork
  have hw' := hw.inMode m
  have hc := hw.consistent hs
  have hc' := hw'.consistent hs'
  obtain ⟨n, hrun⟩ := h.exists_run
  obtain ⟨answers', t', h', -, hmem'⟩ := exists_ok_of_comesTo
    (solve_keeps_inMode hw hm hc hrun hs' hP hwork) (fun n => solve_leads_yields hw' n hc')
    (hs'.solve_comesTo hw' q)
  have hmem := (Leads.of_comesTo (fun n => solve_leads_yields hw n hc) h).2
  exact ⟨answers', t', h', fun f => (hmem' f).trans (hm.yields_iff.trans (hmem f).symm)⟩

variable (hw : w.Plain) (hs : Reached w s) (hs' : Reached w s') (hwork : Tables.Works s'.tables)

include hw hs hs' hwork

/-- The answers of a query that has succeeded once. -/
theorem Reached.solve_again {answers : List Literal}
    (h : ComesTo (fun n => solve w n q) s (.ok answers) t) :
    ∃ answers' t', ComesTo (fun n => solve w n q) s' (.ok answers') t' ∧
      ∀ f, f ∈ answers' ↔ f ∈ answers :=
  hs.solve_inMode hw w.agreesIn_mode hs' hwork h

/-- The proofs of a query that have been found once. -/
theorem Reached.proofs_again {found : ProofSet}
    (h : ComesTo (fun n => proofs w n q) s (.ok found) t) :
    ∃ t', ComesTo (fun n => proofs w n q) s' (.ok found) t' := by
  obtain ⟨P, hP, hwork⟩ := hwork
  have hc := hw.consistent hs
  have hc' := hw.consistent hs'
  obtain ⟨n, hrun⟩ := h.exists_run
  obtain ⟨answers, u, hsolve, -⟩ := bind_eq_ok hrun
  have hkeeps := fun n => proofs_keeps hw hc'
    (fun _ _ _ hv he => (hP.failing.recorded hv he).elim)
    (solve_keeps_of_ok hw hc hsolve hs' hP hwork n)
  obtain ⟨found', t', h', hshows⟩ := exists_ok_of_comesTo hkeeps
    (fun n => proofs_leads_shows hw n hc') (hs'.proofs_comesTo hw q)
  -- two searches that find proofs find those that the theory says
  obtain rfl := (Leads.of_comesTo (fun n => proofs_leads_shows hw n hc) h).eq hshows
  exact ⟨t', h'⟩

/-- The probability of a fact that has been found once. -/
theorem Reached.probability_again {α : Type} [Weight α] {l : Literal} {v : α}
    (h : ComesTo (fun n => probability w n α l) s (.ok v) t) :
    ∃ t', ComesTo (fun n => probability w n α l) s' (.ok v) t' := by
  obtain ⟨P, hP, hwork⟩ := hwork
  have hc := hw.consistent hs
  have hc' := hw.consistent hs'
  obtain ⟨n, hrun⟩ := h.exists_run
  obtain ⟨V, hV, hprob⟩ := exists_probability hw α l
  obtain ⟨v', t', h', hv'⟩ := exists_ok_of_comesTo
    (probability_keeps_inMode hw w.agreesIn_mode hc hrun hs' hP hwork) (fun n => hprob n hc')
    (hs'.probability_comesTo hw α l)
  obtain rfl := hV (Leads.of_comesTo (fun n => hprob n hc) h) hv'
  exact ⟨t', h'⟩

end Again

/-! ## In every state as at the start -/

/-- Both queries come to a result. If one of them succeeds, so does the other one, and what they
yield is related. -/
def Searching.Agree {σ τ α : Type} (related : α → α → Prop) (x : Nat → Searching σ α)
    (s : Search σ) (y : Nat → Searching τ α) (s' : Search τ) : Prop :=
  ∃ r t r' t', ComesTo x s r t ∧ ComesTo y s' r' t' ∧ ((∃ a, r = .ok a) ↔ ∃ b, r' = .ok b) ∧
    ∀ a b, r = .ok a → r' = .ok b → related a b

theorem Searching.Agree.of_comesTo {σ τ α : Type} {related : α → α → Prop}
    {x : Nat → Searching σ α} {s : Search σ} {y : Nat → Searching τ α} {s' : Search τ}
    (hx : ∃ r t, ComesTo x s r t) (hy : ∃ r t, ComesTo y s' r t)
    (hxy : ∀ {a t}, ComesTo x s (.ok a) t → ∃ b u, ComesTo y s' (.ok b) u ∧ related a b)
    (hyx : ∀ {b u}, ComesTo y s' (.ok b) u → ∃ a t, ComesTo x s (.ok a) t) :
    Agree related x s y s' := by
  obtain ⟨r, t, hr⟩ := hx
  obtain ⟨r', t', hr'⟩ := hy
  refine ⟨r, t, r', t', hr, hr', ⟨?_, ?_⟩, ?_⟩
  · rintro ⟨a, rfl⟩
    obtain ⟨b, u, hb, -⟩ := hxy hr
    exact ⟨b, (hr'.eq hb).1⟩
  · rintro ⟨b, rfl⟩
    obtain ⟨a, u, ha⟩ := hyx hr'
    exact ⟨a, (hr.eq ha).1⟩
  · rintro a b rfl rfl
    obtain ⟨b', u, hb, hab⟩ := hxy hr
    cases (hr'.eq hb).1
    exact hab

/-- **In every state of a session a query yields what it yields on tables without answers**, as
soon as the store works: it succeeds in both cases or in none, with the same answers, the same
proofs and the same probability. It does not matter what has been asked before, what of it has
failed, and why. -/
theorem Reached.as_fresh {σ τ : Type} [Tables σ] [LawfulTables σ] [Tables τ] [LawfulTables τ]
    (hw : w.Plain) {s : Search σ} (hs : Reached w s) (hwork : Tables.Works s.tables) {fresh : τ}
    (hfresh : IsFresh fresh) (hfreshWork : Tables.Works fresh) (scope : UInt32) :
    (∀ q, Agree (fun found expected : List Literal => ∀ f, f ∈ found ↔ f ∈ expected)
      (fun n => solve w n q) s (fun n => solve w n q) (.start fresh scope)) ∧
    (∀ q, Agree Eq (fun n => proofs w n q) s (fun n => proofs w n q) (.start fresh scope)) ∧
    ∀ (α : Type) [Weight α] (f : Literal),
      Agree Eq (fun n => probability w n α f) s (fun n => probability w n α f)
        (.start fresh scope) := by
  have hstart : Reached w (.start fresh scope) := .start hfresh scope
  refine ⟨fun q => .of_comesTo (hs.solve_comesTo hw q) (hstart.solve_comesTo hw q) ?_ ?_,
    fun q => .of_comesTo (hs.proofs_comesTo hw q) (hstart.proofs_comesTo hw q) ?_ ?_,
    fun α _ f => .of_comesTo (hs.probability_comesTo hw α f) (hstart.probability_comesTo hw α f)
      ?_ ?_⟩
  · intro _ _ h
    obtain ⟨answers, t, hans, hmem⟩ := hs.solve_again hw hstart hfreshWork h
    exact ⟨answers, t, hans, fun f => (hmem f).symm⟩
  · intro _ _ h
    obtain ⟨answers, t, hans, -⟩ := hstart.solve_again hw hs hwork h
    exact ⟨answers, t, hans⟩
  · intro _ _ h
    obtain ⟨t, hfound⟩ := hs.proofs_again hw hstart hfreshWork h
    exact ⟨_, t, hfound, rfl⟩
  · intro _ _ h
    obtain ⟨t, hfound⟩ := hstart.proofs_again hw hs hwork h
    exact ⟨_, t, hfound⟩
  · intro _ _ h
    obtain ⟨t, hv⟩ := hs.probability_again hw hstart hfreshWork h
    exact ⟨_, t, hv, rfl⟩
  · intro _ _ h
    obtain ⟨t, hv⟩ := hstart.probability_again hw hs hwork h
    exact ⟨_, t, hv⟩

namespace Birds

/-- Tables that take three answers and then no more. -/
def limited : Search (Quota ⊕ Resident) := .start (.inl (.new 3 false)) 0

/-- It has been asked what flies, until the tables were full. -/
def interrupted : Search (Quota ⊕ Resident) :=
  (Request.solve (general "flies")).leave (theory .problog) 9 limited

/-- What the tables hold, in memory. -/
def moved (tables : Quota ⊕ Resident) : Quota ⊕ Resident := .inr (tables.elim (·.content) id)

theorem content_moved (tables : Quota ⊕ Resident) : content (moved tables) = content tables := by
  cases tables <;> rfl

theorem works_moved (tables : Quota ⊕ Resident) : Tables.Works (moved tables) :=
  Tables.embeds_inr.works (Resident.works _)

/-- What could not be answered as the tables were full is answered as on tables without answers
once they have been moved. -/
theorem as_fresh_moved :
    (solve (theory .problog) 9 (general "flies") limited).1 =
      .error (.failed (.storage (.refused "limit"))) ∧
    interrupted.recordsOf (.of (general "bird")) ≠ [] ∧
    Agree (fun found expected : List Literal => ∀ f, f ∈ found ↔ f ∈ expected)
      (fun n => solve (theory .problog) n (general "flies"))
      { interrupted with tables := moved interrupted.tables }
      (fun n => solve (theory .problog) n (general "flies")) (.start Resident.empty 0) := by
  have hlimited : Reached (theory .problog) limited := .start (fun _ => rfl) 0
  have hmoved := (hlimited.ask 9 (.solve (general "flies"))).mend (content_moved _)
  exact ⟨by decide +kernel, by decide +kernel, (hmoved.as_fresh (plain .problog) (works_moved _)
    isFresh_empty (Resident.works _) 0).1 (general "flies")⟩

end Birds

end ProbDatalog
