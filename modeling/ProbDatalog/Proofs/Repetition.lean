import ProbDatalog.Proofs.Layers
import ProbDatalog.Proofs.Variants

/-!
# Searching complete patterns again

A pattern that is complete may be searched once more, as if nothing were complete, on the tables as
they are. The search goes where the layers of the complete patterns say: a call finds the answers
that are there, a decision comes out as it has done, and what a way through a body leads to has been
found before. So nothing is added, and nothing but the store can fail.

* `Search.Echo`: the states of such a search.
* `Repeats`: a step changes no table and fails for no reasons but those of the store.
* `verdict_repeats`, `decideNegation_repeats`: a decision comes out as it has done.
* `resolveBody_repeats`, `addAnswer_repeats`: **what a way through a body leads to has been found.**
* `expandOnce_repeats`: an expansion repeats what its calls and decisions do.
-/

namespace ProbDatalog

/-! ## Steps that only look -/

namespace Searching

variable {σ α β : Type}

/-- A step that changes nothing, and whose result depends on the tables alone. -/
def Looks (x : Searching σ α) : Prop := ∀ s t, t.tables = s.tables → x t = ((x s).1, t)

namespace Looks

theorem pure (a : α) : Looks (Pure.pure a : Searching σ α) := fun _ _ _ => rfl

theorem ofOption (o : Option α) : Looks (Searching.ofOption o : Searching σ α) := by
  cases o with
  | some a => exact .pure a
  | none => exact fun _ _ _ => rfl

theorem readTables (f : σ → Except StoreFault α) : Looks (Searching.readTables f) := by
  intro s t h
  unfold Searching.readTables Searching.onTables
  dsimp only
  rw [h]
  cases f s.tables with
  | ok a => exact Prod.ext rfl (by rw [← h])
  | error e => exact Prod.ext rfl (by rw [← h])

theorem bind {x : Searching σ α} {f : α → Searching σ β} (hx : Looks x) (hf : ∀ a, Looks (f a)) :
    Looks (x >>= f) := by
  intro s t h
  obtain ⟨r, hs⟩ : ∃ r, x s = (r, s) := ⟨_, hx s s rfl⟩
  have ht : x t = (r, t) := by rw [hx s t h, hs]
  rw [bind_run, bind_run, hs, ht]
  cases r with
  | error e => rfl
  | ok a => exact hf a s t h

end Looks

/-- A verdict is reached by looking at the tables. -/
theorem looks_verdict [Tables σ] (w : Theory) (fact : Literal) :
    Looks (verdict w fact : Searching σ Bool) := by
  refine (Looks.readTables _).bind fun answers => ?_
  split
  · exact .pure _
  · cases w.mode with
    | datalog => exact .pure _
    | problog =>
      refine Looks.bind ((Looks.readTables _).bind fun _ => .ofOption _) fun proofs => ?_
      exact (Looks.ofOption _).bind fun _ => .pure _

end Searching

/-! ## Steps that repeat what has been done -/

section Repeats

variable {σ : Type} [Tables σ] [LawfulTables σ] {w : Theory}

/-- The tables are as in the state `s`, and have not grown since. -/
def Search.Unchanged (s t : Search σ) : Prop :=
  content t.tables = content s.tables ∧ t.additions = s.additions

/-- A step from `u` changes no table since `s`, it fails for the given reasons of the store only,
and where it succeeds, its result and the state that it leads to satisfy `Q`. -/
def Repeats {α : Type} (s : Search σ) (F : StoreFault → Prop) (u : Search σ) (x : Searching σ α)
    (Q : α → Search σ → Prop) : Prop :=
  Searching.After x u fun r t => s.Unchanged t ∧
    (∀ h, r = .error h → ∃ e, F e ∧ h = .failed (.storage e)) ∧ ∀ a, r = .ok a → Q a t

namespace Repeats

open Searching

variable {α β ι : Type} {s u : Search σ} {F : StoreFault → Prop} {x : Searching σ α}
variable {Q Q' : α → Search σ → Prop} {I : Search σ → Prop}

theorem mono (h : Repeats s F u x Q) (hQ : ∀ a t, Q a t → Q' a t) : Repeats s F u x Q' :=
  After.mono h fun _ _ ⟨hu, he, hq⟩ => ⟨hu, he, fun a ha => hQ a _ (hq a ha)⟩

theorem of_ok {a : α} {t : Search σ} (hx : x u = (.ok a, t)) (hu : s.Unchanged t) (h : Q a t) :
    Repeats s F u x Q := by
  unfold Repeats After
  rw [hx]
  exact ⟨hu, by simp, by simpa using h⟩

theorem pure {a : α} (hu : s.Unchanged u) (h : Q a u) : Repeats s F u (Pure.pure a) Q :=
  of_ok rfl hu h

/-- **One step after another.** -/
theorem bind {f : α → Searching σ β} {R : β → Search σ → Prop} (h : Repeats s F u x Q)
    (hf : ∀ a t, Q a t → Repeats s F t (f a) R) : Repeats s F u (x >>= f) R := by
  refine after_bind.2 (After.mono h ?_)
  rintro (e | a) t ⟨hu, he, hq⟩
  · exact ⟨hu, fun h heq => by cases heq; exact he _ rfl, fun b hb => by cases hb⟩
  · exact hf a t (hq a rfl)

theorem onTables {f : σ → Except StoreFault α × σ}
    (hok : ∀ a t, f u.tables = (.ok a, t) → s.Unchanged { u with tables := t } ∧
      Q a { u with tables := t })
    (herr : ∀ e t, f u.tables = (.error e, t) → s.Unchanged { u with tables := t } ∧ F e) :
    Repeats s F u (Searching.onTables f) Q :=
  (after_onTables f).2
    ⟨fun a t h => ⟨(hok a t h).1, by simp, fun b hb => by cases hb; exact (hok a t h).2⟩,
      fun e t h => ⟨(herr e t h).1, fun _ heq => by cases heq; exact ⟨e, (herr e t h).2, rfl⟩,
        fun b hb => by cases hb⟩⟩

theorem readTables {f : σ → Except StoreFault α} (hu : s.Unchanged u)
    (hok : ∀ a, f u.tables = .ok a → Q a u) (herr : ∀ e, f u.tables = .error e → F e) :
    Repeats s F u (Searching.readTables f) Q := by
  refine onTables (fun a t h => ?_) fun e t h => ?_
  · obtain ⟨ha, rfl⟩ := Prod.mk.inj h
    exact ⟨hu, hok a ha⟩
  · obtain ⟨he, rfl⟩ := Prod.mk.inj h
    exact ⟨hu, herr e he⟩

section Lists

variable {l : List ι} (hI : ∀ t, I t → s.Unchanged t) (hu : I u)

include hI hu

/-- One step for each member of a list, where a state keeps what the next step needs. -/
theorem mapM {f : ι → Searching σ α} {G : α → Prop}
    (hf : ∀ i ∈ l, ∀ t, I t → Repeats s F t (f i) fun a v => I v ∧ G a) :
    Repeats s F u (l.mapM f) fun as t => I t ∧ ∀ a ∈ as, G a := by
  induction l generalizing u with
  | nil => exact .pure (hI u hu) ⟨hu, by simp⟩
  | cons i rest ih =>
    rw [List.mapM_cons]
    refine (hf i (by simp) u hu).bind fun a t ⟨ht, ha⟩ => ?_
    refine (ih ht fun j hj => hf j (by simp [hj])).bind fun as v ⟨hv, has⟩ => ?_
    exact .pure (hI v hv) ⟨hv, List.forall_mem_cons.2 ⟨ha, has⟩⟩

theorem forM {f : ι → Searching σ PUnit}
    (hf : ∀ i ∈ l, ∀ t, I t → Repeats s F t (f i) fun _ v => I v) :
    Repeats s F u (l.forM f) fun _ t => I t := by
  induction l generalizing u with
  | nil => exact .pure (hI u hu) hu
  | cons i rest ih =>
    exact (hf i (by simp) u hu).bind fun _ t ht => ih ht fun j hj => hf j (by simp [hj])

end Lists

end Repeats

/-! ## How far a search has come -/

/-- How far a search has come that goes through the complete patterns of the state `s` again: it has
changed no table, it has noted no patterns but these, at least `reached` of them in this pass, and
the negations of `negating` are being decided. -/
structure Search.Echo (s : Search σ) (P : σ → Prop) (negating : List CallPattern) (reached : Nat)
    (t : Search σ) : Prop where
  unchanged : s.Unchanged t
  keeps : P t.tables
  complete : t.complete ⊆ s.complete
  expanded : t.expanded.Nodup ∧ t.expanded ⊆ s.complete
  reached_le : reached ≤ t.expanded.length
  negating_eq : t.negating = negating

namespace Search.Echo

variable {s t u : Search σ} {P : σ → Prop} {N : List CallPattern} {reached : Nat} {p : CallPattern}

theorem tables {tables : σ} (h : s.Echo P N reached t) (ht : content tables = content s.tables)
    (hP : P tables) : s.Echo P N reached { t with tables } :=
  ⟨⟨ht, h.unchanged.2⟩, hP, h.complete, h.expanded, h.reached_le, h.negating_eq⟩

theorem scope (h : s.Echo P N reached t) (n : UInt32) :
    s.Echo P N reached { t with scope := n } :=
  ⟨h.unchanged, h.keeps, h.complete, h.expanded, h.reached_le, h.negating_eq⟩

/-- A new pass has come to no patterns. -/
theorem clear (h : s.Echo P N reached t) (passes : Nat) :
    s.Echo P N 0 { t with expanded := [], passes } :=
  ⟨h.unchanged, h.keeps, h.complete, by simp, Nat.zero_le _, h.negating_eq⟩

theorem mono {fewer : Nat} (h : s.Echo P N reached t) (hle : fewer ≤ reached) :
    s.Echo P N fewer t :=
  ⟨h.unchanged, h.keeps, h.complete, h.expanded, hle.trans h.reached_le, h.negating_eq⟩

/-- The pass comes to one more pattern. -/
theorem enter (h : s.Echo P N reached t) (hp : p ∈ s.complete) (hnew : p ∉ t.expanded) :
    s.Echo P N (reached + 1) { t with expanded := p :: t.expanded } where
  unchanged := h.unchanged
  keeps := h.keeps
  complete := h.complete
  expanded := ⟨List.nodup_cons.2 ⟨hnew, h.expanded.1⟩, List.cons_subset.2 ⟨hp, h.expanded.2⟩⟩
  reached_le := Nat.succ_le_succ h.reached_le
  negating_eq := h.negating_eq

/-- One more negation is being decided. -/
theorem refute (h : s.Echo P N reached t) (p : CallPattern) :
    s.Echo P (p :: N) 0 { t with negating := p :: t.negating, expanded := [] } where
  unchanged := h.unchanged
  keeps := h.keeps
  complete := h.complete
  expanded := by simp
  reached_le := Nat.zero_le _
  negating_eq := congrArg (p :: ·) h.negating_eq

/-- The search for the fact of a decision has come back. -/
theorem back (h : s.Echo P N reached t) (hu : s.Echo P (p :: N) 0 u) :
    s.Echo P N reached { u with
      expanded := t.expanded, complete := u.expanded ++ u.complete, negating := N } where
  unchanged := hu.unchanged
  keeps := hu.keeps
  complete := List.append_subset.2 ⟨hu.expanded.2, hu.complete⟩
  expanded := h.expanded
  reached_le := h.reached_le
  negating_eq := rfl

end Search.Echo

/-! ## Verdicts -/

/-- A consistent state whose complete patterns have been explored on layers. -/
structure Search.Settled (w : Theory) (rank : CallPattern → Nat) (s : Search σ) : Prop where
  consistent : Consistent w.meaning s
  layered : w.meaning.Layered {p | p ∈ s.complete} rank
  literal : ∀ p ∈ s.complete, ∃ l, p = .of l

namespace Searching

variable {s t : Search σ} {rank : CallPattern → Nat} {P : σ → Prop} {F : StoreFault → Prop}
variable {N : List CallPattern} {reached r : Nat} {call : CallPattern → Searching σ Unit}
variable {passes : Nat}

/-- **A verdict comes out as before**, as the tables are the same. -/
theorem verdict_repeats (hw : w.Plain) (hs : s.Settled w rank) (hP : Tables.Failing P F)
    {fact : Literal} (hg : fact.isGround = true) (hn : fact.negated = false)
    (hrel : w.registry.contains fact.predicate = false) (hcomp : .of fact ∈ s.complete)
    (ht : s.Echo P N reached t) :
    Repeats s F t (verdict w fact) fun holds u =>
      s.Echo P N reached u ∧ (holds = true → w.meaning.mayNegate fact) := by
  -- the verdict is that of a state in which everything is complete that was so at first
  have hs' : Consistent w.meaning { s with tables := t.tables } :=
    hs.consistent.congr ht.unchanged.1 rfl
  have hrun := looks_verdict w fact { s with tables := t.tables } t rfl
  obtain ⟨-, -, hright⟩ := verdict_leads (s := { s with tables := t.tables }) hw.lawful hw.judges
    fact hg hn hrel hcomp hs'
  obtain ⟨herr, -⟩ := verdict_keeps (E := fun h => ∃ e, F e ∧ h = .failed (.storage e))
    (I := fun _ => True) hw fact hs' (fun e he => ⟨e, hP.answers ht.keeps he, rfl⟩)
    (fun _ e he => ⟨e, hP.recorded ht.keeps he, rfl⟩) trivial
  unfold Repeats After
  rw [hrun]
  refine ⟨ht.unchanged, herr, fun holds hok => ⟨ht, fun hholds => ?_⟩⟩
  have hmay := (hright holds hok).2
  rwa [if_pos hholds] at hmay

/-- The passes for a pattern end with the first one. -/
theorem fixpoint_repeats {q : CallPattern} (hpasses : 0 < passes)
    (hcall : ∀ t, s.Echo P N 0 t → Repeats s F t (call q) fun _ u => s.Echo P N 0 u)
    (ht : s.Echo P N reached t) :
    Repeats s F t (fixpoint call q passes) fun _ u => s.Echo P N 0 u := by
  obtain ⟨passes, rfl⟩ : ∃ n, passes = n + 1 := ⟨passes - 1, by omega⟩
  unfold fixpoint
  refine (Repeats.of_ok (Q := fun a u => t = a ∧ t = u) rfl ht.unchanged ⟨rfl, rfl⟩).bind ?_
  rintro _ _ ⟨rfl, rfl⟩
  refine (Repeats.of_ok (Q := fun _ u => s.Echo P N 0 u)
    (t := { t with expanded := [], passes := t.passes + 1 }) rfl ht.unchanged (ht.clear _)).bind ?_
  rintro _ u hu
  refine (hcall u hu).bind fun _ v hv => ?_
  refine (Repeats.of_ok (Q := fun a u => v = a ∧ v = u) rfl hv.unchanged ⟨rfl, rfl⟩).bind ?_
  rintro _ _ ⟨rfl, rfl⟩
  rw [if_pos (hv.unchanged.2.trans ht.unchanged.2.symm)]
  exact .pure hv.unchanged hv

/-- The search for the fact of a decision leaves what it has found. -/
theorem refuting_repeats {p : CallPattern} {l : Literal} {x : Searching σ Unit} (hnew : p ∉ N)
    (hx : Repeats s F { t with negating := p :: t.negating, expanded := [] } x fun _ u =>
      s.Echo P (p :: N) 0 u)
    (ht : s.Echo P N reached t) :
    Repeats s F t (refuting p l (saturating p x)) fun _ u => s.Echo P N reached u := by
  unfold Repeats After refuting
  rw [if_neg (by simpa [ht.negating_eq] using hnew)]
  unfold saturating
  by_cases hc : p ∈ t.complete
  · rw [if_pos (by simpa using hc)]
    simpa using ⟨ht.unchanged, ht⟩
  · rw [if_neg (by simpa using hc)]
    obtain ⟨hu, herr, hok⟩ := hx
    generalize x { t with negating := p :: t.negating, expanded := [] } = run at hu herr hok
    obtain ⟨h | ⟨⟩, u⟩ := run
    · exact ⟨hu, herr, by simp⟩
    · have hback := ht.back (hok () rfl)
      have hneg : u.negating = p :: N := (hok () rfl).negating_eq
      exact ⟨hu, by simp, fun _ _ => by simpa [hneg] using hback⟩

/-- **A decision comes out as before**, if the passes for its fact repeat what has been done. -/
theorem decideNegation_repeats (hw : w.Plain) (hs : s.Settled w rank) (hP : Tables.Failing P F)
    {b : Literal} (hg : b.isGround = true) (hrel : w.registry.contains b.predicate = false)
    (hcomp : .of b.positive ∈ s.complete) (hnew : .of b.positive ∉ N) (hpasses : 0 < passes)
    (hcall : ∀ t, s.Echo P (.of b.positive :: N) 0 t →
      Repeats s F t (call (.of b.positive)) fun _ u => s.Echo P (.of b.positive :: N) 0 u)
    (ht : s.Echo P N reached t) :
    Repeats s F t (decideNegation w call passes b) fun holds u =>
      s.Echo P N reached u ∧ (holds = true → w.meaning.mayNegate b.positive) := by
  rw [decideNegation_of_relational hrel]
  refine Repeats.bind (Q := fun _ u => s.Echo P N reached u) ?_ fun _ u hu =>
    verdict_repeats hw hs hP (by simpa using hg) rfl hrel hcomp hu
  exact refuting_repeats hnew (fixpoint_repeats hpasses hcall (ht.refute _)) ht

/-! ## Bodies -/

/-- What is asked of the calls and the decisions on the layers up to a rank. -/
structure Echoes (w : Theory) (s : Search σ) (rank : CallPattern → Nat) (P : σ → Prop)
    (F : StoreFault → Prop) (N : List CallPattern) (reached r : Nat)
    (call : CallPattern → Searching σ Unit) (passes : Nat) : Prop where
  onCall : ∀ {q t}, q ∈ s.complete → rank q ≤ r → s.Echo P N reached t →
    Repeats s F t (call q) fun _ u => s.Echo P N reached u
  onDecide : ∀ {b t}, b.isGround = true → w.registry.contains b.predicate = false →
    .of b.positive ∈ s.complete → rank (.of b.positive) < r → s.Echo P N reached t →
    Repeats s F t (decideNegation w call passes b) fun holds u =>
      s.Echo P N reached u ∧ (holds = true → w.meaning.mayNegate b.positive)

variable {n : UInt32} {id : ClauseId} {c : Clause} {l : Literal} {before after : List Literal}
variable {sub : Substitution} {br : Branch} {p : CallPattern}

section Bodies

variable (hw : w.Plain) (hs : s.Settled w rank) (hP : Tables.Failing P F)
  (hE : Echoes w s rank P F N reached r call passes)

section Literals

variable {rest : Set Valuation → Prop} (hsub : sub.Acyclic) (hscope : ∀ v ∈ l.vars, v.scope = 0)
  (hrel : w.registry.contains l.predicate = false)
  (hlit : w.meaning.ExploredLiteral (w.layer {p | p ∈ s.complete} rank r) rest l
    (sub.valuations n))
  (ht : s.Echo P N reached t)

include hE hsub hscope hrel hlit ht

/-- A negated literal is ground, and is decided as before. -/
theorem resolveLiteral_repeats_negated (hn : l.negated = true) :
    Repeats s F t (resolveLiteral w call passes (l.rescoped n) sub) fun nexts u =>
      s.Echo P N reached u ∧ ∀ next ∈ nexts, Follows w.meaning s n l sub next ∧
        rest (next.1.valuations n) := by
  obtain ⟨b, hb, hdec, hnext⟩ := (Meaning.exploredLiteral_negated hn).1 hlit
  obtain ⟨hin, hlt⟩ := hdec.resolve_left (by simp [hrel])
  -- all valuations agree on the literal, so it is the one that the layers have decided
  have hg : (sub.apply (l.rescoped n)).isGround = true := by
    refine hsub.isGround_apply fun η η' hη hη' => ?_
    rw [Literal.ground_rescoped, Literal.ground_rescoped]
    have heq := (hb _ (Substitution.mem_valuations hη)).trans
      (hb _ (Substitution.mem_valuations hη')).symm
    exact Literal.ground_congr_iff.2 ((Literal.ground_congr_iff (l := l.positive)).1 heq)
  have hpos : (sub.apply (l.rescoped n)).positive = b := by
    obtain ⟨θ, hθ⟩ := hsub.valuations_nonempty n
    rw [Substitution.apply_rescoped_eq_ground hscope hg hθ, Literal.positive_ground, hb θ hθ]
  unfold resolveLiteral
  simp only [Substitution.apply_negated, Literal.rescoped_negated, hn, if_true, if_pos hg]
  refine (hE.onDecide hg (by simpa using hrel) (hpos ▸ hin) (hpos ▸ hlt) ht).bind ?_
  rintro holds u ⟨hu, hright⟩
  refine .pure hu.unchanged ⟨hu, fun next hmem => ?_⟩
  cases holds with
  | false => simp at hmem
  | true =>
    rw [if_pos rfl, List.mem_singleton] at hmem
    subst hmem
    have hmay := hright rfl
    refine ⟨follows_of_decision hsub hscope hn hg hmay (.inr (hpos ▸ hin)), hnext ?_⟩
    exact hpos ▸ Reading.mustNegate_of_mayNegate hmay

include hs hP

/-- A call is that of a complete pattern, and finds the answers that are there. -/
theorem resolveLiteral_repeats_relational (hn : l.negated = false) :
    Repeats s F t (resolveLiteral w call passes (l.rescoped n) sub) fun nexts u =>
      s.Echo P N reached u ∧ ∀ next ∈ nexts, Follows w.meaning s n l sub next ∧
        rest (next.1.valuations n) := by
  obtain ⟨q, ⟨hq, hqr⟩, hinst, hnext⟩ := (Meaning.exploredLiteral_relational hn hrel).1 hlit
  have hcall : .of (sub.apply (l.rescoped n)) = q := by
    obtain ⟨m, rfl⟩ := hs.literal q hq
    refine CallPattern.of_eq_of_instances_eq (Set.ext fun g => ?_)
    rw [hinst, CallPattern.mem_instances_of, Literal.positive_eq_self (by simpa using hn)]
    exact hsub.exists_ground_apply_rescoped_iff hscope g
  rw [resolveLiteral_of_relational passes (l := l.rescoped n) hn hrel, hcall]
  refine (hE.onCall hq hqr ht).bind fun _ u hu => ?_
  refine (Repeats.readTables (Q := fun answers v => u = v ∧ answers = s.answersOf q) hu.unchanged
    (fun answers ha => ⟨rfl, ?_⟩) fun e => hP.answers hu.keeps).bind ?_
  · rw [LawfulTables.answers_ok ha, hu.unchanged.1]
    rfl
  rintro _ _ ⟨rfl, rfl⟩
  refine .pure hu.unchanged ⟨hu, fun next hmem => ?_⟩
  obtain ⟨g, hg, hmap⟩ := List.mem_filterMap.1 hmem
  obtain ⟨next, hunify, rfl⟩ := Option.map_eq_some_iff.1 hmap
  have hgq := hs.consistent.instances hg
  have hder := hs.consistent.derivable hg
  obtain ⟨hfollows, hvals⟩ := follows_of_answer hsub hscope hn hrel
    (CallPattern.isGround_of_mem_instances hgq) hder hg hunify
  exact ⟨hfollows, hvals ▸ hnext g ⟨Reading.derivable_subset_required hder, hgq⟩⟩

end Literals

include hw hs hP hE

/-- **The ways through a body** are those that there were before. -/
theorem resolveBody_repeats (hid : w.program.clause? id = some c) (hbody : c.body = before ++ after)
    (hbr : Along w.meaning s p n c before br)
    (hexp : w.meaning.Explored (w.layer {p | p ∈ s.complete} rank r) (w.meaning.Counts id c) after
      (br.1.valuations n)) (ht : s.Echo P N reached t) :
    Repeats s F t (resolveBody w call passes (after.map (·.rescoped n)) br) fun branches u =>
      s.Echo P N reached u ∧ ∀ b ∈ branches, Along w.meaning s p n c c.body b := by
  induction after generalizing before br t with
  | nil =>
    refine .pure ht.unchanged ⟨ht, fun b hb => ?_⟩
    rw [List.mem_singleton.1 hb, hbody, List.append_nil]
    exact hbr
  | cons l after ih =>
    obtain ⟨sub, premises⟩ := br
    have hl : l ∈ c.head :: c.body := by simp [hbody]
    have hliteral : Repeats s F t (resolveLiteral w call passes (l.rescoped n) sub) fun nexts u =>
        s.Echo P N reached u ∧ ∀ next ∈ nexts, Follows w.meaning s n l sub next ∧
          w.meaning.Explored (w.layer {p | p ∈ s.complete} rank r) (w.meaning.Counts id c) after
            (next.1.valuations n) := by
      -- over a plain theory every valuation counts, so the exploration comes to the literal
      obtain ⟨θ, hθ⟩ := hbr.acyclic.valuations_nonempty n
      have hlit := hexp ⟨θ, hθ, hw.groundRule_mem_rules hid θ⟩
      have hscope := hw.scopes hid l hl
      have hrel := hw.relational hid l hl
      cases hn : l.negated with
      | true => exact resolveLiteral_repeats_negated hE hbr.acyclic hscope hrel hlit ht hn
      | false => exact resolveLiteral_repeats_relational hs hP hE hbr.acyclic hscope hrel hlit ht hn
    simp only [List.map_cons, resolveBody]
    refine hliteral.bind ?_
    rintro nexts u ⟨hu, hnexts⟩
    refine (Repeats.mapM (I := fun v => s.Echo P N reached v)
      (G := fun branches => ∀ b ∈ branches, Along w.meaning s p n c c.body b)
      (fun _ hv => hv.unchanged) hu fun next hnext v hv => ?_).bind ?_
    · obtain ⟨hfollows, hrest⟩ := hnexts next hnext
      exact ih (by simp [hbody]) (hbr.step hfollows) hrest hv
    · rintro branches v ⟨hv, hall⟩
      refine .pure hv.unchanged ⟨hv, fun b hb => ?_⟩
      obtain ⟨bs, hbs, hb⟩ := List.mem_flatten.1 hb
      exact hall bs hbs b hb

omit hE in
/-- **What a way through a body leads to has been found before.** -/
theorem addAnswer_repeats (hp : p ∈ s.complete) (hid : w.program.clause? id = some c)
    (hbr : Along w.meaning s p n c c.body br) (ht : s.Echo P N reached t) :
    Repeats s F t (addAnswer w p id (c.rescoped n) br) fun _ u => s.Echo P N reached u := by
  obtain ⟨θ, hθ⟩ := hbr.acyclic.valuations_nonempty n
  obtain ⟨hground, hrule, hmem, hwar⟩ := hbr.rule hw.regular hid hθ
  have hhead : (w.groundRule id c θ).head = br.1.apply (c.head.rescoped n) := by rw [hrule]
  obtain ⟨hanswer, hproof⟩ := hs.consistent.complete hp hmem (hbr.head θ hθ)
    (Reading.supported_required hwar.supported)
  rw [hhead] at hanswer
  unfold addAnswer
  simp only [Clause.rescoped, hground, if_true]
  have hput : ∀ ps : List Proof, (∀ π ∈ ps, π = w.groundRule id c θ ∧ w.mode = .problog) →
      Repeats s F t (do
        if ← onTables (Tables.put · p (br.1.apply (c.head.rescoped n)) ps) then
          modify fun s => { s with additions := s.additions + 1 }) fun _ u =>
        s.Echo P N reached u := by
    intro ps hps
    have hold :
        Resident.isNews (content t.tables p) (br.1.apply (c.head.rescoped n)) ps = false := by
      rw [ht.unchanged.1]
      refine Resident.isNews_eq_false_iff.2 ⟨hanswer, fun π hπ => ?_⟩
      obtain ⟨rfl, hm⟩ := hps π hπ
      exact hs.consistent.mem_filed_iff.2 ⟨hproof hm, hhead⟩
    refine Repeats.bind (Q := fun news u => news = false ∧ s.Echo P N reached u)
      (.onTables (fun news tables h => ?_) fun e tables h => ?_) ?_
    · obtain ⟨hnews, hcont⟩ := LawfulTables.put_ok h
      rw [Resident.record_eq_self hold, Function.update_eq_self] at hcont
      have hu := ht.tables (hcont.trans ht.unchanged.1) (hP.put ht.keeps h).2
      exact ⟨hu.unchanged, hnews.trans hold, hu⟩
    · have hu := ht.tables ((LawfulTables.put_error h).trans ht.unchanged.1) (hP.put ht.keeps h).2
      exact ⟨hu.unchanged, (hP.put ht.keeps h).1 e rfl⟩
    · rintro _ u ⟨rfl, hu⟩
      exact .pure hu.unchanged hu
  cases hm : w.mode with
  | datalog => exact hput [] (by simp)
  | problog => exact hput [_] fun π hπ => ⟨by rw [List.mem_singleton.1 hπ, hrule], hm⟩

/-! ## Clauses and patterns -/

variable {m : Literal}

/-- Trying a clause again adds nothing. -/
theorem tryClause_repeats (hm : .of m ∈ s.complete) (hr : rank (.of m) ≤ r)
    (hid : w.program.clause? id = some c) (ht : s.Echo P N reached t) :
    Repeats s F t (tryClause w call passes (.of m) id c) fun _ u => s.Echo P N reached u := by
  have hhead : ∀ v ∈ c.head.vars, v.scope = 0 := hw.scopes hid _ (by simp)
  obtain ⟨n, hn, hrun⟩ := freshScope_run t
  unfold tryClause
  refine (Repeats.of_ok (Q := fun k u => n = k ∧ s.Echo P N reached u) hrun
    (ht.scope n).unchanged ⟨rfl, ht.scope n⟩).bind ?_
  rintro _ u ⟨rfl, hu⟩
  rcases valuations_unify_head (l := m) hn hhead with ⟨sub, hsub, hac, hvals⟩ | ⟨hnone, -⟩
  · simp only [hsub]
    have halong : Along w.meaning s (.of m) n c [] (sub, []) := .start hac hvals
    have hexp : w.meaning.Explored (w.layer {p | p ∈ s.complete} rank r) (w.meaning.Counts id c)
        c.body (sub.valuations n) := by
      rw [hvals]
      exact (hs.layered _ hm id c hid).mono ⟨fun _ h => ⟨h.1, h.2.trans hr⟩,
        fun _ h => ⟨h.1, h.2.trans_le hr⟩, fun _ _ => Set.Subset.rfl, fun _ _ => trivial⟩
    refine (resolveBody_repeats hw hs hP hE hid rfl halong hexp hu).bind ?_
    rintro branches v ⟨hv, hall⟩
    exact .forM (fun _ h => h.unchanged) hv fun b hb x hx =>
      addAnswer_repeats hw hs hP hm hid (hall b hb) hx
  · simp only [hnone]
    exact .pure hu.unchanged hu

end Bodies

/-- **An expansion repeats what its calls and decisions do**, once the pass has come to the
pattern. -/
theorem expandOnce_repeats (hw : w.Plain) (hs : s.Settled w rank) (hP : Tables.Failing P F)
    (hE : Echoes w s rank P F N (reached + 1) r call passes) {m : Literal}
    (hm : .of m ∈ s.complete) (hr : rank (.of m) ≤ r) (ht : s.Echo P N reached t) :
    Repeats s F t (expandOnce w call passes (.of m)) fun _ u => s.Echo P N reached u := by
  -- the clauses are tried from any state in which the pattern has been entered
  have htry : ∀ {u : Search σ}, s.Echo P N (reached + 1) u →
      Repeats s F u ((w.program.candidates (CallPattern.of m).literal).forM fun x =>
        tryClause w call passes (.of m) x.1 x.2) fun _ v => s.Echo P N reached v := by
    intro u hu
    refine (Repeats.forM (fun _ h => h.unchanged) hu fun x hx v hv => ?_).mono
      fun _ v hv => hv.mono (Nat.le_succ _)
    exact tryClause_repeats hw hs hP hE hm hr ((hw.asserted.mem_candidates_iff _).1 hx).1 hv
  unfold expandOnce Repeats
  rw [after_bind, after_enter]
  refine ⟨fun _ => Repeats.pure ht.unchanged ht, fun _ hnew => ?_⟩
  have hu := ht.enter hm hnew
  simp only [if_true]
  rw [after_bind, after_get]
  dsimp only
  split
  · refine Repeats.bind (Q := fun _ u => s.Echo P N (reached + 1) u)
      (.onTables (fun g tables hget => ?_) fun e tables hget => ?_) fun _ u hu => htry hu
    all_goals
      have hv := hu.tables ((LawfulTables.content_of_get hget).trans ht.unchanged.1)
        (hP.get ht.keeps hget).2
    · exact ⟨hv.unchanged, hv⟩
    · exact ⟨hv.unchanged, (hP.get ht.keeps hget).1 e rfl⟩
  · exact htry hu

end Searching

end Repeats

end ProbDatalog
