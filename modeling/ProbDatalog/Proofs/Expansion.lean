import ProbDatalog.Proofs.Branches

/-!
# Expansion keeps the invariant

The expansion of a pattern tries its clauses one after the other, so what holds of the ways through
a body adds up to what is asked of a call.

* `resolveBody_leads`: **the ways through a body explore it.**
* `addAnswer_leads`: what a way through a body has led to is found.
* `tryClause_leads`, `expandOnce_leads`: a pattern is explored clause by clause.
* `expand_calls`: **calls do what is asked of them, to any depth.**
* `saturate_leads`: a saturated pattern is complete.
-/

namespace ProbDatalog

variable {σ : Type} [Tables σ] [LawfulTables σ] {w : Theory} {M : Meaning w}

namespace Leads

/-- **One step for each member of a list**, where what a step is for stays true later on. -/
theorem forM {ι : Type} {s : Search σ} {l : List ι} {f : ι → Searching σ PUnit}
    {P : ι → Search σ → Prop} (hs : Consistent M s)
    (hP : ∀ i ∈ l, ∀ t u, Progress t u → u.additions = t.additions → t.expanded ⊆ u.expanded →
      P i t → P i u)
    (hf : ∀ i ∈ l, ∀ t, Consistent M t → Progress s t → Leads M t (f i) fun _ u =>
      Pass M t u ∧ (u.additions = t.additions → P i u)) :
    Leads M s (l.forM f) fun _ t =>
      Pass M s t ∧ (t.additions = s.additions → ∀ i ∈ l, P i t) := by
  induction l generalizing s with
  | nil => exact .pure hs ⟨.refl s, by simp⟩
  | cons i rest ih =>
    refine (hf i (by simp) s hs (.refl s)).bind ?_
    rintro _ t ht hst ⟨hpass, hi⟩
    have hrest := ih ht (fun j hj => hP j (by simp [hj])) fun j hj u hu htu =>
      hf j (by simp [hj]) u hu (hst.trans htu)
    refine hrest.mono ?_
    rintro _ u hu htu ⟨hpass', hall⟩
    refine ⟨hpass.trans hpass' hst htu, fun heq j hj => ?_⟩
    obtain ⟨h1, h2⟩ := hst.additions_eq htu heq
    rcases List.mem_cons.1 hj with rfl | hj
    · exact hP j (by simp) t u htu h2 hpass'.expanded (hi h1)
    · exact hall h2 j hj

theorem mapM {ι α : Type} {s : Search σ} {l : List ι} {f : ι → Searching σ α}
    (hs : Consistent M s)
    (hf : ∀ i ∈ l, ∀ t, Consistent M t → Progress s t → Leads M t (f i) fun _ _ => True) :
    Leads M s (l.mapM f) fun _ _ => True := by
  induction l generalizing s with
  | nil => exact .pure hs trivial
  | cons i rest ih =>
    rw [List.mapM_cons]
    refine (hf i (by simp) s hs (.refl s)).bind fun a t ht hst _ => ?_
    refine (ih ht fun j hj u hu htu => hf j (by simp [hj]) u hu (hst.trans htu)).bind ?_
    exact fun _ u hu _ _ => .pure hu trivial

end Leads

namespace Searching

variable {call : CallPattern → Searching σ Unit} {s : Search σ} {n : UInt32} {p : CallPattern}
variable {id : ClauseId} {c : Clause}

/-! ## Bodies -/

/-- The ways to make a literal of a clause hold. -/
theorem resolveLiteral_leads (hw : w.Regular) (hM : M.Lawful) (hJ : M.Judges σ)
    (hcall : Calls M call) (passes : Nat) (hid : w.program.clause? id = some c)
    {before after : List Literal} {l : Literal} (hbody : c.body = before ++ l :: after)
    {br : Branch} (hs : Consistent M s) (hbr : Along M s p n c before br) :
    Leads M s (resolveLiteral w call passes (l.rescoped n) br.1) fun nexts t =>
      Resolved M s t n (M.Counts id c) l br.1 nexts := by
  have hscope : ∀ l ∈ c.body, ∀ v ∈ l.vars, v.scope = 0 := fun l hl =>
    hw.scopes hid l (List.mem_cons_of_mem _ hl)
  have hmem : l ∈ c.body := by simp [hbody]
  by_cases hn : l.negated = true
  · exact resolveLiteral_leads_negated hM hJ hcall passes hbr.acyclic (hscope l hmem) hn hs
  have hn' : l.negated = false := by simpa using hn
  by_cases hc : w.registry.contains l.predicate = true
  · obtain ⟨e, he⟩ := Registry.contains_iff.1 hc
    refine resolveLiteral_leads_evaluable passes hbr.acyclic (hscope l hmem) hn' he
      (hw.steady hid l hmem hn' e he) ?_ hs
    intro hrej θ hθ hcount
    refine hM.decides hid hbody hn' he hcount ?_ hrej
    exact hbr.partialCall (fun m hm => hscope m (by simp [hbody, hm])) (hscope l hmem) hθ
  · exact resolveLiteral_leads_relational hcall passes hbr.acyclic (hscope l hmem) hn'
      (by simpa using hc) hs

/-- What is known once the ways on from given branches have been found: they lead through the whole
body, and what they leave out has been explored. -/
def Continues (M : Meaning w) (p : CallPattern) (n : UInt32) (id : ClauseId) (c : Clause)
    (after : List Literal) (starts : List Branch) (s : Search σ) (ends : List Branch)
    (t : Search σ) : Prop :=
  Pass M s t ∧ (∀ b ∈ ends, Along M t p n c c.body b) ∧
    (t.additions = s.additions → ∀ br ∈ starts, M.Explored
      (t.horizon fun θ => ∃ b ∈ ends, θ ∈ b.1.valuations n) (M.Counts id c) after
      (br.1.valuations n))

/-- The ways on from several branches are the ways on from each of them. -/
theorem mapM_continues {before after : List Literal} {ι : Type} (next : ι → Branch)
    {go : Branch → Searching σ (List Branch)}
    (hgo : ∀ br s, Consistent M s → Along M s p n c before br →
      Leads M s (go br) (Continues M p n id c after [br] s)) {l : List ι}
    (hs : Consistent M s) (hl : ∀ i ∈ l, Along M s p n c before (next i)) :
    Leads M s (l.mapM fun i => go (next i)) fun endss =>
      Continues M p n id c after (l.map next) s endss.flatten := by
  induction l generalizing s with
  | nil => exact .pure hs ⟨.refl s, by simp, by simp⟩
  | cons i l ih =>
    rw [List.mapM_cons]
    refine (hgo (next i) s hs (hl i (by simp))).bind ?_
    rintro ends t ht hst ⟨hpass, hall, hexp⟩
    refine (ih ht fun j hj => (hl j (by simp [hj])).mono hst).bind ?_
    rintro endss u hu htu ⟨hpass', hall', hexp'⟩
    refine .pure hu ⟨hpass.trans hpass' hst htu, ?_, ?_⟩
    · intro b hb
      rcases List.mem_append.1 (List.flatten_cons ▸ hb) with hb | hb
      · exact (hall b hb).mono htu
      · exact hall' b hb
    · intro heq br hbr
      obtain ⟨h1, h2⟩ := hst.additions_eq htu heq
      rcases List.mem_cons.1 hbr with rfl | hbr
      · refine (hexp h1 _ (by simp)).mono (Search.horizon_le htu h2 hpass'.expanded ?_)
        rintro θ ⟨b, hb, hθ⟩
        exact ⟨b, List.mem_append_left _ hb, hθ⟩
      · refine (hexp' h2 br hbr).mono (Search.horizon_le (.refl u) rfl (fun _ h => h) ?_)
        rintro θ ⟨b, hb, hθ⟩
        exact ⟨b, List.mem_append_right _ hb, hθ⟩

/-- **The ways through a body explore it.** -/
theorem resolveBody_leads (hw : w.Regular) (hM : M.Lawful) (hJ : M.Judges σ)
    (hcall : Calls M call) (passes : Nat) (hid : w.program.clause? id = some c)
    {before after : List Literal} (hbody : c.body = before ++ after) {br : Branch}
    (hs : Consistent M s) (hbr : Along M s p n c before br) :
    Leads M s (resolveBody w call passes (after.map (·.rescoped n)) br)
      (Continues M p n id c after [br] s) := by
  induction after generalizing before br s with
  | nil =>
    refine .pure hs ⟨.refl s, fun b hb => ?_, fun _ br' hbr' θ hθ _ => ⟨br', hbr', hθ⟩⟩
    rw [List.mem_singleton.1 hb, hbody, List.append_nil]
    exact hbr
  | cons l after ih =>
    simp only [List.map_cons, resolveBody]
    refine (resolveLiteral_leads hw hM hJ hcall passes hid hbody hs hbr).bind ?_
    rintro nexts t ht hst hres
    -- the ways on from each of the ways to make the literal hold
    refine (mapM_continues (fun next => (next.1, br.2 ++ [next.2]))
      (fun _ _ hs' hbr' => ih (by simp [hbody]) hs' hbr') ht
      fun next hnext => (hbr.mono hst).step (hres.follows next hnext)).bind ?_
    rintro endss u hu htu ⟨hpass, hall, hexp⟩
    refine .pure hu ⟨hres.pass.trans hpass hst htu, hall, fun heq br' hbr' hA => ?_⟩
    obtain rfl := List.mem_singleton.1 hbr'
    obtain ⟨h1, h2⟩ := hst.additions_eq htu heq
    refine Meaning.ExploredLiteral.mono (hres.explored h1
      (fun θ => ∃ b ∈ endss.flatten, θ ∈ b.1.valuations n) _ ?_ ?_ hA)
      (Search.horizon_le htu h2 hpass.expanded fun _ h => h) fun _ h => h
    · exact fun A hvoid => Meaning.Explored.of_forall_not hvoid
    · exact fun next hnext => hexp h2 _ (List.mem_map_of_mem hnext)

end Searching

/-! ## Answers -/

section Answers

variable {s : Search σ} {n : UInt32} {p : CallPattern} {id : ClauseId} {c : Clause}
variable {br : Searching.Branch}

/-- A branch through a whole body has led to a ground rule whose premises are warranted. -/
theorem Along.rule (hw : w.Regular) (hid : w.program.clause? id = some c)
    (hbr : Along M s p n c c.body br) {θ : Valuation} (hθ : θ ∈ br.1.valuations n) :
    (br.1.apply (c.head.rescoped n)).isGround = true ∧
      w.groundRule id c θ = ⟨br.1.apply (c.head.rescoped n), br.2, c.probability, id⟩ ∧
      w.groundRule id c θ ∈ w.rules ∧
      s.Warrants M (w.groundRule id c θ) := by
  have hscope : ∀ l ∈ c.body, ∀ v ∈ l.vars, v.scope = 0 := fun l hl =>
    hw.scopes hid l (List.mem_cons_of_mem _ hl)
  have hhead : ∀ v ∈ c.head.vars, v.scope = 0 := hw.scopes hid _ (by simp)
  -- the variables of the head occur in positive literals, which are the same in all valuations
  have hground : (br.1.apply (c.head.rescoped n)).isGround = true := by
    refine List.all_eq_true.2 fun u hu => ?_
    obtain ⟨_, ht', rfl⟩ := List.mem_map.1 hu
    obtain ⟨t, ht, rfl⟩ := List.mem_map.1 ht'
    cases t with
    | const k => exact congrArg Term.isGround (Substitution.resolve_const k)
    | var v =>
      exact hbr.isGround_resolve (hw.asserted.mem_boundVars hid (Literal.mem_vars.2 ht)) hscope
  have hrule : w.groundRule id c θ =
      ⟨br.1.apply (c.head.rescoped n), br.2, c.probability, id⟩ := by
    rw [Substitution.apply_rescoped_eq_ground hhead hground hθ, hbr.premises θ hθ]
    rfl
  have hbody : (w.groundRule id c θ).body = br.2 := by rw [hrule]
  have hprem : ∀ prem ∈ (w.groundRule id c θ).body, Warranted M s prem :=
    fun prem h => hbr.warranted _ (hbody ▸ h)
  refine ⟨hground, hrule, ⟨id, c, θ, hid, rfl, fun l hl => hprem _ hl⟩, ⟨?_, ?_⟩, ?_, ?_⟩
  · exact fun l hl hn => ((warranted_iff_of_not_negated hn).1 (hprem _ hl)).1
  · exact fun l hl hn => ((warranted_iff_of_negated hn).1 (hprem _ hl)).1
  · exact fun l hl hn => ((warranted_iff_of_not_negated hn).1 (hprem _ hl)).2
  · intro l hl hn hrel
    have hdec := ((warranted_iff_of_negated hn).1 (hprem _ hl)).2
    simpa [hrel] using hdec

end Answers

namespace Searching

variable {call : CallPattern → Searching σ Unit} {s : Search σ} {n : UInt32} {p : CallPattern}
variable {id : ClauseId} {c : Clause}

/-- Put an answer and note whether the table has grown. -/
theorem put_leads {f : Literal} {ps : List Proof} (hs : Consistent M s) (hf : f ∈ p.instances)
    (hrel : w.registry.contains f.predicate = false) (hder : f ∈ M.derivable)
    (hps : ∀ π ∈ ps, π.head = f ∧ π ∈ w.rules ∧ s.Warrants M π)
    (hne : w.mode = .problog → ps ≠ []) (hnil : w.mode = .datalog → ps = []) :
    Leads M s (do
      if ← onTables (Tables.put · p f ps) then
        modify fun s => { s with additions := s.additions + 1 }) fun _ t =>
      t.expanded = s.expanded ∧ (t.additions = s.additions →
        f ∈ t.answersOf p ∧ ∀ π ∈ ps, π ∈ t.recordsOf p) := by
  unfold Leads
  rw [after_bind, after_onTables]
  refine ⟨fun news tables hput => ?_, fun e tables hput => ?_⟩
  · obtain ⟨hnews, hcont⟩ := LawfulTables.put_ok hput
    have ha {q g} := Search.mem_answersOf_of_put (t := { s with tables }) hcont (q := q) (g := g)
    have hr {q π} := Search.mem_recordsOf_of_put (t := { s with tables }) hcont (q := q) (π := π)
    have ht : Consistent M { s with tables } := hs.put hf hrel hder hps hne hnil rfl hcont
    cases news with
    | true =>
      have hlt := Set.ncard_lt_ncard (hs.holdings_ssubset_of_isNews (t := { s with tables })
        (fun π hπ => (hps π hπ).1) hnews.symm hcont) (Search.finite_holdings _)
      refine ⟨ht.congr rfl rfl, ⟨fun q g hg => ha.2 (.inr hg), fun q π hπ => hr.2 (.inr hπ),
        fun _ h => h, rfl, Nat.le_succ _, fun h => absurd h (Nat.succ_ne_self _), ?_⟩,
        fun _ _ => ⟨rfl, fun h => absurd h (Nat.succ_ne_self _)⟩⟩
      show s.additions + 1 + _ ≤ s.additions + Set.ncard (Search.holdings { s with tables })
      omega
    | false =>
      have hsame : content tables = content s.tables := by
        rw [hcont, Resident.record_eq_self hnews.symm, Function.update_eq_self]
      refine ⟨ht, .of_content_eq hsame (List.Subset.refl _) rfl rfl,
        fun _ _ => ⟨rfl, fun _ => ⟨ha.2 (.inl ⟨rfl, rfl⟩), ?_⟩⟩⟩
      exact fun π hπ => hr.2 (.inl ⟨rfl, hπ⟩)
  · have hcont := LawfulTables.put_error hput
    exact ⟨hs.congr hcont rfl, .of_content_eq hcont (List.Subset.refl _) rfl rfl,
      fun a ha => by cases ha⟩

/-- **What a way through a body has led to is found.** -/
theorem addAnswer_leads (hw : w.Regular) (hid : w.program.clause? id = some c)
    (hrel : w.registry.contains c.head.predicate = false) {br : Branch} (hs : Consistent M s)
    (hbr : Along M s p n c c.body br) :
    Leads M s (addAnswer w p id (c.rescoped n) br) fun _ t =>
      Pass M s t ∧ (t.additions = s.additions →
        ∀ θ ∈ br.1.valuations n, t.Found w.mode p (w.groundRule id c θ)) := by
  obtain ⟨θ, hθ⟩ := hbr.acyclic.valuations_nonempty n
  obtain ⟨hground, hrule, hmem, hwar⟩ := hbr.rule hw hid hθ
  have hhead : (w.groundRule id c θ).head = br.1.apply (c.head.rescoped n) := by rw [hrule]
  have hinst : br.1.apply (c.head.rescoped n) ∈ p.instances := hhead ▸ hbr.head θ hθ
  have hrel' : w.registry.contains (br.1.apply (c.head.rescoped n)).predicate = false := by
    simpa using hrel
  have hder : br.1.apply (c.head.rescoped n) ∈ M.derivable :=
    hhead ▸ hwar.supported.mem_consequences hmem
  have heq : ∀ η ∈ br.1.valuations n,
      w.groundRule id c η = ⟨br.1.apply (c.head.rescoped n), br.2, c.probability, id⟩ :=
    fun η hη => (hbr.rule hw hid hη).2.1
  unfold addAnswer
  simp only [Clause.rescoped, hground, if_true]
  cases hmode : w.mode with
  | datalog =>
    refine (put_leads hs hinst hrel' hder (by simp) (by simp [hmode]) (by simp)).mono ?_
    rintro _ t - - ⟨hexp, hfound⟩
    refine ⟨.of_expanded_eq hexp, fun h η hη => ?_⟩
    rw [heq η hη]
    exact ⟨(hfound h).1, by simp⟩
  | problog =>
    refine (put_leads hs hinst hrel' hder ?_ (by simp) (by simp [hmode])).mono ?_
    · intro π hπ
      rw [List.mem_singleton.1 hπ, ← hrule]
      exact ⟨hhead, hmem, hwar⟩
    · rintro _ t - - ⟨hexp, hfound⟩
      refine ⟨.of_expanded_eq hexp, fun h η hη => ?_⟩
      rw [heq η hη]
      exact ⟨(hfound h).1, fun _ => (hfound h).2 _ (by simp)⟩

/-! ## Clauses and patterns -/

omit [Tables σ] [LawfulTables σ] in
/-- The next scope is not that of the patterns. -/
theorem freshScope_run (s : Search σ) :
    ∃ n, n ≠ 0 ∧ freshScope s = (.ok n, { s with scope := n }) := by
  refine ⟨max (s.scope + 1) 1, fun h => ?_, rfl⟩
  have hmax : (if s.scope + 1 ≤ 1 then 1 else s.scope + 1) = (0 : UInt32) := h
  split at hmax
  · exact absurd hmax (by decide)
  next hlt => exact hlt (hmax ▸ by decide)

theorem freshScope_leads (hs : Consistent M s) :
    Leads M s freshScope fun n t => n ≠ 0 ∧ Pass M s t ∧ t.additions = s.additions := by
  obtain ⟨n, hn, hrun⟩ := freshScope_run s
  unfold Leads After
  rw [hrun]
  refine ⟨hs.congr rfl rfl, .of_content_eq rfl (List.Subset.refl _) rfl rfl, fun k hk => ?_⟩
  cases hk
  exact ⟨hn, .of_expanded_eq rfl, rfl⟩

/-- The head of a clause that has been moved unifies with a pattern for the instances that they
have in common. -/
theorem valuations_unify_head {l : Literal} (hn : n ≠ 0)
    (hhead : ∀ v ∈ c.head.vars, v.scope = 0) :
    (∃ sub, (c.rescoped n).head.unify? (CallPattern.of l).literal .empty = some sub ∧
      sub.Acyclic ∧ sub.valuations n = {θ | c.head.ground θ ∈ (CallPattern.of l).instances}) ∨
    ((c.rescoped n).head.unify? (CallPattern.of l).literal .empty = none ∧
      ∀ θ, c.head.ground θ ∉ (CallPattern.of l).instances) := by
  -- scope `n` belongs to the clause and scope `0` to the pattern
  have hjoin : ∀ {θ η' : Valuation}, (CallPattern.of l).literal.ground η' = c.head.ground θ →
      ∃ η, (c.head.rescoped n).ground η = (CallPattern.of l).literal.ground η ∧
        ∀ x, θ ⟨x, 0⟩ = η ⟨x, n⟩ := by
    intro θ η' h
    refine ⟨fun v => if v.scope = n then θ ⟨v.name, 0⟩ else η' v, ?_, fun x => by simp⟩
    rw [Literal.ground_rescoped_eq (θ := θ) hhead (by simp), ← h]
    refine Literal.ground_congr fun v hv => ?_
    have : v.scope ≠ n := by
      rw [CallPattern.scope_of_mem_vars_of hv]
      exact Ne.symm hn
    rw [if_neg this]
  rcases Literal.unify?_spec Substitution.acyclic_empty (c.head.rescoped n)
    (CallPattern.of l).literal with ⟨sub, hsub, hac, hsol⟩ | ⟨hnone, hne⟩
  · refine .inl ⟨sub, hsub, hac, ?_⟩
    ext θ
    constructor
    · rintro ⟨η, hη, htr⟩
      refine ⟨η, ?_⟩
      rw [← ((hsol η).1 hη).2, Literal.ground_rescoped_eq hhead htr]
    · rintro ⟨η', hη'⟩
      obtain ⟨η, heq, htr⟩ := hjoin hη'
      exact ⟨η, (hsol η).2 ⟨Substitution.solvedBy_empty η, heq⟩, htr⟩
  · refine .inr ⟨hnone, ?_⟩
    rintro θ ⟨η', hη'⟩
    obtain ⟨η, heq, -⟩ := hjoin hη'
    exact hne η (Substitution.solvedBy_empty η) heq

/-- A clause has been explored for a pattern by what a search has called so far. -/
def ExploredClause (M : Meaning w) (p : CallPattern) (id : ClauseId) (c : Clause) (s : Search σ) :
    Prop :=
  M.Explored (s.horizon fun θ => s.Found w.mode p (w.groundRule id c θ)) (M.Counts id c) c.body
    {θ | c.head.ground θ ∈ p.instances}

/-- Trying a clause explores it. -/
theorem tryClause_leads (hw : w.Regular) (hM : M.Lawful) (hJ : M.Judges σ)
    (hcall : Calls M call) (passes : Nat) (hid : w.program.clause? id = some c)
    (hrel : w.registry.contains c.head.predicate = false) (l : Literal) (hs : Consistent M s) :
    Leads M s (tryClause w call passes (.of l) id c) fun _ t =>
      Pass M s t ∧ (t.additions = s.additions → ExploredClause M (.of l) id c t) := by
  have hhead : ∀ v ∈ c.head.vars, v.scope = 0 := hw.scopes hid _ (by simp)
  unfold tryClause
  refine (freshScope_leads hs).bind ?_
  rintro n t ht hst ⟨hn, hpass, hadd⟩
  rcases valuations_unify_head (l := l) hn hhead with ⟨sub, hsub, hac, hvals⟩ | ⟨hnone, hvoid⟩
  · simp only [hsub]
    have halong : Along M t (.of l) n c [] (sub, []) := .start hac hvals
    refine (resolveBody_leads hw hM hJ hcall passes hid rfl ht halong).bind ?_
    rintro branches u hu htu ⟨hpass', hall, hexp⟩
    have hadd' : Leads M u (branches.forM (addAnswer w (.of l) id (c.rescoped n))) fun _ v =>
        Pass M u v ∧ (v.additions = u.additions → ∀ b ∈ branches,
          ∀ θ ∈ b.1.valuations n, v.Found w.mode (.of l) (w.groundRule id c θ)) := by
      refine Leads.forM hu (fun b _ v x hvx _ _ h θ hθ => hvx.found (h θ hθ)) ?_
      exact fun b hb v hv huv => addAnswer_leads hw hid hrel hv ((hall b hb).mono huv)
    refine hadd'.mono ?_
    rintro _ v - huv ⟨hpass'', hfound⟩
    refine ⟨(hpass.trans hpass' hst htu).trans hpass'' (hst.trans htu) huv, fun heq => ?_⟩
    obtain ⟨h1, h2⟩ := (hst.trans htu).additions_eq huv heq
    obtain ⟨-, h3⟩ := hst.additions_eq htu h1
    have hfinish : ∀ θ, (∃ b ∈ branches, θ ∈ b.1.valuations n) →
        v.Found w.mode (.of l) (w.groundRule id c θ) := by
      rintro θ ⟨b, hb, hθ⟩
      exact hfound h2 b hb θ hθ
    have hE := (hexp h3 _ (List.mem_singleton_self _)).mono
      (Search.horizon_le huv h2 hpass''.expanded hfinish)
    rwa [hvals] at hE
  · simp only [hnone]
    refine .pure ht ⟨hpass, fun _ => Meaning.Explored.of_forall_not fun θ hθ => ?_⟩
    exact absurd hθ (hvoid θ)

/-- Once all clauses have been tried for a pattern, it is explored. -/
theorem tryClauses_leads (hw : w.Regular) (hM : M.Lawful) (hJ : M.Judges σ)
    (hcall : Calls M call) (passes : Nat) {l : Literal}
    (hl : w.registry.contains l.predicate = false) (hs : Consistent M s) :
    Leads M s ((w.program.candidates (CallPattern.of l).literal).forM fun x =>
      tryClause w call passes (.of l) x.1 x.2) fun _ t =>
      Pass M s t ∧ (t.additions = s.additions → t.HasExplored M (.of l)) := by
  have hforM := Leads.forM (l := w.program.candidates (CallPattern.of l).literal)
    (f := fun x => tryClause w call passes (.of l) x.1 x.2)
    (P := fun x => ExploredClause M (.of l) x.1 x.2) hs
    (fun x _ t u htu heq hsub h => h.mono (Search.horizon_le htu heq hsub fun θ hf => htu.found hf))
    fun x hx t ht _ => by
      obtain ⟨hid, hpred, -⟩ := (hw.asserted.mem_candidates_iff _).1 hx
      exact tryClause_leads hw hM hJ hcall passes hid (hpred ▸ hl) l ht
  refine hforM.mono ?_
  rintro _ t - - ⟨hpass, hall⟩
  refine ⟨hpass, fun heq id c hid => ?_⟩
  by_cases hmatch : (id, c) ∈ w.program.candidates (CallPattern.of l).literal
  · exact hall heq (id, c) hmatch
  · -- clauses for other heads have no instances in common with the pattern
    refine Meaning.Explored.of_forall_not fun θ hθ _ => hmatch ?_
    refine (hw.asserted.mem_candidates_iff _).2 ⟨hid, ?_, ?_⟩
    · simpa using CallPattern.predicate_of_mem_instances hθ
    · simpa using CallPattern.arity_of_mem_instances hθ

/-- **Expanding a pattern explores it.** -/
theorem expandOnce_leads (hw : w.Regular) (hM : M.Lawful) (hJ : M.Judges σ)
    (hcall : Calls M call) (passes : Nat) {l : Literal}
    (hl : w.registry.contains l.predicate = false) (hs : Consistent M s) :
    Leads M s (expandOnce w call passes (.of l)) fun _ t =>
      Pass M s t ∧ (.of l ∈ t.expanded ∨ .of l ∈ t.complete) := by
  unfold expandOnce Leads
  rw [after_bind, after_enter]
  refine ⟨fun h => ⟨hs, .refl s, fun _ _ => ⟨.refl s, h.symm⟩⟩, fun hnc hne => ?_⟩
  simp only [if_true]
  set s₁ : Search σ := { s with expanded := .of l :: s.expanded }
  have hs₁ : Consistent M s₁ := hs.congr rfl rfl
  -- the table is there before the clauses are tried
  have htry : ∀ {t : Search σ}, Consistent M t → content t.tables = content s.tables →
      t.expanded = s₁.expanded → t.complete = s.complete → t.negating = s.negating →
      t.additions = s.additions →
      After ((w.program.candidates (CallPattern.of l).literal).forM fun x =>
        tryClause w call passes (.of l) x.1 x.2) t fun r u => Consistent M u ∧ Progress s u ∧
          ∀ a, r = .ok a → Pass M s u ∧ (.of l ∈ u.expanded ∨ .of l ∈ u.complete) := by
    intro t ht hcont hexp hcomp hneg hadd
    have hst : Progress s t := .of_content_eq hcont (hcomp ▸ List.Subset.refl _) hneg hadd
    refine After.mono (tryClauses_leads hw hM hJ hcall passes hl ht) ?_
    rintro r u ⟨hu, htu, hq⟩
    refine ⟨hu, hst.trans htu, fun a ha => ?_⟩
    obtain ⟨hpass, hall⟩ := hq a ha
    refine ⟨⟨fun p hp => hpass.expanded (hexp ▸ List.mem_cons_of_mem _ hp), fun heq p hp hnp => ?_⟩,
      .inl (hpass.expanded (hexp ▸ List.mem_cons_self))⟩
    have heq' : u.additions = t.additions := heq.trans hadd.symm
    by_cases hpl : p = .of l
    · exact hpl ▸ hall heq'
    · refine hpass.explored heq' p hp ?_
      rw [hexp]
      simp [s₁, hpl, hnp]
  rw [after_bind, after_get]
  dsimp only
  split
  · rw [after_bind, after_onTables]
    refine ⟨fun g tables hget => ?_, fun e tables hget => ?_⟩
    all_goals
      have hcont : content tables = content s.tables := LawfulTables.content_of_get hget
    · exact htry (hs₁.congr hcont rfl) hcont rfl rfl rfl rfl
    · exact ⟨hs.congr hcont rfl, .of_content_eq hcont (List.Subset.refl _) rfl rfl,
        fun a ha => by cases ha⟩
  · exact htry hs₁ rfl rfl rfl rfl rfl

end Searching

/-! ## All depths -/

/-- **Calls do what is asked of them, to any depth.** -/
theorem expand_calls (hw : w.Regular) (hM : M.Lawful) (hJ : M.Judges σ) (depth : Nat) :
    Calls M (Searching.expand w depth : CallPattern → Searching σ Unit) := by
  induction depth with
  | zero => exact fun l s _ hs => .throw hs _
  | succ depth ih => exact fun l s hl hs => Searching.expandOnce_leads hw hM hJ ih depth hl hs

/-- **A saturated pattern is complete.** -/
theorem saturate_leads (hw : w.Regular) (hM : M.Lawful) (hJ : M.Judges σ) (depth : Nat)
    {l : Literal} (hl : w.registry.contains l.predicate = false) {s : Search σ}
    (hs : Consistent M s) :
    Leads M s (Searching.saturate w depth (.of l)) fun _ t => .of l ∈ t.complete := by
  have h := Searching.fixpoint_leads (expand_calls hw hM hJ depth) hl depth
    (s := { s with expanded := [] }) (hs.congr rfl rfl)
  exact (Searching.saturating_leads hM hs h).mono fun _ _ _ _ h => h.2

end ProbDatalog
