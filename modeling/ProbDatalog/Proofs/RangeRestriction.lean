import ProbDatalog.Proofs.Certificates

/-!
# Range restriction

A clause is accepted only if every variable of its head occurs in a positive literal of its body.
The search gives values to all variables of positive literals: answers are ground, and so is what
evaluable predicates accept, together with what they bind. So each way through a whole body has led
to a fact, and what happens to a head that is still open makes no difference to any search.

* `Along.closedBy`: a way through a whole body gives values to all variables that the body binds.
* `Searching.expandBy`: expansion with another way to add answers.
* `Searching.expandBy_eq`: only ways through bodies that give all variables values are met.
* `Reached.closes`: **no derivation is left out because its head is open.**
-/

namespace ProbDatalog

/-- A branch has values for all variables that positive literals of the body bind, and with them the
head is a fact. -/
def Clause.ClosedBy (c : Clause) (branch : Searching.Branch) : Prop :=
  (∀ v ∈ c.boundVars, (branch.1.resolve (.var v)).isGround = true) ∧
    (branch.1.apply c.head).isGround = true

instance (c : Clause) (branch : Searching.Branch) : Decidable (c.ClosedBy branch) :=
  inferInstanceAs (Decidable (_ ∧ _))

theorem Literal.vars_rescoped (l : Literal) (n : UInt32) :
    (l.rescoped n).vars = l.vars.map (·.rescoped n) := by
  unfold vars rescoped
  rw [List.filterMap_map, List.map_filterMap]
  refine List.filterMap_congr fun t _ => ?_
  cases t <;> rfl

theorem Clause.boundVars_rescoped (c : Clause) (n : UInt32) :
    (c.rescoped n).boundVars = c.boundVars.map (·.rescoped n) := by
  unfold boundVars rescoped
  simp only [List.filter_map, List.flatMap_map, List.map_flatMap, Literal.vars_rescoped]
  rfl

/-! ## Another way to add answers -/

namespace Searching

section By

variable {σ : Type} [Tables σ] (w : Theory)
variable (add : CallPattern → ClauseId → Clause → Branch → Searching σ Unit)

section Calls

variable (call : CallPattern → Searching σ Unit) (passes : Nat)

/-- Try one clause, and add answers by `add`. -/
def tryClauseBy (p : CallPattern) (id : ClauseId) (c : Clause) : Searching σ Unit := do
  let c := c.rescoped (← freshScope)
  match c.head.unify? p.literal .empty with
  | none => return
  | some s =>
    let branches ← resolveBody w call passes c.body (s, [])
    branches.forM (add p id c)

/-- Try all clauses of a pattern, and add answers by `add`. -/
def expandOnceBy (p : CallPattern) : Searching σ Unit := do
  if ← enter p then
    if !Tables.contains (← get).tables p then
      let _ ← onTables (Tables.get · p)
    (w.program.candidates p.literal).forM fun (id, c) => tryClauseBy w add call passes p id c

end Calls

/-- Expand a pattern, and add answers by `add`. -/
def expandBy : Nat → CallPattern → Searching σ Unit
  | 0, _ => throw .exhausted
  | depth + 1, p => expandOnceBy w add (expandBy depth) depth p

/-- With the way in which answers are added otherwise, this is expansion. -/
theorem expandBy_addAnswer (depth : Nat) : expandBy w (addAnswer (σ := σ) w) depth =
    expand w depth := by
  induction depth with
  | zero => rfl
  | succ depth ih =>
    funext p
    unfold expandBy
    rw [ih]
    rfl

end By

end Searching

/-! ## Ways through bodies -/

section Branches

variable {σ : Type} [Tables σ] [LawfulTables σ] {w : Theory} {M : Meaning w} {s : Search σ}

/-- **A way through a whole body gives values to all variables that the body binds.** -/
theorem Along.closedBy (hw : w.Regular) {p : CallPattern} {n : UInt32} {id : ClauseId} {c : Clause}
    {br : Searching.Branch} (hid : w.program.clause? id = some c)
    (h : Along M s p n c c.body br) : (c.rescoped n).ClosedBy br := by
  obtain ⟨θ, hθ⟩ := h.acyclic.valuations_nonempty n
  refine ⟨fun v hv => ?_, (h.rule hw hid hθ).1⟩
  rw [c.boundVars_rescoped] at hv
  obtain ⟨u, hu, rfl⟩ := List.mem_map.1 hv
  exact h.isGround_resolve hu fun l hl => hw.scopes hid l (List.mem_cons_of_mem _ hl)

end Branches

/-! ## Equal runs -/

namespace Searching

variable {σ α β : Type} {w : Theory} {s : Search σ}

theorem bind_congr_left {x x' : Searching σ α} (h : x' s = x s) (f : α → Searching σ β) :
    (x' >>= f) s = (x >>= f) s := by
  rw [bind_run, bind_run, h]

theorem forM_congr {ι : Type} {f f' : ι → Searching σ PUnit} {l : List ι}
    (h : ∀ i ∈ l, f' i = f i) : l.forM f' = l.forM f := by
  induction l with
  | nil => rfl
  | cons i rest ih =>
    show (f' i >>= fun _ => rest.forM f') = f i >>= fun _ => rest.forM f
    rw [h i (by simp), ih fun j hj => h j (by simp [hj])]

theorem saturating_congr {x x' : Searching σ Unit} {p : CallPattern}
    (h : x' { s with expanded := [] } = x { s with expanded := [] }) :
    saturating p x' s = saturating p x s := by
  unfold saturating
  rw [h]

theorem refuting_congr {x x' : Searching σ Unit} {p : CallPattern} {l : Literal}
    (h : x' { s with negating := p :: s.negating } = x { s with negating := p :: s.negating }) :
    refuting p l x' s = refuting p l x s := by
  unfold refuting
  rw [h]

end Searching

namespace Leads

variable {σ α β ι : Type} [Tables σ] [LawfulTables σ] {w : Theory} {M : Meaning w} {s : Search σ}

/-- **One step after another**, where the second steps do the same wherever the first ones lead. -/
theorem bind_eq {x x' : Searching σ α} {f f' : α → Searching σ β} {Q : α → Search σ → Prop}
    (hx : Leads M s x Q) (heq : x' s = x s)
    (hf : ∀ a t, Consistent M t → Progress s t → Q a t → f' a t = f a t) :
    (x' >>= f') s = (x >>= f) s := by
  rw [bind_run, bind_run, heq]
  unfold Leads Searching.After at hx
  obtain ⟨hc, hp, hq⟩ := hx
  generalize x s = run at hc hp hq
  obtain ⟨_ | a, t⟩ := run
  · rfl
  · exact hf a t hc hp (hq a rfl)

theorem mapM_eq {f f' : ι → Searching σ α} {l : List ι} (hs : Consistent M s)
    (hf : ∀ i ∈ l, ∀ t, Consistent M t → Progress s t →
      f' i t = f i t ∧ Leads M t (f i) fun _ _ => True) : l.mapM f' s = l.mapM f s := by
  induction l generalizing s with
  | nil => rfl
  | cons i rest ih =>
    obtain ⟨heq, hlead⟩ := hf i (by simp) s hs (.refl s)
    rw [List.mapM_cons, List.mapM_cons]
    refine hlead.bind_eq heq fun a t ht hst _ => Searching.bind_congr_left (ih ht ?_) _
    exact fun j hj u hu htu => hf j (by simp [hj]) u hu (hst.trans htu)

theorem forM_eq {f f' : ι → Searching σ PUnit} {l : List ι} (hs : Consistent M s)
    (hf : ∀ i ∈ l, ∀ t, Consistent M t → f' i t = f i t ∧ Leads M t (f i) fun _ _ => True) :
    l.forM f' s = l.forM f s := by
  induction l generalizing s with
  | nil => rfl
  | cons i rest ih =>
    obtain ⟨heq, hlead⟩ := hf i (by simp) s hs
    exact hlead.bind_eq heq fun _ t ht _ _ => ih ht fun j hj => hf j (by simp [hj])

end Leads

namespace Searching

section Agreement

variable {σ : Type} [Tables σ] [LawfulTables σ] {w : Theory} {M : Meaning w} {s : Search σ}
variable {call call' : CallPattern → Searching σ Unit}

theorem enter_leads (p : CallPattern) (hs : Consistent M s) :
    Leads M s (enter p) fun _ _ => True :=
  (after_enter p).2 ⟨fun _ => ⟨hs, .refl s, fun _ _ => trivial⟩, fun _ _ => ⟨hs.congr rfl rfl,
    .of_content_eq rfl (List.Subset.refl _) rfl rfl, fun _ _ => trivial⟩⟩

theorem getTable_leads (p : CallPattern) (hs : Consistent M s) :
    Leads M s (onTables (Tables.get · p)) fun _ _ => True := by
  refine (after_onTables _).2 ⟨fun _ tables h => ?_, fun _ tables h => ?_⟩
  all_goals
    have hsame : content tables = content s.tables := LawfulTables.content_of_get h
    exact ⟨hs.congr hsame rfl, .of_content_eq hsame (List.Subset.refl _) rfl rfl,
      fun _ _ => trivial⟩

/-- The second calls do what the first ones do, from all consistent states. -/
def Agrees (M : Meaning w) (call call' : CallPattern → Searching σ Unit) : Prop :=
  ∀ l s, w.registry.contains l.predicate = false → Consistent M s → call' (.of l) s = call (.of l) s

section Same

variable (hcall : Calls M call) (hsame : Agrees M call call')

include hcall hsame

theorem fixpoint_eq {l : Literal} (hl : w.registry.contains l.predicate = false) (passes : Nat)
    (hs : Consistent M s) : fixpoint call' (.of l) passes s = fixpoint call (.of l) passes s := by
  induction passes generalizing s with
  | zero => rfl
  | succ passes ih =>
    unfold fixpoint
    refine (Leads.get hs).bind_eq rfl ?_
    rintro _ _ - - ⟨rfl, rfl⟩
    have hpass : Consistent M { s with expanded := [], passes := s.passes + 1 } := hs.congr rfl rfl
    refine (Leads.modify hpass (.of_content_eq rfl (List.Subset.refl _) rfl rfl)).bind_eq rfl ?_
    rintro _ _ ht - rfl
    refine (hcall l _ hl ht).bind_eq (hsame l _ hl ht) fun _ u hu _ _ => ?_
    refine (Leads.get hu).bind_eq rfl ?_
    rintro _ _ - - ⟨rfl, rfl⟩
    split
    · rfl
    · exact ih hu

theorem saturating_fixpoint_eq {l : Literal} (hl : w.registry.contains l.predicate = false)
    (passes : Nat) (hs : Consistent M s) :
    saturating (.of l) (fixpoint call' (.of l) passes) s =
      saturating (.of l) (fixpoint call (.of l) passes) s :=
  saturating_congr (fixpoint_eq hcall hsame hl passes (hs.congr rfl rfl))

theorem decideNegation_eq (passes : Nat) (l : Literal) (hs : Consistent M s) :
    decideNegation w call' passes l s = decideNegation w call passes l s := by
  unfold decideNegation
  refine (Leads.ofExcept (Q := fun o t => s = t ∧ w.registry.resolve l.positive = .ok o) hs
    fun o ho => ⟨rfl, ho⟩).bind_eq rfl ?_
  rintro (_ | e) _ - - ⟨rfl, hres⟩
  · exact bind_congr_left (refuting_congr (saturating_fixpoint_eq hcall hsame
      (l := l.positive) (Registry.resolve_eq_none hres) passes (hs.congr rfl rfl))) _
  · rfl

theorem resolveLiteral_eq (passes : Nat) (l : Literal) (sub : Substitution)
    (hs : Consistent M s) :
    resolveLiteral w call' passes l sub s = resolveLiteral w call passes l sub s := by
  unfold resolveLiteral
  dsimp only
  split
  · split
    · exact bind_congr_left (decideNegation_eq hcall hsame passes _ hs) _
    · rfl
  · refine (Leads.ofExcept (Q := fun o t => s = t ∧ w.registry.resolve (sub.apply l) = .ok o) hs
      fun o ho => ⟨rfl, ho⟩).bind_eq rfl ?_
    rintro (_ | e) _ - - ⟨rfl, hres⟩
    · exact bind_congr_left (hsame _ _ (Registry.resolve_eq_none hres) hs) _
    · rfl

end Same

variable (hw : w.Regular) (hM : M.Lawful) (hJ : M.Judges σ) (hcall : Calls M call)
  (hsame : Agrees M call call') {n : UInt32} {id : ClauseId} {c : Clause}

include hw hM hJ hcall hsame

theorem resolveBody_eq (passes : Nat) (hid : w.program.clause? id = some c) {p : CallPattern}
    {before after : List Literal} (hbody : c.body = before ++ after) {br : Branch}
    (hs : Consistent M s) (hbr : Along M s p n c before br) :
    resolveBody w call' passes (after.map (·.rescoped n)) br s =
      resolveBody w call passes (after.map (·.rescoped n)) br s := by
  induction after generalizing before br s with
  | nil => rfl
  | cons l after ih =>
    simp only [List.map_cons, resolveBody]
    refine (resolveLiteral_leads hw hM hJ hcall passes hid hbody hs hbr).bind_eq
      (resolveLiteral_eq hcall hsame passes _ _ hs) fun nexts t ht hst hres => ?_
    refine bind_congr_left (Leads.mapM_eq ht fun next hnext u hu htu => ?_) _
    have hbody' : c.body = (before ++ [l]) ++ after := by simp [hbody]
    have halong := ((hbr.mono hst).step (hres.follows next hnext)).mono htu
    exact ⟨ih hbody' hu halong,
      (resolveBody_leads hw hM hJ hcall passes hid hbody' hu halong).mono fun _ _ _ _ _ => trivial⟩

variable {add : CallPattern → ClauseId → Clause → Branch → Searching σ Unit}
  (hadd : ∀ p id c br, c.ClosedBy br → add p id c br = addAnswer w p id c br)

include hadd

/-- Only ways through the body that close the clause are met. -/
theorem tryClauseBy_eq (passes : Nat) (hid : w.program.clause? id = some c) (l : Literal)
    (hs : Consistent M s) :
    tryClauseBy w add call' passes (.of l) id c s = tryClause w call passes (.of l) id c s := by
  have hhead : ∀ v ∈ c.head.vars, v.scope = 0 := hw.scopes hid _ (by simp)
  unfold tryClauseBy tryClause
  refine (freshScope_leads hs).bind_eq rfl ?_
  rintro n t ht - ⟨hn, -, -⟩
  rcases valuations_unify_head (l := l) hn hhead with ⟨sub, hsub, hac, hvals⟩ | ⟨hnone, -⟩
  · simp only [hsub]
    have halong : Along M t (.of l) n c [] (sub, []) := .start hac hvals
    refine (resolveBody_leads hw hM hJ hcall passes hid rfl ht halong).bind_eq
      (resolveBody_eq hw hM hJ hcall hsame passes hid rfl ht halong) ?_
    rintro branches u - - ⟨-, hall, -⟩
    exact congrFun (forM_congr fun b hb => hadd _ _ _ _ ((hall b hb).closedBy hw hid)) u
  · simp only [hnone]

theorem expandOnceBy_eq (passes : Nat) {l : Literal}
    (hl : w.registry.contains l.predicate = false) (hs : Consistent M s) :
    expandOnceBy w add call' passes (.of l) s = expandOnce w call passes (.of l) s := by
  have htry : ∀ t, Consistent M t →
      ((w.program.candidates (CallPattern.of l).literal).forM fun (id, c) =>
        tryClauseBy w add call' passes (.of l) id c) t =
      ((w.program.candidates (CallPattern.of l).literal).forM fun (id, c) =>
        tryClause w call passes (.of l) id c) t := by
    refine fun t ht => Leads.forM_eq ht fun (id, c) hx u hu => ?_
    obtain ⟨hid, hpred, -⟩ := (hw.asserted.mem_candidates_iff _).1 hx
    exact ⟨tryClauseBy_eq hw hM hJ hcall hsame hadd passes hid l hu,
      (tryClause_leads hw hM hJ hcall passes hid (hpred ▸ hl) l hu).mono fun _ _ _ _ _ => trivial⟩
  unfold expandOnceBy expandOnce
  refine (enter_leads _ hs).bind_eq rfl ?_
  rintro (_ | _) t ht - -
  · simp only [Bool.false_eq_true, if_false]
  · simp only [if_true]
    refine (Leads.get ht).bind_eq rfl ?_
    rintro _ _ - - ⟨rfl, rfl⟩
    split
    · exact (getTable_leads _ ht).bind_eq rfl fun _ u hu _ _ => htry u hu
    · exact htry t ht

omit call call' hcall hsame in
/-- **Expansion meets only ways through bodies that give all variables values.** Whatever is done
with other ways, it does the same. -/
theorem expandBy_eq (depth : Nat) : Agrees M (expand w depth) (expandBy w add depth) := by
  induction depth with
  | zero => exact fun _ _ _ _ => rfl
  | succ depth ih =>
    exact fun l s hl hs =>
      expandOnceBy_eq hw hM hJ (expand_calls hw hM hJ depth) ih hadd depth hl hs

end Agreement

end Searching

/-! ## Sessions -/

section Sessions

open Searching

variable {σ : Type} [Tables σ] [LawfulTables σ] {w : Theory} {s : Search σ}

/-- **No derivation is left out because its head is open.** In any state of a session over the
standard predicates, each way through the whole body of a clause gives values to all variables that
the positive literals of the body bind, and makes a fact of the head. This is so in all states that
a search goes through: the searches that answer requests, for a pattern or in order to decide a
negation, come to the same results and states whatever is done with ways for which it is not. -/
theorem Reached.closes (hp : w.program.Asserted)
    (hscope : ∀ {id c}, w.program.clause? id = some c → ∀ l ∈ c.head :: c.body, ∀ v ∈ l.vars,
      v.scope = 0)
    (hr : w.registry = .standard) (hs : Reached w s) (depth : Nat) :
    (∀ passes id c n l sub branches t, w.program.clause? id = some c → n ≠ 0 →
      (c.rescoped n).head.unify? (CallPattern.of l).literal .empty = some sub →
      resolveBody w (expand w depth) passes (c.rescoped n).body (sub, []) s = (.ok branches, t) →
      ∀ b ∈ branches, (c.rescoped n).ClosedBy b) ∧
    ∀ add, (∀ p id c br, c.ClosedBy br → add p id c br = addAnswer w p id c br) →
      (∀ l, w.registry.contains l.predicate = false →
        expandBy w add depth (.of l) s = expand w depth (.of l) s ∧
        saturating (.of l) (fixpoint (expandBy w add depth) (.of l) depth) s =
          saturate w depth (.of l) s) ∧
      ∀ l, decideNegation w (expandBy w add depth) depth l s =
        decideNegation w (expand w depth) depth l s := by
  have hw := Theory.regular_of_standard hp hscope hr
  have hM : (Meaning.anything w).Lawful := Meaning.anything_lawful
  have hJ : (Meaning.anything w).Judges σ := Meaning.anything_judges
  have hc : Consistent (Meaning.anything w) s := hs.consistent hw hM hJ
  have hcall := expand_calls (σ := σ) hw hM hJ depth
  refine ⟨fun passes id c n l sub branches t hid hn hsub hrun b hb => ?_, fun add hadd => ?_⟩
  · rcases valuations_unify_head (l := l) hn (hw.scopes hid c.head (by simp)) with
      ⟨sub', hsub', hac, hvals⟩ | ⟨hnone, -⟩
    · obtain rfl : sub' = sub := Option.some.inj (hsub'.symm.trans hsub)
      have halong : Along (Meaning.anything w) s (.of l) n c [] (sub', []) := .start hac hvals
      obtain ⟨-, -, hends⟩ := After.of_run
        (resolveBody_leads hw hM hJ hcall passes hid rfl hc halong) hrun
      exact ((hends branches rfl).2.1 b hb).closedBy hw hid
    · rw [hnone] at hsub
      cases hsub
  · have hsame := expandBy_eq hw hM hJ hadd depth
    exact ⟨fun l hl => ⟨hsame l s hl hc, saturating_fixpoint_eq hcall hsame hl depth hc⟩,
      fun l => decideNegation_eq hcall hsame depth l hc⟩

end Sessions

/-! ## Kinds of things -/

namespace Kinds

open Searching

/-- A request has failed, and nothing has been found. -/
def begun : Search Resident := (Request.solve query.negate).leave theory 5 (.start .empty 0)

/-- Add what ways lead to that give all variables values, and fail for any other one. -/
def addClosed (p : CallPattern) (id : ClauseId) (c : Clause) (br : Branch) :
    Searching Resident Unit :=
  if c.ClosedBy br then addAnswer theory p id c br else fail (.openFact (br.1.apply c.head))

/-- The test of kinds is called with an open argument, and no way through the body leaves it
open. -/
theorem closes_kind :
    theory.program.Asserted ∧ theory.registry = .standard ∧ Reached theory begun ∧
    saturating (.of query) (fixpoint (expandBy theory addClosed 5) (.of query) 5) begun =
      saturate theory 5 (.of query) begun ∧
    (saturate theory 5 (.of query) begun).1 = .ok () ∧
    ((saturate theory 5 (.of query) begun).2.answersOf (.of query)) = [proof.head] := by
  have hreached : Reached theory begun :=
    (Reached.start (fun _ => rfl) 0).ask 5 (.solve query.negate)
  have hcloses := (hreached.closes (.assertAll .empty clauses) scopes rfl 5).2 addClosed
    fun _ _ _ _ h => if_pos h
  exact ⟨.assertAll .empty clauses, rfl, hreached, (hcloses.1 query (by decide +kernel)).2,
    by decide +kernel, by decide +kernel⟩

end Kinds

end ProbDatalog
