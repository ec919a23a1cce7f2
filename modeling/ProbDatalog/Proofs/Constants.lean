import ProbDatalog.Proofs.Rules
import Mathlib.Data.List.Basic
import Mathlib.Logic.Function.Basic

/-!
# The constants of a program

The ground instances of clauses over a list of constants, and what replacing constants does to
literals.

* `mem_groundings_iff`: what the ground instances over a list of constants are.
* `Literal.ground_comp`: replacing the values of variables replaces the constants of the instance.
* `Literal.constants_subset_of_fixed`: a literal that only depends on some constants has no others.
-/

namespace ProbDatalog

/-! ## Occurrences -/

/-- The constants among the arguments of a literal. -/
def Literal.constants (l : Literal) : List Constant := l.terms.filterMap Term.constant?

/-- The constants of the head and of the body. -/
def Clause.constants (c : Clause) : List Constant := (c.head :: c.body).flatMap Literal.constants

/-- The constants of all clauses. -/
def Program.constants (p : Program) : List Constant := p.clauses.toList.flatMap Clause.constants

/-- The variables of the head and of the body. -/
def Clause.vars (c : Clause) : List Variable := (c.head :: c.body).flatMap Literal.vars

theorem Clause.mem_vars {c : Clause} {v : Variable} :
    v ∈ c.vars ↔ ∃ l ∈ c.head :: c.body, v ∈ l.vars := List.mem_flatMap

namespace Literal

variable {l : Literal} {θ : Valuation} {U : List Constant} {φ : Constant → Constant}

theorem mem_constants {c : Constant} : c ∈ l.constants ↔ .const c ∈ l.terms := by
  simp only [constants, List.mem_filterMap]
  constructor
  · rintro ⟨t, ht, hc⟩
    cases t with
    | const d =>
      cases hc
      exact ht
    | var v => cases hc
  · exact fun h => ⟨_, h, rfl⟩

@[simp] theorem constants_positive (l : Literal) : l.positive.constants = l.constants := rfl

/-- The values of the variables are constants of the instance. -/
theorem value_mem_constants {v : Variable} (h : v ∈ l.vars) : θ v ∈ (l.ground θ).constants :=
  mem_constants.2 (List.mem_map.2 ⟨_, mem_vars.1 h, rfl⟩)

/-- An instance has the constants of the literal and the values of its variables. -/
theorem constants_ground_subset (hl : l.constants ⊆ U) (hθ : ∀ v ∈ l.vars, θ v ∈ U) :
    (l.ground θ).constants ⊆ U := by
  intro c hc
  obtain ⟨t, ht, heq⟩ := List.mem_map.1 (mem_constants.1 hc)
  cases heq
  cases t with
  | const d => exact hl (mem_constants.2 ht)
  | var v => exact hθ v (mem_vars.2 ht)

theorem constants_subset_of_mem {p : Program} {c : Clause} (hc : c ∈ p.clauses)
    (hl : l ∈ c.head :: c.body) : l.constants ⊆ p.constants := fun _ hd =>
  List.mem_flatMap.2 ⟨c, Array.mem_toList_iff.2 hc, List.mem_flatMap.2 ⟨l, hl, hd⟩⟩

end Literal

/-! ## Ground instances -/

/-- The valuations that give the listed variables values from a list of constants, and some value
to all others. -/
def Valuation.among (U : List Constant) : List Variable → List Valuation
  | [] => [fun _ => .boolean false]
  | v :: vs => (among U vs).flatMap fun θ => U.map fun c => Function.update θ v c

theorem Valuation.exists_mem_among {U : List Constant} {vs : List Variable} {θ : Valuation}
    (h : ∀ v ∈ vs, θ v ∈ U) : ∃ η ∈ among U vs, ∀ v ∈ vs, η v = θ v := by
  induction vs with
  | nil => exact ⟨_, List.mem_singleton.2 rfl, by simp⟩
  | cons v vs ih =>
    obtain ⟨η, hη, heq⟩ := ih fun u hu => h u (List.mem_cons_of_mem _ hu)
    refine ⟨Function.update η v (θ v), List.mem_flatMap.2 ⟨η, hη, List.mem_map.2
      ⟨θ v, h v List.mem_cons_self, rfl⟩⟩, fun u hu => ?_⟩
    by_cases huv : u = v
    · rw [huv, Function.update_self]
    · rw [Function.update_of_ne huv]
      exact heq u ((List.mem_cons.1 hu).resolve_left huv)

theorem Valuation.mem_of_mem_among {U : List Constant} {vs : List Variable} {η : Valuation}
    (h : η ∈ among U vs) : ∀ v ∈ vs, η v ∈ U := by
  induction vs generalizing η with
  | nil => simp
  | cons v vs ih =>
    obtain ⟨θ, hθ, hη⟩ := List.mem_flatMap.1 h
    obtain ⟨c, hc, rfl⟩ := List.mem_map.1 hη
    intro u hu
    by_cases huv : u = v
    · rwa [huv, Function.update_self]
    · rw [Function.update_of_ne huv]
      exact ih hθ u ((List.mem_cons.1 hu).resolve_left huv)

namespace Theory

variable (w : Theory) (U : List Constant)

/-- The ground instances of the clauses over a list of constants. -/
def groundings : List Proof :=
  w.program.toList.flatMap fun c => (Valuation.among U c.2.vars).map (w.groundRule c.1 c.2)

variable {w U} {π : Proof}

theorem groundRule_congr {id : ClauseId} {c : Clause} {θ η : Valuation}
    (h : ∀ v ∈ c.vars, θ v = η v) : w.groundRule id c θ = w.groundRule id c η := by
  have hl : ∀ l ∈ c.head :: c.body, l.ground θ = l.ground η := fun l hl =>
    Literal.ground_congr fun v hv => h v (Clause.mem_vars.2 ⟨l, hl, hv⟩)
  unfold groundRule
  rw [hl _ List.mem_cons_self, List.map_congr_left fun l hl' => by
    rw [hl l (List.mem_cons_of_mem _ hl')]]

theorem mem_toList_iff {p : Program} {id : ClauseId} {c : Clause} :
    (id, c) ∈ p.toList ↔ p.clause? id = some c := by
  obtain ⟨i⟩ := id
  simp only [Program.toList, Program.clause?, List.mem_map, Prod.mk.injEq, ClauseId.mk.injEq]
  constructor
  · rintro ⟨⟨c', j⟩, hj, rfl, rfl⟩
    simpa using List.mk_mem_zipIdx_iff_getElem?.1 hj
  · intro h
    exact ⟨(c, i), List.mk_mem_zipIdx_iff_getElem?.2 (by simpa using h), rfl, rfl⟩

/-- **What the ground instances over a list of constants are.** -/
theorem mem_groundings_iff : π ∈ w.groundings U ↔
    ∃ id c θ, w.program.clause? id = some c ∧ w.groundRule id c θ = π ∧ ∀ v ∈ c.vars, θ v ∈ U := by
  simp only [groundings, List.mem_flatMap, Prod.exists, mem_toList_iff, List.mem_map]
  constructor
  · rintro ⟨id, c, hid, θ, hθ, rfl⟩
    exact ⟨id, c, θ, hid, rfl, Valuation.mem_of_mem_among hθ⟩
  · rintro ⟨id, c, θ, hid, rfl, hU⟩
    -- valuations that agree on the variables of a clause give the same rule
    obtain ⟨η, hη, heq⟩ := Valuation.exists_mem_among hU
    exact ⟨id, c, hid, η, hη, groundRule_congr heq⟩

end Theory

/-! ## Replacing constants -/

/-- A replacement of constants that keeps those of a list. -/
def Fixes (U : List Constant) (φ : Constant → Constant) : Prop := ∀ c ∈ U, φ c = c

/-- Replace the constant. -/
def Term.mapConstant (φ : Constant → Constant) : Term → Term
  | .const c => .const (φ c)
  | .var v => .var v

namespace Literal

/-- Replace all constants. -/
def mapConstants (φ : Constant → Constant) (l : Literal) : Literal :=
  { l with terms := l.terms.map (Term.mapConstant φ) }

variable {l : Literal} {θ : Valuation} {U : List Constant} {φ : Constant → Constant}

theorem mapConstants_eq_self_iff : l.mapConstants φ = l ↔ ∀ c ∈ l.constants, φ c = c := by
  have hid : l.mapConstants φ = l ↔ l.terms.map (Term.mapConstant φ) = l.terms.map id := by
    obtain ⟨p, ts, n⟩ := l
    simp [mapConstants]
  rw [hid, List.map_inj_left]
  constructor
  · intro h c hc
    exact Term.const.inj (h _ (mem_constants.1 hc))
  · rintro h (c | v) ht
    · exact congrArg Term.const (h c (mem_constants.2 ht))
    · rfl

/-- **Replacing the values of variables replaces the constants of the instance**, if those of the
literal stay. -/
theorem ground_comp (h : ∀ c ∈ l.constants, φ c = c) :
    l.ground (φ ∘ θ) = (l.ground θ).mapConstants φ := by
  simp only [ground, mapConstants, Literal.mk.injEq, List.map_map, true_and, and_true]
  refine List.map_congr_left ?_
  rintro (c | v) ht
  · exact congrArg Term.const (h c (mem_constants.2 ht)).symm
  · rfl

/-- **A literal that only depends on some constants has no others.** -/
theorem constants_subset_of_fixed (h : ∀ φ, Fixes U φ → l.mapConstants φ = l) :
    l.constants ⊆ U := by
  intro c hc
  by_contra hU
  -- replace this constant alone by another one
  obtain ⟨d, hd⟩ : ∃ d : Constant, d ≠ c := by
    by_cases hcb : Constant.boolean true = c
    · exact ⟨.boolean false, fun h => by rw [← h] at hcb; cases hcb⟩
    · exact ⟨_, hcb⟩
  have hfix : Fixes U fun x => if x = c then d else x := fun x hx =>
    if_neg fun h : x = c => hU (h ▸ hx)
  have heq : (if c = c then d else c) = c := mapConstants_eq_self_iff.1 (h _ hfix) c hc
  rw [if_pos rfl] at heq
  exact hd heq

end Literal

end ProbDatalog
