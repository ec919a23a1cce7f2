import ProbDatalog.Proofs.Constants
import ProbDatalog.Proofs.Variables
import Mathlib.Data.Fintype.EquivFin
import Mathlib.Data.Set.Finite.List
import Mathlib.Logic.Equiv.Fintype

/-!
# Variants of literals

Two literals are variants of each other if a permutation of the variables makes one of them of the
other one. Variables are told apart by their names and scopes. The call pattern of a literal is its
variant with the canonical variables, so patterns stand for literals up to renaming.

* `Variable.exists_perm_eq`: names that stay apart are given by a permutation.
* `Literal.Separates.variant`: literals that are instances of each other, with values that keep
  their variables apart, are variants.
* `CallPattern.variant_literal_of`: **a literal is a variant of its call pattern.**
* `CallPattern.of_eq_of_instances_eq`: patterns are told apart by their instances.
* `CallPattern.of_canonical`: **patterns are the same just for variants**, a pattern is its own
  pattern, and it covers the instances of the literal.
-/

namespace ProbDatalog

/-- **Names that stay apart are given by a permutation.** -/
theorem Variable.exists_perm_eq {f : Variable → Variable} {vs : List Variable}
    (hf : Set.InjOn f {v | v ∈ vs}) : ∃ ρ : Equiv.Perm Variable, ∀ v ∈ vs, ρ v = f v := by
  have := vs.finite_toSet.to_subtype
  obtain ⟨ρ, hρ⟩ := Equiv.Perm.exists_extending_pair
    (fun v : {v | v ∈ vs} => (v : Variable)) (fun v => f v) Subtype.val_injective
    (Set.injOn_iff_injective.1 hf)
  exact ⟨ρ, fun v hv => hρ ⟨v, hv⟩⟩

/-- A permutation of the variables makes the second literal of the first one. -/
def Literal.Variant (l m : Literal) : Prop := ∃ ρ : Equiv.Perm Variable, m = l.renameVars ρ

namespace Literal

variable {l m : Literal}

theorem renameVars_renameVars (l : Literal) (ρ τ : Equiv.Perm Variable) :
    (l.renameVars ρ).renameVars τ = l.renameVars (ρ.trans τ) := by
  unfold renameVars
  simp only [List.map_map]
  refine congrArg (fun ts => Literal.mk l.predicate ts l.negated)
    (List.map_congr_left fun t _ => ?_)
  cases t <;> rfl

theorem Variant.symm (h : l.Variant m) : m.Variant l := by
  obtain ⟨ρ, rfl⟩ := h
  refine ⟨ρ.symm, ?_⟩
  rw [renameVars_renameVars, Equiv.self_trans_symm]
  exact (renameVars_eq_self fun _ _ => rfl).symm

theorem Variant.trans {n : Literal} (h : l.Variant m) (h' : m.Variant n) : l.Variant n := by
  obtain ⟨ρ, rfl⟩ := h
  obtain ⟨τ, rfl⟩ := h'
  exact ⟨ρ.trans τ, renameVars_renameVars l ρ τ⟩

end Literal

/-! ## Values that keep variables apart -/

/-- There are always constants that a list does not have. -/
theorem Constant.exists_fresh (U : List Constant) :
    ∃ f : Nat → Constant, Function.Injective f ∧ ∀ n, f n ∉ U := by
  have : Infinite Constant :=
    .of_injective (fun n : Nat => .string (String.ofList (List.replicate n 'a'))) fun m n h => by
      simpa using congrArg String.length (Constant.string.inj h)
  have : Infinite {c | c ∉ U} := U.finite_toSet.infinite_compl.to_subtype
  exact ⟨fun n => Infinite.natEmbedding {c | c ∉ U} n,
    Subtype.val_injective.comp (Infinite.natEmbedding _).injective,
    fun n => (Infinite.natEmbedding {c | c ∉ U} n).2⟩

namespace Literal

variable {l m : Literal} {η θ θ' : Valuation}

/-- The variables of two literals have different constants as their values, none of which the
literals have. -/
structure Separates (η : Valuation) (l m : Literal) : Prop where
  injOn : Set.InjOn η {v | v ∈ l.vars ∨ v ∈ m.vars}
  fresh : ∀ v, η v ∉ l.constants ∧ η v ∉ m.constants

theorem exists_separates (l m : Literal) : ∃ η, Separates η l m := by
  obtain ⟨f, hf, hfresh⟩ := Constant.exists_fresh (l.constants ++ m.constants)
  refine ⟨fun v => f ((l.vars ++ m.vars).idxOf v), fun u hu v hv h => ?_, fun v => ?_⟩
  · exact (List.idxOf_inj (List.mem_append.2 hu)).1 (hf h)
  · simpa using hfresh ((l.vars ++ m.vars).idxOf v)

namespace Separates

variable (h : Separates η l m) (hl : l.ground θ = m.ground η) (hm : m.ground θ' = l.ground η)

include h hl hm

/-- Literals that are instances of each other have variables at the same places. -/
theorem places : ∀ p ∈ l.terms.zip m.terms, (∃ c, p = (.const c, .const c)) ∨
    ∃ a b, p = (.var a, .var b) ∧ θ a = η b ∧ θ' b = η a := by
  rintro ⟨t, u⟩ hp
  obtain ⟨-, -, -, hzip⟩ := ground_eq_ground_iff.1 hl
  obtain ⟨-, -, -, hzip'⟩ := ground_eq_ground_iff.1 hm
  obtain ⟨ht, hu⟩ := List.of_mem_zip hp
  have htu : t.value θ = u.value η := hzip _ hp
  have hut : u.value θ' = t.value η := by
    refine hzip' (u, t) ?_
    rw [← List.zip_swap]
    exact List.mem_map_of_mem hp
  cases t with
  | const c =>
    cases u with
    | const d => exact .inl ⟨c, congrArg (Term.const c, Term.const ·) htu.symm⟩
    | var b =>
      have hc : c = η b := htu
      exact absurd (mem_constants.2 (hc ▸ ht)) (h.fresh b).1
  | var a =>
    cases u with
    | const d =>
      have hd : d = η a := hut
      exact absurd (mem_constants.2 (hd ▸ hu)) (h.fresh a).2
    | var b => exact .inr ⟨a, b, rfl, htu, hut⟩

/-- A permutation takes the variables of the one literal to those of the other one. -/
theorem exists_perm : ∃ ρ : Equiv.Perm Variable,
    ∀ p ∈ l.terms.zip m.terms, p.2 = p.1.renameVars ρ := by
  have hplaces := h.places hl hm
  -- a variable of the one literal goes to the one of the other that has its value
  have : Nonempty Variable := ⟨⟨"", 0⟩⟩
  let f (a : Variable) : Variable := Function.invFunOn η {v | v ∈ m.vars} (θ a)
  have hf : ∀ {a b}, (Term.var a, Term.var b) ∈ l.terms.zip m.terms → θ a = η b → f a = b := by
    intro a b hp hθ
    have hinj : Set.InjOn η {v | v ∈ m.vars} := h.injOn.mono fun v hv => .inr hv
    show Function.invFunOn η {v | v ∈ m.vars} (θ a) = b
    rw [hθ]
    exact hinj.leftInvOn_invFunOn (mem_vars.2 (List.of_mem_zip hp).2)
  have hback : ∀ a ∈ l.vars, θ' (f a) = η a := by
    intro a ha
    have hfst : (l.terms.zip m.terms).map Prod.fst = l.terms :=
      List.map_fst_zip (ground_eq_ground_iff.1 hl).2.2.1.le
    obtain ⟨⟨t, u⟩, hp, rfl⟩ := List.mem_map.1 (hfst.symm ▸ mem_vars.1 ha)
    rcases hplaces _ hp with ⟨c, heq⟩ | ⟨a', b, heq, hθ, hθ'⟩
    · cases heq
    · cases heq
      rw [hf hp hθ, hθ']
  have hinj : Set.InjOn f {v | v ∈ l.vars} := fun a ha b hb hab =>
    h.injOn (.inl ha) (.inl hb) (by rw [← hback a ha, ← hback b hb, hab])
  obtain ⟨ρ, hρ⟩ := Variable.exists_perm_eq hinj
  refine ⟨ρ, fun p hp => ?_⟩
  rcases hplaces p hp with ⟨c, rfl⟩ | ⟨a, b, rfl, hθ, -⟩
  · rfl
  · rw [Term.renameVars_var, hρ a (mem_vars.2 (List.of_mem_zip hp).1), hf hp hθ]

/-- **Literals that are instances of each other, with values that keep their variables apart, are
variants.** -/
theorem variant : l.Variant m := by
  obtain ⟨hpred, hneg, harity, -⟩ := ground_eq_ground_iff.1 hl
  obtain ⟨ρ, hρ⟩ := h.exists_perm hl hm
  have hterms : m.terms = l.terms.map (.renameVars ρ) :=
    calc m.terms = (l.terms.zip m.terms).map Prod.snd := (List.map_snd_zip harity.ge).symm
      _ = (l.terms.zip m.terms).map fun p => p.1.renameVars ρ := List.map_congr_left hρ
      _ = ((l.terms.zip m.terms).map Prod.fst).map (.renameVars ρ) := by
        rw [List.map_map]
        rfl
      _ = l.terms.map (.renameVars ρ) := by rw [List.map_fst_zip harity.le]
  refine ⟨ρ, ?_⟩
  unfold renameVars
  rw [hpred, hneg, ← hterms]

end Separates

end Literal

namespace CallPattern

variable {l m g : Literal}

/-- The canonical variables of different variables of a literal are different. -/
theorem injOn_canonicalVariable (l : Literal) :
    Set.InjOn (fun v => canonicalVariable (l.vars.eraseDups.idxOf v)) {v | v ∈ l.vars} := by
  intro u hu v hv h
  exact (List.idxOf_inj (List.mem_eraseDups.2 hu)).1 (canonicalVariable_injective h)

/-- **A literal is a variant of its call pattern**, but for its sign. -/
theorem variant_literal_of (l : Literal) : l.positive.Variant (of l).literal := by
  obtain ⟨ρ, hρ⟩ := Variable.exists_perm_eq (injOn_canonicalVariable l)
  refine ⟨ρ, congrArg (Literal.of l.predicate) (List.map_congr_left fun t ht => ?_)⟩
  cases t with
  | const c => rfl
  | var v => exact congrArg Term.var (hρ v (Literal.mem_vars.2 ht)).symm

/-- Patterns are told apart by their instances. -/
theorem of_eq_of_instances_eq (h : (of l).instances = (of m).instances) : of l = of m := by
  obtain ⟨η, hη⟩ := Literal.exists_separates l.positive m.positive
  obtain ⟨θ, hθ⟩ := mem_instances_of.1 (h ▸ mem_instances_of.2 ⟨η, rfl⟩ :
    m.positive.ground η ∈ (of l).instances)
  obtain ⟨θ', hθ'⟩ := mem_instances_of.1 (h ▸ mem_instances_of.2 ⟨η, rfl⟩ :
    l.positive.ground η ∈ (of m).instances)
  obtain ⟨ρ, hρ⟩ := hη.variant hθ hθ'
  rw [← of_positive m, hρ, of_renameVars, of_positive]

/-- **Patterns are the same just for variants.** Literals have one call pattern where their positive
forms differ by a permutation of the variables, and only there; the literal of a pattern has this
very pattern; and the pattern of a literal covers a ground literal where constants for the variables
make the positive form of one the positive form of the other. -/
theorem of_canonical (l : Literal) :
    (∀ m, of l = of m ↔ l.positive.Variant m.positive) ∧
    of (of l).literal = of l ∧
    ∀ g : Literal, g.isGround = true →
      ((of l).covers g = true ↔ ∃ θ : Valuation, l.positive.ground θ = g.positive) := by
  refine ⟨fun m => ⟨fun h => ?_, fun ⟨ρ, hρ⟩ => ?_⟩, ?_, fun g hg => ?_⟩
  · -- both literals are variants of the one pattern
    exact (variant_literal_of l).trans (h ▸ (variant_literal_of m).symm)
  · rw [← of_positive m, hρ, of_renameVars, of_positive]
  · obtain ⟨ρ, hρ⟩ := variant_literal_of l
    rw [hρ, of_renameVars, of_positive]
  · rw [covers_iff_mem_instances hg, mem_instances_of]

end CallPattern

end ProbDatalog

/-! ## Trams -/

namespace ProbDatalog.Trams

/-- A tram line between two stops, each with the place where the tram leaves it. -/
def line (a b c d : Term) : Literal := .of "line" [a, b, c, d]

/-- Any line that comes back to the place from which it has left, for variables with one name in two
scopes, and one named like a canonical variable. -/
def round : Literal :=
  line (.var ⟨"X", 7⟩) (.const (.string "park")) (.var ⟨"X", 0⟩) (.var ⟨"X", 7⟩)

/-- The same with other names. -/
def other : Literal :=
  line (.var ⟨"_1", 0⟩) (.const (.string "park")) (.var ⟨"_0", 0⟩) (.var ⟨"_1", 0⟩)

/-- Here the scopes do not keep the variables apart. -/
def merged : Literal :=
  line (.var ⟨"X", 0⟩) (.const (.string "park")) (.var ⟨"X", 0⟩) (.var ⟨"X", 0⟩)

/-- A line from the quay by the park and the zoo. -/
def quay : Literal :=
  line (.const (.string "quay")) (.const (.string "park")) (.const (.string "zoo"))
    (.const (.string "quay"))

/-- Names do not matter to patterns, but scopes do, and the pattern covers what comes back. -/
theorem canonical_round : round.negate.positive.Variant other.positive ∧
    ¬round.positive.Variant merged.positive ∧ quay.negate.isGround = true ∧
    (CallPattern.of round).covers quay.negate = true ∧
    ∃ θ : Valuation, round.positive.ground θ = quay.negate.positive := by
  have hground : quay.negate.isGround = true := by decide
  have hcovers : (CallPattern.of round).covers quay.negate = true := by decide +kernel
  refine ⟨((CallPattern.of_canonical round.negate).1 other).1 (by decide +kernel),
    fun h => ?_, hground, hcovers, ((CallPattern.of_canonical round).2.2 _ hground).1 hcovers⟩
  exact absurd (((CallPattern.of_canonical round).1 merged).2 h) (by decide +kernel)

end ProbDatalog.Trams
