import ProbDatalog.CallPattern
import ProbDatalog.Proofs.Solutions
import Mathlib.Data.List.Basic
import Mathlib.Logic.Function.Basic
import Std.Data.String.ToNat

/-!
# Instances of call patterns

The facts that a call pattern stands for. Replacing the variables of a literal by the canonical
ones is injective, so no instance of a literal is lost in its pattern and none is added.

* `mem_instances_of`: **a literal and its call pattern have the same instances.**
* `covers_iff_mem_instances`: the check for coverage decides membership.
-/

namespace ProbDatalog

theorem nodup_eraseDups {α : Type} [BEq α] [LawfulBEq α] (l : List α) : l.eraseDups.Nodup := by
  induction h : l.length using Nat.strongRecOn generalizing l with
  | _ n ih =>
    cases l with
    | nil => simp
    | cons a rest =>
      rw [List.eraseDups_cons, List.nodup_cons]
      refine ⟨by simp, ih _ ?_ _ rfl⟩
      rw [← h, List.length_cons]
      exact Nat.lt_succ_of_le (List.length_filter_le _ _)

namespace CallPattern

/-- The facts that a pattern stands for. -/
def instances (p : CallPattern) : Set Literal := {g | ∃ θ, p.literal.ground θ = g}

variable {p : CallPattern} {g : Literal}

theorem isGround_of_mem_instances (h : g ∈ p.instances) : g.isGround = true := by
  obtain ⟨θ, rfl⟩ := h
  exact p.literal.isGround_ground θ

theorem predicate_of_mem_instances (h : g ∈ p.instances) : g.predicate = p.literal.predicate := by
  obtain ⟨θ, rfl⟩ := h
  rfl

theorem arity_of_mem_instances (h : g ∈ p.instances) : g.arity = p.literal.arity := by
  obtain ⟨θ, rfl⟩ := h
  exact p.literal.ground_arity θ

/-- The check for coverage decides whether the positive form of a ground literal is an instance. -/
theorem covers_iff_mem_instances (hg : g.isGround = true) :
    p.covers g = true ↔ g.positive ∈ p.instances :=
  Literal.unify?_isSome_iff (by simpa using hg)

/-! ## The pattern of a literal -/

theorem canonicalVariable_injective : Function.Injective canonicalVariable := by
  intro i j h
  have hname : "_" ++ toString i = "_" ++ toString j := congrArg Variable.name h
  exact Nat.repr_injective (String.append_right_inj _ |>.1 hname)

@[simp] theorem of_positive (l : Literal) : of l.positive = of l := rfl

@[simp] theorem of_predicate (l : Literal) : (of l).literal.predicate = l.predicate := rfl

@[simp] theorem of_negated (l : Literal) : (of l).literal.negated = false := rfl

@[simp] theorem of_arity (l : Literal) : (of l).literal.arity = l.arity := by
  simp [of, Literal.of, Literal.arity]

/-- The variables of a pattern of a literal have scope `0`. -/
theorem scope_of_mem_vars_of {l : Literal} {v : Variable} (h : v ∈ (of l).literal.vars) :
    v.scope = 0 := by
  obtain ⟨t, -, ht⟩ := List.mem_map.1 (Literal.mem_vars.1 h)
  cases t with
  | const c => cases ht
  | var u =>
    cases ht
    rfl

theorem value_canonicalTerm (vars : List Variable) (t : Term) (θ : Valuation) :
    (canonicalTerm vars t).value θ = t.value fun v => θ (canonicalVariable (vars.idxOf v)) := by
  cases t <;> rfl

theorem ground_of (l : Literal) (θ : Valuation) :
    (of l).literal.ground θ =
      l.positive.ground fun v => θ (canonicalVariable (l.vars.eraseDups.idxOf v)) := by
  simp [Literal.ground, of, Literal.of, Literal.positive, value_canonicalTerm]

/-- **A literal and its call pattern have the same instances.** -/
theorem mem_instances_of {l : Literal} : g ∈ (of l).instances ↔ ∃ θ, l.positive.ground θ = g := by
  constructor
  · rintro ⟨θ, rfl⟩
    exact ⟨_, (ground_of l θ).symm⟩
  · rintro ⟨θ, rfl⟩
    -- the canonical variables stand at the places of the variables that they replace
    let place (v : {v // v ∈ l.vars.eraseDups}) := canonicalVariable (l.vars.eraseDups.idxOf v.1)
    have hplace : Function.Injective place := by
      intro u v h
      exact Subtype.ext ((List.idxOf_inj u.2).1 (canonicalVariable_injective h))
    refine ⟨Function.extend place (fun v => θ v.1) fun _ => .boolean false, ?_⟩
    rw [ground_of]
    refine Literal.ground_congr fun v hv => ?_
    exact hplace.extend_apply _ _ ⟨v, List.mem_eraseDups.2 hv⟩

/-- A ground fact is the one instance of its pattern. -/
theorem mem_instances_of_isGround {b g : Literal} (hb : b.isGround = true) :
    g ∈ (of b).instances ↔ b.positive = g := by
  rw [mem_instances_of]
  have hpos : ∀ θ, b.positive.ground θ = b.positive := Literal.ground_of_isGround hb
  constructor
  · rintro ⟨θ, rfl⟩
    exact (hpos θ).symm
  · rintro rfl
    exact ⟨fun _ => .boolean false, hpos _⟩

end CallPattern

end ProbDatalog
