import ProbDatalog.Proofs.Evaluables

/-!
# Calls that bind

A standard predicate that accepts a call under bindings has found the one argument that is open and
the one value of it. So the call with its bindings applied is accepted as it is, and no other
instance of it is: what a proof records of the call stays true.

* `Computed.exists_of_bind`: a call that binds has one open argument among inputs that are given.
* `Settles.map_resolve`: applying the binding of an open argument fills it in.
* `outcomes_stable`: **outcomes are stable under their own bindings.**
-/

namespace ProbDatalog

namespace Substitution

theorem get?_bind_empty {v u : Variable} {t t' : Term} :
    (empty.bind v t).get? u = some t' ↔ v = u ∧ t = t' := by
  rw [get?_bind]
  split
  next h => simp [h]
  next h => simp [h]

/-- The end of a chain that is a single binding to a constant. -/
theorem resolve_bind_empty (v : Variable) (c : Constant) :
    (empty.bind v (.const c)).resolve (.var v) = .const c := by
  have hget : (empty.bind v (.const c)).get? v = some (.const c) := get?_bind_empty.2 ⟨rfl, rfl⟩
  have hsize : (empty.bind v (.const c)).size = 1 := rfl
  rw [resolve, hsize, follow, hget]
  rfl

theorem map_resolve_of_isGround {ts : List Term} (h : ∀ t ∈ ts, t.isGround = true)
    (s : Substitution) : ts.map s.resolve = ts := by
  conv_rhs => rw [← List.map_id ts]
  refine List.map_congr_left fun t ht => ?_
  cases t with
  | const d => exact resolve_const d
  | var u => exact absurd (h _ ht) (by simp [Term.isGround])

end Substitution

namespace Evaluable

open Substitution (get?_bind_empty map_resolve_of_isGround resolve_bind_empty)

variable {e : Evaluable} {args before after : List Term} {s : Substitution} {v : Variable}
variable {c : Constant}

/-- **A call that binds has one open argument**, and one value of it makes the call acceptable. -/
theorem Computed.exists_of_bind (he : e.Computed) (h : e.evaluate args = .ok (.bind s)) :
    ∃ before v after c, Settles args before after (.var v) ∧
      s = Substitution.empty.bind v (.const c) ∧
        ∀ d, e.evaluate (before ++ .const d :: after) = .ok .accept ↔ d = c := by
  cases he with
  | comparison name r => exact absurd h comparison_ne_bind
  | kindTest => exact settlesOne_kindTest.exists_of_bind h
  | arithmetic name operation => exact (settlesOne_arithmetic name operation).exists_of_bind h
  | stringFunction name inputs function =>
    exact (settlesOne_stringFunction name inputs function).exists_of_bind h

/-- Applying the binding fills in the open argument. -/
theorem Settles.map_resolve (h : Settles args before after (.var v)) (c : Constant) :
    args.map (Substitution.empty.bind v (.const c)).resolve = before ++ .const c :: after := by
  rw [h.eq, List.map_append, List.map_cons, map_resolve_of_isGround h.before,
    map_resolve_of_isGround h.after, resolve_bind_empty]

/-- **Outcomes are stable under their own bindings.** The standard predicates are comparisons, the
test of kinds, operations on numbers and functions of strings. Whatever a predicate of these kinds
computes: a call that it accepts as it is has no variables. Bindings under which it accepts a call
bind exactly the variables of the call, each to a constant; with them applied the call is accepted
as it is, and no other instance of the call is. -/
theorem outcomes_stable :
    (∀ name e, Registry.standard.get? name = some e → e.Computed) ∧
    ∀ (e : Evaluable) (args : List Term), e.Computed →
      (e.evaluate args = .ok .accept → ∀ t ∈ args, t.isGround = true) ∧
      ∀ s, e.evaluate args = .ok (.bind s) →
        (∀ v, .var v ∈ args ↔ ∃ t, s.get? v = some t) ∧
        (∀ v t, s.get? v = some t → t.isGround = true) ∧
        e.evaluate (args.map s.resolve) = .ok .accept ∧
        ∀ θ : Valuation, e.evaluate (args.map fun t => .const (t.value θ)) = .ok .accept →
          (args.map fun t => .const (t.value θ)) = args.map s.resolve := by
  refine ⟨fun name e h => Registry.computed_standard h, fun e args he =>
    ⟨he.steady.isGround_of_accept, fun s hbind => ?_⟩⟩
  obtain ⟨before, u, after, c, hs, rfl, hc⟩ := he.exists_of_bind hbind
  refine ⟨fun v => ?_, fun v t ht => ?_, ?_, fun θ hacc => ?_⟩
  · rw [hs.var_mem_iff]
    constructor
    · rintro rfl
      exact ⟨_, get?_bind_empty.2 ⟨rfl, rfl⟩⟩
    · rintro ⟨t, ht⟩
      exact (get?_bind_empty.1 ht).1.symm
  · obtain ⟨-, rfl⟩ := get?_bind_empty.1 ht
    rfl
  · rw [hs.map_resolve, hc]
  · rw [hs.map_value, hc] at hacc
    rw [hs.map_value, hs.map_resolve, hacc]

end Evaluable

end ProbDatalog

/-! ## Words -/

namespace ProbDatalog.Words

/-- A word as a term. -/
def word (s : String) : Term := .const (.string s)

/-- The call for the word that two words make. -/
def compound : List Term := [.var ⟨"Word", 0⟩, word "sun", word "flower"]

/-- The word that they make. -/
def sunflower : Substitution := .ofList [(⟨"Word", 0⟩, word "sunflower")]

/-- The call binds the open word, and it is accepted with this word only. -/
theorem compound_stable : ∃ e, Registry.standard.get? "fn_concat" = some e ∧
    e.evaluate compound = .ok (.bind sunflower) ∧
    e.evaluate [word "sunflower", word "sun", word "flower"] = .ok .accept ∧
    ∀ θ : Valuation,
      e.evaluate [.const (θ ⟨"Word", 0⟩), word "sun", word "flower"] = .ok .accept →
        θ ⟨"Word", 0⟩ = .string "sunflower" := by
  have hget : Registry.standard.get? "fn_concat" =
      some (.stringFunction "fn_concat" 2 Evaluable.concatenation) := rfl
  have hbind : (Evaluable.stringFunction "fn_concat" 2 Evaluable.concatenation).evaluate compound =
      .ok (.bind sunflower) := by decide +kernel
  obtain ⟨-, hstable⟩ := Evaluable.outcomes_stable
  obtain ⟨-, hcall⟩ := hstable _ compound (Evaluable.outcomes_stable.1 _ _ hget)
  obtain ⟨-, -, haccept, hunique⟩ := hcall _ hbind
  have hmap : compound.map sunflower.resolve = [word "sunflower", word "sun", word "flower"] := by
    decide +kernel
  refine ⟨_, hget, hbind, hmap ▸ haccept, fun θ hθ => ?_⟩
  have heq := hunique θ hθ
  rw [hmap] at heq
  simpa [compound, word] using heq

end ProbDatalog.Words
