import ProbDatalog.Sorted

/-!
# Formulas in disjunctive normal form

A cube is a conjunction of variables and negated variables, a formula a disjunction of cubes. A
formula is kept without cubes that another of its cubes makes redundant, and its cubes are sorted,
so the form depends on the set of the cubes alone.

* `mem_ofCubes_iff`: a formula keeps exactly the minimal cubes.
-/

namespace ProbDatalog

/-- A variable, or the negation of one. -/
structure SignedVar where
  index : Nat
  positive : Bool
  deriving DecidableEq

namespace SignedVar

/-- First by variable; the negated one comes before the positive one. -/
def order (a b : SignedVar) : Ordering :=
  (compare a.index b.index).then (compare a.positive b.positive)

instance : Ord SignedVar := ⟨order⟩

/-- The other sign of the same variable. -/
def opposite (x : SignedVar) : SignedVar := { x with positive := !x.positive }

instance : Std.LawfulEqOrd SignedVar where
  compare_self := Ordering.then_eq_eq.2 ⟨Std.ReflOrd.compare_self, Std.ReflOrd.compare_self⟩
  eq_of_compare {a b} h := by
    have ⟨hi, hp⟩ := Ordering.then_eq_eq.1 h
    cases a
    cases b
    rw [SignedVar.mk.injEq]
    exact ⟨Std.LawfulEqOrd.eq_of_compare hi, Std.LawfulEqOrd.eq_of_compare hp⟩

/-- The value under an assignment. -/
def holds (x : SignedVar) (assignment : Nat → Bool) : Bool := assignment x.index == x.positive

end SignedVar

/-- A conjunction as a sorted list. -/
abbrev Cube := List SignedVar

namespace Cube

/-- The value under an assignment. -/
def holds (c : Cube) (assignment : Nat → Bool) : Bool := c.all (·.holds assignment)

/-- Whether every conjunct of the cube is one of `other`, which is then the stronger one. -/
def isPart (c other : Cube) : Bool := c.all (other.contains ·)

/-- Whether no conjunct of one is the opposite of a conjunct of the other. -/
def agrees (c other : Cube) : Bool := other.all fun x => !c.contains x.opposite

end Cube

/-- A disjunction of cubes as a sorted list. -/
structure Formula where
  cubes : List Cube
  deriving DecidableEq

namespace Formula

/-- The order of the lists of cubes. -/
def order (f g : Formula) : Ordering := compare f.cubes g.cubes

instance : Ord Formula := ⟨order⟩

/-- The value under an assignment. -/
def holds (f : Formula) (assignment : Nat → Bool) : Bool := f.cubes.any (·.holds assignment)

/-- The disjunction of cubes, without those that have another one as a part. -/
def ofCubes (cubes : List Cube) : Formula :=
  ⟨(Sorted.ofList cubes).filter fun c => !cubes.any fun other => other ≠ c && other.isPart c⟩

/-- **A formula keeps exactly the minimal cubes.** -/
theorem mem_ofCubes_iff {c : Cube} {cubes : List Cube} :
    c ∈ (ofCubes cubes).cubes ↔
      c ∈ cubes ∧ ∀ other ∈ cubes, other ≠ c → other.isPart c = false := by
  simp [ofCubes, Sorted.mem_ofList, List.mem_filter]

/-- No cubes. -/
def falsity : Formula := ⟨[]⟩

/-- The cube without conjuncts. -/
def truth : Formula := ⟨[[]]⟩

/-- A single variable or its negation. -/
def literal (x : SignedVar) : Formula := ⟨[[x]]⟩

/-- Whether there are no cubes. -/
def isFalse (f : Formula) : Bool := f.cubes.isEmpty

/-- Whether one of the cubes has no conjuncts. -/
def isTrue (f : Formula) : Bool := f.cubes.contains []

/-- The disjunction. -/
def or (f g : Formula) : Formula := ofCubes (f.cubes ++ g.cubes)

/-- The conjunction. -/
def and (f g : Formula) : Formula :=
  ofCubes <| f.cubes.flatMap fun c => (g.cubes.filter (Cube.agrees c)).map (Sorted.union c)

/-- The negation of one cube. -/
def notCube (c : Cube) : Formula := ofCubes (c.map fun x => [x.opposite])

/-- The negation. -/
def not (f : Formula) : Formula := f.cubes.foldl (fun g c => g.and (notCube c)) truth

/-- The formula with a variable set to a value. -/
def restrict (f : Formula) (index : Nat) (value : Bool) : Formula :=
  ofCubes <| (f.cubes.filter (!·.contains ⟨index, !value⟩)).map (·.filter (· ≠ ⟨index, value⟩))

/-- All occurrences of variables. -/
def occurrences (f : Formula) : List Nat := f.cubes.flatten.map SignedVar.index

/-- The variables in ascending order. -/
def vars (f : Formula) : List Nat := Sorted.ofList f.occurrences

/-- Put other variables in place of the variables. -/
def rename (f : Formula) (name : Nat → Nat) : Formula :=
  ofCubes (f.cubes.map fun c => Sorted.ofList (c.map fun x => { x with index := name x.index }))

/-- Whether the formula holds under all assignments of the listed variables, which are all that it
has, by setting one variable after the other. -/
def isValidOver : List Nat → Formula → Bool
  | [], f => f.isTrue
  | v :: rest, f =>
    if f.isTrue then true
    else if f.isFalse then false
    else if f.occurrences.contains v then
      isValidOver rest (f.restrict v false) && isValidOver rest (f.restrict v true)
    else isValidOver rest f

/-- Whether the formula holds under all assignments. -/
def isValid (f : Formula) : Bool := isValidOver f.vars f

end Formula

end ProbDatalog
