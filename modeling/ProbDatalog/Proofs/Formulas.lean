import ProbDatalog.Formula
import ProbDatalog.Proofs.Sorting
import Mathlib.Data.List.Perm.Subperm

/-!
# The truth of formulas

The operations on formulas are Boolean operations, as long as cubes are sorted and free of
contradictions. A formula without cubes is then the only one that never holds, and the check for
validity tells whether a formula always holds. Setting variables, and so this check, needs sorted
cubes only.

* `holds_ofCubes`: leaving out redundant cubes does not change the truth.
* `holds_or`, `holds_and`, `holds_not`, `holds_restrict`: **the operations are Boolean operations.**
* `isFalse_iff`, `isValid_iff`: what the checks tell.
* `isFalse_or`, `isFalse_and`: when formulas without negated variables are false.
* `Proper.or`, `Proper.and`, `Proper.not`: the operations keep cubes proper.
-/

namespace ProbDatalog

open Sorted

instance SignedVar.instTransOrd : Std.TransOrd SignedVar :=
  inferInstanceAs (Std.TransCmp (compareLex (compareOn SignedVar.index)
    (compareOn SignedVar.positive)))

instance Formula.instTransOrd : Std.TransOrd Formula :=
  inferInstanceAs (Std.TransCmp (compareOn Formula.cubes))

instance Formula.instLawfulEqOrd : Std.LawfulEqOrd Formula where
  eq_of_compare {f g} h := by
    cases f
    cases g
    rw [Formula.mk.injEq]
    exact Std.LawfulEqOrd.eq_of_compare (α := List Cube) h

namespace SignedVar

@[simp] theorem opposite_index (x : SignedVar) : x.opposite.index = x.index := rfl

@[simp] theorem opposite_opposite (x : SignedVar) : x.opposite.opposite = x := by
  simp [opposite]

theorem opposite_ne (x : SignedVar) : x.opposite ≠ x := by
  intro h
  have := congrArg positive h
  simp [opposite] at this

@[simp] theorem holds_opposite (x : SignedVar) (a : Nat → Bool) :
    x.opposite.holds a = !x.holds a := by
  unfold holds opposite
  cases a x.index <;> cases x.positive <;> rfl

end SignedVar

/-! ## Cubes -/

namespace Cube

variable {c d e : Cube} {a b : Nat → Bool} {x : SignedVar}

theorem holds_iff : c.holds a = true ↔ ∀ x ∈ c, x.holds a = true := List.all_eq_true

theorem isPart_iff : c.isPart d = true ↔ ∀ x ∈ c, x ∈ d := by
  simp [isPart]

@[simp] theorem isPart_refl (c : Cube) : c.isPart c = true := isPart_iff.2 fun _ hx => hx

theorem isPart_trans (h : c.isPart d = true) (h' : d.isPart e = true) : c.isPart e = true :=
  isPart_iff.2 fun x hx => isPart_iff.1 h' x (isPart_iff.1 h x hx)

theorem holds_of_isPart (h : c.isPart d = true) (hd : d.holds a = true) : c.holds a = true :=
  holds_iff.2 fun x hx => holds_iff.1 hd x (isPart_iff.1 h x hx)

/-- A part of a sorted cube is shorter than the cube. -/
theorem length_lt_of_isPart (hc : IsSorted c) (hd : IsSorted d) (h : c.isPart d = true)
    (hne : c ≠ d) : c.length < d.length := by
  have hsub : List.Subperm c d := hc.nodup.subperm (isPart_iff.1 h)
  refine Nat.lt_of_le_of_ne hsub.length_le fun hlen => hne ?_
  exact hc.eq_of_mem_iff hd fun x => (hsub.perm_of_length_le (Nat.le_of_eq hlen.symm)).mem_iff

/-- Sorted, and no variable occurs with both signs. -/
structure Proper (c : Cube) : Prop where
  sorted : IsSorted c
  consistent : ∀ x ∈ c, x.opposite ∉ c

theorem proper_nil : Proper [] := ⟨isSorted_nil, by simp⟩

theorem proper_singleton (x : SignedVar) : Proper [x] :=
  ⟨isSorted_singleton x, fun y hy => by
    rw [List.mem_singleton] at hy ⊢
    subst hy
    exact y.opposite_ne⟩

theorem agrees_iff : c.agrees d = true ↔ ∀ x ∈ d, x.opposite ∉ c := by
  simp [agrees]

theorem Proper.union (hc : c.Proper) (hd : d.Proper) (h : c.agrees d = true) :
    Proper (Sorted.union c d) := by
  refine ⟨isSorted_union hc.sorted d, fun x hx hx' => ?_⟩
  rcases mem_union.1 hx with hx | hx <;> rcases mem_union.1 hx' with hx' | hx'
  · exact hc.consistent x hx hx'
  · exact agrees_iff.1 h _ hx' (by simpa using hx)
  · exact agrees_iff.1 h _ hx hx'
  · exact hd.consistent x hx hx'

theorem holds_union : Cube.holds (Sorted.union c d) a = (c.holds a && d.holds a) := by
  rw [Bool.eq_iff_iff]
  simp only [holds_iff, Bool.and_eq_true, mem_union]
  constructor
  · exact fun h => ⟨fun x hx => h x (.inl hx), fun x hx => h x (.inr hx)⟩
  · rintro ⟨hc, hd⟩ x (hx | hx)
    · exact hc x hx
    · exact hd x hx

/-- Cubes that disagree do not hold together. -/
theorem not_holds_of_not_agrees (h : c.agrees d = false) : (c.holds a && d.holds a) = false := by
  have h' : ¬c.agrees d = true := by simp [h]
  rw [agrees_iff] at h'
  push Not at h'
  obtain ⟨x, hx, hx'⟩ := h'
  rw [Bool.eq_false_iff]
  intro hboth
  obtain ⟨hc, hd⟩ := (Bool.and_eq_true _ _).mp hboth
  have h1 := holds_iff.1 hc _ hx'
  rw [SignedVar.holds_opposite, holds_iff.1 hd x hx] at h1
  cases h1

/-- A proper cube holds under some assignment. -/
theorem Proper.exists_holds (hc : c.Proper) : ∃ a, c.holds a = true := by
  -- make exactly the variables true that occur with a positive sign
  refine ⟨fun i => decide (⟨i, true⟩ ∈ c), holds_iff.2 fun x hx => ?_⟩
  obtain ⟨i, positive⟩ := x
  cases positive with
  | true => simp [SignedVar.holds, hx]
  | false =>
    have := hc.consistent _ hx
    simpa [SignedVar.holds, SignedVar.opposite] using this

end Cube

/-! ## Formulas -/

namespace Formula

variable {f g : Formula} {a b : Nat → Bool} {cubes : List Cube}

/-- All cubes are sorted, so that each of them is a set of signed variables. -/
def Ordered (f : Formula) : Prop := ∀ c ∈ f.cubes, IsSorted c

/-- All cubes are proper. -/
def Proper (f : Formula) : Prop := ∀ c ∈ f.cubes, Cube.Proper c

theorem Proper.ordered (h : f.Proper) : f.Ordered := fun c hc => (h c hc).sorted

theorem holds_iff : f.holds a = true ↔ ∃ c ∈ f.cubes, Cube.holds c a = true := List.any_eq_true

theorem mem_of_mem_ofCubes {c : Cube} (h : c ∈ (ofCubes cubes).cubes) : c ∈ cubes :=
  (mem_ofCubes_iff.1 h).1

/-- Every cube has a part that is kept. -/
theorem exists_isPart_of_mem (h : ∀ c ∈ cubes, IsSorted c) {c : Cube} (hc : c ∈ cubes) :
    ∃ d ∈ (ofCubes cubes).cubes, Cube.isPart d c = true := by
  -- by induction on the length: a cube that is left out has a shorter part, which has a part that
  -- is kept
  induction hn : c.length using Nat.strongRecOn generalizing c with
  | _ n ih =>
    by_cases hmin : ∀ other ∈ cubes, other ≠ c → Cube.isPart other c = false
    · exact ⟨c, mem_ofCubes_iff.2 ⟨hc, hmin⟩, Cube.isPart_refl c⟩
    · push Not at hmin
      obtain ⟨other, hother, hne, hpart⟩ := hmin
      have hpart' : Cube.isPart other c = true := by simpa using hpart
      have hlt := Cube.length_lt_of_isPart (h _ hother) (h _ hc) hpart' hne
      obtain ⟨d, hd, hdo⟩ := ih other.length (hn ▸ hlt) hother rfl
      exact ⟨d, hd, Cube.isPart_trans hdo hpart'⟩

/-- **Leaving out redundant cubes does not change the truth.** -/
theorem holds_ofCubes (h : ∀ c ∈ cubes, IsSorted c) :
    (ofCubes cubes).holds a = true ↔ ∃ c ∈ cubes, Cube.holds c a = true := by
  rw [holds_iff]
  constructor
  · rintro ⟨c, hc, ha⟩
    exact ⟨c, mem_of_mem_ofCubes hc, ha⟩
  · rintro ⟨c, hc, ha⟩
    obtain ⟨d, hd, hpart⟩ := exists_isPart_of_mem h hc
    exact ⟨d, hd, Cube.holds_of_isPart hpart ha⟩

theorem proper_ofCubes (h : ∀ c ∈ cubes, Cube.Proper c) : (ofCubes cubes).Proper :=
  fun c hc => h c (mem_of_mem_ofCubes hc)

@[simp] theorem holds_falsity : falsity.holds a = false := rfl

@[simp] theorem holds_truth : truth.holds a = true := rfl

@[simp] theorem holds_literal (x : SignedVar) : (literal x).holds a = x.holds a := by
  simp [literal, holds, Cube.holds]

theorem proper_falsity : falsity.Proper := by simp [Proper, falsity]

theorem proper_truth : truth.Proper := by simp [Proper, truth, Cube.proper_nil]

theorem proper_literal (x : SignedVar) : (literal x).Proper := by
  simp [Proper, literal, Cube.proper_singleton]

/-! ### Disjunction and conjunction -/

/-- The cubes that a disjunction is made from are proper. -/
theorem proper_or_cubes (hf : f.Proper) (hg : g.Proper) :
    ∀ c ∈ f.cubes ++ g.cubes, Cube.Proper c := by
  intro c hc
  rcases List.mem_append.1 hc with hc | hc
  · exact hf c hc
  · exact hg c hc

theorem Proper.or (hf : f.Proper) (hg : g.Proper) : (f.or g).Proper :=
  proper_ofCubes (proper_or_cubes hf hg)

theorem holds_or (hf : f.Proper) (hg : g.Proper) :
    (f.or g).holds a = (f.holds a || g.holds a) := by
  have hsorted : ∀ c ∈ f.cubes ++ g.cubes, IsSorted c := fun c hc =>
    (proper_or_cubes hf hg c hc).sorted
  rw [Bool.eq_iff_iff, Formula.or, holds_ofCubes hsorted, Bool.or_eq_true, holds_iff, holds_iff]
  simp only [List.mem_append, or_and_right, exists_or]

/-- The cubes that a conjunction is made from. -/
theorem mem_and_cubes {c : Cube} :
    c ∈ f.cubes.flatMap (fun c => (g.cubes.filter (Cube.agrees c)).map (Sorted.union c)) ↔
      ∃ d ∈ f.cubes, ∃ e ∈ g.cubes, Cube.agrees d e = true ∧ Sorted.union d e = c := by
  simp only [List.mem_flatMap, List.mem_map, List.mem_filter, and_assoc]

theorem proper_and_cubes (hf : f.Proper) (hg : g.Proper) : ∀ c ∈ f.cubes.flatMap
    (fun c => (g.cubes.filter (Cube.agrees c)).map (Sorted.union c)), Cube.Proper c := by
  intro c hc
  obtain ⟨d, hd, e, he, hagree, rfl⟩ := mem_and_cubes.1 hc
  exact (hf d hd).union (hg e he) hagree

theorem Proper.and (hf : f.Proper) (hg : g.Proper) : (f.and g).Proper :=
  proper_ofCubes (proper_and_cubes hf hg)

theorem holds_and (hf : f.Proper) (hg : g.Proper) :
    (f.and g).holds a = (f.holds a && g.holds a) := by
  have hsorted : ∀ c ∈ f.cubes.flatMap
      (fun c => (g.cubes.filter (Cube.agrees c)).map (Sorted.union c)), IsSorted c := fun c hc =>
    (proper_and_cubes hf hg c hc).sorted
  rw [Bool.eq_iff_iff, Formula.and, holds_ofCubes hsorted, Bool.and_eq_true, holds_iff, holds_iff]
  constructor
  · rintro ⟨c, hc, ha⟩
    obtain ⟨d, hd, e, he, -, rfl⟩ := mem_and_cubes.1 hc
    rw [Cube.holds_union, Bool.and_eq_true] at ha
    exact ⟨⟨d, hd, ha.1⟩, e, he, ha.2⟩
  · rintro ⟨⟨d, hd, hda⟩, e, he, hea⟩
    refine ⟨_, mem_and_cubes.2 ⟨d, hd, e, he, ?_, rfl⟩, by simp [Cube.holds_union, hda, hea]⟩
    -- cubes that hold together agree, so their union has not been left out
    by_contra hdis
    have := Cube.not_holds_of_not_agrees (a := a) (by simpa using hdis)
    simp [hda, hea] at this

/-! ### Negation -/

theorem proper_notCube_cubes (c : Cube) : ∀ d ∈ c.map fun x => [x.opposite], Cube.Proper d := by
  intro d hd
  obtain ⟨x, -, rfl⟩ := List.mem_map.1 hd
  exact Cube.proper_singleton _

theorem proper_notCube (c : Cube) : (notCube c).Proper := proper_ofCubes (proper_notCube_cubes c)

theorem holds_notCube (c : Cube) : (notCube c).holds a = !c.holds a := by
  have hsorted : ∀ d ∈ c.map fun x => [x.opposite], IsSorted d := fun d hd =>
    (proper_notCube_cubes c d hd).sorted
  rw [Bool.eq_iff_iff, notCube, holds_ofCubes hsorted]
  simp [Cube.holds]

theorem not_foldl (hg : g.Proper) (cubes : List Cube) :
    (cubes.foldl (fun g c => g.and (notCube c)) g).Proper ∧
      (cubes.foldl (fun g c => g.and (notCube c)) g).holds a =
        (g.holds a && !cubes.any (Cube.holds · a)) := by
  induction cubes generalizing g with
  | nil => simp [hg]
  | cons c rest ih =>
    obtain ⟨hp, hh⟩ := ih (hg.and (proper_notCube c))
    refine ⟨hp, ?_⟩
    rw [List.foldl_cons, hh, holds_and hg (proper_notCube c), holds_notCube, List.any_cons]
    cases Cube.holds c a <;> simp

theorem proper_not (f : Formula) : f.not.Proper :=
  (not_foldl (a := fun _ => true) proper_truth f.cubes).1

theorem holds_not (f : Formula) : f.not.holds a = !f.holds a := by
  unfold Formula.not
  rw [(not_foldl proper_truth f.cubes).2, holds_truth, Bool.true_and]
  rfl

/-! ### Checks -/

theorem isFalse_iff_cubes : f.isFalse = true ↔ f.cubes = [] := by
  simp [isFalse]

/-- A formula without cubes is the only one that never holds. -/
theorem isFalse_iff (hf : f.Proper) : f.isFalse = true ↔ ∀ a, f.holds a = false := by
  rw [isFalse_iff_cubes]
  constructor
  · intro h a
    simp [holds, h]
  · intro h
    refine List.eq_nil_iff_forall_not_mem.2 fun c hc => ?_
    obtain ⟨a, ha⟩ := (hf c hc).exists_holds
    have := holds_iff.2 ⟨c, hc, ha⟩
    rw [h a] at this
    cases this

theorem holds_of_isFalse (h : f.isFalse = true) : f.holds a = false := by
  rw [isFalse_iff_cubes] at h
  simp [holds, h]

theorem holds_of_isTrue (h : f.isTrue = true) : f.holds a = true :=
  holds_iff.2 ⟨[], by simpa [isTrue] using h, rfl⟩

theorem isFalse_of_isTrue (h : f.isTrue = true) : f.isFalse = false := by
  cases hfalse : f.isFalse with
  | false => rfl
  | true =>
    have hholds := holds_of_isTrue (a := fun _ => true) h
    rw [holds_of_isFalse hfalse] at hholds
    cases hholds

/-! ### Occurrences -/

theorem mem_occurrences {i : Nat} : i ∈ f.occurrences ↔ ∃ c ∈ f.cubes, ∃ x ∈ c, x.index = i := by
  simp only [occurrences, List.mem_map, List.mem_flatten]
  constructor
  · rintro ⟨x, ⟨c, hc, hx⟩, hi⟩
    exact ⟨c, hc, x, hx, hi⟩
  · rintro ⟨c, hc, x, hx, hi⟩
    exact ⟨x, ⟨c, hc, hx⟩, hi⟩

theorem mem_occurrences_of_ofCubes {i : Nat} (h : i ∈ (ofCubes cubes).occurrences) :
    ∃ c ∈ cubes, ∃ x ∈ c, x.index = i := by
  obtain ⟨c, hc, x, hx, hi⟩ := mem_occurrences.1 h
  exact ⟨c, mem_of_mem_ofCubes hc, x, hx, hi⟩

/-- The operations bring in no variables. -/
theorem mem_occurrences_of_or {i : Nat} (h : i ∈ (f.or g).occurrences) :
    i ∈ f.occurrences ∨ i ∈ g.occurrences := by
  obtain ⟨c, hc, x, hx, hi⟩ := mem_occurrences_of_ofCubes h
  rcases List.mem_append.1 hc with hc | hc
  · exact .inl (mem_occurrences.2 ⟨c, hc, x, hx, hi⟩)
  · exact .inr (mem_occurrences.2 ⟨c, hc, x, hx, hi⟩)

theorem mem_occurrences_of_and {i : Nat} (h : i ∈ (f.and g).occurrences) :
    i ∈ f.occurrences ∨ i ∈ g.occurrences := by
  obtain ⟨c, hc, x, hx, hi⟩ := mem_occurrences_of_ofCubes h
  obtain ⟨d, hd, e, he, -, rfl⟩ := mem_and_cubes.1 hc
  rcases mem_union.1 hx with hx | hx
  · exact .inl (mem_occurrences.2 ⟨d, hd, x, hx, hi⟩)
  · exact .inr (mem_occurrences.2 ⟨e, he, x, hx, hi⟩)

theorem mem_occurrences_of_notCube {c : Cube} {i : Nat} (h : i ∈ (notCube c).occurrences) :
    ∃ x ∈ c, x.index = i := by
  obtain ⟨d, hd, x, hx, hi⟩ := mem_occurrences_of_ofCubes h
  obtain ⟨y, hy, rfl⟩ := List.mem_map.1 hd
  rw [List.mem_singleton] at hx
  subst hx
  exact ⟨y, hy, hi⟩

theorem mem_occurrences_of_not {i : Nat} (h : i ∈ f.not.occurrences) : i ∈ f.occurrences := by
  -- over the fold that negates one cube after the other
  have key : ∀ (cubes : List Cube) (g : Formula),
      i ∈ (cubes.foldl (fun g c => g.and (notCube c)) g).occurrences →
        i ∈ g.occurrences ∨ ∃ c ∈ cubes, ∃ x ∈ c, x.index = i := by
    intro cubes
    induction cubes with
    | nil => exact fun g h => .inl h
    | cons c rest ih =>
      intro g h
      rcases ih _ h with h | ⟨d, hd, hx⟩
      · rcases mem_occurrences_of_and h with h | h
        · exact .inl h
        · exact .inr ⟨c, List.mem_cons_self, mem_occurrences_of_notCube h⟩
      · exact .inr ⟨d, List.mem_cons_of_mem _ hd, hx⟩
  rcases key f.cubes truth h with h | h
  · simp [truth, occurrences] at h
  · exact mem_occurrences.2 h

/-- The truth of a formula depends on the variables that occur. -/
theorem holds_congr (h : ∀ i ∈ f.occurrences, a i = b i) : f.holds a = f.holds b := by
  have key : ∀ c ∈ f.cubes, Cube.holds c a = Cube.holds c b := by
    intro c hc
    rw [Bool.eq_iff_iff, Cube.holds_iff, Cube.holds_iff]
    refine forall₂_congr fun x hx => ?_
    rw [SignedVar.holds, SignedVar.holds, h _ (mem_occurrences.2 ⟨c, hc, x, hx, rfl⟩)]
  rw [Bool.eq_iff_iff, holds_iff, holds_iff]
  exact exists_congr fun c => and_congr_right fun hc => by rw [key c hc]

/-! ### Formulas without negated variables -/

/-- All cubes are sorted and have no negated variables. -/
structure Positive (f : Formula) : Prop where
  ordered : f.Ordered
  positive : ∀ c ∈ f.cubes, ∀ x ∈ c, x.positive = true

/-- Without negated variables no cube contradicts itself. -/
theorem Positive.proper (h : f.Positive) : f.Proper := by
  intro c hc
  refine ⟨h.ordered c hc, fun x hx hx' => ?_⟩
  have hpos := h.positive c hc x.opposite hx'
  rw [SignedVar.opposite, h.positive c hc x hx] at hpos
  cases hpos

/-- A formula without negated variables is false only if it does not hold when all variables are
true. -/
theorem Positive.isFalse_eq (h : f.Positive) : f.isFalse = !f.holds fun _ => true := by
  have hcube : ∀ c ∈ f.cubes, Cube.holds c (fun _ => true) = true := by
    intro c hc
    refine Cube.holds_iff.2 fun x hx => ?_
    rw [SignedVar.holds, h.positive c hc x hx]
    rfl
  cases hc : f.cubes with
  | nil => simp [isFalse, holds, hc]
  | cons c rest =>
    have := hcube c (hc ▸ List.mem_cons_self)
    simp [isFalse, holds, hc, this]

theorem positive_falsity : falsity.Positive := ⟨proper_falsity.ordered, by simp [falsity]⟩

theorem positive_truth : truth.Positive := ⟨proper_truth.ordered, by simp [truth]⟩

theorem positive_literal (i : Nat) : (literal ⟨i, true⟩).Positive :=
  ⟨(proper_literal _).ordered, by simp [literal]⟩

theorem Positive.or (hf : f.Positive) (hg : g.Positive) : (f.or g).Positive := by
  refine ⟨(hf.proper.or hg.proper).ordered, fun c hc => ?_⟩
  rcases List.mem_append.1 (mem_of_mem_ofCubes hc) with hc | hc
  · exact hf.positive c hc
  · exact hg.positive c hc

theorem Positive.and (hf : f.Positive) (hg : g.Positive) : (f.and g).Positive := by
  refine ⟨(hf.proper.and hg.proper).ordered, fun c hc x hx => ?_⟩
  obtain ⟨d, hd, e, he, -, rfl⟩ := mem_and_cubes.1 (mem_of_mem_ofCubes hc)
  rcases mem_union.1 hx with hx | hx
  · exact hf.positive d hd x hx
  · exact hg.positive e he x hx

theorem isFalse_or (hf : f.Positive) (hg : g.Positive) :
    (f.or g).isFalse = (f.isFalse && g.isFalse) := by
  rw [(hf.or hg).isFalse_eq, hf.isFalse_eq, hg.isFalse_eq, holds_or hf.proper hg.proper,
    Bool.not_or]

/-- Formulas without negated variables exclude each other only if one of them is false. -/
theorem isFalse_and (hf : f.Positive) (hg : g.Positive) :
    (f.and g).isFalse = (f.isFalse || g.isFalse) := by
  rw [(hf.and hg).isFalse_eq, hf.isFalse_eq, hg.isFalse_eq, holds_and hf.proper hg.proper,
    Bool.not_and]

/-! ### Restriction -/

variable {i : Nat} {v : Bool}

theorem mem_restrict_cubes {c : Cube} :
    c ∈ (f.cubes.filter (!·.contains ⟨i, !v⟩)).map (·.filter (· ≠ ⟨i, v⟩)) ↔
      ∃ d ∈ f.cubes, ⟨i, !v⟩ ∉ d ∧ d.filter (· ≠ ⟨i, v⟩) = c := by
  simp only [List.mem_map, List.mem_filter, and_assoc, Bool.not_eq_true', List.contains_eq_mem,
    decide_eq_false_iff_not]

theorem proper_restrict_cubes (hf : f.Proper) :
    ∀ c ∈ (f.cubes.filter (!·.contains ⟨i, !v⟩)).map (·.filter (· ≠ ⟨i, v⟩)), Cube.Proper c := by
  intro c hc
  obtain ⟨d, hd, -, rfl⟩ := mem_restrict_cubes.1 hc
  refine ⟨(hf d hd).sorted.filter _, fun x hx hx' => ?_⟩
  exact (hf d hd).consistent x (List.mem_filter.1 hx).1 (List.mem_filter.1 hx').1

theorem isSorted_restrict_cubes (hf : f.Ordered) :
    ∀ c ∈ (f.cubes.filter (!·.contains ⟨i, !v⟩)).map (·.filter (· ≠ ⟨i, v⟩)), IsSorted c := by
  intro c hc
  obtain ⟨d, hd, -, rfl⟩ := mem_restrict_cubes.1 hc
  exact (hf d hd).filter _

theorem Ordered.restrict (hf : f.Ordered) : (f.restrict i v).Ordered := fun c hc =>
  isSorted_restrict_cubes hf c (mem_of_mem_ofCubes hc)

/-- Restriction sets a variable, also where a cube has a variable with both signs. -/
theorem holds_restrict (hf : f.Ordered) :
    (f.restrict i v).holds a = f.holds (Function.update a i v) := by
  -- the value of a signed variable other than the ones that are set stays
  have hother : ∀ x : SignedVar, x ≠ ⟨i, v⟩ → x ≠ ⟨i, !v⟩ →
      x.holds (Function.update a i v) = x.holds a := by
    rintro ⟨j, positive⟩ h1 h2
    have hji : j ≠ i := by
      rintro rfl
      cases positive <;> cases v <;> simp_all
    simp [SignedVar.holds, Function.update_of_ne hji]
  rw [Bool.eq_iff_iff, Formula.restrict, holds_ofCubes (isSorted_restrict_cubes hf), holds_iff]
  constructor
  · rintro ⟨c, hc, ha⟩
    obtain ⟨d, hd, hn, rfl⟩ := mem_restrict_cubes.1 hc
    refine ⟨d, hd, Cube.holds_iff.2 fun x hx => ?_⟩
    by_cases hxv : x = ⟨i, v⟩
    · subst hxv
      simp [SignedVar.holds]
    · rw [hother x hxv fun h => hn (h ▸ hx)]
      exact Cube.holds_iff.1 ha x (List.mem_filter.2 ⟨hx, by simpa using hxv⟩)
  · rintro ⟨d, hd, ha⟩
    have hn : ⟨i, !v⟩ ∉ d := by
      intro hx
      have := Cube.holds_iff.1 ha _ hx
      simp [SignedVar.holds] at this
    refine ⟨_, mem_restrict_cubes.2 ⟨d, hd, hn, rfl⟩, Cube.holds_iff.2 fun x hx => ?_⟩
    obtain ⟨hx, hxv⟩ := List.mem_filter.1 hx
    rw [← hother x (by simpa using hxv) fun h => hn (h ▸ hx)]
    exact Cube.holds_iff.1 ha x hx

/-- A formula holds always if it does for both values of a variable. -/
theorem forall_restrict_iff (hf : f.Ordered) (i : Nat) :
    ((∀ a, (f.restrict i false).holds a = true) ∧ ∀ a, (f.restrict i true).holds a = true) ↔
      ∀ a, f.holds a = true := by
  simp only [holds_restrict hf]
  constructor
  · rintro ⟨h0, h1⟩ a
    cases hai : a i with
    | false => simpa [← hai] using h0 a
    | true => simpa [← hai] using h1 a
  · exact fun h => ⟨fun a => h _, fun a => h _⟩

theorem mem_occurrences_restrict {j : Nat} (h : j ∈ (f.restrict i v).occurrences) :
    j ∈ f.occurrences ∧ j ≠ i := by
  obtain ⟨c, hc, x, hx, rfl⟩ := mem_occurrences.1 h
  obtain ⟨d, hd, hn, rfl⟩ := mem_restrict_cubes.1 (mem_of_mem_ofCubes hc)
  obtain ⟨hx, hxv⟩ := List.mem_filter.1 hx
  refine ⟨mem_occurrences.2 ⟨d, hd, x, hx, rfl⟩, ?_⟩
  rintro rfl
  obtain ⟨j, positive⟩ := x
  cases positive <;> cases v <;> simp_all

/-! ### Validity -/

/-- Without variables a formula holds always or never. -/
theorem isTrue_of_holds (hocc : f.occurrences = []) (h : f.holds a = true) : f.isTrue = true := by
  obtain ⟨c, hc, -⟩ := holds_iff.1 h
  have : c = [] := by
    refine List.eq_nil_iff_forall_not_mem.2 fun x hx => ?_
    have := mem_occurrences.2 ⟨c, hc, x, hx, rfl⟩
    rw [hocc] at this
    simp at this
  simpa [isTrue, ← this] using hc

theorem isValidOver_iff (vars : List Nat) (hf : f.Ordered) (hv : ∀ i ∈ f.occurrences, i ∈ vars) :
    isValidOver vars f = true ↔ ∀ a, f.holds a = true := by
  -- by induction on the variables that may still occur
  induction vars generalizing f with
  | nil =>
    have hocc : f.occurrences = [] := List.eq_nil_iff_forall_not_mem.2 fun i hi => by
      simpa using hv i hi
    exact ⟨fun h a => holds_of_isTrue h, fun h => isTrue_of_holds hocc (h fun _ => true)⟩
  | cons i rest ih =>
    unfold isValidOver
    split
    next ht => simp [holds_of_isTrue ht]
    split
    next hfalse => simp [holds_of_isFalse hfalse]
    split
    · have hrest : ∀ v, ∀ j ∈ (f.restrict i v).occurrences, j ∈ rest := by
        intro v j hj
        obtain ⟨hj, hne⟩ := mem_occurrences_restrict hj
        exact (List.mem_cons.1 (hv j hj)).resolve_left hne
      rw [Bool.and_eq_true, ih hf.restrict (hrest false), ih hf.restrict (hrest true),
        forall_restrict_iff hf]
    next hni =>
      refine ih hf fun j hj => (List.mem_cons.1 (hv j hj)).resolve_left ?_
      rintro rfl
      exact hni (by simpa using hj)

/-- **The check for validity tells whether a formula always holds.** -/
theorem isValid_iff (hf : f.Ordered) : f.isValid = true ↔ ∀ a, f.holds a = true :=
  isValidOver_iff f.vars hf fun _ hi => mem_ofList.2 hi

end Formula

end ProbDatalog
