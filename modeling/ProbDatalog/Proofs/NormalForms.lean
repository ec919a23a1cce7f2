import ProbDatalog.Proofs.Formulas
import Mathlib.Data.List.Induction

/-!
# Normal forms

A formula in normal form has consistent cubes none of which is a part of another. It is determined
by the cubes that have one of its cubes as a part, and a conjunction has those of both formulas. So
it does not matter in which order cubes are collected or negated, nor that redundant ones are found
by a sweep that compares each cube only with shorter ones that were kept.

* `Formula.sweep`: the sweep from the shortest cubes to the longest.
* `Formula.sweep_eq_ofCubes`: **the sweep keeps exactly the minimal cubes.**
* `Formula.Normal.eq_of_absorbs`: normal forms are determined by the cubes that they absorb.
* `Formula.notCubes_eq`: the cubes of a formula may be negated in any order.
* `Formula.Built.boolean_normal`: **operations are Boolean operations and keep normal forms.**
-/

namespace ProbDatalog

open Sorted

/-- Cubes that are parts of each other are equal. -/
theorem Cube.isPart_antisymm {c d : Cube} (hc : IsSorted c) (hd : IsSorted d)
    (h : c.isPart d = true) (h' : d.isPart c = true) : c = d :=
  hc.eq_of_mem_iff hd fun x => ⟨Cube.isPart_iff.1 h x, Cube.isPart_iff.1 h' x⟩

/-- A cube is no part of another one that is not longer. -/
theorem Cube.isPart_eq_false {c d : Cube} (hc : IsSorted c) (hd : IsSorted d) (hne : c ≠ d)
    (hlen : d.length ≤ c.length) : c.isPart d = false := by
  by_contra htrue
  have hlt := Cube.length_lt_of_isPart hc hd (by simpa using htrue) hne
  exact absurd hlen (Nat.not_le_of_lt hlt)

namespace Formula

variable {f g : Formula} {cubes cs ds : List Cube} {c d : Cube}

/-! ## Sweeping -/

/-- Keep a cube unless one that was kept is a part of it. -/
def keep (kept : List Cube) (c : Cube) : List Cube :=
  if kept.any (·.isPart c) then kept else kept ++ [c]

/-- The disjunction of cubes, found by going through them from the shortest to the longest. -/
def sweep (cubes : List Cube) : Formula :=
  ⟨Sorted.ofList ((cubes.mergeSort fun c d => c.length ≤ d.length).foldl keep [])⟩

theorem isSorted_ofCubes (cubes : List Cube) : IsSorted (ofCubes cubes).cubes :=
  (isSorted_ofList cubes).filter _

/-- Formulas with sorted cubes are determined by the set of these. -/
theorem eq_of_mem_iff (hf : IsSorted f.cubes) (hg : IsSorted g.cubes)
    (h : ∀ c, c ∈ f.cubes ↔ c ∈ g.cubes) : f = g :=
  congrArg Formula.mk (hf.eq_of_mem_iff hg h)

/-- The minimal cubes are those of the set of the cubes. -/
theorem ofCubes_congr (h : ∀ c, c ∈ cs ↔ c ∈ ds) : ofCubes cs = ofCubes ds := by
  refine eq_of_mem_iff (isSorted_ofCubes cs) (isSorted_ofCubes ds) fun c => ?_
  simp only [mem_ofCubes_iff, h]

/-- One more cube, not shorter than the others, is minimal unless it has one of them as a part. -/
theorem mem_ofCubes_concat (h : ∀ d ∈ cubes ++ [c], IsSorted d)
    (hlen : ∀ d ∈ cubes, d.length ≤ c.length) :
    d ∈ (ofCubes (cubes ++ [c])).cubes ↔
      d ∈ (ofCubes cubes).cubes ∨ d = c ∧ ∀ k ∈ (ofCubes cubes).cubes, k.isPart c = false := by
  have hcubes : ∀ d ∈ cubes, IsSorted d := fun d hd => h d (List.mem_append_left _ hd)
  have hc : IsSorted c := h c (by simp)
  constructor
  · intro hd
    obtain ⟨hmem, hmin⟩ := mem_ofCubes_iff.1 hd
    have hmin' : ∀ other ∈ cubes, other ≠ d → Cube.isPart other d = false := fun other ho =>
      hmin other (List.mem_append_left _ ho)
    by_cases hold : d ∈ cubes
    · exact .inl (mem_ofCubes_iff.2 ⟨hold, hmin'⟩)
    · have heq : d = c := by simpa [hold] using hmem
      subst heq
      refine .inr ⟨rfl, fun k hk => hmin' k (mem_of_mem_ofCubes hk) ?_⟩
      rintro rfl
      exact hold (mem_of_mem_ofCubes hk)
  · rintro (hd | ⟨rfl, hkept⟩)
    · obtain ⟨hmem, hmin⟩ := mem_ofCubes_iff.1 hd
      refine mem_ofCubes_iff.2 ⟨List.mem_append_left _ hmem, fun other ho hne => ?_⟩
      rcases List.mem_append.1 ho with ho | ho
      · exact hmin other ho hne
      · obtain rfl := List.mem_singleton.1 ho
        exact Cube.isPart_eq_false hc (hcubes d hmem) hne (hlen d hmem)
    · refine mem_ofCubes_iff.2 ⟨by simp, fun other ho hne => ?_⟩
      rcases List.mem_append.1 ho with ho | ho
      · -- a part of the longer cube would have a part that was kept
        by_contra htrue
        obtain ⟨k, hk, hko⟩ := exists_isPart_of_mem hcubes ho
        have := Cube.isPart_trans hko (by simpa using htrue)
        rw [hkept k hk] at this
        cases this
      · exact absurd (List.mem_singleton.1 ho) hne

/-- What is kept of cubes that come in the order of their lengths. -/
theorem mem_foldl_keep_iff (h : ∀ c ∈ cubes, IsSorted c)
    (hlen : cubes.Pairwise fun c d => c.length ≤ d.length) :
    d ∈ cubes.foldl keep [] ↔ d ∈ (ofCubes cubes).cubes := by
  -- by induction on the cubes that were gone through: those kept are the minimal ones of them
  induction cubes using List.reverseRecOn generalizing d with
  | nil => simp [ofCubes, Sorted.ofList, Sorted.union]
  | append_singleton cubes c ih =>
    obtain ⟨hrest, -, hle⟩ := List.pairwise_append.1 hlen
    have hkept : ∀ k, k ∈ cubes.foldl keep [] ↔ k ∈ (ofCubes cubes).cubes := fun k =>
      ih (fun d hd => h d (List.mem_append_left _ hd)) hrest
    rw [mem_ofCubes_concat h fun d hd => hle d hd c (by simp), List.foldl_append, List.foldl_cons,
      List.foldl_nil, keep]
    split
    next hany =>
      obtain ⟨k, hk, hpart⟩ := List.any_eq_true.1 hany
      have hfalse : ¬(d = c ∧ ∀ k ∈ (ofCubes cubes).cubes, Cube.isPart k c = false) := by
        rintro ⟨-, hnone⟩
        rw [hnone k ((hkept k).1 hk)] at hpart
        cases hpart
      rw [hkept, or_iff_left hfalse]
    next hnone =>
      have htrue : ∀ k ∈ (ofCubes cubes).cubes, Cube.isPart k c = false := fun k hk => by
        simpa using fun hpart => hnone (List.any_eq_true.2 ⟨k, (hkept k).2 hk, hpart⟩)
      rw [List.mem_append, List.mem_singleton, hkept, and_iff_left htrue]

/-- **The sweep keeps exactly the minimal cubes.** -/
theorem sweep_eq_ofCubes (h : ∀ c ∈ cubes, IsSorted c) : sweep cubes = ofCubes cubes := by
  let shorter : Cube → Cube → Bool := fun c d => c.length ≤ d.length
  set ordered := cubes.mergeSort shorter with hordered
  have hmem : ∀ c, c ∈ ordered ↔ c ∈ cubes := fun c => List.mem_mergeSort
  have hshorter : ordered.Pairwise fun c d => shorter c d = true := by
    refine List.pairwise_mergeSort (fun b c d hbc hcd => ?_) (fun c d => ?_) cubes
    · exact decide_eq_true (Nat.le_trans (of_decide_eq_true hbc) (of_decide_eq_true hcd))
    · simpa [shorter] using Nat.le_total c.length d.length
  have hlen : ordered.Pairwise fun c d => c.length ≤ d.length :=
    hshorter.imp fun hcd => of_decide_eq_true hcd
  rw [← ofCubes_congr hmem]
  refine eq_of_mem_iff (isSorted_ofList _) (isSorted_ofCubes ordered) fun c => ?_
  exact mem_ofList.trans (mem_foldl_keep_iff (fun c hc => h c ((hmem c).1 hc)) hlen)

/-! ## Normal forms -/

/-- The cubes are a set of consistent cubes, and none is a part of another. -/
structure Normal (f : Formula) : Prop where
  sorted : IsSorted f.cubes
  proper : f.Proper
  minimal : ∀ c ∈ f.cubes, ∀ d ∈ f.cubes, Cube.isPart c d = true → c = d

theorem normal_ofCubes (h : ∀ c ∈ cubes, Cube.Proper c) : (ofCubes cubes).Normal := by
  refine ⟨isSorted_ofCubes cubes, proper_ofCubes h, fun c hc d hd hpart => ?_⟩
  by_contra hne
  rw [(mem_ofCubes_iff.1 hd).2 c (mem_of_mem_ofCubes hc) hne] at hpart
  cases hpart

theorem normal_truth : truth.Normal :=
  ⟨isSorted_singleton [], proper_truth, by simp [truth]⟩

theorem normal_falsity : falsity.Normal :=
  ⟨isSorted_nil, proper_falsity, by simp [falsity]⟩

theorem normal_literal (x : SignedVar) : (literal x).Normal :=
  ⟨isSorted_singleton [x], proper_literal x, by simp [literal]⟩

theorem Normal.or (hf : f.Normal) (hg : g.Normal) : (f.or g).Normal :=
  normal_ofCubes (proper_or_cubes hf.proper hg.proper)

theorem Normal.and (hf : f.Normal) (hg : g.Normal) : (f.and g).Normal :=
  normal_ofCubes (proper_and_cubes hf.proper hg.proper)

theorem normal_notCube (c : Cube) : (notCube c).Normal := normal_ofCubes (proper_notCube_cubes c)

/-- The conjunction of a formula with the negations of cubes. -/
theorem Normal.foldl_not (hg : g.Normal) (cs : List Cube) :
    (cs.foldl (fun g c => g.and (notCube c)) g).Normal := by
  induction cs generalizing g with
  | nil => exact hg
  | cons c rest ih => exact ih (hg.and (normal_notCube c))

theorem Normal.restrict (hf : f.Normal) (i : Nat) (v : Bool) : (f.restrict i v).Normal :=
  normal_ofCubes (proper_restrict_cubes hf.proper)

/-! ### Formulas and the cubes that they absorb -/

/-- One of the cubes of the formula is a part of the cube, which adds nothing to it then. -/
def Absorbs (f : Formula) (d : Cube) : Prop := ∃ c ∈ f.cubes, Cube.isPart c d = true

/-- What a formula absorbs does not depend on redundant cubes. -/
theorem absorbs_ofCubes (h : ∀ c ∈ cubes, IsSorted c) :
    (ofCubes cubes).Absorbs d ↔ ∃ c ∈ cubes, Cube.isPart c d = true := by
  constructor
  · rintro ⟨c, hc, hpart⟩
    exact ⟨c, mem_of_mem_ofCubes hc, hpart⟩
  · rintro ⟨c, hc, hpart⟩
    obtain ⟨k, hk, hkc⟩ := exists_isPart_of_mem h hc
    exact ⟨k, hk, Cube.isPart_trans hkc hpart⟩

/-- A conjunction absorbs the consistent cubes that both formulas absorb. -/
theorem absorbs_and (hf : f.Proper) (hg : g.Proper) (hd : d.Proper) :
    (f.and g).Absorbs d ↔ f.Absorbs d ∧ g.Absorbs d := by
  rw [Formula.and, absorbs_ofCubes fun c hc => (proper_and_cubes hf hg c hc).sorted]
  constructor
  · rintro ⟨c, hc, hpart⟩
    obtain ⟨k, hk, l, hl, -, rfl⟩ := mem_and_cubes.1 hc
    have hmem := Cube.isPart_iff.1 hpart
    exact ⟨⟨k, hk, Cube.isPart_iff.2 fun x hx => hmem x (mem_union.2 (.inl hx))⟩,
      l, hl, Cube.isPart_iff.2 fun x hx => hmem x (mem_union.2 (.inr hx))⟩
  · rintro ⟨⟨k, hk, hkd⟩, l, hl, hld⟩
    have hkd := Cube.isPart_iff.1 hkd
    have hld := Cube.isPart_iff.1 hld
    -- parts of one consistent cube agree
    have hagree : Cube.agrees k l = true :=
      Cube.agrees_iff.2 fun x hx hx' => hd.consistent x (hld x hx) (hkd _ hx')
    refine ⟨_, mem_and_cubes.2 ⟨k, hk, l, hl, hagree, rfl⟩, Cube.isPart_iff.2 fun x hx => ?_⟩
    exact (mem_union.1 hx).elim (hkd x) (hld x)

/-- Negated cubes absorb what each of them absorbs, whatever their order. -/
theorem absorbs_foldl_not (hg : g.Normal) (hd : d.Proper) (cs : List Cube) :
    (cs.foldl (fun g c => g.and (notCube c)) g).Absorbs d ↔
      g.Absorbs d ∧ ∀ c ∈ cs, (notCube c).Absorbs d := by
  induction cs generalizing g with
  | nil => simp
  | cons c rest ih =>
    rw [List.foldl_cons, ih (hg.and (normal_notCube c)),
      absorbs_and hg.proper (proper_notCube c) hd, and_assoc, List.forall_mem_cons]

/-- A cube of a normal form is one of every other formula that absorbs the same cubes. -/
theorem Normal.mem_of_absorbs (hf : f.Normal) (hg : g.Proper)
    (h : ∀ d : Cube, d.Proper → (f.Absorbs d ↔ g.Absorbs d)) (hc : c ∈ f.cubes) : c ∈ g.cubes := by
  obtain ⟨k, hk, hkc⟩ := (h c (hf.proper c hc)).1 ⟨c, hc, Cube.isPart_refl c⟩
  -- the cube of `f` that is a part of `k` is a part of `c`, so it is `c`
  obtain ⟨e, he, hek⟩ := (h k (hg k hk)).2 ⟨k, hk, Cube.isPart_refl k⟩
  obtain rfl := hf.minimal e he c hc (Cube.isPart_trans hek hkc)
  rwa [Cube.isPart_antisymm (hf.proper e he).sorted (hg k hk).sorted hek hkc]

/-- **Normal forms are determined by the consistent cubes that they absorb.** -/
theorem Normal.eq_of_absorbs (hf : f.Normal) (hg : g.Normal)
    (h : ∀ d : Cube, d.Proper → (f.Absorbs d ↔ g.Absorbs d)) : f = g :=
  eq_of_mem_iff hf.sorted hg.sorted fun _ =>
    ⟨hf.mem_of_absorbs hg.proper h, hg.mem_of_absorbs hf.proper fun d hd => (h d hd).symm⟩

/-! ## Operations on cubes in any order -/

/-- The cubes are those of the formula, in any order and any number of times. -/
def ListedBy (f : Formula) (cs : List Cube) : Prop := ∀ c, c ∈ cs ↔ c ∈ f.cubes

/-- The disjunction of the disjunctions of cubes. -/
def orCubes (cs ds : List Cube) : Formula := sweep (cs ++ ds)

/-- The conjunction of the disjunctions of cubes. -/
def andCubes (cs ds : List Cube) : Formula :=
  sweep <| cs.flatMap fun c => (ds.filter (Cube.agrees c)).map (Sorted.union c)

/-- The negation of the disjunction of cubes. -/
def notCubes (cs : List Cube) : Formula :=
  cs.foldl (fun g c => andCubes g.cubes (sweep (c.map fun x => [x.opposite])).cubes) truth

/-- The disjunction of cubes with a variable set to a value. -/
def restrictCubes (cs : List Cube) (index : Nat) (value : Bool) : Formula :=
  sweep <| (cs.filter (!·.contains ⟨index, !value⟩)).map (·.filter (· ≠ ⟨index, value⟩))

/-- A sweep finds a formula from any list of its cubes. -/
theorem sweep_eq_of_mem_iff (hds : ∀ c ∈ ds, Cube.Proper c) (h : ∀ c, c ∈ cs ↔ c ∈ ds) :
    sweep cs = ofCubes ds := by
  rw [sweep_eq_ofCubes fun c hc => (hds c ((h c).1 hc)).sorted, ofCubes_congr h]

theorem orCubes_eq (hf : f.Proper) (hg : g.Proper) (hcs : f.ListedBy cs) (hds : g.ListedBy ds) :
    orCubes cs ds = f.or g :=
  sweep_eq_of_mem_iff (proper_or_cubes hf hg) fun c => by
    rw [List.mem_append, List.mem_append, hcs c, hds c]

theorem andCubes_eq (hf : f.Proper) (hg : g.Proper) (hcs : f.ListedBy cs) (hds : g.ListedBy ds) :
    andCubes cs ds = f.and g :=
  sweep_eq_of_mem_iff (proper_and_cubes hf hg) fun c => by
    simp only [List.mem_flatMap, List.mem_map, List.mem_filter, hcs _, hds _]

theorem restrictCubes_eq (hf : f.Proper) (hcs : f.ListedBy cs) (i : Nat) (v : Bool) :
    restrictCubes cs i v = f.restrict i v :=
  sweep_eq_of_mem_iff (proper_restrict_cubes hf) fun c => by
    simp only [List.mem_map, List.mem_filter, hcs _]

/-- The cubes that are negated need not be sorted, as each is gone through as a list. -/
theorem foldl_notCubes_eq (hg : g.Proper) (cs : List Cube) :
    cs.foldl (fun g c => andCubes g.cubes (sweep (c.map fun x => [x.opposite])).cubes) g =
      cs.foldl (fun g c => g.and (notCube c)) g := by
  induction cs generalizing g with
  | nil => rfl
  | cons c rest ih =>
    have hcube : sweep (c.map fun x => [x.opposite]) = notCube c :=
      sweep_eq_of_mem_iff (proper_notCube_cubes c) fun _ => Iff.rfl
    have hand : andCubes g.cubes (notCube c).cubes = g.and (notCube c) :=
      andCubes_eq hg (proper_notCube c) (fun _ => Iff.rfl) fun _ => Iff.rfl
    rw [List.foldl_cons, List.foldl_cons, hcube, hand, ih (hg.and (proper_notCube c))]

/-- **The cubes of a formula may be negated in any order.** -/
theorem notCubes_eq (hcs : f.ListedBy cs) : notCubes cs = f.not := by
  rw [notCubes, foldl_notCubes_eq proper_truth, Formula.not]
  refine (normal_truth.foldl_not cs).eq_of_absorbs (normal_truth.foldl_not f.cubes) fun d hd => ?_
  simp only [absorbs_foldl_not normal_truth hd, hcs _]

/-! ## Formulas that are built -/

/-- What is built from the formulas that are true, false or a literal by the operations. -/
inductive Built : Formula → Prop where
  | truth : Built truth
  | falsity : Built falsity
  | literal (x : SignedVar) : Built (literal x)
  | or {f g : Formula} (hf : Built f) (hg : Built g) : Built (f.or g)
  | and {f g : Formula} (hf : Built f) (hg : Built g) : Built (f.and g)
  | not {f : Formula} (hf : Built f) : Built f.not
  | restrict {f : Formula} (hf : Built f) (i : Nat) (v : Bool) : Built (f.restrict i v)

theorem Built.normal (h : f.Built) : f.Normal := by
  induction h with
  | truth => exact normal_truth
  | falsity => exact normal_falsity
  | literal x => exact normal_literal x
  | or _ _ hf hg => exact hf.or hg
  | and _ _ hf hg => exact hf.and hg
  | not _ _ => exact normal_truth.foldl_not _
  | restrict _ i v hf => exact hf.restrict i v

/-- **The operations are Boolean operations and keep normal forms**, and the cubes of their results
depend on the sets of the cubes that they are given, not on the order in which these come. -/
theorem Built.boolean_normal (hf : f.Built) (hg : g.Built) :
    f.Normal ∧ (f.isFalse = true ↔ ∀ a, f.holds a = false) ∧
      (∀ a, (f.or g).holds a = (f.holds a || g.holds a) ∧
        (f.and g).holds a = (f.holds a && g.holds a) ∧ f.not.holds a = !f.holds a) ∧
      (∀ i v, (∀ a, (f.restrict i v).holds a = f.holds (Function.update a i v)) ∧
        i ∉ (f.restrict i v).occurrences) ∧
      ∀ cs ds, f.ListedBy cs → g.ListedBy ds →
        orCubes cs ds = f.or g ∧ andCubes cs ds = f.and g ∧ notCubes cs = f.not ∧
          ∀ i v, restrictCubes cs i v = f.restrict i v := by
  have hpf : f.Proper := hf.normal.proper
  have hpg : g.Proper := hg.normal.proper
  refine ⟨hf.normal, isFalse_iff hpf, fun a => ⟨holds_or hpf hpg, holds_and hpf hpg, holds_not f⟩,
    fun i v => ⟨fun a => holds_restrict hpf.ordered, fun hi => ?_⟩, fun cs ds hcs hds => ?_⟩
  · exact (mem_occurrences_restrict hi).2 rfl
  · exact ⟨orCubes_eq hpf hpg hcs hds, andCubes_eq hpf hpg hcs hds, notCubes_eq hcs,
      restrictCubes_eq hpf hcs⟩

/-- One variable, or another one without it. -/
def either : Formula :=
  (literal ⟨0, true⟩).or ((literal ⟨0, false⟩).and (literal ⟨1, true⟩))

theorem built_either : either.Built := .or (.literal _) (.and (.literal _) (.literal _))

/-- Its cubes in another order and with a repetition have the same negation. -/
theorem either_negated :
    either.Built ∧ either.ListedBy [[⟨0, true⟩], [⟨0, false⟩, ⟨1, true⟩], [⟨0, true⟩]] ∧
      notCubes [[⟨0, true⟩], [⟨0, false⟩, ⟨1, true⟩], [⟨0, true⟩]] =
        ⟨[[⟨0, false⟩, ⟨1, false⟩]]⟩ := by
  have hlisted : either.ListedBy [[⟨0, true⟩], [⟨0, false⟩, ⟨1, true⟩], [⟨0, true⟩]] := by
    have hcubes : either.cubes = [[⟨0, false⟩, ⟨1, true⟩], [⟨0, true⟩]] := by decide
    intro c
    rw [hcubes]
    simp
    tauto
  have hnot := (Built.boolean_normal built_either .truth).2.2.2.2 _ _ hlisted fun _ => Iff.rfl
  exact ⟨built_either, hlisted, hnot.2.2.1.trans (by decide)⟩

end Formula

end ProbDatalog
