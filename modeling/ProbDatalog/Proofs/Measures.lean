import ProbDatalog.Formula.Measure
import ProbDatalog.Proofs.Formulas
import ProbDatalog.Proofs.Mass
import Mathlib.Data.List.Nodup

/-!
# Exact probabilities of formulas

In exact arithmetic the probability of a formula is the mass of the assignments under which it
holds. Cubes without common variables are independent, and splitting on a variable is what one
thing more to choose comes to.

* `mass_restrict`: splitting on a variable.
* `independentMeasure_eq`: the measure of cubes without common variables.
* `splitInduction`: induction along the splits of a formula.
* `measureBy_eq_of_le`: the bound on the number of splits is never felt.
* `measure_eq_exactMass`: **the computed probability is the mass of the formula.**
* `measure_rename`: variables may be renamed.
-/

namespace ProbDatalog

open Sorted

/-- The assignment that makes exactly the chosen variables true. -/
def choosing (T : Finset Nat) (i : Nat) : Bool := decide (i ∈ T)

namespace Formula

variable {f : Formula} {p : Nat → ℚ} {V : Finset Nat} {c : Cube} {cubes : List Cube} {i : Nat}

/-! ## Cubes -/

theorem cubeMeasure_eq (p : Nat → ℚ) (c : Cube) :
    cubeMeasure p c = (c.map (signedMeasure p)).prod := by
  -- over the fold, from any number to start with
  have key : ∀ q : ℚ, c.foldl (fun q x => q * signedMeasure p x) q =
      q * (c.map (signedMeasure p)).prod := by
    induction c with
    | nil => simp
    | cons x rest ih =>
      intro q
      rw [List.foldl_cons, ih, List.map_cons, List.prod_cons, mul_assoc]
  exact (key 1).trans (one_mul _)

theorem independentMeasure_eq_prod (p : Nat → ℚ) (cubes : List Cube) :
    independentMeasure p cubes = 1 - (cubes.map fun c => 1 - cubeMeasure p c).prod := by
  have key : ∀ q : ℚ, cubes.foldl (fun q c => q * (1 - cubeMeasure p c)) q =
      q * (cubes.map fun c => 1 - cubeMeasure p c).prod := by
    induction cubes with
    | nil => simp
    | cons c rest ih =>
      intro q
      rw [List.foldl_cons, ih, List.map_cons, List.prod_cons, mul_assoc]
  exact congrArg (1 - ·) ((key 1).trans (one_mul _))

theorem signedMeasure_eq (p : Nat → ℚ) (x : SignedVar) :
    signedMeasure p x = if x.positive then p x.index else 1 - p x.index := rfl

theorem holds_choosing_iff {T : Finset Nat} {x : SignedVar} :
    x.holds (choosing T) = true ↔ (x.index ∈ T ↔ x.positive = true) := by
  unfold SignedVar.holds choosing
  cases x.positive <;> simp

/-- What a cube says of other variables does not change. -/
theorem cubeHolds_insert {T : Finset Nat} (h : ∀ x ∈ c, x.index ≠ i) :
    c.holds (choosing (insert i T)) = true ↔ c.holds (choosing T) = true := by
  rw [Cube.holds_iff, Cube.holds_iff]
  refine forall₂_congr fun x hx => ?_
  rw [holds_choosing_iff, holds_choosing_iff, Finset.mem_insert, or_iff_right (h x hx)]

/-- The mass of a cube whose variables differ. -/
theorem mass_cube (hnd : (c.map SignedVar.index).Nodup) (hV : ∀ x ∈ c, x.index ∈ V) :
    mass p V (fun T => c.holds (choosing T) = true) = cubeMeasure p c := by
  rw [cubeMeasure_eq]
  induction c generalizing V with
  | nil => simpa [Cube.holds] using mass_true p V
  | cons x rest ih =>
    rw [List.map_cons, List.nodup_cons] at hnd
    have hne : ∀ y ∈ rest, y.index ≠ x.index := fun y hy heq =>
      hnd.1 (heq ▸ List.mem_map_of_mem hy)
    have hrest : ∀ y ∈ rest, y.index ∈ V.erase x.index := fun y hy =>
      Finset.mem_erase.2 ⟨hne y hy, hV y (List.mem_cons_of_mem _ hy)⟩
    have hcons : ∀ T, Cube.holds (x :: rest) (choosing T) = true ↔
        (x.index ∈ T ↔ x.positive = true) ∧ Cube.holds rest (choosing T) = true := fun T => by
      rw [← holds_choosing_iff]
      simp [Cube.holds]
    rw [← Finset.insert_erase (hV x List.mem_cons_self),
      mass_insert (Finset.notMem_erase x.index V), List.map_cons, List.prod_cons,
      ← ih hnd.2 hrest, signedMeasure_eq]
    have hmem : ∀ T, (Cube.holds rest (choosing (insert x.index T)) = true ↔
        Cube.holds rest (choosing T) = true) := fun T => cubeHolds_insert hne
    have hout : ∀ T ⊆ V.erase x.index, x.index ∉ T := fun T hT hx =>
      Finset.notMem_erase x.index V (hT hx)
    -- the sign of the first variable decides which half of the split is left
    cases hpos : x.positive with
    | true =>
      have h1 : ∀ T ⊆ V.erase x.index,
          (Cube.holds (x :: rest) (choosing (insert x.index T)) = true ↔
          Cube.holds rest (choosing T) = true) := fun T _ => by simp [hcons, hpos, hmem]
      have h0 : ∀ T ⊆ V.erase x.index, (Cube.holds (x :: rest) (choosing T) = true ↔ False) :=
        fun T hT => by simp [hcons, hpos, hout T hT]
      rw [mass_congr h1, mass_congr h0, mass_false]
      simp
    | false =>
      have h1 : ∀ T ⊆ V.erase x.index,
          (Cube.holds (x :: rest) (choosing (insert x.index T)) = true ↔
          False) := fun T _ => by simp [hcons, hpos]
      have h0 : ∀ T ⊆ V.erase x.index, (Cube.holds (x :: rest) (choosing T) = true ↔
          Cube.holds rest (choosing T) = true) := fun T hT => by simp [hcons, hpos, hout T hT]
      rw [mass_congr h1, mass_congr h0, mass_false]
      simp

/-- A cube depends on its variables alone. -/
theorem cubeHolds_inter {T W : Finset Nat} (h : ∀ x ∈ c, x.index ∈ W) :
    c.holds (choosing T) = true ↔ c.holds (choosing (T ∩ W)) = true := by
  rw [Cube.holds_iff, Cube.holds_iff]
  refine forall₂_congr fun x hx => ?_
  rw [holds_choosing_iff, holds_choosing_iff, Finset.mem_inter, and_iff_left (h x hx)]

/-- The mass of no cube being true, where no variable occurs twice. -/
theorem mass_none (hnd : (cubes.flatten.map SignedVar.index).Nodup)
    (hV : ∀ c ∈ cubes, ∀ x ∈ c, x.index ∈ V) :
    mass p V (fun T => ∀ c ∈ cubes, ¬c.holds (choosing T) = true) =
      (cubes.map fun c => 1 - cubeMeasure p c).prod := by
  induction cubes generalizing V with
  | nil => simpa using mass_true p V
  | cons c rest ih =>
    rw [List.flatten_cons, List.map_append, List.nodup_append'] at hnd
    obtain ⟨hc, hrest, hdis⟩ := hnd
    -- the variables of the first cube and all others
    have hW : (c.map SignedVar.index).toFinset ⊆ V := by
      intro j hj
      obtain ⟨x, hx, rfl⟩ := List.mem_map.1 (List.mem_toFinset.1 hj)
      exact hV c List.mem_cons_self x hx
    have hcW : ∀ x ∈ c, x.index ∈ (c.map SignedVar.index).toFinset := fun x hx =>
      List.mem_toFinset.2 (List.mem_map_of_mem hx)
    have hrestW : ∀ d ∈ rest, ∀ x ∈ d, x.index ∈ V \ (c.map SignedVar.index).toFinset := by
      intro d hd x hx
      refine Finset.mem_sdiff.2 ⟨hV d (List.mem_cons_of_mem _ hd) x hx, fun hmem => ?_⟩
      refine hdis (List.mem_toFinset.1 hmem) (List.mem_map.2 ⟨x, ?_, rfl⟩)
      exact List.mem_flatten.2 ⟨d, hd, hx⟩
    -- cubes without common variables are independent
    have hand := mass_and (p := p) (F := fun T => ¬c.holds (choosing T) = true)
      (G := fun T => ∀ d ∈ rest, ¬d.holds (choosing T) = true)
      (Finset.disjoint_sdiff (s := (c.map SignedVar.index).toFinset) (t := V))
    rw [Finset.union_sdiff_of_subset hW, ih hrest hrestW, mass_not, mass_cube hc hcW] at hand
    rw [List.map_cons, List.prod_cons, ← hand]
    refine mass_congr fun T _ => ?_
    rw [List.forall_mem_cons, cubeHolds_inter hcW]
    refine and_congr_right fun _ => forall₂_congr fun d hd => ?_
    rw [cubeHolds_inter (hrestW d hd)]

/-- **The measure of cubes without common variables** is the mass of one of them being true. -/
theorem independentMeasure_eq (hnd : f.occurrences.Nodup) (hV : ∀ i ∈ f.occurrences, i ∈ V) :
    independentMeasure p f.cubes = mass p V fun T => f.holds (choosing T) = true := by
  have hV' : ∀ c ∈ f.cubes, ∀ x ∈ c, x.index ∈ V := fun c hc x hx =>
    hV _ (mem_occurrences.2 ⟨c, hc, x, hx, rfl⟩)
  rw [independentMeasure_eq_prod, ← mass_none hnd hV', ← mass_not]
  refine mass_congr fun T _ => ?_
  rw [holds_iff]
  push Not
  rfl

/-! ## Splitting -/

/-- Splitting on a variable. -/
theorem mass_restrict (hf : f.Ordered) (hi : i ∈ V) :
    mass p V (fun T => f.holds (choosing T) = true) =
      p i * mass p (V.erase i) (fun T => (f.restrict i true).holds (choosing T) = true) +
        (1 - p i) *
          mass p (V.erase i) (fun T => (f.restrict i false).holds (choosing T) = true) := by
  rw [← Finset.insert_erase hi, mass_insert (Finset.notMem_erase i V),
    Finset.erase_insert (Finset.notMem_erase i V)]
  congr 2
  · refine mass_congr fun T _ => ?_
    have hupd : choosing (insert i T) = Function.update (choosing T) i true := by
      funext j
      by_cases hj : j = i
      · subst hj
        simp [choosing]
      · simp [choosing, hj]
    rw [holds_restrict hf, hupd]
  · refine mass_congr fun T hT => ?_
    have hupd : choosing T = Function.update (choosing T) i false := by
      have hiT : i ∉ T := fun h => Finset.notMem_erase i V (hT h)
      funext j
      by_cases hj : j = i
      · subst hj
        simp [choosing, hiT]
      · simp [Function.update_of_ne hj]
    rw [holds_restrict hf, ← hupd]

/-- Variables that do not occur do not matter. -/
theorem mass_of_occurrences (hV : ∀ i ∈ f.occurrences, i ∈ V) :
    mass p V (fun T => f.holds (choosing T) = true) =
      mass p f.vars.toFinset (fun T => f.holds (choosing T) = true) := by
  refine mass_of_subset (fun i hi => hV i (mem_ofList.1 (List.mem_toFinset.1 hi))) fun T _ => ?_
  rw [holds_congr (b := choosing (T ∩ f.vars.toFinset)) fun i hi => ?_]
  have : i ∈ f.vars.toFinset := List.mem_toFinset.2 (mem_ofList.2 hi)
  simp [choosing, this]

section Candidates

variable {β : Type} {step : Option β → β → Option β} {best : Option β}

/-- A candidate that is picked is the first one or a later one. -/
theorem mem_of_foldl_pick (hstep : ∀ best v, step best v = best ∨ step best v = some v)
    {candidates : List β} {b : β} (h : candidates.foldl step best = some b) :
    best = some b ∨ b ∈ candidates := by
  induction candidates generalizing best with
  | nil => exact .inl h
  | cons v rest ih =>
    rcases ih h with hb | hb
    · rcases hstep best v with heq | heq
      · exact .inl (heq.symm.trans hb)
      · obtain rfl : v = b := Option.some.inj (heq.symm.trans hb)
        exact .inr List.mem_cons_self
    · exact .inr (List.mem_cons_of_mem _ hb)

/-- Where no candidate is picked, none is good enough. -/
theorem pick_eq_none_of_foldl (hstep : ∀ b v, step (some b) v ≠ none) {candidates : List β}
    (h : candidates.foldl step best = none) :
    best = none ∧ ∀ v ∈ candidates, step none v = none := by
  induction candidates generalizing best with
  | nil => exact ⟨h, by simp⟩
  | cons v rest ih =>
    obtain ⟨hv, hrest⟩ := ih h
    cases best with
    | none => exact ⟨rfl, List.forall_mem_cons.2 ⟨hv, hrest⟩⟩
    | some b => exact absurd hv (hstep b v)

end Candidates

/-- A variable that is shared occurs, and where none is, no variable occurs twice. -/
theorem sharedVariable?_spec (f : Formula) :
    (∀ i, f.sharedVariable? = some i → i ∈ f.occurrences) ∧
      (f.sharedVariable? = none → f.occurrences.Nodup) := by
  -- the step from one candidate to the next, by its two equations
  obtain ⟨step, hnew, hold, hshared⟩ : ∃ step : Option (Nat × Nat) → Nat × Nat → Option (Nat × Nat),
      (∀ v, step none v = if 1 < v.2 then some v else none) ∧
      (∀ b v, step (some b) v = if b.2 < v.2 then some v else some b) ∧
      f.sharedVariable? =
        ((f.vars.map fun v => (v, f.occurrences.count v)).foldl step none).map Prod.fst :=
    ⟨_, fun _ => rfl, fun _ _ => rfl, rfl⟩
  have hpick : ∀ best v, step best v = best ∨ step best v = some v := by
    intro best v
    cases best with
    | none =>
      rw [hnew]
      split <;> simp
    | some b =>
      rw [hold]
      split <;> simp
  have hkeep : ∀ b v, step (some b) v ≠ none := by
    intro b v
    rw [hold]
    split <;> simp
  rw [hshared]
  constructor
  · intro i hi
    obtain ⟨b, hb, rfl⟩ := Option.map_eq_some_iff.1 hi
    rcases mem_of_foldl_pick hpick hb with h | h
    · cases h
    · obtain ⟨v, hv, rfl⟩ := List.mem_map.1 h
      exact mem_ofList.1 hv
  · intro h
    obtain ⟨-, hnone⟩ := pick_eq_none_of_foldl hkeep (Option.map_eq_none_iff.1 h)
    refine List.nodup_iff_count_le_one.2 fun i => ?_
    by_cases hi : i ∈ f.occurrences
    · have hi' := hnone (i, f.occurrences.count i) (List.mem_map.2 ⟨i, mem_ofList.2 hi, rfl⟩)
      rw [hnew] at hi'
      by_contra hlt
      rw [if_pos (by simpa using hlt)] at hi'
      cases hi'
    · rw [List.count_eq_zero_of_not_mem hi]
      omega

/-! ## The recursion -/

/-- Splitting leaves fewer variables. -/
theorem length_vars_restrict_lt (hi : i ∈ f.occurrences) (v : Bool) :
    (f.restrict i v).vars.length < f.vars.length := by
  have hcard : ∀ g : Formula, g.vars.toFinset.card = g.vars.length := fun g =>
    List.toFinset_card_of_nodup (isSorted_ofList _).nodup
  rw [← hcard, ← hcard]
  -- a restriction loses its variable and brings in none
  refine Finset.card_lt_card (Finset.ssubset_iff_of_subset ?_ |>.2 ⟨i, ?_, ?_⟩)
  · intro j hj
    have hj' := mem_ofList.1 (List.mem_toFinset.1 hj)
    exact List.mem_toFinset.2 (mem_ofList.2 (mem_occurrences_restrict hj').1)
  · exact List.mem_toFinset.2 (mem_ofList.2 hi)
  · intro h
    exact (mem_occurrences_restrict (mem_ofList.1 (List.mem_toFinset.1 h))).2 rfl

/-- **Induction along the splits of a formula.** A formula that is split leads to two with fewer
variables, until the formula is decided or no variable is shared. -/
theorem splitInduction {P : Formula → Prop} (falsity : ∀ f, f.isFalse = true → P f)
    (truth : ∀ f, f.isTrue = true → P f)
    (independent : ∀ f, f.isFalse = false → f.isTrue = false → f.sharedVariable? = none → P f)
    (split : ∀ f i, f.isFalse = false → f.isTrue = false → f.sharedVariable? = some i →
      P (f.restrict i true) → P (f.restrict i false) → P f) (f : Formula) : P f := by
  induction hn : f.vars.length using Nat.strongRecOn generalizing f with
  | _ n ih =>
    cases hfalse : f.isFalse with
    | true => exact falsity f hfalse
    | false =>
      cases htrue : f.isTrue with
      | true => exact truth f htrue
      | false =>
        cases hshared : f.sharedVariable? with
        | none => exact independent f hfalse htrue hshared
        | some i =>
          have hi := (sharedVariable?_spec f).1 i hshared
          have hrest : ∀ v, P (f.restrict i v) := by
            intro v
            have hlt := length_vars_restrict_lt hi v
            rw [hn] at hlt
            exact ih _ hlt (f.restrict i v) rfl
          exact split f i hfalse htrue hshared (hrest true) (hrest false)

section Step

variable {α : Type} [Weight α] {m : Type → Type} [Monad m] {weight : Nat → α}
  {keep : Formula → m α → m α} {n : Nat}

theorem measureBy_of_isFalse (h : f.isFalse = true) :
    measureBy weight keep n f = pure Weight.zero := by
  unfold measureBy
  rw [if_pos h]

theorem measureBy_of_isTrue (h : f.isTrue = true) :
    measureBy weight keep n f = pure Weight.one := by
  have hfalse := isFalse_of_isTrue h
  unfold measureBy
  rw [if_neg (by simp [hfalse]), if_pos h]

theorem measureBy_of_independent (hfalse : f.isFalse = false) (htrue : f.isTrue = false)
    (hshared : f.sharedVariable? = none) :
    measureBy weight keep n f = keep f (pure (independentMeasure weight f.cubes)) := by
  unfold measureBy
  rw [if_neg (by simp [hfalse]), if_neg (by simp [htrue]), hshared]
  cases n <;> rfl

/-- While there are no more variables than splits, a formula with a shared variable is split. -/
theorem measureBy_of_split (hfalse : f.isFalse = false) (htrue : f.isTrue = false)
    (hshared : f.sharedVariable? = some i) (hn : f.vars.length ≤ n) :
    measureBy weight keep n f = keep f (do
      let whenTrue ← measureBy weight keep (n - 1) (f.restrict i true)
      let whenFalse ← measureBy weight keep (n - 1) (f.restrict i false)
      pure (weight i * whenTrue + (Weight.one - weight i) * whenFalse)) := by
  cases n with
  | zero =>
    have hlt := length_vars_restrict_lt ((sharedVariable?_spec f).1 i hshared) true
    omega
  | succ n =>
    conv_lhs => unfold measureBy
    rw [if_neg (by simp [hfalse]), if_neg (by simp [htrue]), hshared]
    rfl

/-- That stays so after splitting. -/
theorem length_vars_restrict_le (hshared : f.sharedVariable? = some i) (hn : f.vars.length ≤ n)
    (v : Bool) : (f.restrict i v).vars.length ≤ n - 1 := by
  have hlt := length_vars_restrict_lt ((sharedVariable?_spec f).1 i hshared) v
  omega

end Step

/-- **The bound on the number of splits is never felt**: a formula has been split as often as it
can be once there are as many splits as variables. -/
theorem measureBy_eq_of_le {α : Type} [Weight α] {m : Type → Type} [Monad m] (weight : Nat → α)
    (keep : Formula → m α → m α) {n n' : Nat} (h : f.vars.length ≤ n) (h' : f.vars.length ≤ n') :
    measureBy weight keep n f = measureBy weight keep n' f := by
  induction f using splitInduction generalizing n n' with
  | falsity f hfalse => rw [measureBy_of_isFalse hfalse, measureBy_of_isFalse hfalse]
  | truth f htrue => rw [measureBy_of_isTrue htrue, measureBy_of_isTrue htrue]
  | independent f hfalse htrue hshared =>
    rw [measureBy_of_independent hfalse htrue hshared,
      measureBy_of_independent hfalse htrue hshared]
  | split f i hfalse htrue hshared ihtrue ihfalse =>
    have hle := length_vars_restrict_le hshared h
    have hle' := length_vars_restrict_le hshared h'
    rw [measureBy_of_split hfalse htrue hshared h, measureBy_of_split hfalse htrue hshared h',
      ihtrue (hle true) (hle' true), ihfalse (hle false) (hle' false)]

/-! ## The computed measure -/

/-- The mass of the assignments of the variables under which the formula holds. -/
noncomputable def exactMass (p : Nat → ℚ) (f : Formula) : ℚ :=
  mass p f.vars.toFinset fun T => f.holds (choosing T) = true

theorem exactMass_eq (hV : ∀ i ∈ f.occurrences, i ∈ V) :
    f.exactMass p = mass p V fun T => f.holds (choosing T) = true :=
  (mass_of_occurrences hV).symm

theorem exactMass_of_isFalse (h : f.isFalse = true) : f.exactMass p = 0 := by
  rw [exactMass, mass_congr (G := fun _ => False) fun T _ => by simp [holds_of_isFalse h],
    mass_false]

theorem exactMass_of_isTrue (h : f.isTrue = true) : f.exactMass p = 1 := by
  rw [exactMass, mass_congr (G := fun _ => True) fun T _ => by simp [holds_of_isTrue h], mass_true]

/-- Splitting on a variable that occurs. -/
theorem exactMass_restrict (hf : f.Ordered) (hi : i ∈ f.occurrences) : f.exactMass p =
    p i * (f.restrict i true).exactMass p + (1 - p i) * (f.restrict i false).exactMass p := by
  have hV : ∀ v, ∀ j ∈ (f.restrict i v).occurrences, j ∈ f.vars.toFinset.erase i := by
    intro v j hj
    obtain ⟨hj, hne⟩ := mem_occurrences_restrict hj
    exact Finset.mem_erase.2 ⟨hne, List.mem_toFinset.2 (mem_ofList.2 hj)⟩
  have hi' : i ∈ f.vars.toFinset := List.mem_toFinset.2 (mem_ofList.2 hi)
  rw [exactMass_eq (hV true), exactMass_eq (hV false), exactMass, mass_restrict hf hi']

/-- The computation yields the exact mass, as long as only exact masses are kept. -/
def Yields (p : Nat → ℚ) (x : Remember Formula ℚ Id ℚ) (f : Formula) : Prop :=
  ∀ kept, (∀ (g : Formula) (v : ℚ), kept[g]? = some v → v = g.exactMass p) →
    (x kept).1 = f.exactMass p ∧
      ∀ (g : Formula) (v : ℚ), (x kept).2[g]? = some v → v = g.exactMass p

theorem Yields.pure {v : ℚ} (h : v = f.exactMass p) : Yields p (Pure.pure v) f :=
  fun _ hk => ⟨h, hk⟩

/-- Looking masses up keeps them exact. -/
theorem Yields.remember {x : Remember Formula ℚ Id ℚ} (h : Yields p x f) :
    Yields p (ProbDatalog.remember f x) f := by
  intro kept hk
  cases hv : kept[f]? with
  | some v =>
    rw [remember_of_getElem? hv]
    exact ⟨hk f v hv, hk⟩
  | none =>
    have hrun : ProbDatalog.remember f x kept =
        ((x kept).1, (x kept).2.insert f (x kept).1) := by
      simp only [ProbDatalog.remember, hv]
      rfl
    rw [hrun]
    obtain ⟨hx, hk'⟩ := h kept hk
    refine ⟨hx, fun g v hg => ?_⟩
    rw [Std.TreeMap.getElem?_insert] at hg
    split at hg
    next heq =>
      cases hg
      rw [hx, Std.LawfulEqOrd.eq_of_compare heq]
    next => exact hk' g v hg

/-- **The recursion yields the exact mass**, if there are no more variables than splits. -/
theorem measureBy_yields {splits : Nat} (hf : f.Ordered) (hs : f.vars.length ≤ splits) :
    Yields p (measureBy (m := Remember Formula ℚ Id) p ProbDatalog.remember splits f) f := by
  induction f using splitInduction generalizing splits with
  | falsity f hfalse =>
    rw [measureBy_of_isFalse hfalse]
    exact .pure (exactMass_of_isFalse hfalse).symm
  | truth f htrue =>
    rw [measureBy_of_isTrue htrue]
    exact .pure (exactMass_of_isTrue htrue).symm
  -- no variable is shared, so the cubes are independent
  | independent f hfalse htrue hshared =>
    rw [measureBy_of_independent hfalse htrue hshared]
    refine Yields.remember (.pure ?_)
    exact independentMeasure_eq ((sharedVariable?_spec f).2 hshared) fun i hi =>
      List.mem_toFinset.2 (mem_ofList.2 hi)
  | split f i hfalse htrue hshared ihtrue ihfalse =>
    have hle := length_vars_restrict_le hshared hs
    rw [measureBy_of_split hfalse htrue hshared hs]
    refine Yields.remember fun kept hkept => ?_
    -- what the first half has kept is exact as well, so the second half may look it up
    obtain ⟨h1, hkept1⟩ := ihtrue hf.restrict (hle true) kept hkept
    obtain ⟨h0, hkept0⟩ := ihfalse hf.restrict (hle false) _ hkept1
    refine ⟨?_, hkept0⟩
    rw [exactMass_restrict hf ((sharedVariable?_spec f).1 i hshared), ← h1, ← h0]
    rfl

/-- **The computed probability is the mass of the formula.** -/
theorem measure_eq_exactMass (hf : f.Ordered) : f.measure p = f.exactMass p :=
  (measureBy_yields hf (Nat.le_refl _) ∅ fun _ _ h => by simp at h).1

/-! ## Renaming -/

section Rename

variable {name : Nat → Nat}

/-- A signed variable with another variable in its place. -/
def renameVar (name : Nat → Nat) (x : SignedVar) : SignedVar := { x with index := name x.index }

theorem mem_rename_cubes {d : Cube} : d ∈ (f.rename name).cubes →
    ∃ c ∈ f.cubes, Sorted.ofList (c.map (renameVar name)) = d := fun h => by
  obtain ⟨c, hc, rfl⟩ := List.mem_map.1 (mem_of_mem_ofCubes h)
  exact ⟨c, hc, rfl⟩

theorem Proper.rename (hf : f.Proper) (hinj : Set.InjOn name {i | i ∈ f.occurrences}) :
    (f.rename name).Proper := by
  intro d hd
  obtain ⟨c, hc, rfl⟩ := mem_rename_cubes hd
  refine ⟨isSorted_ofList _, fun y hy hy' => ?_⟩
  obtain ⟨x, hx, rfl⟩ := List.mem_map.1 (mem_ofList.1 hy)
  obtain ⟨x', hx', heq⟩ := List.mem_map.1 (mem_ofList.1 hy')
  have hindex : x'.index = x.index :=
    hinj (mem_occurrences.2 ⟨c, hc, x', hx', rfl⟩) (mem_occurrences.2 ⟨c, hc, x, hx, rfl⟩)
      (congrArg SignedVar.index heq)
  have hsign : x'.positive = !x.positive := congrArg SignedVar.positive heq
  refine (hf c hc).consistent x hx ?_
  have : x.opposite = x' := by
    cases x
    cases x'
    simp_all [SignedVar.opposite]
  rwa [this]

/-- A renamed formula asks for the values of the other variables. -/
theorem holds_rename {a : Nat → Bool} :
    (f.rename name).holds a = f.holds fun i => a (name i) := by
  have hsorted : ∀ d ∈ f.cubes.map fun c => Sorted.ofList (c.map (renameVar name)),
      IsSorted d := by
    intro d hd
    obtain ⟨c, -, rfl⟩ := List.mem_map.1 hd
    exact isSorted_ofList _
  -- renaming reorders a cube, which does not matter for its truth
  have hcube : ∀ c : Cube, Cube.holds (Sorted.ofList (c.map (renameVar name))) a = true ↔
      c.holds (fun i => a (name i)) = true := by
    intro c
    rw [Cube.holds_iff, Cube.holds_iff]
    simp only [mem_ofList, List.forall_mem_map]
    rfl
  rw [Bool.eq_iff_iff]
  show (ofCubes (f.cubes.map fun c => Sorted.ofList (c.map (renameVar name)))).holds a = true ↔ _
  rw [holds_ofCubes hsorted, holds_iff]
  constructor
  · rintro ⟨d, hd, ha⟩
    obtain ⟨c, hc, rfl⟩ := List.mem_map.1 hd
    exact ⟨c, hc, (hcube c).1 ha⟩
  · rintro ⟨c, hc, ha⟩
    exact ⟨_, List.mem_map.2 ⟨c, hc, rfl⟩, (hcube c).2 ha⟩

theorem ordered_rename (f : Formula) (name : Nat → Nat) : (f.rename name).Ordered := by
  intro d hd
  obtain ⟨c, -, rfl⟩ := mem_rename_cubes hd
  exact isSorted_ofList _

/-- Renaming leaves some cube if there was one. -/
theorem isFalse_rename (f : Formula) (name : Nat → Nat) :
    (f.rename name).isFalse = f.isFalse := by
  rw [Bool.eq_iff_iff, isFalse_iff_cubes, isFalse_iff_cubes]
  constructor
  · intro h
    refine List.eq_nil_iff_forall_not_mem.2 fun c hc => ?_
    have hsorted : ∀ d ∈ f.cubes.map fun c => Sorted.ofList (c.map (renameVar name)), IsSorted d :=
      List.forall_mem_map.2 fun c _ => isSorted_ofList _
    obtain ⟨d, hd, -⟩ := exists_isPart_of_mem hsorted (List.mem_map_of_mem hc)
    exact List.not_mem_nil (h ▸ hd : d ∈ ([] : List Cube))
  · intro h
    rw [rename, h]
    rfl

/-- A formula holds always if and only if it does so after renaming, as long as variables stay
apart. -/
theorem forall_holds_rename (hinj : Set.InjOn name {i | i ∈ f.occurrences}) :
    (∀ a, (f.rename name).holds a = true) ↔ ∀ a, f.holds a = true := by
  simp only [holds_rename]
  constructor
  -- every assignment is one that comes from the new variables, on the variables that occur
  · intro h a
    rw [← h fun v => a (Function.invFunOn name {i | i ∈ f.occurrences} v)]
    exact holds_congr fun i hi => by rw [hinj.leftInvOn_invFunOn hi]
  · exact fun h a => h _

theorem mem_occurrences_rename (h : i ∈ (f.rename name).occurrences) :
    ∃ j ∈ f.occurrences, name j = i := by
  obtain ⟨d, hd, y, hy, rfl⟩ := mem_occurrences.1 h
  obtain ⟨c, hc, rfl⟩ := mem_rename_cubes hd
  obtain ⟨x, hx, rfl⟩ := List.mem_map.1 (mem_ofList.1 hy)
  exact ⟨x.index, mem_occurrences.2 ⟨c, hc, x, hx, rfl⟩, rfl⟩

/-- **Variables may be renamed**, as long as they stay apart. -/
theorem measure_rename (hf : f.Proper) (hinj : Set.InjOn name V)
    (hV : ∀ i ∈ f.occurrences, i ∈ V) :
    (f.rename name).measure p =
      mass (fun i => p (name i)) V fun T => f.holds (choosing T) = true := by
  have hinj' : Set.InjOn name {i | i ∈ f.occurrences} := hinj.mono fun i hi => hV i hi
  have hV' : ∀ i ∈ (f.rename name).occurrences, i ∈ V.image name := fun i hi => by
    obtain ⟨j, hj, rfl⟩ := mem_occurrences_rename hi
    exact Finset.mem_image_of_mem name (hV j hj)
  rw [measure_eq_exactMass (hf.rename hinj').ordered, exactMass_eq hV', mass_image hinj]
  refine mass_congr fun T hT => ?_
  rw [holds_rename, holds_congr (b := choosing T) fun i hi => ?_]
  unfold choosing
  congr 1
  rw [Finset.mem_image, eq_iff_iff]
  constructor
  · rintro ⟨j, hj, heq⟩
    rwa [← hinj (hT hj) (hV i hi) heq]
  · exact fun h => ⟨i, h, rfl⟩

end Rename

end Formula

end ProbDatalog
