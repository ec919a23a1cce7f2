import ProbDatalog.Proofs.Rules
import Mathlib.Data.Finset.Card
import Mathlib.Data.Nat.Find

/-!
# Derivations without detours

A derivation that comes back to a fact on its way down shows nothing new, so it is enough to look
for derivations that do not, and these are no higher than there are facts. What carries the argument
is the height of a fact: below a fact on a lowest derivation all facts are lower still.

* `mem_consequences_iff_height`: what follows from rules has a derivation of some height.
* `Straight`: derivations without detours, of bounded height.
* `straight_iff`: **what follows from rules has a derivation without detours.**
-/

namespace ProbDatalog

variable {rules : Set Proof} {admits : Literal → Prop} {f g : Literal} {j k room : Nat}

/-! ## Heights -/

/-- The facts with a derivation of at most the given height. -/
def derivedBy (rules : Set Proof) (admits : Literal → Prop) : Nat → Set Literal
  | 0 => ∅
  | k + 1 => {f | ∃ π ∈ rules, π.head = f ∧ π.Supported (derivedBy rules admits k) admits}

theorem derivedBy_mono (hjk : j ≤ k) : derivedBy rules admits j ⊆ derivedBy rules admits k := by
  induction j generalizing k with
  | zero => exact Set.empty_subset _
  | succ j ih =>
    obtain ⟨k, rfl⟩ : ∃ i, k = i + 1 := ⟨k - 1, by omega⟩
    rintro f ⟨π, hπ, rfl, hs⟩
    exact ⟨π, hπ, rfl, hs.mono (ih (by omega)) fun _ h => h⟩

theorem derivedBy_subset : derivedBy rules admits k ⊆ consequences rules admits := by
  induction k with
  | zero => exact Set.empty_subset _
  | succ k ih =>
    rintro f ⟨π, hπ, rfl, hs⟩
    exact (hs.mono ih fun _ h => h).mem_consequences hπ

/-- Finitely many facts have a height in common. -/
theorem exists_height (facts : List Literal) (h : ∀ f ∈ facts, ∃ k, f ∈ derivedBy rules admits k) :
    ∃ k, ∀ f ∈ facts, f ∈ derivedBy rules admits k := by
  induction facts with
  | nil => exact ⟨0, by simp⟩
  | cons f rest ih =>
    obtain ⟨i, hi⟩ := h f List.mem_cons_self
    obtain ⟨j, hj⟩ := ih fun g hg => h g (List.mem_cons_of_mem _ hg)
    refine ⟨max i j, fun g hg => ?_⟩
    rcases List.mem_cons.1 hg with rfl | hg
    · exact derivedBy_mono (Nat.le_max_left i j) hi
    · exact derivedBy_mono (Nat.le_max_right i j) (hj g hg)

/-- **What follows from rules has a derivation of some height.** -/
theorem mem_consequences_iff_height :
    f ∈ consequences rules admits ↔ ∃ k, f ∈ derivedBy rules admits k := by
  constructor
  · intro hf
    induction hf with
    | @rule π hπ hpos hneg ih =>
      -- the premises have heights, and the greatest of them serves for all
      obtain ⟨k, hk⟩ := exists_height
        ((π.body.map Premise.literal).filter fun l =>
          decide (Premise.relational l ∈ π.body ∧ l.negated = false)) (by
          intro l hl
          obtain ⟨hmem, hn⟩ := of_decide_eq_true (List.mem_filter.1 hl).2
          exact ih l hmem hn)
      refine ⟨k + 1, π, hπ, rfl, fun l hl hn => hk l ?_, hneg⟩
      exact List.mem_filter.2 ⟨List.mem_map.2 ⟨_, hl, rfl⟩, by simpa using ⟨hl, hn⟩⟩
  · rintro ⟨k, hk⟩
    exact derivedBy_subset hk

/-! ## Straight derivations -/

/-- Derivations of at most `room` facts along each way down, on which no fact comes up twice and
none of `path` at all. -/
def Straight (rules : Set Proof) (admits : Literal → Prop) : Nat → Set Literal → Literal → Prop
  | 0, _, _ => False
  | room + 1, path, f => ∃ π ∈ rules, π.head = f ∧
      (∀ l, .relational l ∈ π.body → l.negated = false →
        l ∉ insert f path ∧ Straight rules admits room (insert f path) l) ∧
      ∀ l, .relational l ∈ π.body → l.negated = true → admits l.positive

theorem Straight.mem_consequences {path : Set Literal} (h : Straight rules admits room path f) :
    f ∈ consequences rules admits := by
  induction room generalizing path f with
  | zero => exact h.elim
  | succ room ih =>
    obtain ⟨π, hπ, rfl, hpos, hneg⟩ := h
    exact .rule hπ (fun l hl hn => ih (hpos l hl hn).2) hneg

/-- A lowest derivation has no detours: everything on the path to a fact is higher than it. -/
theorem straight_of_height {facts : Finset Literal} (hfacts : ∀ π ∈ rules, π.head ∈ facts)
    {path : Finset Literal} (hpath : path ⊆ facts) (hroom : facts.card ≤ room + path.card)
    (hf : f ∈ derivedBy rules admits k) (hlow : ∀ j < k, f ∉ derivedBy rules admits j)
    (hhigh : ∀ g ∈ path, g ∉ derivedBy rules admits k) :
    Straight rules admits room (path : Set Literal) f := by
  classical
  -- by induction on the room, which counts the facts that are not on the path yet
  induction room generalizing path f k with
  | zero =>
    have hfp : f ∉ path := fun h => hhigh f h hf
    obtain ⟨π, hπ, rfl, -⟩ := mem_consequences_iff.1 (derivedBy_subset hf)
    have hlt : path.card < facts.card :=
      Finset.card_lt_card ⟨hpath, fun h => hfp (h (hfacts π hπ))⟩
    omega
  | succ room ih =>
    have hfp : f ∉ path := fun h => hhigh f h hf
    cases k with
    | zero => exact hf.elim
    | succ k =>
      obtain ⟨π, hπ, rfl, hs⟩ := hf
      refine ⟨π, hπ, rfl, fun l hl hn => ?_, hs.neg⟩
      -- the premise has a lowest derivation, which is lower than that of the head
      have hl' : ∃ i, l ∈ derivedBy rules admits i := ⟨k, hs.pos l hl hn⟩
      have hle : Nat.find hl' ≤ k := Nat.find_min' hl' (hs.pos l hl hn)
      have hhigh' : ∀ g ∈ insert π.head path, g ∉ derivedBy rules admits (Nat.find hl') := by
        intro g hg
        rcases Finset.mem_insert.1 hg with rfl | hg
        · exact hlow _ (by omega)
        · exact fun h => hhigh g hg (derivedBy_mono (by omega) h)
      rw [← Finset.coe_insert]
      refine ⟨fun h => hhigh' l (Finset.mem_coe.1 h) (Nat.find_spec hl'), ?_⟩
      refine ih (Finset.insert_subset (hfacts π hπ) hpath) ?_ (Nat.find_spec hl')
        (fun j hj => Nat.find_min hl' hj) hhigh'
      rw [Finset.card_insert_of_notMem hfp]
      omega

/-- **What follows from rules has a derivation without detours**, where there is room for all
heads. -/
theorem straight_iff {facts : List Literal} (hfacts : ∀ π ∈ rules, π.head ∈ facts)
    (hroom : facts.length ≤ room) :
    Straight rules admits room ∅ f ↔ f ∈ consequences rules admits := by
  classical
  refine ⟨Straight.mem_consequences, fun hf => ?_⟩
  obtain ⟨k, hk⟩ := mem_consequences_iff_height.1 hf
  have h : ∃ k, f ∈ derivedBy rules admits k := ⟨k, hk⟩
  have hheads : ∀ π ∈ rules, π.head ∈ facts.toFinset :=
    fun π hπ => List.mem_toFinset.2 (hfacts π hπ)
  rw [← Finset.coe_empty]
  refine straight_of_height hheads (Finset.empty_subset _) ?_ (Nat.find_spec h)
    (fun j hj => Nat.find_min h hj) (by simp)
  have := List.toFinset_card_le facts
  omega

end ProbDatalog
