import Mathlib.Data.Set.Card
import Mathlib.Logic.Relation

/-!
# Strata

Things that rest on other things, on some of them by negation: the predicates of a program, or the
facts of a set of ground rules. Something lies within `n` strata if at most `n - 1` negations are
met on any way down from it.

* `Within.of_rests`, `Within.of_negates`: resting on something keeps the strata, and resting on a
  negation leaves one of them.
* `Stratified.exists_within`: **where no cycle passes through a negation, everything lies within
  finitely many strata.**
-/

namespace ProbDatalog

/-- What rests on what, and on the negation of what. -/
structure Resting (α : Type) where
  rests : α → α → Prop
  negates : α → α → Prop
  rests_of_negates : ∀ a b, negates a b → rests a b

namespace Resting

variable {α : Type} (D : Resting α)

/-- A way down from `a` meets the negation of `b`. -/
def MeetsNegation (a b : α) : Prop := ∃ c, Relation.ReflTransGen D.rests a c ∧ D.negates c b

/-- No cycle passes through a negation. -/
def Stratified : Prop := ∀ a b, D.negates a b → ¬Relation.ReflTransGen D.rests b a

/-- At most `n - 1` negations are met on any way down. -/
def Within : Nat → α → Prop
  | 0, _ => False
  | n + 1, a => ∀ b, D.MeetsNegation a b → Within n b

variable {D} {a b c : α} {m n : Nat}

theorem MeetsNegation.of_negates (h : D.negates a b) : D.MeetsNegation a b := ⟨a, .refl, h⟩

theorem MeetsNegation.of_rests (h : D.rests a b) (hb : D.MeetsNegation b c) :
    D.MeetsNegation a c := by
  obtain ⟨r, hr, hn⟩ := hb
  exact ⟨r, .head h hr, hn⟩

theorem MeetsNegation.trans (ha : D.MeetsNegation a b) (hb : D.MeetsNegation b c) :
    D.MeetsNegation a c := by
  obtain ⟨r, hr, hn⟩ := ha
  obtain ⟨r', hr', hn'⟩ := hb
  exact ⟨r', hr.trans (.head (D.rests_of_negates _ _ hn) hr'), hn'⟩

namespace Within

theorem mono (hmn : m ≤ n) (h : D.Within m a) : D.Within n a := by
  induction m generalizing n a with
  | zero => exact h.elim
  | succ m ih =>
    obtain ⟨n, rfl⟩ : ∃ k, n = k + 1 := ⟨n - 1, by omega⟩
    exact fun b hb => ih (by omega) (h b hb)

/-- Resting on something keeps the strata. -/
theorem of_rests (h : D.Within n a) (hab : D.rests a b) : D.Within n b := by
  cases n with
  | zero => exact h.elim
  | succ n => exact fun c hc => h c (hc.of_rests hab)

/-- Resting on a negation leaves one of the strata. -/
theorem of_negates (h : D.Within (n + 1) a) (hab : D.negates a b) : D.Within n b :=
  h b (.of_negates hab)

end Within

theorem Stratified.irrefl (h : D.Stratified) : ¬D.MeetsNegation a a := by
  rintro ⟨r, hr, hn⟩
  exact h r a hn hr

/-- Where nothing rests on anything, no negation is met. -/
theorem within_one (h : ∀ b, ¬D.rests a b) : D.Within 1 a := by
  rintro b ⟨c, hc, hn⟩
  rcases Relation.ReflTransGen.cases_head hc with rfl | ⟨d, hd, -⟩
  · exact absurd (D.rests_of_negates _ _ hn) (h b)
  · exact absurd hd (h d)

/-- Below a negation fewer negations are met of things that rest on something. -/
theorem Stratified.within_of_ncard (h : D.Stratified) {P : α → Prop}
    (hP : ∀ a b, D.rests a b → P a) (hfin : ∀ a, {b | D.MeetsNegation a b ∧ P b}.Finite)
    (hn : {b | D.MeetsNegation a b ∧ P b}.ncard ≤ n) : D.Within (n + 2) a := by
  -- by induction on how many negations are met at all: each that is met is not met again below it
  induction n generalizing a with
  | zero =>
    intro b hb
    refine within_one fun c hc => ?_
    have hne : {b | D.MeetsNegation a b ∧ P b}.Nonempty := ⟨b, hb, hP b c hc⟩
    have := hne.ncard_pos (hfin a)
    omega
  | succ n ih =>
    intro b hb
    by_cases hPb : P b
    · refine ih ?_
      have hlt : {c | D.MeetsNegation b c ∧ P c} ⊂ {c | D.MeetsNegation a c ∧ P c} :=
        Set.ssubset_iff_exists.2 ⟨fun c hc => ⟨hb.trans hc.1, hc.2⟩, b, ⟨hb, hPb⟩,
          fun hc => h.irrefl hc.1⟩
      have := Set.ncard_lt_ncard hlt (hfin a)
      omega
    · exact (within_one fun c hc => hPb (hP b c hc)).mono (by omega)

/-- **Where no cycle passes through a negation, everything lies within finitely many strata.** -/
theorem Stratified.exists_within (h : D.Stratified) (hfin : {b | ∃ a, D.negates a b}.Finite)
    (a : α) : ∃ n, D.Within n a :=
  ⟨_, h.within_of_ncard (P := fun _ => True) (fun _ _ _ => trivial)
    (fun _ => hfin.subset fun _ ⟨⟨c, _, hc⟩, _⟩ => ⟨c, hc⟩) (Nat.le_refl _)⟩

/-- Ranks that fall along negations rule out cycles through them. -/
theorem stratified_of_rank (rank : α → Nat) (hr : ∀ a b, D.rests a b → rank b ≤ rank a)
    (hn : ∀ a b, D.negates a b → rank b < rank a) : D.Stratified := by
  -- on the way back the rank cannot rise, but the negation has lowered it
  have hle : ∀ {a b}, Relation.ReflTransGen D.rests a b → rank b ≤ rank a := by
    intro a b h
    induction h with
    | refl => exact Nat.le_refl _
    | tail _ h ih => exact (hr _ _ h).trans ih
  intro a b hab hba
  exact absurd (hle hba) (Nat.not_le.2 (hn a b hab))

end Resting

end ProbDatalog
