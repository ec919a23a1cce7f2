import ProbDatalog.Search.Query
import ProbDatalog.Proofs.Steps
import Mathlib.Data.List.Forall2

/-!
# Relations between steps

`Relates R E x y Q` says that from states that `R` relates, the steps `x` and `y` come to outcomes
that are alike and leave states that `R` relates. Results are alike where `Q` relates them, failures
where `E` relates their errors. There is one rule for each way in which steps are made.

* `Relates.bind`: one step after another.
* `Relates.mapM`, `Relates.forM`: steps for the members of two lists.
* `Relates.onTables`: operations on the tables.
-/

namespace ProbDatalog.Searching

variable {σ τ α β γ δ ι κ : Type}

/-- Both steps have results that `Q` relates, or both fail with errors that `E` relates, or both are
cut off. -/
inductive Alike (E : Error → Error → Prop) (Q : α → β → Prop) :
    Except Halt α → Except Halt β → Prop
  | ok {a : α} {b : β} (h : Q a b) : Alike E Q (.ok a) (.ok b)
  | failed {e e' : Error} (h : E e e') : Alike E Q (.error (.failed e)) (.error (.failed e'))
  | exhausted : Alike E Q (.error .exhausted) (.error .exhausted)

/-- Where one of two steps has a result, the other one has the same. -/
theorem Alike.eq_ok_iff {E : Error → Error → Prop} {r r' : Except Halt α} (h : Alike E Eq r r')
    (a : α) : r = .ok a ↔ r' = .ok a := by
  cases h with
  | ok hab => rw [hab]
  | failed => simp
  | exhausted => simp

/-- Outcomes are equal where errors and results are. -/
theorem alike_eq_iff {r r' : Except Halt α} : Alike Eq Eq r r' ↔ r = r' := by
  constructor
  · rintro (rfl | rfl | _) <;> rfl
  · rintro rfl
    rcases r with (_ | _) | _
    · exact .failed rfl
    · exact .exhausted
    · exact .ok rfl

/-- Steps that lead from related states to alike outcomes and related states. -/
def Relates (R : Search σ → Search τ → Prop) (E : Error → Error → Prop) (x : Searching σ α)
    (y : Searching τ β) (Q : α → β → Prop) : Prop :=
  ∀ s t, R s t → Alike E Q (x s).1 (y t).1 ∧ R (x s).2 (y t).2

namespace Relates

variable {R : Search σ → Search τ → Prop} {E : Error → Error → Prop} {x : Searching σ α}
variable {y : Searching τ β} {Q : α → β → Prop} {S : γ → δ → Prop}

theorem pure {a : α} {b : β} (h : Q a b) :
    Relates R E (Pure.pure a : Searching σ α) (Pure.pure b : Searching τ β) Q :=
  fun _ _ hst => ⟨.ok h, hst⟩

theorem fail {e e' : Error} (h : E e e') :
    Relates R E (Searching.fail e : Searching σ α) (Searching.fail e' : Searching τ β) Q :=
  fun _ _ hst => ⟨.failed h, hst⟩

theorem exhausted : Relates R E (MonadExcept.throw Halt.exhausted : Searching σ α)
    (MonadExcept.throw Halt.exhausted : Searching τ β) Q :=
  fun _ _ hst => ⟨.exhausted, hst⟩

theorem ofExcept {x : Except Error α} {y : Except Error β}
    (hok : ∀ a, x = .ok a → ∃ b, y = .ok b ∧ Q a b)
    (herror : ∀ e, x = .error e → ∃ e', y = .error e' ∧ E e e') :
    Relates R E (Searching.ofExcept x : Searching σ α) (Searching.ofExcept y : Searching τ β)
      Q := by
  cases x with
  | ok a =>
    obtain ⟨b, rfl, hab⟩ := hok a rfl
    exact .pure hab
  | error e =>
    obtain ⟨e', rfl, he⟩ := herror e rfl
    exact .fail he

/-- Related results may be known for less. -/
theorem mono {Q' : α → β → Prop} (h : Relates R E x y Q) (hQ : ∀ a b, Q a b → Q' a b) :
    Relates R E x y Q' := by
  intro s t hst
  obtain ⟨hr, hnext⟩ := h s t hst
  refine ⟨?_, hnext⟩
  generalize (x s).1 = r at hr ⊢
  generalize (y t).1 = r' at hr ⊢
  cases hr with
  | ok hab => exact .ok (hQ _ _ hab)
  | failed he => exact .failed he
  | exhausted => exact .exhausted

/-- **One step after another.** -/
theorem bind {f : α → Searching σ γ} {g : β → Searching τ δ} (h : Relates R E x y Q)
    (hf : ∀ a b, Q a b → Relates R E (f a) (g b) S) : Relates R E (x >>= f) (y >>= g) S := by
  intro s t hst
  obtain ⟨hr, hnext⟩ := h s t hst
  rw [bind_run, bind_run]
  generalize x s = run at hr hnext
  generalize y t = run' at hr hnext
  obtain ⟨r, s'⟩ := run
  obtain ⟨r', t'⟩ := run'
  cases hr with
  | ok hab => exact hf _ _ hab s' t' hnext
  | failed he => exact ⟨.failed he, hnext⟩
  | exhausted => exact ⟨.exhausted, hnext⟩

/-- **Steps for the members of two lists.** -/
theorem mapM {f : ι → Searching σ α} {g : κ → Searching τ β} {l : List ι} {l' : List κ}
    (h : List.Forall₂ (fun i j => Relates R E (f i) (g j) Q) l l') :
    Relates R E (l.mapM f) (l'.mapM g) (List.Forall₂ Q) := by
  induction h with
  | nil => exact .pure .nil
  | cons hij _ ih =>
    rw [List.mapM_cons, List.mapM_cons]
    exact hij.bind fun _ _ hab => ih.bind fun _ _ hrest => .pure (.cons hab hrest)

theorem forM {f : ι → Searching σ PUnit} {g : κ → Searching τ PUnit} {l : List ι} {l' : List κ}
    (h : List.Forall₂ (fun i j => Relates R E (f i) (g j) fun _ _ => True) l l') :
    Relates R E (l.forM f) (l'.forM g) fun _ _ => True := by
  induction h with
  | nil => exact .pure trivial
  | cons hij _ ih => exact hij.bind fun _ _ _ => ih

/-- What comes after steps with the same result is done with that result. -/
theorem bind_same {y : Searching τ α} {f : α → Searching σ γ} {g : α → Searching τ δ}
    (h : Relates R E x y Eq) (hf : ∀ a, Relates R E (f a) (g a) S) :
    Relates R E (x >>= f) (y >>= g) S :=
  h.bind fun a _ hab => hab ▸ hf a

theorem mapM_same {f : ι → Searching σ α} {g : ι → Searching τ α} (l : List ι)
    (h : ∀ i, Relates R E (f i) (g i) Eq) : Relates R E (l.mapM f) (l.mapM g) Eq := by
  refine (mapM (Q := Eq) (List.forall₂_same.2 fun i _ => h i)).mono fun _ _ hall => ?_
  rwa [List.forall₂_eq_eq_eq] at hall

theorem forM_same {f : ι → Searching σ PUnit} {g : ι → Searching τ PUnit} (l : List ι)
    (h : ∀ i ∈ l, Relates R E (f i) (g i) fun _ _ => True) :
    Relates R E (l.forM f) (l.forM g) Eq :=
  (forM (List.forall₂_same.2 h)).mono fun _ _ _ => rfl

theorem ofOption_same (r : Option α) :
    Relates R E (Searching.ofOption r : Searching σ α) (Searching.ofOption r : Searching τ α)
      Eq := by
  cases r with
  | some a => exact .pure rfl
  | none => exact .exhausted

theorem change {f : Search σ → Search σ} {g : Search τ → Search τ}
    (h : ∀ s t, R s t → R (f s) (g t)) :
    Relates R E (modify f : Searching σ PUnit) (modify g : Searching τ PUnit) Eq :=
  fun s t hst => ⟨.ok rfl, h s t hst⟩

section Errors

variable (hE : ∀ e, E e e)

include hE

/-- Operations that come to the same on the tables of related states, and keep them related. -/
theorem onTables {f : σ → Except StoreFault α × σ} {g : τ → Except StoreFault α × τ}
    (h : ∀ s t, R s t → (f s.tables).1 = (g t.tables).1 ∧
      R { s with tables := (f s.tables).2 } { t with tables := (g t.tables).2 }) :
    Relates R E (Searching.onTables f) (Searching.onTables g) Eq := by
  intro s t hst
  obtain ⟨hr, hnext⟩ := h s t hst
  unfold Searching.onTables
  generalize f s.tables = run at hr hnext
  generalize g t.tables = run' at hr hnext
  obtain ⟨r, s'⟩ := run
  obtain ⟨r', t'⟩ := run'
  obtain rfl : r = r' := hr
  cases r with
  | ok a => exact ⟨.ok rfl, hnext⟩
  | error e => exact ⟨.failed (hE _), hnext⟩

theorem readTables {f : σ → Except StoreFault α} {g : τ → Except StoreFault α}
    (h : ∀ s t, R s t → f s.tables = g t.tables) :
    Relates R E (Searching.readTables f) (Searching.readTables g) Eq :=
  onTables hE fun s t hst => ⟨h s t hst, hst⟩

end Errors

/-- Readings of the tables that come to the same, or fail for reasons that are alike. -/
theorem readTables_alike {f : σ → Except StoreFault α} {g : τ → Except StoreFault α}
    (h : ∀ s t, R s t → (∃ a, f s.tables = .ok a ∧ g t.tables = .ok a) ∨
      ∃ e e', f s.tables = .error e ∧ g t.tables = .error e' ∧ E (.storage e) (.storage e')) :
    Relates R E (Searching.readTables f) (Searching.readTables g) Eq := by
  intro s t hst
  unfold Searching.readTables Searching.onTables
  dsimp only
  rcases h s t hst with ⟨a, hs, ht⟩ | ⟨e, e', hs, ht, he⟩
  · rw [hs, ht]
    exact ⟨.ok rfl, hst⟩
  · rw [hs, ht]
    exact ⟨.failed he, hst⟩

/-- What is done with the state that is read may depend on what related states have in common. -/
theorem get_bind {f : Search σ → Searching σ α} {g : Search τ → Searching τ β}
    (h : ∀ s t, R s t → Relates R E (f s) (g t) Q) : Relates R E (get >>= f) (get >>= g) Q :=
  fun s t hst => h s t hst s t hst

end Relates

end ProbDatalog.Searching
