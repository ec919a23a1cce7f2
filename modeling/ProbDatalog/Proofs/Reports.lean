import ProbDatalog.Evaluable.Standard
import ProbDatalog.Proofs.Evaluables
import ProbDatalog.Proofs.Rules

/-!
# What evaluable predicates report

An evaluable predicate is computed from the arguments of a call, so it can tell that one of them has
the wrong kind, but nothing about the negations that a search is deciding.

* `Evaluable.Computed.reportsKinds`: **the standard predicates report kinds of arguments.**
* `Registry.not_reports_unstratified_standard`: they report nothing about negations.
* `Registry.relabelled`: the same predicates with other errors about negations, by which what they
  report can be told from what a search reports itself.
-/

namespace ProbDatalog

namespace Evaluable

/-- All errors are about the kinds of arguments. -/
def ReportsKinds (e : Evaluable) : Prop :=
  ∀ ts err, e.evaluate ts = .error err → ∃ name t expected, err = .kind name t expected

variable {name : String}

theorem numberInput_eq_error {t : Term} {err : Error} (h : numberInput name t = .error err) :
    err = .kind name t Kind.number.name := by
  unfold numberInput at h
  split at h <;> cases h
  rfl

theorem stringInput_eq_error {t : Term} {err : Error} (h : stringInput name t = .error err) :
    err = .kind name t Kind.string.name := by
  unfold stringInput at h
  split at h <;> cases h
  rfl

theorem stringInputs_eq_error {ts : List Term} {err : Error}
    (h : stringInputs name ts = .error err) : ∃ t, err = .kind name t Kind.string.name := by
  induction ts with
  | nil => cases h
  | cons t rest ih =>
    unfold stringInputs at h
    cases ht : stringInput name t with
    | error e =>
      rw [ht] at h
      cases h
      exact ⟨t, stringInput_eq_error ht⟩
    | ok o =>
      rw [ht] at h
      cases o with
      | none => cases h
      | some s =>
        cases hr : stringInputs name rest with
        | error e =>
          simp only [hr, bind, Except.bind] at h
          cases h
          exact ih hr
        | ok o => simp [hr, bind, Except.bind, pure, Except.pure] at h

theorem reportsKinds_comparison (name : String) (r : Relation) :
    (comparison name r).ReportsKinds := by
  intro ts err h
  simp only [comparison] at h
  split at h <;> cases h

theorem reportsKinds_kindTest : kindTest.ReportsKinds := by
  intro ts err h
  simp only [kindTest] at h
  split at h
  next c kind =>
    cases hk : stringInput "is" kind with
    | error e =>
      rw [hk] at h
      cases h
      exact ⟨_, _, _, stringInput_eq_error hk⟩
    | ok o => simp [hk, bind, Except.bind, pure, Except.pure] at h
  next => cases h

theorem reportsKinds_arithmetic (name : String) (operation : Number → Number → Option Number) :
    (arithmetic name operation).ReportsKinds := by
  intro ts err h
  simp only [arithmetic] at h
  split at h
  next result left right =>
    cases hl : numberInput name left with
    | error e =>
      rw [hl] at h
      cases h
      exact ⟨_, _, _, numberInput_eq_error hl⟩
    | ok a =>
      cases hr : numberInput name right with
      | error e =>
        simp only [hl, hr, bind, Except.bind] at h
        cases h
        exact ⟨_, _, _, numberInput_eq_error hr⟩
      | ok b =>
        simp only [hl, hr, bind, Except.bind, pure, Except.pure] at h
        split at h
        · split at h <;> cases h
        · cases h
  next => cases h

theorem reportsKinds_stringFunction (name : String) (inputs : Nat)
    (function : List String → Constant) : (stringFunction name inputs function).ReportsKinds := by
  intro ts err h
  simp only [stringFunction] at h
  split at h
  next result arguments =>
    cases hs : stringInputs name arguments with
    | error e =>
      rw [hs] at h
      cases h
      obtain ⟨t, ht⟩ := stringInputs_eq_error hs
      exact ⟨_, _, _, ht⟩
    | ok o => cases o <;> simp [hs, bind, Except.bind, pure, Except.pure] at h
  next => cases h

theorem Computed.reportsKinds {e : Evaluable} (h : e.Computed) : e.ReportsKinds := by
  cases h with
  | comparison name r => exact reportsKinds_comparison name r
  | kindTest => exact reportsKinds_kindTest
  | arithmetic name operation => exact reportsKinds_arithmetic name operation
  | stringFunction name inputs function => exact reportsKinds_stringFunction name inputs function

end Evaluable

namespace Registry

/-- Some evaluable predicate reports the error. -/
def Reports (r : Registry) (err : Error) : Prop :=
  ∃ name e ts, r.get? name = some e ∧ e.evaluate ts = .error err

variable {r : Registry} {l m : Literal}

/-- The standard predicates report nothing about negations. -/
theorem not_reports_unstratified_standard : ¬standard.Reports (.unstratified l) := by
  rintro ⟨name, e, ts, he, herr⟩
  obtain ⟨_, _, _, hkind⟩ := (computed_standard he).reportsKinds ts _ herr
  cases hkind

/-- To look up a call reports nothing about negations. -/
theorem resolve_ne_unstratified : r.resolve l ≠ .error (.unstratified m) := by
  unfold resolve
  split
  · simp
  · split <;> simp

end Registry

/-! ## Relabelling -/

/-- Another error in the place of one about a negation that depends on itself. -/
def Error.relabelled (g : Literal → Error) : Error → Error
  | .unstratified l => g l
  | err => err

/-- The same, where a search fails. -/
def Halt.relabelled (g : Literal → Error) : Halt → Halt
  | .failed err => .failed (err.relabelled g)
  | .exhausted => .exhausted

/-- The same, where a predicate fails. -/
def Evaluable.relabelled (g : Literal → Error) (e : Evaluable) : Evaluable :=
  { e with evaluate := fun ts => (e.evaluate ts).mapError (Error.relabelled g) }

/-- The same, where any of the predicates fails. -/
def Registry.relabelled (g : Literal → Error) (r : Registry) : Registry :=
  ⟨⟨r.members.entries.map fun x => (x.1, x.2.relabelled g)⟩⟩

section Relabelling

variable {g : Literal → Error}

theorem Error.relabelled_of_ne {err : Error} (h : ∀ l, err ≠ .unstratified l) :
    err.relabelled g = err := by
  cases err with
  | unstratified l => exact absurd rfl (h l)
  | _ => rfl

theorem Error.relabelled_ne (hg : ∀ l m, g l ≠ .unstratified m) (err : Error) (m : Literal) :
    err.relabelled g ≠ .unstratified m := by
  cases err with
  | unstratified l => exact hg l m
  | _ => simp [relabelled]

namespace Registry

variable (g) (r : Registry)

theorem get?_relabelled (name : String) :
    (r.relabelled g).get? name = (r.get? name).map (Evaluable.relabelled g) := by
  unfold relabelled get? Assoc.get?
  induction r.members.entries with
  | nil => rfl
  | cons x rest ih =>
    simp only [List.map_cons, Assoc.find?]
    split
    · rfl
    · exact ih

@[simp] theorem contains_relabelled (name : String) :
    (r.relabelled g).contains name = r.contains name := by
  show ((r.relabelled g).get? name).isSome = (r.get? name).isSome
  rw [get?_relabelled, Option.isSome_map]

/-- A relabelled predicate is found by the same calls. -/
theorem resolve_relabelled (l : Literal) :
    (r.relabelled g).resolve l = (r.resolve l).map (Option.map (Evaluable.relabelled g)) := by
  unfold resolve
  rw [get?_relabelled]
  cases r.get? l.predicate with
  | none => rfl
  | some e =>
    by_cases harity : e.arity = l.arity <;> simp [Evaluable.relabelled, harity, Except.map]

variable {g} {r}

/-- Once they are relabelled, no predicate reports anything about negations. -/
theorem not_reports_relabelled (hg : ∀ l m, g l ≠ .unstratified m) (m : Literal) :
    ¬(r.relabelled g).Reports (.unstratified m) := by
  rintro ⟨name, e, ts, he, herr⟩
  rw [get?_relabelled] at he
  obtain ⟨e', -, rfl⟩ := Option.map_eq_some_iff.1 he
  replace herr : (e'.evaluate ts).mapError (Error.relabelled g) = .error (.unstratified m) := herr
  cases hev : e'.evaluate ts with
  | ok o => simp [hev, Except.mapError] at herr
  | error err =>
    rw [hev] at herr
    exact Error.relabelled_ne hg err m (Except.error.inj herr)

end Registry

end Relabelling

end ProbDatalog
