import ProbDatalog.Evaluable.Standard
import ProbDatalog.Proofs.Consistency

/-!
# The standard evaluable predicates are steady

What a standard predicate accepts is ground, and where it binds an argument, the binding is the one
way to make the call acceptable. All but the comparisons compute one value from inputs that have to
be given and settle an argument against it, so one argument serves for all of them.

* `SettlesOne.steady`: **predicates that settle one argument are steady.**
* `Computed`: the four kinds that standard predicates are of.
* `Registry.steady_standard`: all standard predicates are steady.
-/

namespace ProbDatalog

namespace Evaluable

variable {args : List Term} {b : Substitution}

theorem settle_eq_accept_iff {t : Term} {c : Constant} : settle t c = .accept ↔ t = .const c := by
  cases t with
  | const d =>
    by_cases h : d = c <;> simp [settle, Outcome.ofBool, h]
  | var v => simp [settle]

theorem settle_eq_bind {t : Term} {c : Constant} (h : settle t c = .bind b) :
    ∃ v, t = .var v ∧ b = Substitution.empty.bind v (.const c) := by
  cases t with
  | const d =>
    by_cases hd : d = c <;> simp [settle, Outcome.ofBool, hd] at h
  | var v =>
    simp only [settle, Outcome.bind.injEq] at h
    exact ⟨v, rfl, h.symm⟩

/-- A call is a given argument among inputs that are given. -/
structure Settles (args before after : List Term) (result : Term) : Prop where
  eq : args = before ++ result :: after
  before : ∀ t ∈ before, t.isGround = true
  after : ∀ t ∈ after, t.isGround = true

theorem map_value_eq_self {ts : List Term} (h : ∀ t ∈ ts, t.isGround = true) (θ : Valuation) :
    (ts.map fun t => Term.const (t.value θ)) = ts := by
  conv_rhs => rw [← List.map_id ts]
  exact List.map_congr_left fun t ht => (Term.eq_const_of_isGround (h t ht) θ).symm

namespace Settles

variable {before after : List Term} {v : Variable}

/-- The open argument is the only variable. -/
theorem var_mem_iff (h : Settles args before after (.var v)) {u : Variable} :
    .var u ∈ args ↔ u = v := by
  rw [h.eq, List.mem_append, List.mem_cons]
  constructor
  · rintro (hu | hu | hu)
    · exact absurd (h.before _ hu) (by simp [Term.isGround])
    · cases hu
      rfl
    · exact absurd (h.after _ hu) (by simp [Term.isGround])
  · rintro rfl
    exact .inr (.inl rfl)

/-- Instances of the call fill in the open argument. -/
theorem map_value (h : Settles args before after (.var v)) (θ : Valuation) :
    (args.map fun t => Term.const (t.value θ)) = before ++ .const (θ v) :: after := by
  rw [h.eq, List.map_append, List.map_cons, map_value_eq_self h.before, map_value_eq_self h.after,
    Term.value_var]

end Settles

/-- Where a call does not come out as rejected, its inputs are given, and any value of the argument
that is settled either comes out as the value says or is no way to make the call acceptable. -/
def SettlesOne (e : Evaluable) : Prop :=
  ∀ args o, e.evaluate args = .ok o → o ≠ .reject → ∃ before result after c,
    Settles args before after result ∧ o = settle result c ∧
      ∀ d, e.evaluate (before ++ .const d :: after) = .ok .accept ↔ d = c

/-- What binds one argument of a call has one value for it. -/
theorem SettlesOne.exists_of_bind {e : Evaluable} (he : e.SettlesOne)
    (h : e.evaluate args = .ok (.bind b)) :
    ∃ before v after c, Settles args before after (.var v) ∧
      b = Substitution.empty.bind v (.const c) ∧
        ∀ d, e.evaluate (before ++ .const d :: after) = .ok .accept ↔ d = c := by
  obtain ⟨before, result, after, c, hs, ho, hc⟩ := he args _ h (by simp)
  obtain ⟨v, rfl, rfl⟩ := settle_eq_bind ho.symm
  exact ⟨before, v, after, c, hs, rfl, hc⟩

/-- **Predicates that settle one argument are steady.** -/
theorem SettlesOne.steady {e : Evaluable} (h : e.SettlesOne) : e.Steady where
  isGround_of_accept {args} hacc t ht := by
    obtain ⟨before, result, after, c, hs, ho, -⟩ := h args _ hacc (by simp)
    have hr : result = .const c := settle_eq_accept_iff.1 ho.symm
    rw [hs.eq, List.mem_append, List.mem_cons] at ht
    rcases ht with ht | rfl | ht
    · exact hs.before t ht
    · rw [hr]
      rfl
    · exact hs.after t ht
  exists_binding {args b} hbind v hv := by
    obtain ⟨before, u, after, c, hs, rfl, -⟩ := h.exists_of_bind hbind
    obtain rfl := hs.var_mem_iff.1 hv
    exact ⟨c, List.mem_singleton_self _⟩
  accept_iff {args b} hbind θ := by
    obtain ⟨before, u, after, c, hs, rfl, hc⟩ := h.exists_of_bind hbind
    have hlist : (Substitution.empty.bind u (.const c)).toList = [(u, .const c)] := rfl
    rw [hs.map_value, hc, hlist]
    simp

/-! ## Families of predicates -/

/-- A comparison binds nothing. -/
theorem comparison_ne_bind {name : String} {r : Relation} :
    (comparison name r).evaluate args ≠ .ok (.bind b) := by
  intro h
  simp only [comparison] at h
  split at h
  next a c => cases hr : r.holds a c <;> simp [Outcome.ofBool, hr] at h
  · cases h

theorem steady_comparison (name : String) (r : Relation) : (comparison name r).Steady where
  isGround_of_accept := isGround_of_comparison_accept
  exists_binding h := absurd h comparison_ne_bind
  accept_iff h := absurd h comparison_ne_bind

theorem numberInput_eq_ok {name : String} {t : Term} {o : Option Number}
    (h : numberInput name t = .ok o) : o = none ∨ ∃ x, o = some x ∧ t = .const (.number x) := by
  unfold numberInput at h
  split at h
  · cases h
    exact .inl rfl
  · cases h
    exact .inr ⟨_, rfl, rfl⟩
  · cases h

theorem stringInput_eq_ok {name : String} {t : Term} {o : Option String}
    (h : stringInput name t = .ok o) : o = none ∨ ∃ x, o = some x ∧ t = .const (.string x) := by
  unfold stringInput at h
  split at h
  · cases h
    exact .inl rfl
  · cases h
    exact .inr ⟨_, rfl, rfl⟩
  · cases h

theorem isGround_of_stringInputs {name : String} {ts : List Term} {strings : List String}
    (h : stringInputs name ts = .ok (some strings)) : ∀ t ∈ ts, t.isGround = true := by
  induction ts generalizing strings with
  | nil => simp
  | cons t rest ih =>
    unfold stringInputs at h
    cases ht : stringInput name t with
    | error e => simp [ht, bind, Except.bind] at h
    | ok o =>
      rcases stringInput_eq_ok ht with rfl | ⟨x, rfl, rfl⟩
      · simp [ht, bind, Except.bind, pure, Except.pure] at h
      · cases hrest : stringInputs name rest with
        | error e => simp [ht, hrest, bind, Except.bind] at h
        | ok o =>
          cases o with
          | none => simp [ht, hrest, bind, Except.bind, pure, Except.pure] at h
          | some ss =>
            rw [List.forall_mem_cons]
            exact ⟨rfl, ih hrest⟩

theorem settlesOne_kindTest : kindTest.SettlesOne := by
  intro args o h hne
  simp only [kindTest] at h
  split at h
  next c kind =>
    cases hk : stringInput "is" kind with
    | error e => simp [hk, bind, Except.bind] at h
    | ok i =>
      simp only [hk, bind, Except.bind, pure, Except.pure, Except.ok.injEq] at h
      refine ⟨[.const c], kind, [], .string c.kind.name, ⟨rfl, by simp [Term.isGround], by simp⟩,
        h.symm, fun d => ?_⟩
      cases d <;> simp [kindTest, stringInput, bind, Except.bind, pure, Except.pure,
        settle_eq_accept_iff]
  · cases h
    exact absurd rfl hne

theorem settlesOne_arithmetic (name : String) (operation : Number → Number → Option Number) :
    (arithmetic name operation).SettlesOne := by
  intro args o h hne
  simp only [arithmetic] at h
  split at h
  next result left right =>
    cases hl : numberInput name left with
    | error e => simp [hl, bind, Except.bind] at h
    | ok a =>
      cases hr : numberInput name right with
      | error e => simp [hl, hr, bind, Except.bind] at h
      | ok b =>
        rcases numberInput_eq_ok hl with rfl | ⟨x, rfl, rfl⟩
        · simp only [hl, hr, bind, Except.bind, pure, Except.pure] at h
          cases h
          exact absurd rfl hne
        rcases numberInput_eq_ok hr with rfl | ⟨y, rfl, rfl⟩
        · simp only [hl, hr, bind, Except.bind, pure, Except.pure] at h
          cases h
          exact absurd rfl hne
        simp only [hl, hr, bind, Except.bind, pure, Except.pure] at h
        cases hop : operation x y with
        | none =>
          simp only [hop] at h
          cases h
          exact absurd rfl hne
        | some z =>
          simp only [hop] at h
          by_cases hf : z.isFinite = true
          · rw [if_pos hf] at h
            cases h
            refine ⟨[], result, [.const (.number x), .const (.number y)], .number z.canonical,
              ⟨rfl, by simp, by simp [Term.isGround]⟩, rfl, fun d => ?_⟩
            simp [arithmetic, numberInput, hop, hf, bind, Except.bind, pure, Except.pure,
              settle_eq_accept_iff]
          · rw [if_neg hf] at h
            cases h
            exact absurd rfl hne
  · cases h
    exact absurd rfl hne

theorem settlesOne_stringFunction (name : String) (inputs : Nat)
    (function : List String → Constant) : (stringFunction name inputs function).SettlesOne := by
  intro args o h hne
  simp only [stringFunction] at h
  split at h
  next result arguments =>
    cases hi : stringInputs name arguments with
    | error e => simp [hi, bind, Except.bind] at h
    | ok i =>
      cases i with
      | none =>
        simp only [hi, bind, Except.bind, pure, Except.pure] at h
        cases h
        exact absurd rfl hne
      | some strings =>
        simp only [hi, bind, Except.bind, pure, Except.pure, Except.ok.injEq] at h
        refine ⟨[], result, arguments, function strings,
          ⟨rfl, by simp, isGround_of_stringInputs hi⟩, h.symm, fun d => ?_⟩
        simp [stringFunction, hi, bind, Except.bind, pure, Except.pure, settle_eq_accept_iff]
  · cases h
    exact absurd rfl hne

/-- The predicates of the kinds that the standard ones are of, whatever they ask of two constants
and whatever they compute from numbers and strings. -/
inductive Computed : Evaluable → Prop where
  | comparison (name : String) (r : Relation) : Computed (.comparison name r)
  | kindTest : Computed .kindTest
  | arithmetic (name : String) (operation : Number → Number → Option Number) :
    Computed (.arithmetic name operation)
  | stringFunction (name : String) (inputs : Nat) (function : List String → Constant) :
    Computed (.stringFunction name inputs function)

theorem Computed.steady {e : Evaluable} (h : e.Computed) : e.Steady := by
  cases h with
  | comparison name r => exact steady_comparison name r
  | kindTest => exact settlesOne_kindTest.steady
  | arithmetic name operation => exact (settlesOne_arithmetic name operation).steady
  | stringFunction name inputs function =>
    exact (settlesOne_stringFunction name inputs function).steady

theorem computed_of_mem_standard {e : Evaluable} (h : e ∈ standard) : e.Computed := by
  simp only [standard, List.mem_cons, List.not_mem_nil, or_false] at h
  rcases h with rfl | rfl | rfl | rfl | rfl | rfl | rfl | rfl | rfl | rfl | rfl | rfl | rfl | rfl |
    rfl | rfl | rfl
  any_goals exact .comparison _ _
  any_goals exact .arithmetic _ _
  any_goals exact .stringFunction _ _ _
  exact .kindTest

end Evaluable

namespace Registry

theorem mem_of_get?_ofList {members : List Evaluable} {name : String} {e : Evaluable}
    (h : (ofList members).get? name = some e) : e ∈ members := by
  have hfold : ∀ (r : Registry) (members : List Evaluable),
      (members.foldl register r).get? name = some e → e ∈ members ∨ r.get? name = some e := by
    intro r members
    induction members generalizing r with
    | nil => exact fun h => .inr h
    | cons m rest ih =>
      intro h
      rcases ih _ h with hrest | hm
      · exact .inl (List.mem_cons_of_mem _ hrest)
      · unfold get? register at hm
        rw [Assoc.get?_insert] at hm
        split at hm
        · cases hm
          exact .inl List.mem_cons_self
        · exact .inr hm
  rcases hfold empty members h with h | h
  · exact h
  · simp [get?, empty] at h

theorem computed_standard {name : String} {e : Evaluable} (h : standard.get? name = some e) :
    e.Computed :=
  Evaluable.computed_of_mem_standard (mem_of_get?_ofList h)

/-- All standard predicates are steady. -/
theorem steady_standard {name : String} {e : Evaluable} (h : standard.get? name = some e) :
    e.Steady :=
  (computed_standard h).steady

end Registry

end ProbDatalog
