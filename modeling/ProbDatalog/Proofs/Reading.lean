import ProbDatalog.Proofs.Consistency

/-!
# Readings of programs

In a possible world some of the probabilistic ground rules take effect. A reading says for every
set of rules that may take effect which facts surely hold and which possibly do: the sure facts
follow where what is not even possible may be negated, and the possible ones follow where what is
not sure may be. Where no fact depends on its own negation, the two are the same.

* `Reading.meaning`: what a search may conclude, and what it must not overlook, in a reading.
* `Reading.lawful`: **that meaning makes sense.**
-/

namespace ProbDatalog

/-- The rules that take effect in a world: where clauses have probabilities, the certain ones and
those that the world has. -/
def Theory.active (w : Theory) (ω : World) : Set Proof :=
  {π ∈ w.rules | w.mode = .problog → π.isProbabilistic = true → ω π = true}

theorem Theory.active_subset_rules (w : Theory) (ω : World) : w.active ω ⊆ w.rules :=
  fun _ hπ => hπ.1

/-- No call is rejected while it is open if one of its instances is part of a ground rule. -/
def Theory.Decides (w : Theory) : Prop :=
  ∀ {id c before l after θ args e}, w.program.clause? id = some c →
    c.body = before ++ l :: after → l.negated = false → w.registry.get? l.predicate = some e →
    w.groundRule id c θ ∈ w.rules → l.PartialCall θ (boundVarsOf before) args →
    e.evaluate args ≠ .ok .reject

/-- Sure and possible facts for every set of rules that may take effect. -/
structure Reading (w : Theory) where
  sure : Set Proof → Set Literal
  possible : Set Proof → Set Literal
  sure_subset : ∀ ω, sure (w.active ω) ⊆ possible (w.active ω)
  sure_eq : ∀ ω, sure (w.active ω) = consequences (w.active ω) (w.Refutes (possible (w.active ω)))
  possible_eq : ∀ ω,
    possible (w.active ω) = consequences (w.active ω) (w.Refutes (sure (w.active ω)))

namespace Reading

variable {w : Theory} (R : Reading w)

/-- A negation may be taken to hold that holds in some world, and must not be overlooked if it may
hold in some world. -/
def meaning : Meaning w where
  mayNegate b := ∃ ω, w.Refutes (R.possible (w.active ω)) b
  mustNegate b := ∃ ω, w.Refutes (R.sure (w.active ω)) b
  counted := w.rules

variable {R}

theorem mustNegate_of_mayNegate {b : Literal} (h : R.meaning.mayNegate b) :
    R.meaning.mustNegate b := by
  obtain ⟨ω, hω⟩ := h
  exact ⟨ω, Theory.refutes_antitone (R.sure_subset ω) hω⟩

/-- Everything that may be found has to be found. -/
theorem derivable_subset_required : R.meaning.derivable ⊆ R.meaning.required :=
  consequences_mono Set.Subset.rfl fun _ => mustNegate_of_mayNegate

theorem possible_subset_required (ω : World) :
    R.possible (w.active ω) ⊆ R.meaning.required := by
  rw [R.possible_eq ω]
  exact consequences_mono (fun π hπ => hπ.1) fun b hb => ⟨ω, hb⟩

theorem active_of_datalog (hm : w.mode = .datalog) (ω : World) : w.active ω = w.rules := by
  ext π
  simp [Theory.active, hm]

/-- Where all clauses take effect, everything that may be found is sure. -/
theorem derivable_of_datalog (hm : w.mode = .datalog) :
    R.meaning.derivable = R.sure w.rules := by
  have hω : w.active (fun _ => true) = w.rules := active_of_datalog hm _
  have hsure := R.sure_eq fun _ => true
  rw [hω] at hsure
  rw [hsure]
  -- there is one world only, so what may be negated in some world may be negated in it
  refine Set.Subset.antisymm (consequences_mono Set.Subset.rfl ?_) (consequences_mono
    Set.Subset.rfl fun b hb => ⟨fun _ => true, by rwa [hω]⟩)
  rintro b ⟨ω, hb⟩
  rwa [active_of_datalog hm] at hb

/-- **The meaning of a reading makes sense.** -/
theorem lawful (hw : w.Decides) : R.meaning.Lawful where
  counted_subset := Set.Subset.rfl
  mayNegate_of_rejects hc hb := ⟨fun _ => true, by rwa [Theory.Refutes, if_pos hc]⟩
  rejects_of_mustNegate hc := by
    rintro ⟨ω, hb⟩
    rwa [Theory.Refutes, if_pos hc] at hb
  mayNegate_of_not_required {b} hc hb := by
    refine ⟨fun _ => true, ?_⟩
    rw [Theory.Refutes, if_neg (by simp [hc])]
    exact fun h => hb (possible_subset_required _ h)
  not_mustNegate_of_derivable hm b hc hb := by
    rintro ⟨ω, hω⟩
    rw [Theory.Refutes, if_neg (by simp [hc]), active_of_datalog hm] at hω
    exact hω (derivable_of_datalog hm ▸ hb)
  decides hid hbody hn he hcount := hw hid hbody hn he hcount

end Reading

end ProbDatalog
