import ProbDatalog.Proofs.Constants
import ProbDatalog.Proofs.Plain

/-!
# Explorations stay within the constants

An exploration treats all constants alike that neither the clauses nor the call mention, and it
goes on with finitely many answers. So whatever it comes to has only constants that are mentioned.

* `Explored.walk`: **an exploration from generic valuations comes to generic calls only.**
* `Layered.walk`, `Layered.walk_required`: the premises of a rule for an instance of a generic
  pattern.
-/

namespace ProbDatalog

variable {U : List Constant}

/-- Valuations that do not tell apart constants outside of a list. -/
def Generic (U : List Constant) (A : Set Valuation) : Prop :=
  ∀ φ, Fixes U φ → ∀ θ ∈ A, φ ∘ θ ∈ A

/-- A pattern that does not tell apart constants outside of a list. -/
def CallPattern.Generic (U : List Constant) (p : CallPattern) : Prop :=
  ∀ φ, Fixes U φ → ∀ g ∈ p.instances, g.mapConstants φ ∈ p.instances

theorem Fixes.mono {V : List Constant} {φ : Constant → Constant} (h : Fixes U φ) (hV : V ⊆ U) :
    Fixes V φ := fun c hc => h c (hV hc)

/-- The pattern of a literal over the constants is generic. -/
theorem CallPattern.generic_of_constants {l : Literal} (hU : l.constants ⊆ U) :
    (CallPattern.of l).Generic U := by
  intro φ hφ g hg
  rw [CallPattern.mem_instances_of] at hg ⊢
  obtain ⟨θ, rfl⟩ := hg
  exact ⟨φ ∘ θ, Literal.ground_comp (l := l.positive) (hφ.mono hU)⟩

/-- The instances of a head that are instances of a generic pattern are generic. -/
theorem generic_head {p : CallPattern} (hp : p.Generic U) {h : Literal} (hU : h.constants ⊆ U) :
    Generic U {θ | h.ground θ ∈ p.instances} := by
  intro φ hφ θ hθ
  show h.ground (φ ∘ θ) ∈ p.instances
  rw [Literal.ground_comp (hφ.mono hU)]
  exact hp φ hφ _ hθ

namespace Generic

variable {A : Set Valuation} {l g : Literal} {p : CallPattern}

/-- A literal that is the same under all of these valuations is over the constants. -/
theorem constants_subset (hA : Generic U A) (hl : l.constants ⊆ U) (hne : A.Nonempty)
    (hall : ∀ θ ∈ A, l.ground θ = g) : g.constants ⊆ U := by
  obtain ⟨θ, hθ⟩ := hne
  refine Literal.constants_subset_of_fixed fun φ hφ => ?_
  rw [← hall θ hθ, ← Literal.ground_comp (hφ.mono hl), hall θ hθ]
  exact hall _ (hA φ hφ θ hθ)

/-- The valuations that give a literal one instance over the constants. -/
theorem sep (hA : Generic U A) (hl : l.constants ⊆ U) (hg : g.constants ⊆ U) :
    Generic U {θ ∈ A | l.ground θ = g} := by
  rintro φ hφ θ ⟨hθ, heq⟩
  refine ⟨hA φ hφ θ hθ, ?_⟩
  rw [Literal.ground_comp (hφ.mono hl), heq]
  exact Literal.mapConstants_eq_self_iff.2 (hφ.mono hg)

/-- A pattern with the instances that a literal has under these valuations. -/
theorem pattern (hA : Generic U A) (hl : l.constants ⊆ U)
    (hp : ∀ g, g ∈ p.instances ↔ ∃ θ ∈ A, l.ground θ = g) : p.Generic U := by
  intro φ hφ g hg
  obtain ⟨θ, hθ, rfl⟩ := (hp g).1 hg
  exact (hp _).2 ⟨φ ∘ θ, hA φ hφ θ hθ, Literal.ground_comp (hφ.mono hl)⟩

end Generic

namespace Meaning

variable {w : Theory} {M : Meaning w} {H : Horizon} {counts : Valuation → Prop}
variable {body : List Literal} {A : Set Valuation} {θ : Valuation}

/-- **An exploration from generic valuations comes to generic calls only**, and everything that it
comes to is over the constants. Its valuation has to satisfy what the exploration asks for on its
way. -/
theorem Explored.walk (h : M.Explored H counts body A) (hA : Generic U A) (hθ : θ ∈ A)
    (hc : counts θ) (hU : ∀ l ∈ body, l.constants ⊆ U)
    (hrel : ∀ l ∈ body, w.registry.contains l.predicate = false)
    (hneg : ∀ l ∈ body, l.negated = true → H.decided (.of (l.positive.ground θ)) →
      (l.ground θ).constants ⊆ U → M.mustNegate (l.positive.ground θ))
    (hpos : ∀ l ∈ body, l.negated = false → ∀ q, H.called q → q.Generic U →
      l.ground θ ∈ q.instances → l.ground θ ∈ H.known q ∧ (l.ground θ).constants ⊆ U) :
    ∀ l ∈ body, (l.ground θ).constants ⊆ U ∧
      (l.negated = true → H.decided (.of (l.positive.ground θ))) ∧
      (l.negated = false → ∃ q, H.called q ∧ q.Generic U ∧ l.ground θ ∈ q.instances) := by
  induction body generalizing A with
  | nil => simp
  | cons l rest ih =>
    have hl : l ∈ l :: rest := List.mem_cons_self
    have hover : l.constants ⊆ U := hU l hl
    -- what is left of the body, from any generic set of valuations that still has the one of the
    -- rule
    have hgo : ∀ A', Generic U A' → θ ∈ A' → M.Explored H counts rest A' →
        ∀ m ∈ rest, (m.ground θ).constants ⊆ U ∧
          (m.negated = true → H.decided (.of (m.positive.ground θ))) ∧
          (m.negated = false → ∃ q, H.called q ∧ q.Generic U ∧ m.ground θ ∈ q.instances) :=
      fun A' hA' hθ' hnext => ih hnext hA' hθ' (fun m hm => hU m (List.mem_cons_of_mem _ hm))
        (fun m hm => hrel m (List.mem_cons_of_mem _ hm))
        (fun m hm => hneg m (List.mem_cons_of_mem _ hm))
        fun m hm => hpos m (List.mem_cons_of_mem _ hm)
    have hstep := h ⟨θ, hθ, hc⟩
    rw [List.forall_mem_cons]
    by_cases hn : l.negated = true
    · obtain ⟨b, hb, hd, hnext⟩ := (exploredLiteral_negated hn).1 hstep
      -- the same fact is negated under all valuations, so its constants are mentioned
      have hcon : (l.ground θ).constants ⊆ U := by
        have := hA.constants_subset (l := l.positive) hover ⟨θ, hθ⟩ hb
        rwa [← hb θ hθ] at this
      have hdec : H.decided (.of (l.positive.ground θ)) := by
        rw [hb θ hθ]
        exact hd.resolve_left (by simp [hrel l hl])
      have hmust := hneg l hl hn hdec hcon
      rw [hb θ hθ] at hmust
      exact ⟨⟨hcon, fun _ => hdec, fun hn' => by simp [hn] at hn'⟩, hgo A hA hθ (hnext hmust)⟩
    · have hn' : l.negated = false := by simpa using hn
      -- the called pattern has the instances of a generic set, and an answer over the constants
      -- splits off another one
      obtain ⟨q, hq, hinst, hnext⟩ := (exploredLiteral_relational hn' (hrel l hl)).1 hstep
      have hgen : q.Generic U := hA.pattern hover hinst
      have hmem : l.ground θ ∈ q.instances := (hinst _).2 ⟨θ, hθ, rfl⟩
      obtain ⟨hknown, hcon⟩ := hpos l hl hn' q hq hgen hmem
      refine ⟨⟨hcon, fun h => absurd h hn, fun _ => ⟨q, hq, hgen, hmem⟩⟩, ?_⟩
      exact hgo _ (hA.sep hover hcon) ⟨hθ, rfl⟩ (hnext _ hknown)

/-! ## Layers -/

variable {patterns : Set CallPattern} {rank : CallPattern → Nat} {r : Nat} {f : Literal}

/-- A generic pattern on a layer of at most the given rank covers the fact. -/
def Covered (patterns : Set CallPattern) (rank : CallPattern → Nat) (U : List Constant) (r : Nat)
    (f : Literal) : Prop := ∃ p ∈ patterns, rank p ≤ r ∧ p.Generic U ∧ f ∈ p.instances

theorem Covered.mono {r' : Nat} (h : Covered patterns rank U r f) (hr : r ≤ r') :
    Covered patterns rank U r' f := by
  obtain ⟨p, hp, hle, h⟩ := h
  exact ⟨p, hp, hle.trans hr, h⟩

/-- **The premises of a rule for an instance of a generic pattern** are over the constants and are
covered, negated ones on a lower layer. The rule has to satisfy what exploring its clause asks for
on the way. -/
theorem Layered.walk (hw : w.Plain) (hU : w.program.constants ⊆ U)
    (h : M.Layered patterns rank) {p : CallPattern} (hp : p ∈ patterns) (hgen : p.Generic U)
    {π : Proof} (hπ : π ∈ w.rules) (hc : π ∈ M.counted) (hi : π.head ∈ p.instances)
    (hpos : ∀ l, .relational l ∈ π.body → l.negated = false →
      Covered patterns rank U (rank p) l → l ∈ M.required ∧ l.constants ⊆ U)
    (hneg : ∀ l, .relational l ∈ π.body → l.negated = true →
      (∃ r < rank p, Covered patterns rank U r l.positive) → M.mustNegate l.positive) :
    π ∈ w.groundings U ∧ ∀ l, .relational l ∈ π.body →
      (l.negated = false → Covered patterns rank U (rank p) l) ∧
      (l.negated = true → ∃ r < rank p, Covered patterns rank U r l.positive) := by
  obtain ⟨id, c, θ, hid, rfl, -⟩ := hπ
  have hmem : c ∈ w.program.clauses := Program.mem_clauses_of_clause? hid
  have hover : ∀ l ∈ c.head :: c.body, l.constants ⊆ U := fun l hl =>
    List.Subset.trans (Literal.constants_subset_of_mem hmem hl) hU
  have hrel : ∀ l ∈ c.body, w.registry.contains l.predicate = false := fun l hl =>
    hw.relational hid l (List.mem_cons_of_mem _ hl)
  have hprem : ∀ l ∈ c.body, .relational (l.ground θ) ∈ (w.groundRule id c θ).body :=
    fun l hl => Theory.relational_mem_groundRule.2 ⟨l, hl, rfl, .inr (hrel l hl)⟩
  -- a negated premise over the constants has a generic pattern, which is on a lower layer
  have hlower : ∀ l ∈ c.body, (l.ground θ).constants ⊆ U →
      .of (l.positive.ground θ) ∈ patterns ∧ rank (.of (l.positive.ground θ)) < rank p →
      ∃ r < rank p, Covered patterns rank U r (l.ground θ).positive := by
    rintro l - hcon ⟨hin, hlt⟩
    refine ⟨_, hlt, _, hin, Nat.le_refl _, CallPattern.generic_of_constants hcon, ?_⟩
    exact (CallPattern.mem_instances_of_isGround (by simp)).2 rfl
  have hwalk := (h p hp id c hid).walk (generic_head hgen (hover _ List.mem_cons_self)) hi hc
    (fun l hl => hover l (List.mem_cons_of_mem _ hl)) hrel
    (fun l hl hn hd hcon => hneg _ (hprem l hl) hn (hlower l hl hcon hd))
    fun l hl hn q hq hqgen hlq => by
      obtain ⟨hreq, hcon⟩ := hpos _ (hprem l hl) hn ⟨q, hq.1, hq.2, hqgen, hlq⟩
      exact ⟨⟨hreq, hlq⟩, hcon⟩
  have hbody : ∀ l ∈ c.body, ∀ v ∈ l.vars, θ v ∈ U := fun l hl v hv =>
    (hwalk l hl).1 (Literal.value_mem_constants hv)
  refine ⟨Theory.mem_groundings_iff.2 ⟨id, c, θ, hid, rfl, fun v hv => ?_⟩, ?_⟩
  · obtain ⟨l, hl, hv⟩ := Clause.mem_vars.1 hv
    rcases List.mem_cons.1 hl with rfl | hl
    · -- variables of the head occur in the body
      obtain ⟨m, hm, hvm⟩ := List.mem_flatMap.1 (hw.asserted.mem_boundVars hid hv)
      exact hbody m (List.mem_filter.1 hm).1 v hvm
    · exact hbody l hl v hv
  · intro g hg
    obtain ⟨l, hl, rfl, -⟩ := Theory.relational_mem_groundRule.1 hg
    obtain ⟨hcon, hdec, hcall⟩ := hwalk l hl
    refine ⟨fun hn => ?_, fun hn => hlower l hl hcon (hdec hn)⟩
    obtain ⟨q, hq, hqgen, hlq⟩ := hcall hn
    exact ⟨q, hq.1, hq.2, hqgen, hlq⟩

/-- Facts that have to be found are over the constants, as far as generic patterns cover them. -/
theorem Layered.constants_subset (hw : w.Plain) (hU : w.program.constants ⊆ U)
    (h : M.Layered patterns rank) (hM : M.counted ⊆ w.rules) (hf : f ∈ M.required)
    (hcov : Covered patterns rank U r f) : f.constants ⊆ U := by
  -- by induction on the derivation: positive premises are over the constants, and so is the rule
  induction hf with
  | @rule π hπ hpos hneg ih =>
    obtain ⟨p, hp, hle, hgen, hi⟩ := hcov
    obtain ⟨hover, -⟩ := h.walk hw hU hp hgen (hM hπ) hπ hi
      (fun l hl hn hc => ⟨hpos l hl hn, ih l hl hn (hc.mono hle)⟩) fun l hl hn _ => hneg l hl hn
    obtain ⟨id, c, θ, hid, rfl, hθ⟩ := Theory.mem_groundings_iff.1 hover
    refine Literal.constants_ground_subset ?_ fun v hv => ?_
    · exact List.Subset.trans (Literal.constants_subset_of_mem (Program.mem_clauses_of_clause? hid)
        List.mem_cons_self) hU
    · exact hθ v (Clause.mem_vars.2 ⟨_, List.mem_cons_self, hv⟩)

/-- **The premises of a rule for an instance of a generic pattern**, where the positive ones have to
be found. -/
theorem Layered.walk_required (hw : w.Plain) (hU : w.program.constants ⊆ U)
    (h : M.Layered patterns rank) (hM : M.counted ⊆ w.rules) {p : CallPattern} (hp : p ∈ patterns)
    (hgen : p.Generic U) {π : Proof} (hc : π ∈ M.counted) (hi : π.head ∈ p.instances)
    (hpos : ∀ l, .relational l ∈ π.body → l.negated = false →
      Covered patterns rank U (rank p) l → l ∈ M.required)
    (hneg : ∀ l, .relational l ∈ π.body → l.negated = true →
      (∃ r < rank p, Covered patterns rank U r l.positive) → M.mustNegate l.positive) :
    π ∈ w.groundings U ∧ ∀ l, .relational l ∈ π.body →
      (l.negated = false → Covered patterns rank U (rank p) l) ∧
      (l.negated = true → ∃ r < rank p, Covered patterns rank U r l.positive) := by
  refine h.walk hw hU hp hgen (hM hc) hc hi (fun l hl hn hcov => ?_) hneg
  have hreq := hpos l hl hn hcov
  exact ⟨hreq, h.constants_subset hw hU hM hreq hcov⟩

end Meaning

end ProbDatalog
