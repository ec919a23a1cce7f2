import ProbDatalog.Proofs.Lineages

/-!
# Trees of proofs

A derivation of a fact is a finite tree of proofs. Its root shows the fact, below each proof there
is a derivation of each relational premise, and no fact occurs twice on a way down from the root.

Whoever looks for all derivations of a fact, premise by premise and from left to right, comes across
more proofs than derivations use: only when a premise turns out to have no derivation do the proofs
that were found for the premises before it turn out to be of no use.

* `derivable_iff`, `met_iff`: one step from a fact to the premises of its proofs.
* `Derivation.met`: **what derivations use is met.**
* `exists_uses_iff_met`: where no proof has two relational premises, derivations use all that is
  met.
-/

namespace ProbDatalog

/-- The derivations of a fact from a set of proofs, on a way down through the facts of `path`. -/
inductive Derivation (s : ProofSet) : Set Literal → Literal → Type
  /-- A proof, with a derivation of its premise at each place that has a relational one. -/
  | node {path : Set Literal} {fact : Literal} (π : Proof) (mem : π ∈ s.toList)
      (head : π.head = fact) (fresh : fact ∉ path)
      (below : ∀ (k : Nat) (q : Literal), π.body[k]? = some (.relational q) →
        Derivation s (Insert.insert fact path) q) : Derivation s path fact

/-- The proof is at a node of the derivation. -/
def Derivation.Uses {s : ProofSet} {path : Set Literal} {fact : Literal} (P : Proof) :
    Derivation s path fact → Prop
  | .node π _ _ _ below => π = P ∨ ∃ k q, ∃ h : π.body[k]? = some (.relational q),
      (below k q h).Uses P

/-- At most one premise is relational. -/
def Proof.Linear (π : Proof) : Prop :=
  ∀ (j k : Nat) (p q : Literal),
    π.body[j]? = some (.relational p) → π.body[k]? = some (.relational q) → j = k

namespace ProofSet

variable (s : ProofSet)

/-- There is a derivation of the fact on a way down through the facts of `path`. -/
def Derivable (path : Set Literal) (fact : Literal) : Prop := Nonempty (Derivation s path fact)

/-- The proof is met in the search for derivations of a fact: all its premises have derivations, or
it is met at a premise of another proof, where the premises before that one have derivations. -/
inductive Met (P : Proof) : Set Literal → Literal → Prop
  | here {path : Set Literal} {fact : Literal} (mem : P ∈ s.toList) (head : P.head = fact)
      (fresh : fact ∉ path)
      (below : ∀ q, .relational q ∈ P.body → s.Derivable (Insert.insert fact path) q) :
      Met P path fact
  | under {path : Set Literal} {fact : Literal} {π : Proof} (mem : π ∈ s.toList)
      (head : π.head = fact) (fresh : fact ∉ path) {k : Nat} {q : Literal}
      (premise : π.body[k]? = some (.relational q))
      (before : ∀ j < k, ∀ p, π.body[j]? = some (.relational p) →
        s.Derivable (Insert.insert fact path) p)
      (met : Met P (Insert.insert fact path) q) : Met P path fact

variable {s} {P : Proof} {path : Set Literal} {fact : Literal}

/-! ## One step -/

theorem derivable_iff : s.Derivable path fact ↔ fact ∉ path ∧ ∃ π ∈ s.toList, π.head = fact ∧
    ∀ q, .relational q ∈ π.body → s.Derivable (Insert.insert fact path) q := by
  constructor
  · rintro ⟨⟨π, mem, head, fresh, below⟩⟩
    refine ⟨fresh, π, mem, head, fun q hq => ?_⟩
    obtain ⟨k, hk⟩ := List.getElem?_of_mem hq
    exact ⟨below k q hk⟩
  · rintro ⟨fresh, π, mem, head, below⟩
    exact ⟨.node π mem head fresh fun k q hk => (below q (List.mem_of_getElem? hk)).some⟩

theorem met_iff : s.Met P path fact ↔ fact ∉ path ∧ ∃ π ∈ s.toList, π.head = fact ∧
    ((π = P ∧ ∀ q, .relational q ∈ π.body → s.Derivable (Insert.insert fact path) q) ∨
      ∃ (k : Nat) (q : Literal), π.body[k]? = some (.relational q) ∧
        (∀ j < k, ∀ p : Literal, π.body[j]? = some (.relational p) →
          s.Derivable (Insert.insert fact path) p) ∧
        s.Met P (Insert.insert fact path) q) := by
  constructor
  · rintro (⟨mem, head, fresh, below⟩ | ⟨mem, head, fresh, premise, before, met⟩)
    · exact ⟨fresh, P, mem, head, .inl ⟨rfl, below⟩⟩
    · exact ⟨fresh, _, mem, head, .inr ⟨_, _, premise, before, met⟩⟩
  · rintro ⟨fresh, π, mem, head, ⟨rfl, below⟩ | ⟨k, q, premise, before, met⟩⟩
    · exact .here mem head fresh below
    · exact .under mem head fresh premise before met

theorem Met.mem (h : s.Met P path fact) : P ∈ s.toList := by
  induction h with
  | here mem => exact mem
  | under _ _ _ _ _ _ ih => exact ih

/-- What has a derivation is not on the way yet and has a proof. -/
theorem Derivable.proves (h : s.Derivable path fact) : fact ∉ path ∧ s.proves fact = true := by
  obtain ⟨fresh, π, mem, head, -⟩ := derivable_iff.1 h
  exact ⟨fresh, proves_iff.2 ⟨π, mem, head⟩⟩

/-- Nothing is met at other facts. -/
theorem Met.proves (h : s.Met P path fact) : fact ∉ path ∧ s.proves fact = true := by
  obtain ⟨fresh, π, mem, head, -⟩ := met_iff.1 h
  exact ⟨fresh, proves_iff.2 ⟨π, mem, head⟩⟩

end ProofSet

/-! ## Derivations and the search for them -/

section Search

variable {s : ProofSet} {P : Proof} {path : Set Literal} {fact : Literal}

/-- **What derivations use is met.** -/
theorem Derivation.met (d : Derivation s path fact) (h : d.Uses P) : s.Met P path fact := by
  induction d with
  | node π mem head fresh below ih =>
    rcases h with rfl | ⟨k, q, hk, h⟩
    · refine .here mem head fresh fun q hq => ?_
      obtain ⟨k, hk⟩ := List.getElem?_of_mem hq
      exact ⟨below k q hk⟩
    · exact .under mem head fresh hk (fun j _ p hp => ⟨below j p hp⟩) (ih k q hk h)

/-- **Where no proof has two relational premises, derivations use all that is met.** -/
theorem ProofSet.exists_uses_iff_met (hlin : ∀ π ∈ s.toList, π.Linear) :
    (∃ d : Derivation s path fact, d.Uses P) ↔ s.Met P path fact := by
  constructor
  · rintro ⟨d, h⟩
    exact d.met h
  · intro h
    induction h with
    | @here path fact mem head fresh below =>
      have hbelow : ∀ (k : Nat) (q : Literal), P.body[k]? = some (.relational q) →
          s.Derivable (Insert.insert fact path) q := fun k q hk =>
        below q (List.mem_of_getElem? hk)
      exact ⟨.node P mem head fresh fun k q hk => (hbelow k q hk).some, .inl rfl⟩
    | @under path fact π mem head fresh k q premise before met ih =>
      obtain ⟨d, hd⟩ := ih
      -- the premise at which the proof is met has a derivation that uses it, and is the only one
      have honly : ∀ (j : Nat) (p : Literal), π.body[j]? = some (.relational p) → q = p := by
        intro j p hp
        obtain rfl := hlin π mem j k p q hp premise
        rw [premise] at hp
        cases hp
        rfl
      exact ⟨.node π mem head fresh fun j p hp => honly j p hp ▸ d, .inr ⟨k, q, premise, hd⟩⟩

end Search

end ProbDatalog
