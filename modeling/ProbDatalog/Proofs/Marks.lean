import ProbDatalog.Proofs.Certainty
import ProbDatalog.Proofs.Derivations

/-!
# The support without negation

Where no proof has a negated premise, a lineage is false if and only if there is no derivation, and
its support holds exactly the proofs that the search for derivations meets. So the support holds all
proofs that derivations use. It may hold more: premises are tried from left to right, and what was
found for the first ones stays when a later one turns out to be impossible.

* `Marks`: what a lineage tells of derivations.
* `marks_premisesLineage`, `marks_proofsLineage`, `marks_factLineage`: one lemma for each function.
* `mem_support_iff_met`: **the support holds exactly the proofs that are met.**
-/

namespace ProbDatalog

/-- The lineage is false unless `possible`, and its support holds the ranks that are `marked`. -/
structure Lineage.Marks (L : Lineage) (possible : Prop) (marked : Nat → Prop) : Prop where
  positive : L.formula.Positive
  isFalse_iff : L.formula.isFalse = true ↔ ¬possible
  mem_support : ∀ i, i ∈ L.support ↔ marked i

namespace Lineage.Marks

variable {l m : Lineage} {D D' : Prop} {M M' : Nat → Prop}

theorem congr (h : l.Marks D M) (hD : D ↔ D') (hM : ∀ i, M i ↔ M' i) : l.Marks D' M' :=
  ⟨h.positive, by rw [h.isFalse_iff, hD], fun i => by rw [h.mem_support, hM]⟩

theorem falsity : Lineage.falsity.Marks False fun _ => False :=
  ⟨Formula.positive_falsity, by simp [Lineage.falsity, Formula.falsity, Formula.isFalse],
    by simp [Lineage.falsity]⟩

theorem startLineage (i : Nat) (π : Proof) :
    (ProofSet.startLineage i π).Marks True fun _ => False := by
  unfold ProofSet.startLineage
  split
  · exact ⟨Formula.positive_literal i, by simp [ofVariable, Formula.literal, Formula.isFalse],
      by simp [ofVariable]⟩
  · exact ⟨Formula.positive_truth, by simp [truth, Formula.truth, Formula.isFalse],
      by simp [truth]⟩

theorem and (hl : l.Marks D M) (hm : m.Marks D' M') :
    (l.and m).Marks (D ∧ D') fun i => M i ∨ M' i where
  positive := hl.positive.and hm.positive
  isFalse_iff := by
    show (l.formula.and m.formula).isFalse = true ↔ _
    rw [Formula.isFalse_and hl.positive hm.positive, Bool.or_eq_true, hl.isFalse_iff,
      hm.isFalse_iff, not_and_or]
  mem_support i := by rw [mem_support_and, hl.mem_support, hm.mem_support]

/-- Adding a proof marks what its premises mark, and the proof itself if they are possible. -/
theorem orProof (rank : Nat) (hl : l.Marks D M) (hm : m.Marks D' M') :
    (l.orProof rank m).Marks (D ∨ D') fun i => M i ∨ M' i ∨ (D' ∧ i = rank) where
  positive := by
    unfold Lineage.orProof
    dsimp only
    split
    · exact hl.positive
    · exact hl.positive.or hm.positive
  isFalse_iff := by
    unfold Lineage.orProof
    dsimp only
    split
    next h =>
      have hD' := hm.isFalse_iff.1 h
      show l.formula.isFalse = true ↔ _
      rw [hl.isFalse_iff, or_iff_left hD']
    next =>
      show (l.formula.or m.formula).isFalse = true ↔ _
      rw [Formula.isFalse_or hl.positive hm.positive, Bool.and_eq_true, hl.isFalse_iff,
        hm.isFalse_iff, not_or]
  mem_support i := by
    have hpossible : m.formula.isFalse = false ↔ D' := by
      rw [← Bool.not_eq_true, hm.isFalse_iff, not_not]
    rw [mem_support_orProof, hl.mem_support, hm.mem_support, hpossible, or_assoc]

end Lineage.Marks

namespace ProofSet

variable {s : ProofSet} {ask : Literal → Option Lineage} {start L : Lineage}
variable {body : List Premise} {ranked : List (Nat × Proof)} {fact : Literal} {path : List Literal}
variable {possible : Literal → Prop} {marked : Literal → Nat → Prop} {D : Prop} {M : Nat → Prop}

/-! ## Premises -/

/-- All relational premises are possible. -/
def AllPossible (possible : Literal → Prop) (body : List Premise) : Prop :=
  ∀ q, .relational q ∈ body → possible q

/-- A premise marks the rank, and the premises before it are possible. -/
def MarkedIn (possible : Literal → Prop) (marked : Literal → Nat → Prop) (body : List Premise)
    (i : Nat) : Prop :=
  ∃ (k : Nat) (q : Literal), body[k]? = some (.relational q) ∧
    (∀ j < k, ∀ p : Literal, body[j]? = some (.relational p) → possible p) ∧ marked q i

section Body

variable {p q : Literal} {rest : List Premise} {i : Nat}

theorem not_markedIn_nil : ¬MarkedIn possible marked [] i := by
  rintro ⟨k, q, hk, -⟩
  simp at hk

theorem allPossible_evaluable :
    AllPossible possible (.evaluable q :: rest) ↔ AllPossible possible rest := by
  simp [AllPossible]

theorem allPossible_relational : AllPossible possible (.relational q :: rest) ↔
    possible q ∧ AllPossible possible rest := by
  simp [AllPossible]

theorem markedIn_evaluable : MarkedIn possible marked (.evaluable q :: rest) i ↔
    MarkedIn possible marked rest i := by
  constructor
  · rintro ⟨k, p, hk, hbefore, hmark⟩
    cases k with
    | zero => cases hk
    | succ k => exact ⟨k, p, hk, fun j hj => hbefore (j + 1) (by omega), hmark⟩
  · rintro ⟨k, p, hk, hbefore, hmark⟩
    refine ⟨k + 1, p, hk, fun j hj p hp => ?_, hmark⟩
    cases j with
    | zero => cases hp
    | succ j => exact hbefore j (by omega) p hp

theorem markedIn_relational : MarkedIn possible marked (.relational q :: rest) i ↔
    marked q i ∨ (possible q ∧ MarkedIn possible marked rest i) := by
  constructor
  · rintro ⟨k, p, hk, hbefore, hmark⟩
    cases k with
    | zero =>
      cases hk
      exact .inl hmark
    | succ k =>
      exact .inr ⟨hbefore 0 (by omega) q rfl, k, p, hk,
        fun j hj => hbefore (j + 1) (by omega), hmark⟩
  · rintro (hmark | ⟨hq, k, p, hk, hbefore, hmark⟩)
    · exact ⟨0, q, rfl, fun j hj => absurd hj (Nat.not_lt_zero j), hmark⟩
    · refine ⟨k + 1, p, hk, fun j hj p hp => ?_, hmark⟩
      cases j with
      | zero =>
        cases hp
        exact hq
      | succ j => exact hbefore j (by omega) p hp

end Body

/-- The premises of a proof mark what the first ones mark, up to the first impossible one. -/
theorem marks_premisesLineage
    (hask : ∀ q, .relational q ∈ body → ∀ N, ask q = some N → N.Marks (possible q) (marked q))
    (hs : start.Marks True M) (h : premisesLineage ask start body = some L) :
    L.Marks (AllPossible possible body) fun i => M i ∨ MarkedIn possible marked body i := by
  induction body generalizing start M with
  | nil =>
    cases h
    exact hs.congr (by simp [AllPossible]) fun i => (or_iff_left not_markedIn_nil).symm
  | cons p rest ih =>
    have hrest : ∀ q, .relational q ∈ rest → ∀ N, ask q = some N →
        N.Marks (possible q) (marked q) := fun q hq => hask q (List.mem_cons_of_mem _ hq)
    cases p with
    | evaluable q =>
      exact (ih hrest hs h).congr allPossible_evaluable.symm fun i => by rw [markedIn_evaluable]
    | relational q =>
      obtain ⟨N, hN, h⟩ := premisesLineage_relational h
      have hand := hs.and (hask q List.mem_cons_self N hN)
      rcases h with ⟨hfalse, rfl⟩ | ⟨hnot, h⟩
      -- the search ends at the first impossible premise, with everything that it has marked
      · have hq : ¬possible q := fun hq => hand.isFalse_iff.1 hfalse ⟨trivial, hq⟩
        refine hand.congr ?_ fun i => ?_
        · simp [allPossible_relational, hq]
        · rw [markedIn_relational, or_iff_left (b := _ ∧ _) fun h => hq h.1]
      · have hq : possible q := by
          by_contra hq
          simp [hand.isFalse_iff.2 fun h => hq h.2] at hnot
        refine (ih hrest (hand.congr (iff_of_true ⟨trivial, hq⟩ trivial) fun _ => Iff.rfl) h).congr
          ?_ fun i => ?_
        · rw [allPossible_relational, and_iff_right hq]
        · rw [markedIn_relational, and_iff_right hq, or_assoc]

/-! ## Proofs -/

theorem marks_proofsLineage
    (hask : ∀ x ∈ ranked, ∀ q, .relational q ∈ x.2.body → ∀ N, ask q = some N →
      N.Marks (possible q) (marked q))
    (hs : start.Marks D M) (h : proofsLineage ask start ranked = some L) :
    L.Marks (D ∨ ∃ x ∈ ranked, AllPossible possible x.2.body) fun i => M i ∨ ∃ x ∈ ranked,
      MarkedIn possible marked x.2.body i ∨ (AllPossible possible x.2.body ∧ i = x.1) := by
  induction ranked generalizing start D M with
  | nil =>
    cases h
    exact hs.congr (by simp) (by simp)
  | cons x rest ih =>
    obtain ⟨rank, π⟩ := x
    obtain ⟨B, hB, h⟩ := proofsLineage_cons_eq_some_iff.1 h
    have hbody := (marks_premisesLineage (hask _ List.mem_cons_self)
      (.startLineage rank π) hB).congr Iff.rfl fun i => or_iff_right not_false
    have hadd := hs.orProof rank hbody
    refine (ih (fun y hy => hask y (List.mem_cons_of_mem _ hy)) hadd h).congr ?_ fun i => ?_
    · simp [or_assoc]
    · simp [or_assoc]

/-! ## Facts -/

section Fact

variable {askNegated : Literal → Option Lineage} {room : Nat} {q : Literal}

variable (s) in
/-- No proof has a negated premise. -/
def NegationFree : Prop := ∀ π ∈ s.toList, ∀ q, .relational q ∈ π.body → q.negated = false

variable (s) in
/-- The rank of a proof that is met below the facts of `path`. -/
def MetAt (path : Set Literal) (fact : Literal) (i : Nat) : Prop :=
  ∃ P, s.toList[i]? = some P ∧ s.Met P path fact

/-- What has no proof, or is on the way already, is not asked for and marks nothing. -/
theorem marks_falsity {path : Set Literal} (h : ¬(q ∉ path ∧ s.proves q = true)) :
    Lineage.falsity.Marks (s.Derivable path q) (s.MetAt path q) := by
  refine Lineage.Marks.falsity.congr (iff_of_false not_false fun hd => h hd.proves) fun i => ?_
  exact iff_of_false not_false fun ⟨P, _, hmet⟩ => h hmet.proves

/-- What is asked for a premise tells of its derivations off the path, if that is so for facts. -/
theorem marks_askBelow (hn : q.negated = false)
    (hfact : q ∈ s.unvisited path → ∀ N,
      factLineage s (fun _ x => x) askNegated room path q = some N →
        N.Marks (s.Derivable {f | f ∈ path} q) (s.MetAt {f | f ∈ path} q))
    {N : Lineage} (h : s.askBelow (fun _ x => x) askNegated room path q = some N) :
    N.Marks (s.Derivable {f | f ∈ path} q) (s.MetAt {f | f ∈ path} q) := by
  rcases askBelow_eq_some_iff.1 h with ⟨hn', -⟩ | ⟨-, ⟨hq, h⟩ | ⟨hq, rfl⟩⟩
  · simp [hn] at hn'
  · exact hfact hq N h
  · exact marks_falsity fun h => hq (mem_unvisited.2 h.symm)

/-- One step down from a fact that is not yet on the way, for derivations. -/
theorem derivable_iff_ranked (hfresh : fact ∉ path) : s.Derivable {f | f ∈ path} fact ↔
    ∃ x ∈ s.rankedProofsOf fact,
      AllPossible (s.Derivable {f | f ∈ Sorted.insert fact path}) x.2.body := by
  rw [derivable_iff, and_iff_right (show fact ∉ {f | f ∈ path} from hfresh), setOf_mem_insert]
  constructor
  · rintro ⟨π, mem, head, below⟩
    obtain ⟨i, hi⟩ := List.getElem?_of_mem mem
    exact ⟨(i, π), mem_rankedProofsOf.2 ⟨hi, head⟩, below⟩
  · rintro ⟨⟨i, π⟩, hx, below⟩
    obtain ⟨hi, head⟩ := mem_rankedProofsOf.1 hx
    exact ⟨π, List.mem_of_getElem? hi, head, below⟩

/-- One step down from a fact that is not yet on the way, for the proofs that are met. -/
theorem metAt_iff_ranked (hfresh : fact ∉ path) {i : Nat} : s.MetAt {f | f ∈ path} fact i ↔
    ∃ x ∈ s.rankedProofsOf fact,
      MarkedIn (s.Derivable {f | f ∈ Sorted.insert fact path})
        (s.MetAt {f | f ∈ Sorted.insert fact path}) x.2.body i ∨
      (AllPossible (s.Derivable {f | f ∈ Sorted.insert fact path}) x.2.body ∧ i = x.1) := by
  rw [setOf_mem_insert]
  constructor
  · rintro ⟨P, hP, hmet⟩
    obtain ⟨-, π, mem, head, h⟩ := met_iff.1 hmet
    rcases h with ⟨rfl, below⟩ | ⟨k, q, premise, before, met⟩
    · exact ⟨(i, π), mem_rankedProofsOf.2 ⟨hP, head⟩, .inr ⟨below, rfl⟩⟩
    · obtain ⟨j, hj⟩ := List.getElem?_of_mem mem
      exact ⟨(j, π), mem_rankedProofsOf.2 ⟨hj, head⟩, .inl ⟨k, q, premise, before, P, hP, met⟩⟩
  · rintro ⟨⟨j, π⟩, hx, ⟨k, q, premise, before, P, hP, met⟩ | ⟨below, rfl⟩⟩
    · obtain ⟨hj, head⟩ := mem_rankedProofsOf.1 hx
      exact ⟨P, hP, .under (List.mem_of_getElem? hj) head hfresh premise before met⟩
    · obtain ⟨hi, head⟩ := mem_rankedProofsOf.1 hx
      exact ⟨π, hi, .here (List.mem_of_getElem? hi) head hfresh below⟩

/-- **What the lineage of a fact tells**: it is false unless there is a derivation, and its support
holds the proofs that are met. -/
theorem marks_factLineage (hfree : s.NegationFree) (hleft : fact ∈ s.unvisited path)
    (hroom : (s.unvisited path).card ≤ room)
    (h : factLineage s (fun _ x => x) askNegated room path fact = some L) :
    L.Marks (s.Derivable {f | f ∈ path} fact) (s.MetAt {f | f ∈ path} fact) := by
  -- by induction on the room, which is never used up, as each step takes a fact from those that are
  -- not yet on the way
  induction room generalizing path fact L with
  | zero =>
    rw [Nat.le_zero, Finset.card_eq_zero] at hroom
    rw [hroom] at hleft
    cases hleft
  | succ room ih =>
    rw [factLineage_succ] at h
    have hlt := card_unvisited_insert_lt hleft
    have hask : ∀ x ∈ s.rankedProofsOf fact, ∀ q, .relational q ∈ x.2.body → ∀ N,
        s.askBelow (fun _ x => x) askNegated room (Sorted.insert fact path) q = some N →
          N.Marks (s.Derivable {f | f ∈ Sorted.insert fact path} q)
            (s.MetAt {f | f ∈ Sorted.insert fact path} q) := by
      rintro ⟨i, π⟩ hx q hq N hN
      obtain ⟨hi, -⟩ := mem_rankedProofsOf.1 hx
      have hn := hfree π (List.mem_of_getElem? hi) q hq
      exact marks_askBelow hn (fun hq' N hN => ih hq' (by omega) hN) hN
    have hfresh := (mem_unvisited.1 hleft).2
    refine (marks_proofsLineage hask .falsity h).congr ?_ fun i => ?_
    · rw [false_or, derivable_iff_ranked hfresh]
    · rw [false_or, metAt_iff_ranked hfresh]

end Fact

/-! ## The support -/

variable {f : Literal}

theorem NegationFree.stratified (h : s.NegationFree) : s.dependencies.Stratified := by
  rintro a b ⟨π, hπ, -, l, hl, hn, -⟩
  rw [h π hπ l hl] at hn
  cases hn

/-- What the lineage of a positive literal tells. -/
theorem marks_lineage? (hfree : s.NegationFree) (hf : f.negated = false)
    (h : s.lineage? f = some L) : L.Marks (s.Derivable ∅ f) (s.MetAt ∅ f) := by
  obtain ⟨d, hd⟩ := plainLineage_of_lineage? h
  cases d with
  | zero => cases hd
  | succ d =>
    obtain ⟨N, hN, rfl⟩ := plainLineage_succ_eq_some_iff.1 hd
    rw [Literal.positive_eq_self hf] at hN
    rw [if_neg (by simp [hf])]
    rw [← setOf_mem_nil]
    rcases hN with ⟨hproves, hN⟩ | ⟨hproves, rfl⟩
    · refine marks_factLineage hfree (mem_unvisited.2 ⟨hproves, by simp⟩) ?_ hN
      exact card_unvisited_nil_le
    · exact marks_falsity fun h => by simp [hproves] at h

/-- **The support holds exactly the proofs that are met** in the search for derivations, and so all
that derivations use. It holds nothing else where no proof has two relational premises; otherwise it
may hold proofs of premises that come before an impossible one. -/
theorem mem_support_iff_met (hfree : s.NegationFree) (hf : f.negated = false) :
    ∃ t, s.support? f = some t ∧
      (∀ P, P ∈ t.toList ↔ s.Met P ∅ f) ∧
      (∀ P, (∃ d : Derivation s ∅ f, d.Uses P) → P ∈ t.toList) ∧
      ((∀ π ∈ s.toList, π.Linear) →
        ∀ P, P ∈ t.toList ↔ ∃ d : Derivation s ∅ f, d.Uses P) := by
  obtain ⟨t, ht⟩ := exists_support? hfree.stratified f
  obtain ⟨L, hL, -, hmem⟩ := exists_lineage_of_support? ht
  have hmarks := marks_lineage? hfree hf hL
  have hmet : ∀ P, P ∈ t.toList ↔ s.Met P ∅ f := by
    intro P
    rw [hmem]
    constructor
    · rintro ⟨i, hi, hP⟩
      obtain ⟨P', hP', h⟩ := (hmarks.mem_support i).1 hi
      obtain rfl : P = P' := Option.some.inj (hP.symm.trans hP')
      exact h
    · intro h
      obtain ⟨i, hi⟩ := List.getElem?_of_mem h.mem
      exact ⟨i, (hmarks.mem_support i).2 ⟨P, hi, h⟩, hi⟩
  refine ⟨t, ht, hmet, fun P => ?_, fun hlin P => ?_⟩
  · rintro ⟨d, h⟩
    exact (hmet P).2 (d.met h)
  · rw [hmet, exists_uses_iff_met hlin]

end ProofSet

/-! ## A ticket for nothing -/

namespace Crossings

/-- A fact without arguments. -/
def place (predicate : String) : Literal := .of predicate []

/-- There is a ticket for the ferry. -/
def ticket : Proof := ⟨place "ticket", [], .certain, ⟨0⟩⟩

/-- One arrives with a ticket when the ferry goes, or over the bridge, and the ferry goes when one
has arrived. -/
def crossings : ProofSet :=
  .ofList [ticket, ⟨place "bridge", [], .certain, ⟨1⟩⟩,
    ⟨place "ferry", [.relational (place "arrive")], .certain, ⟨2⟩⟩,
    ⟨place "arrive", [.relational (place "ticket"), .relational (place "ferry")], .certain, ⟨3⟩⟩,
    ⟨place "arrive", [.relational (place "bridge")], .certain, ⟨4⟩⟩]

theorem crossings_negationFree : crossings.NegationFree := by
  have h : ∀ π ∈ crossings.toList, ∀ p ∈ π.body, p.literal.negated = false := by decide +kernel
  exact fun π hπ q hq => h π hπ _ hq

/-- The support of arriving has the proofs that are met. The ticket is one of them, since it is
looked for before the ferry. -/
theorem met_ticket : crossings.NegationFree ∧ (place "arrive").negated = false ∧
    crossings.Met ticket ∅ (place "arrive") := by
  refine ⟨crossings_negationFree, rfl, ?_⟩
  obtain ⟨t, ht, hmet, -⟩ := ProofSet.mem_support_iff_met crossings_negationFree
    (f := place "arrive") rfl
  have hin : ∀ t ∈ crossings.support? (place "arrive"), ticket ∈ t.toList := by decide +kernel
  exact (hmet ticket).1 (hin t ht)

/-- Who is still on the way does not find the ferry going. -/
theorem not_derivable_ferry :
    ¬crossings.Derivable (Insert.insert (place "arrive") ∅) (place "ferry") := by
  intro h
  obtain ⟨-, π, mem, head, below⟩ := ProofSet.derivable_iff.1 h
  have hbody : ∀ π ∈ crossings.toList, π.head = place "ferry" →
      .relational (place "arrive") ∈ π.body := by decide +kernel
  obtain ⟨fresh, -⟩ := ProofSet.derivable_iff.1 (below _ (hbody π mem head))
  simp at fresh

/-- No derivation of arriving uses the ticket: all of them go over the bridge. -/
theorem not_uses_ticket (d : Derivation crossings ∅ (place "arrive")) : ¬d.Uses ticket := by
  intro hused
  cases d with
  | node π mem head fresh below =>
    have hways : ∀ π ∈ crossings.toList, π.head = place "arrive" → π ≠ ticket ∧
        (.relational (place "ferry") ∈ π.body ∨ π.body = [.relational (place "bridge")]) := by
      decide +kernel
    obtain ⟨hne, hferry | hbridge⟩ := hways π mem head
    · obtain ⟨k, hk⟩ := List.getElem?_of_mem hferry
      exact not_derivable_ferry ⟨below k _ hk⟩
    · obtain heq | ⟨k, q, hk, hused⟩ := hused
      · exact hne heq
      have hq : q = place "bridge" := by
        have hmem := List.mem_of_getElem? hk
        rw [hbridge, List.mem_singleton] at hmem
        exact Premise.relational.inj hmem
      subst hq
      -- the bridge is there without further ado
      generalize below k (place "bridge") hk = d' at hused
      cases d' with
      | node π' mem' head' fresh' below' =>
        have hbody : ∀ π ∈ crossings.toList, π.head = place "bridge" →
            π ≠ ticket ∧ π.body = [] := by decide +kernel
        obtain ⟨hne', hnil⟩ := hbody π' mem' head'
        obtain heq | ⟨j, p, hj, -⟩ := hused
        · exact hne' heq
        · simp [hnil] at hj

/-- **The support may hold proofs that no derivation uses.** The ticket is in the support of
arriving. -/
theorem support_exceeds_derivations : ¬∀ (s : ProofSet) (f : Literal) (t : ProofSet),
    s.NegationFree → f.negated = false → s.support? f = some t →
      ∀ P, P ∈ t.toList ↔ ∃ d : Derivation s ∅ f, d.Uses P := by
  intro hall
  obtain ⟨t, ht⟩ := ProofSet.exists_support? crossings_negationFree.stratified (place "arrive")
  have hin : ∀ t ∈ crossings.support? (place "arrive"), ticket ∈ t.toList := by decide +kernel
  obtain ⟨d, hd⟩ := (hall _ _ t crossings_negationFree rfl ht ticket).1 (hin t ht)
  exact not_uses_ticket d hd

end Crossings

end ProbDatalog
