import ProbDatalog.Lineage
import ProbDatalog.Proofs.Detours
import ProbDatalog.Proofs.Formulas
import ProbDatalog.Proofs.PerfectModel

/-!
# What lineages say

The formula of a lineage holds in a world if and only if the literal holds in the perfect model of
the proofs that take effect there. These are the laws of the recursion that computes everything it
needs, where nothing is remembered.

* `truth_eq`: what holds in a world, where no fact rests on its own negation.
* `holds_plainLineage`: **a lineage says when a literal holds.**
* `factLineage_eq_of_room`: the bound on the length of branches is never felt.
* `exists_plainLineage`: there is a lineage where negations are not nested too deeply.
* `Keeps.plainLineage`: what the operations on lineages keep holds of all lineages.
-/

namespace ProbDatalog

/-- A literal holds in a model: it is a fact of it, or the negation of none. -/
def Literal.HoldsIn (l : Literal) (facts : Set Literal) : Prop :=
  if l.negated then l.positive ∉ facts else l ∈ facts

namespace Literal

variable {l : Literal} {facts facts' : Set Literal}

theorem holdsIn_iff_mem (hl : l.negated = false) : l.HoldsIn facts ↔ l ∈ facts := by
  simp [HoldsIn, hl]

/-- Whether a literal holds depends on its positive form alone. -/
theorem holdsIn_congr (h : l.positive ∈ facts ↔ l.positive ∈ facts') :
    l.HoldsIn facts ↔ l.HoldsIn facts' := by
  unfold HoldsIn
  split
  next => exact not_congr h
  next hl => rwa [positive_eq_self (by simpa using hl)] at h

end Literal

namespace ProofSet

variable (s : ProofSet)

/-! ## What holds in a world -/

/-- The facts that proofs show rest on those of their premises. -/
def dependencies : Resting Literal where
  rests a b := ∃ π ∈ s.toList, π.head = a ∧ ∃ l, .relational l ∈ π.body ∧ l.positive = b
  negates a b := ∃ π ∈ s.toList, π.head = a ∧
    ∃ l, .relational l ∈ π.body ∧ l.negated = true ∧ l.positive = b
  rests_of_negates a b := by
    rintro ⟨π, hπ, ha, l, hl, -, hb⟩
    exact ⟨π, hπ, ha, l, hl, hb⟩

/-- The proofs that take effect in a world. -/
def active (ω : World) : Set Proof :=
  {π | π ∈ s.toList ∧ (π.isProbabilistic = true → ω π = true)}

/-- The facts that hold in a world. -/
def truth (ω : World) : Set Literal := perfectModel id s.dependencies (s.active ω)

/-- Which ranks are true in a world. -/
def assignment (ω : World) (rank : Nat) : Bool := s.toList[rank]?.any ω

variable {s} {ω : World} {a b fact : Literal} {l : Literal} {n : Nat}

theorem respects_active : Respects id s.dependencies (s.active ω) := by
  intro π hπ l hl
  exact ⟨⟨π, hπ.1, rfl, l, hl, rfl⟩, fun hn => ⟨π, hπ.1, rfl, l, hl, hn, rfl⟩⟩

theorem proves_iff : s.proves fact = true ↔ ∃ π ∈ s.toList, π.head = fact := by
  simp [proves]

theorem mem_facts_iff : fact ∈ s.facts ↔ ∃ π ∈ s.toList, π.head = fact := by
  simp [facts, List.mem_eraseDups]

/-- Below any fact, finitely many facts that have proofs are negated, no more than there are. -/
theorem within_of_stratified (h : s.dependencies.Stratified) (a : Literal) :
    s.dependencies.Within (s.facts.length + 2) a := by
  classical
  have hsub : ∀ a, {b | s.dependencies.MeetsNegation a b ∧ b ∈ s.facts} ⊆
      (s.facts.toFinset : Set Literal) := fun a b hb => by simpa using hb.2
  -- only facts with proofs rest on anything, so no more negations are nested than there are such
  -- facts
  refine h.within_of_ncard (P := fun b => b ∈ s.facts) ?_ ?_ ?_
  · rintro a b ⟨π, hπ, rfl, -⟩
    exact mem_facts_iff.2 ⟨π, hπ, rfl⟩
  · exact fun a => s.facts.toFinset.finite_toSet.subset (hsub a)
  · refine (Set.ncard_le_ncard (hsub a) s.facts.toFinset.finite_toSet).trans ?_
    rw [Set.ncard_coe_finset]
    exact List.toFinset_card_le _

/-- What holds in a world follows from the proofs that take effect, where exactly the facts that do
not hold may be negated. -/
theorem truth_eq (h : s.dependencies.Stratified) (ω : World) :
    s.truth ω = consequences (s.active ω) fun b => b ∉ s.truth ω :=
  perfectModel_eq_consequences respects_active fun a => ⟨_, within_of_stratified h a⟩

theorem mem_rankedProofsOf {i : Nat} {π : Proof} :
    (i, π) ∈ s.rankedProofsOf fact ↔ s.toList[i]? = some π ∧ π.head = fact := by
  simp only [rankedProofsOf, List.mem_map, List.mem_filter, decide_eq_true_eq, Prod.mk.injEq,
    Prod.exists]
  constructor
  · rintro ⟨π, i, ⟨hmem, hhead⟩, rfl, rfl⟩
    exact ⟨List.mem_zipIdx_iff_getElem?.1 hmem, hhead⟩
  · rintro ⟨hmem, hhead⟩
    exact ⟨π, i, ⟨List.mem_zipIdx_iff_getElem?.2 hmem, hhead⟩, rfl, rfl⟩

theorem assignment_of_getElem? {i : Nat} {π : Proof} (h : s.toList[i]? = some π) :
    s.assignment ω i = ω π := by
  simp [assignment, h]

/-! ## Lineages without memory -/

variable (s) in
/-- The lineage of a literal, where everything is computed whenever it is needed. -/
def plainLineage (depth : Nat) (l : Literal) : Option Lineage :=
  literalLineage s (fun _ x => x) none s.facts.length depth l

variable {ask : Literal → Option Lineage} {start L : Lineage} {body : List Premise}
variable {ranked : List (Nat × Proof)}

/-- The lineage of a proof on its own. -/
def startLineage (i : Nat) (π : Proof) : Lineage :=
  if π.isProbabilistic then .ofVariable i else .truth

theorem literalLineage_succ {m : Type → Type} [Monad m] (keep : Goal → m Lineage → m Lineage)
    (halt : m Lineage) (room depth : Nat) (l : Literal) :
    literalLineage s keep halt room (depth + 1) l =
      (if s.proves l.positive then
        factLineage s keep (literalLineage s keep halt room depth) room [] l.positive
      else pure .falsity) >>= fun L => pure (if l.negated then L.not else L) := by
  unfold literalLineage
  by_cases h : s.proves l.positive = true
  · simp only [h, if_true]
  · simp only [h, Bool.false_eq_true, if_false]

variable (s) in
/-- What is asked for a premise by a goal with `path` behind it. -/
def askBelow {m : Type → Type} [Monad m] (keep : Goal → m Lineage → m Lineage)
    (askNegated : Literal → m Lineage) (room : Nat) (path : List Literal) (q : Literal) :
    m Lineage :=
  if q.negated then askNegated q
  else if s.proves q && !path.contains q then factLineage s keep askNegated room path q
  else pure .falsity

theorem factLineage_succ {m : Type → Type} [Monad m] (keep : Goal → m Lineage → m Lineage)
    (askNegated : Literal → m Lineage) (room : Nat) (path : List Literal) (fact : Literal) :
    factLineage s keep askNegated (room + 1) path fact =
      keep (path, fact) (proofsLineage (s.askBelow keep askNegated room (Sorted.insert fact path))
        .falsity (s.rankedProofsOf fact)) := rfl

theorem proofsLineage_cons {m : Type → Type} [Monad m] (ask : Literal → m Lineage) (i : Nat)
    (π : Proof) (rest : List (Nat × Proof)) :
    proofsLineage ask start ((i, π) :: rest) =
      premisesLineage ask (startLineage i π) π.body >>= fun body =>
        proofsLineage ask (start.orProof i body) rest := rfl

/-- A premise is asked for, and the others only if the conjunction has not come to nothing. -/
theorem premisesLineage_relational {q : Literal}
    (h : premisesLineage ask start (.relational q :: body) = some L) :
    ∃ M, ask q = some M ∧
      ((start.and M).formula.isFalse = true ∧ start.and M = L ∨
        (start.and M).formula.isFalse = false ∧
          premisesLineage ask (start.and M) body = some L) := by
  obtain ⟨M, hM, h⟩ := Option.bind_eq_some_iff.1 h
  dsimp only at h
  split at h
  next hfalse => exact ⟨M, hM, .inl ⟨hfalse, Option.some.inj h⟩⟩
  next hnot => exact ⟨M, hM, .inr ⟨by simpa using hnot, h⟩⟩

/-- A proof is added with the lineage of its premises. -/
theorem proofsLineage_cons_eq_some_iff {i : Nat} {π : Proof} {rest : List (Nat × Proof)} :
    proofsLineage ask start ((i, π) :: rest) = some L ↔
      ∃ B, premisesLineage ask (startLineage i π) π.body = some B ∧
        proofsLineage ask (start.orProof i B) rest = some L :=
  Option.bind_eq_some_iff

/-- A literal has the lineage of its fact, which is asked for if it has a proof, or the negation of
that lineage. -/
theorem plainLineage_succ_eq_some_iff : s.plainLineage (n + 1) l = some L ↔
    ∃ M, (s.proves l.positive = true ∧
          factLineage s (fun _ x => x) (s.plainLineage n) s.facts.length [] l.positive = some M ∨
        s.proves l.positive = false ∧ M = .falsity) ∧
      (if l.negated then M.not else M) = L := by
  unfold plainLineage
  rw [literalLineage_succ, Option.bind_eq_bind, Option.bind_eq_some_iff]
  refine exists_congr fun M => and_congr ?_ (by simp)
  cases s.proves l.positive <;> simp [eq_comm]

/-! ### How much room there has to be -/

section Room

variable {path : List Literal}

variable (s path) in
/-- The facts with proofs that are not yet on the way. -/
def unvisited : Finset Literal := s.facts.toFinset \ path.toFinset

theorem mem_unvisited : fact ∈ s.unvisited path ↔ s.proves fact = true ∧ fact ∉ path := by
  simp [unvisited, mem_facts_iff, proves_iff]

section Ask

variable {m : Type → Type} [Monad m] {keep : Goal → m Lineage → m Lineage}
variable {askNegated : Literal → m Lineage} {room : Nat} {q : Literal}

theorem askBelow_of_negated (hn : q.negated = true) :
    s.askBelow keep askNegated room path q = askNegated q := if_pos hn

theorem askBelow_of_mem_unvisited (hn : q.negated = false) (hq : q ∈ s.unvisited path) :
    s.askBelow keep askNegated room path q = factLineage s keep askNegated room path q := by
  have hcond : (s.proves q && !path.contains q) = true := by simpa using mem_unvisited.1 hq
  rw [askBelow, if_neg (by simp [hn]), if_pos hcond]

theorem askBelow_of_not_mem_unvisited (hn : q.negated = false) (hq : q ∉ s.unvisited path) :
    s.askBelow keep askNegated room path q = pure .falsity := by
  have hcond : ¬(s.proves q && !path.contains q) = true := fun h =>
    hq (mem_unvisited.2 (by simpa using h))
  rw [askBelow, if_neg (by simp [hn]), if_neg hcond]

end Ask

/-- A negated premise is asked for by itself, and a positive one only if it has a proof and is not
yet on the way. -/
theorem askBelow_eq_some_iff {askNegated : Literal → Option Lineage} {room : Nat} {q : Literal} :
    s.askBelow (fun _ x => x) askNegated room path q = some L ↔
      q.negated = true ∧ askNegated q = some L ∨
      q.negated = false ∧ (q ∈ s.unvisited path ∧
          factLineage s (fun _ x => x) askNegated room path q = some L ∨
        q ∉ s.unvisited path ∧ L = .falsity) := by
  cases hn : q.negated with
  | true => simp [askBelow_of_negated hn]
  | false =>
    by_cases hq : q ∈ s.unvisited path
    · simp [askBelow_of_mem_unvisited hn hq, hq]
    · simp [askBelow_of_not_mem_unvisited hn hq, hq, eq_comm]

/-- A fact that is put on the way leaves fewer facts. -/
theorem card_unvisited_insert_lt (h : fact ∈ s.unvisited path) :
    (s.unvisited (Sorted.insert fact path)).card < (s.unvisited path).card := by
  refine Finset.card_lt_card (Finset.ssubset_iff_of_subset ?_ |>.2 ⟨fact, h, ?_⟩)
  · intro f hf
    rw [mem_unvisited, Sorted.mem_insert, not_or] at hf
    exact mem_unvisited.2 ⟨hf.1, hf.2.2⟩
  · intro hf
    exact (mem_unvisited.1 hf).2 (Sorted.mem_insert.2 (.inl rfl))

theorem card_unvisited_nil_le : (s.unvisited []).card ≤ s.facts.length := by
  rw [unvisited, List.toFinset_nil, Finset.sdiff_empty]
  exact List.toFinset_card_le _

/-- The room is never used up, so more of it changes nothing. -/
theorem factLineage_eq_of_room {m : Type → Type} [Monad m] {keep : Goal → m Lineage → m Lineage}
    {askNegated : Literal → m Lineage} {room room' : Nat} (hleft : fact ∈ s.unvisited path)
    (h : (s.unvisited path).card ≤ room) (h' : (s.unvisited path).card ≤ room') :
    factLineage s keep askNegated room path fact =
      factLineage s keep askNegated room' path fact := by
  have hpos : 0 < (s.unvisited path).card := Finset.card_pos.2 ⟨fact, hleft⟩
  induction room generalizing room' path fact with
  | zero => omega
  | succ room ih =>
    obtain ⟨room', rfl⟩ : ∃ n, room' = n + 1 := ⟨room' - 1, by omega⟩
    have hlt := card_unvisited_insert_lt hleft
    have hask : s.askBelow keep askNegated room (Sorted.insert fact path) =
        s.askBelow keep askNegated room' (Sorted.insert fact path) := by
      funext q
      cases hn : q.negated with
      | true => rw [askBelow_of_negated hn, askBelow_of_negated hn]
      | false =>
        -- a fact that is asked for is one of those that are left
        by_cases hq : q ∈ s.unvisited (Sorted.insert fact path)
        · rw [askBelow_of_mem_unvisited hn hq, askBelow_of_mem_unvisited hn hq]
          exact ih hq (by omega) (by omega) (Finset.card_pos.2 ⟨q, hq⟩)
        · rw [askBelow_of_not_mem_unvisited hn hq, askBelow_of_not_mem_unvisited hn hq]
    rw [factLineage_succ, factLineage_succ, hask]

end Room

/-! ### Where there are lineages -/

theorem premisesLineage_isSome (hask : ∀ q, .relational q ∈ body → (ask q).isSome = true) :
    (premisesLineage ask start body).isSome = true := by
  induction body generalizing start with
  | nil => rfl
  | cons p rest ih =>
    have ih' : ∀ start, (premisesLineage ask start rest).isSome = true := fun _ =>
      ih fun q hq => hask q (List.mem_cons_of_mem _ hq)
    cases p with
    | evaluable _ => exact ih' start
    | relational q =>
      obtain ⟨L, hL⟩ := Option.isSome_iff_exists.1 (hask q List.mem_cons_self)
      simp only [premisesLineage, hL, Option.bind_eq_bind, Option.bind_some]
      split
      · rfl
      · exact ih' _

theorem proofsLineage_isSome (hask : ∀ x ∈ ranked, ∀ q, .relational q ∈ x.2.body →
    (ask q).isSome = true) : (proofsLineage ask start ranked).isSome = true := by
  induction ranked generalizing start with
  | nil => rfl
  | cons x rest ih =>
    obtain ⟨i, π⟩ := x
    obtain ⟨L, hL⟩ := Option.isSome_iff_exists.1
      (premisesLineage_isSome (hask _ List.mem_cons_self))
    rw [proofsLineage_cons, hL]
    exact ih fun y hy => hask y (List.mem_cons_of_mem _ hy)

theorem factLineage_isSome {askNegated : Literal → Option Lineage} {room : Nat}
    {path : List Literal} (hask : ∀ q, q.negated = true →
      s.dependencies.MeetsNegation fact q.positive → (askNegated q).isSome = true) :
    (factLineage s (fun _ x => x) askNegated room path fact).isSome = true := by
  induction room generalizing path fact with
  | zero => rfl
  | succ room ih =>
    rw [factLineage_succ]
    refine proofsLineage_isSome fun x hx q hq => ?_
    obtain ⟨i, π⟩ := x
    obtain ⟨hi, rfl⟩ := mem_rankedProofsOf.1 hx
    have hmem : π ∈ s.toList := List.mem_of_getElem? hi
    -- a negated premise is asked for by itself, and a positive one is a goal of its own or is not
    -- proved
    unfold askBelow
    split
    next hn => exact hask q hn (.of_negates ⟨π, hmem, rfl, q, hq, hn, rfl⟩)
    next hn =>
      have hrest : s.dependencies.rests π.head q :=
        ⟨π, hmem, rfl, q, hq, Literal.positive_eq_self (by simpa using hn)⟩
      split
      · exact ih fun q' hn' hmeet => hask q' hn' (hmeet.of_rests hrest)
      · rfl

/-- **There is a lineage where negations are not nested too deeply.** -/
theorem exists_plainLineage (h : s.dependencies.Within n l.positive) :
    ∃ L, s.plainLineage n l = some L := by
  induction n generalizing l with
  | zero => exact h.elim
  | succ n ih =>
    have hfact : (factLineage s (fun _ x => x) (s.plainLineage n) s.facts.length []
        l.positive).isSome = true :=
      factLineage_isSome fun q _ hmeet => Option.isSome_iff_exists.2 (ih (h _ hmeet))
    obtain ⟨L, hL⟩ := Option.isSome_iff_exists.1 hfact
    cases hp : s.proves l.positive with
    | true => exact ⟨_, plainLineage_succ_eq_some_iff.2 ⟨L, .inl ⟨hp, hL⟩, rfl⟩⟩
    | false => exact ⟨_, plainLineage_succ_eq_some_iff.2 ⟨_, .inr ⟨hp, rfl⟩, rfl⟩⟩

/-! ### What all lineages have in common -/

/-- What holds of the simplest lineages and is kept by the operations. -/
structure Keeps (s : ProofSet) (P : Lineage → Prop) : Prop where
  falsity : P .falsity
  truth : P .truth
  ofVariable : ∀ {i π}, s.toList[i]? = some π → π.isProbabilistic = true → P (.ofVariable i)
  and : ∀ {l m}, P l → P m → P (l.and m)
  orProof : ∀ {l m} i, P l → P m → P (l.orProof i m)
  not : ∀ {l}, P l → P l.not

namespace Keeps

variable {P : Lineage → Prop} (hP : s.Keeps P)

include hP

theorem startLineage {i : Nat} {π : Proof} (hi : s.toList[i]? = some π) :
    P (startLineage i π) := by
  unfold ProofSet.startLineage
  split
  next hp => exact hP.ofVariable hi hp
  next => exact hP.truth

theorem premisesLineage (hask : ∀ q M, ask q = some M → P M) (hs : P start)
    (h : ProofSet.premisesLineage ask start body = some L) : P L := by
  induction body generalizing start with
  | nil =>
    cases h
    exact hs
  | cons p rest ih =>
    cases p with
    | evaluable _ => exact ih hs h
    | relational q =>
      obtain ⟨M, hM, ⟨-, rfl⟩ | ⟨-, h⟩⟩ := premisesLineage_relational h
      · exact hP.and hs (hask q M hM)
      · exact ih (hP.and hs (hask q M hM)) h

theorem proofsLineage (hask : ∀ q M, ask q = some M → P M)
    (hranked : ∀ x ∈ ranked, s.toList[x.1]? = some x.2) (hs : P start)
    (h : ProofSet.proofsLineage ask start ranked = some L) : P L := by
  induction ranked generalizing start with
  | nil =>
    cases h
    exact hs
  | cons x rest ih =>
    obtain ⟨i, π⟩ := x
    obtain ⟨B, hB, h⟩ := proofsLineage_cons_eq_some_iff.1 h
    have hstart : P (ProofSet.startLineage i π) := hP.startLineage (hranked _ List.mem_cons_self)
    refine ih (fun y hy => hranked y (List.mem_cons_of_mem _ hy)) ?_ h
    exact hP.orProof i hs (hP.premisesLineage hask hstart hB)

theorem factLineage {askNegated : Literal → Option Lineage} {room : Nat} {path : List Literal}
    (hask : ∀ q M, askNegated q = some M → P M)
    (h : ProofSet.factLineage s (fun _ x => x) askNegated room path fact = some L) : P L := by
  induction room generalizing path fact L with
  | zero =>
    cases h
    exact hP.falsity
  | succ room ih =>
    rw [factLineage_succ] at h
    refine hP.proofsLineage (fun q M hM => ?_) (fun x hx => (mem_rankedProofsOf.1 hx).1)
      hP.falsity h
    rcases askBelow_eq_some_iff.1 hM with ⟨-, hM⟩ | ⟨-, ⟨-, hM⟩ | ⟨-, rfl⟩⟩
    · exact hask q M hM
    · exact ih hM
    · exact hP.falsity

/-- **What the operations keep holds of all lineages.** -/
theorem plainLineage (h : s.plainLineage n l = some L) : P L := by
  induction n generalizing l L with
  | zero => cases h
  | succ n ih =>
    obtain ⟨M, hM, rfl⟩ := plainLineage_succ_eq_some_iff.1 h
    have hPM : P M := by
      rcases hM with ⟨-, hM⟩ | ⟨-, rfl⟩
      · exact hP.factLineage (fun q N hN => ih hN) hM
      · exact hP.falsity
    split
    · exact hP.not hPM
    · exact hPM

end Keeps

/-! ### When lineages hold -/

variable {value : Literal → Prop} {assignment : Nat → Bool}

/-- The lineages that are asked for say when premises hold. -/
def Tells (ask : Literal → Option Lineage) (assignment : Nat → Bool) (value : Literal → Prop) :
    Prop :=
  ∀ q L, ask q = some L → L.formula.Proper ∧ (L.formula.holds assignment = true ↔ value q)

theorem holds_premisesLineage (hask : Tells ask assignment value) (hs : start.formula.Proper)
    (h : premisesLineage ask start body = some L) :
    L.formula.Proper ∧ (L.formula.holds assignment = true ↔
      start.formula.holds assignment = true ∧ ∀ q, .relational q ∈ body → value q) := by
  induction body generalizing start with
  | nil =>
    cases h
    exact ⟨hs, by simp⟩
  | cons p rest ih =>
    cases p with
    | evaluable q =>
      obtain ⟨hL, hholds⟩ := ih hs h
      exact ⟨hL, by rw [hholds]; simp⟩
    | relational q =>
      obtain ⟨M, hM, hrest⟩ := premisesLineage_relational h
      obtain ⟨hMp, hMv⟩ := hask q M hM
      have hand : (start.and M).formula.Proper := hs.and hMp
      have hval : (start.and M).formula.holds assignment = true ↔
          start.formula.holds assignment = true ∧ value q := by
        rw [Lineage.and, Formula.holds_and hs hMp, Bool.and_eq_true, hMv]
      rcases hrest with ⟨hfalse, rfl⟩ | ⟨-, h⟩
      -- premises that come to nothing are given up, as the others cannot change that
      · have hno : ¬((start.and M).formula.holds assignment = true) := by
          simp [Formula.holds_of_isFalse hfalse]
        refine ⟨hand, iff_of_false hno fun hall => hno (hval.2 ⟨hall.1, ?_⟩)⟩
        exact hall.2 q List.mem_cons_self
      · obtain ⟨hL, hholds⟩ := ih hand h
        refine ⟨hL, ?_⟩
        rw [hholds, hval, and_assoc]
        refine and_congr_right fun _ => ?_
        simp only [List.mem_cons, Premise.relational.injEq, forall_eq_or_imp]

theorem holds_startLineage (i : Nat) (π : Proof) :
    (startLineage i π).formula.Proper ∧ ((startLineage i π).formula.holds assignment = true ↔
      (π.isProbabilistic = true → assignment i = true)) := by
  unfold startLineage
  split
  next hp =>
    exact ⟨Formula.proper_literal _, by simp [Lineage.ofVariable, SignedVar.holds, hp]⟩
  next hp => exact ⟨Formula.proper_truth, by simp [Lineage.truth, hp]⟩

theorem proper_orProof (i : Nat) (hs : start.formula.Proper) (hL : L.formula.Proper) :
    (start.orProof i L).formula.Proper := by
  unfold Lineage.orProof
  dsimp only
  split
  · exact hs
  · exact hs.or hL

/-- Adding a proof adds what its premises say. -/
theorem holds_orProof {i : Nat} (hs : start.formula.Proper) (hL : L.formula.Proper) :
    (start.orProof i L).formula.Proper ∧ ((start.orProof i L).formula.holds assignment = true ↔
      start.formula.holds assignment = true ∨ L.formula.holds assignment = true) := by
  refine ⟨proper_orProof i hs hL, ?_⟩
  unfold Lineage.orProof
  dsimp only
  split
  next hfalse => simp [Lineage.meeting, Formula.holds_of_isFalse hfalse]
  next =>
    show Formula.holds (Formula.or _ _) _ = true ↔ _
    rw [Lineage.meeting, Formula.holds_or hs hL, Bool.or_eq_true]

theorem holds_proofsLineage (hask : Tells ask assignment value) (hs : start.formula.Proper)
    (h : proofsLineage ask start ranked = some L) :
    L.formula.Proper ∧ (L.formula.holds assignment = true ↔
      start.formula.holds assignment = true ∨ ∃ x ∈ ranked,
        (x.2.isProbabilistic = true → assignment x.1 = true) ∧
          ∀ q, .relational q ∈ x.2.body → value q) := by
  induction ranked generalizing start with
  | nil =>
    cases h
    exact ⟨hs, by simp⟩
  | cons x rest ih =>
    obtain ⟨i, π⟩ := x
    obtain ⟨M, hM, h⟩ := proofsLineage_cons_eq_some_iff.1 h
    obtain ⟨hsp, hsv⟩ := holds_startLineage i π
    obtain ⟨hMp, hMv⟩ := holds_premisesLineage hask hsp hM
    obtain ⟨hop, hov⟩ := holds_orProof (i := i) hs hMp
    obtain ⟨hL, hholds⟩ := ih hop h
    refine ⟨hL, ?_⟩
    rw [hholds, hov, hMv, hsv, or_assoc]
    simp only [List.mem_cons, exists_eq_or_imp]

section Fact

variable {askNegated : Literal → Option Lineage} {admits : Literal → Prop} {room : Nat}
variable {path : List Literal}

/-- When a premise holds off a path. -/
def HoldsBelow (rules : Set Proof) (admits : Literal → Prop) (room : Nat) (path : Set Literal)
    (q : Literal) : Prop :=
  if q.negated then admits q.positive else q ∉ path ∧ Straight rules admits room path q

theorem straight_succ_iff {path : Set Literal} :
    Straight (s.active ω) admits (room + 1) path fact ↔
      ∃ x ∈ s.rankedProofsOf fact, (x.2.isProbabilistic = true → s.assignment ω x.1 = true) ∧
        ∀ q, .relational q ∈ x.2.body →
          HoldsBelow (s.active ω) admits room (Insert.insert fact path) q := by
  constructor
  · rintro ⟨π, ⟨hπ, hact⟩, hhead, hpos, hneg⟩
    obtain ⟨i, hi⟩ := List.getElem?_of_mem hπ
    refine ⟨(i, π), mem_rankedProofsOf.2 ⟨hi, hhead⟩, ?_, fun q hq => ?_⟩
    · rwa [assignment_of_getElem? hi]
    · unfold HoldsBelow
      split
      next hn => exact hneg q hq hn
      next hn => exact hpos q hq (by simpa using hn)
  · rintro ⟨⟨i, π⟩, hmem, hact, hbody⟩
    obtain ⟨hi, hhead⟩ := mem_rankedProofsOf.1 hmem
    rw [assignment_of_getElem? hi] at hact
    refine ⟨π, ⟨List.mem_of_getElem? hi, hact⟩, hhead, fun l hl hn => ?_, fun l hl hn => ?_⟩
    · simpa [HoldsBelow, hn] using hbody l hl
    · simpa [HoldsBelow, hn] using hbody l hl

theorem setOf_mem_nil : {f : Literal | f ∈ ([] : List Literal)} = ∅ := by simp

theorem setOf_mem_insert :
    {f | f ∈ Sorted.insert fact path} = Insert.insert fact {f | f ∈ path} := by
  ext f
  simp [Sorted.mem_insert]

theorem proves_of_mem_consequences {admits : Literal → Prop}
    (h : fact ∈ consequences (s.active ω) admits) : s.proves fact = true := by
  obtain ⟨π, hπ, hhead, -⟩ := mem_consequences_iff.1 h
  exact proves_iff.2 ⟨π, hπ.1, hhead⟩

theorem proves_of_straight {path : Set Literal}
    (h : Straight (s.active ω) admits room path fact) : s.proves fact = true :=
  proves_of_mem_consequences h.mem_consequences

/-- What is asked for a premise says whether the premise holds off the path, if that is so for
facts. -/
theorem tells_askBelow
    (hask : ∀ q L, q.negated = true → askNegated q = some L →
      L.formula.Proper ∧ (L.formula.holds (s.assignment ω) = true ↔ admits q.positive))
    (hfact : ∀ q L, factLineage s (fun _ x => x) askNegated room path q = some L →
      L.formula.Proper ∧ (L.formula.holds (s.assignment ω) = true ↔
        Straight (s.active ω) admits room {f | f ∈ path} q)) :
    Tells (s.askBelow (fun _ x => x) askNegated room path) (s.assignment ω)
      (HoldsBelow (s.active ω) admits room {f | f ∈ path}) := by
  intro q M hM
  unfold HoldsBelow
  rcases askBelow_eq_some_iff.1 hM with ⟨hn, hM⟩ | ⟨hn, ⟨hq, hM⟩ | ⟨hq, rfl⟩⟩
  · rw [if_pos hn]
    exact hask q M hn hM
  · rw [if_neg (by simp [hn])]
    obtain ⟨hMp, hMv⟩ := hfact q M hM
    exact ⟨hMp, by rw [hMv]; exact (and_iff_right (mem_unvisited.1 hq).2).symm⟩
  · rw [if_neg (by simp [hn])]
    refine ⟨Formula.proper_falsity, iff_of_false (by simp [Lineage.falsity]) ?_⟩
    -- what is not asked for has no proof or stands on the path
    exact fun ⟨hpath, hstraight⟩ => hq (mem_unvisited.2 ⟨proves_of_straight hstraight, hpath⟩)

theorem holds_factLineage (admits : Literal → Prop)
    (hask : ∀ q L, q.negated = true → askNegated q = some L →
      L.formula.Proper ∧ (L.formula.holds (s.assignment ω) = true ↔ admits q.positive))
    (h : factLineage s (fun _ x => x) askNegated room path fact = some L) :
    L.formula.Proper ∧ (L.formula.holds (s.assignment ω) = true ↔
      Straight (s.active ω) admits room {f | f ∈ path} fact) := by
  induction room generalizing path fact L with
  | zero =>
    cases h
    exact ⟨Formula.proper_falsity, by simp [Lineage.falsity, Straight]⟩
  | succ room ih =>
    rw [factLineage_succ] at h
    obtain ⟨hL, hholds⟩ :=
      holds_proofsLineage (tells_askBelow hask fun _ _ hM => ih hM) Formula.proper_falsity h
    refine ⟨hL, ?_⟩
    rw [hholds, straight_succ_iff, ← setOf_mem_insert]
    simp only [Lineage.falsity, Formula.holds_falsity, Bool.false_eq_true, false_or]

end Fact

/-- **A lineage says when a literal holds**, whatever facts hold in a world. -/
theorem holds_plainLineage {T : Set Literal}
    (hT : T = consequences (s.active ω) fun b => b ∉ T) (h : s.plainLineage n l = some L) :
    L.formula.Proper ∧ (L.formula.holds (s.assignment ω) = true ↔
      if l.negated then l.positive ∉ T else l ∈ T) := by
  -- by induction on how deeply negations may be nested; within one level derivations without
  -- detours are all that counts
  induction n generalizing l L with
  | zero => cases h
  | succ n ih =>
    obtain ⟨M, hM, rfl⟩ := plainLineage_succ_eq_some_iff.1 h
    have hfact : M.formula.Proper ∧
        (M.formula.holds (s.assignment ω) = true ↔ l.positive ∈ T) := by
      rcases hM with ⟨-, hM⟩ | ⟨hp, rfl⟩
      · have hask : ∀ q N, q.negated = true → s.plainLineage n q = some N → N.formula.Proper ∧
            (N.formula.holds (s.assignment ω) = true ↔ q.positive ∉ T) := fun q N hn hN => by
          simpa [hn] using ih hN
        obtain ⟨hMp, hMv⟩ := holds_factLineage (fun b => b ∉ T) hask hM
        refine ⟨hMp, ?_⟩
        rw [hMv, setOf_mem_nil, straight_iff
          (fun π hπ => mem_facts_iff.2 ⟨π, hπ.1, rfl⟩) (Nat.le_refl _), ← hT]
      · refine ⟨Formula.proper_falsity, iff_of_false (by simp [Lineage.falsity]) fun hl => ?_⟩
        rw [hT] at hl
        simp [proves_of_mem_consequences hl] at hp
    cases hn : l.negated with
    | true =>
      refine ⟨Formula.proper_not _, ?_⟩
      simp only [if_true, Lineage.not]
      rw [Formula.holds_not, Bool.not_eq_true', ← Bool.not_eq_true, hfact.2]
    | false =>
      simp only [Bool.false_eq_true, if_false]
      rwa [Literal.positive_eq_self hn] at hfact

end ProofSet

end ProbDatalog
