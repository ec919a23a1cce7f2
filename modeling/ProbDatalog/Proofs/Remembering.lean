import ProbDatalog.Proofs.Lineages

/-!
# Remembered lineages

A lineage that is looked up is the one that would be computed. What is kept does not say how deeply
negations may be nested, so a lineage that is looked up may be one that would be computed with more
depth; with enough depth the lineages are the same.

* `Agrees`: a computation that remembers yields what some depth yields.
* `Agrees.remember`: looking results up keeps to that.
* `plainLineage_of_lineage?`, `lineage?_of_plainLineage`: **remembering changes no lineage.**
-/

namespace ProbDatalog

/-! ## Computations that remember -/

section Remember

variable {κ ρ α β : Type} [Ord κ] {spec : Nat → κ → Option ρ}

/-- What is kept is what some depth yields. -/
def IsKept (spec : Nat → κ → Option ρ) (kept : Std.TreeMap κ ρ) : Prop :=
  ∀ key r, kept[key]? = some r → ∃ d, spec d key = some r

/-- More depth yields no other results. -/
def Deepens (y : Nat → Option α) : Prop := ∀ d d' a, d ≤ d' → y d = some a → y d' = some a

theorem Deepens.eq {y : Nat → Option α} (h : Deepens y) {a b : α} {d d' : Nat} (ha : y d = some a)
    (hb : y d' = some b) : a = b := by
  have h1 := h d (max d d') a (Nat.le_max_left d d') ha
  have h2 := h d' (max d d') b (Nat.le_max_right d d') hb
  rw [h1] at h2
  exact Option.some.inj h2

/-- The computation yields what `y` yields at some depth, and it yields something if `y` does at
depth `n`. -/
structure Agrees (spec : Nat → κ → Option ρ) (n : Nat) (x : Remember κ ρ Option α)
    (y : Nat → Option α) : Prop where
  deepens : Deepens y
  right : ∀ {kept}, IsKept spec kept → ∀ {a kept'}, x kept = some (a, kept') →
    IsKept spec kept' ∧ ∃ d, y d = some a
  isSome : ∀ {kept}, IsKept spec kept → (y n).isSome = true → (x kept).isSome = true

namespace Agrees

variable {n : Nat} {x : Remember κ ρ Option α} {y : Nat → Option α}

theorem pure (a : α) : Agrees spec n (Pure.pure a) fun _ => some a where
  deepens _ _ _ _ h := h
  right hk _ _ h := by
    cases h
    exact ⟨hk, 0, rfl⟩
  isSome _ _ := rfl

theorem bind {f : α → Remember κ ρ Option β} {g : Nat → α → Option β} (h : Agrees spec n x y)
    (hf : ∀ a, Agrees spec n (f a) fun d => g d a) :
    Agrees spec n (x >>= f) fun d => y d >>= g d where
  deepens d d' b hle hb := by
    obtain ⟨a, ha, hb⟩ := Option.bind_eq_some_iff.1 hb
    exact Option.bind_eq_some_iff.2 ⟨a, h.deepens d d' a hle ha, (hf a).deepens d d' b hle hb⟩
  right {kept} hk b kept'' hrun := by
    obtain ⟨⟨a, kept'⟩, ha, hb⟩ := Option.bind_eq_some_iff.1 hrun
    obtain ⟨hk', d, hd⟩ := h.right hk ha
    obtain ⟨hk'', d', hd'⟩ := (hf a).right hk' hb
    refine ⟨hk'', max d d', Option.bind_eq_some_iff.2 ⟨a, ?_, ?_⟩⟩
    · exact h.deepens d _ a (Nat.le_max_left d d') hd
    · exact (hf a).deepens d' _ b (Nat.le_max_right d d') hd'
  isSome {kept} hk hsome := by
    obtain ⟨b, hb⟩ := Option.isSome_iff_exists.1 hsome
    obtain ⟨a, ha, hb⟩ := Option.bind_eq_some_iff.1 hb
    obtain ⟨⟨a', kept'⟩, hrun⟩ := Option.isSome_iff_exists.1 (h.isSome hk (by simp [ha]))
    obtain ⟨hk', d, hd⟩ := h.right hk hrun
    -- what has been looked up may come from another depth, but it is the same
    obtain rfl := h.deepens.eq ha hd
    obtain ⟨r, hr⟩ := Option.isSome_iff_exists.1 ((hf a).isSome hk' (by simp [hb]))
    exact Option.isSome_iff_exists.2 ⟨r, Option.bind_eq_some_iff.2 ⟨_, hrun, hr⟩⟩

/-- **Looking results up keeps to what is computed.** -/
theorem remember [Std.TransOrd κ] [Std.LawfulEqOrd κ] {key : κ} {x : Remember κ ρ Option ρ}
    (h : Agrees spec n x (spec · key)) :
    Agrees spec n (ProbDatalog.remember key x) (spec · key) where
  deepens := h.deepens
  right {kept} hk r kept' hrun := by
    unfold ProbDatalog.remember at hrun
    -- a result that is kept is one of some depth, and so is one that is kept from now on
    split at hrun
    next r' hr' =>
      cases hrun
      exact ⟨hk, hk key r hr'⟩
    next =>
      obtain ⟨⟨r', kept''⟩, hx, hr'⟩ := Option.bind_eq_some_iff.1 hrun
      cases hr'
      obtain ⟨hk', hd⟩ := h.right hk hx
      refine ⟨fun key' r' hr' => ?_, hd⟩
      rw [Std.TreeMap.getElem?_insert] at hr'
      split at hr'
      next heq =>
        cases hr'
        rwa [← Std.LawfulEqOrd.eq_of_compare heq]
      next => exact hk' key' r' hr'
  isSome {kept} hk hsome := by
    unfold ProbDatalog.remember
    split
    · rfl
    · obtain ⟨r, hr⟩ := Option.isSome_iff_exists.1 (h.isSome hk hsome)
      exact Option.isSome_iff_exists.2 ⟨_, Option.bind_eq_some_iff.2 ⟨r, hr, rfl⟩⟩

/-- One more level of depth is used up. -/
theorem succ {z : Nat → Option α} (h : Agrees spec n x y) (h0 : z 0 = Option.none)
    (hs : ∀ d, z (d + 1) = y d) : Agrees spec (n + 1) x z where
  deepens d d' a hle ha := by
    cases d with
    | zero => rw [h0] at ha; cases ha
    | succ d =>
      obtain ⟨e, rfl⟩ : ∃ e, d' = e + 1 := ⟨d' - 1, by omega⟩
      rw [hs] at ha ⊢
      exact h.deepens d e a (by omega) ha
  right hk _ _ hrun := by
    obtain ⟨hk', d, hd⟩ := h.right hk hrun
    exact ⟨hk', d + 1, by rw [hs, hd]⟩
  isSome hk hsome := h.isSome hk (by rwa [hs] at hsome)

end Agrees

end Remember

/-! ## Lineages -/

namespace ProofSet

instance Goal.instTransOrd : Std.TransOrd Goal :=
  inferInstanceAs (Std.TransCmp (compareLex (compareOn Prod.snd) (compareOn Prod.fst)))

instance Goal.instLawfulEqOrd : Std.LawfulEqOrd Goal where
  eq_of_compare h := by
    have ⟨hf, hp⟩ := Ordering.then_eq_eq.1 h
    exact Prod.ext (Std.LawfulEqOrd.eq_of_compare hp) (Std.LawfulEqOrd.eq_of_compare hf)

variable {s : ProofSet} {n : Nat} {l : Literal} {L : Lineage}

variable (s) in
/-- The lineage of a goal, where everything is computed whenever it is needed. -/
def plainFactLineage (depth : Nat) (goal : Goal) : Option Lineage :=
  factLineage s (fun _ x => x) (s.plainLineage depth) (s.facts.length - goal.1.length) goal.1 goal.2

section Deepens

variable {ask ask' : Literal → Option Lineage} (h : ∀ q L, ask q = some L → ask' q = some L)

include h

theorem premisesLineage_mono {start : Lineage} {body : List Premise}
    (hL : premisesLineage ask start body = some L) : premisesLineage ask' start body = some L := by
  induction body generalizing start with
  | nil => exact hL
  | cons p rest ih =>
    cases p with
    | evaluable _ => exact ih hL
    | relational q =>
      obtain ⟨M, hM, hL⟩ := Option.bind_eq_some_iff.1 hL
      refine Option.bind_eq_some_iff.2 ⟨M, h q M hM, ?_⟩
      dsimp only at hL ⊢
      split
      next hf => rwa [if_pos hf] at hL
      next hf => exact ih (by rwa [if_neg hf] at hL)

theorem proofsLineage_mono {start : Lineage} {ranked : List (Nat × Proof)}
    (hL : proofsLineage ask start ranked = some L) : proofsLineage ask' start ranked = some L := by
  induction ranked generalizing start with
  | nil => exact hL
  | cons x rest ih =>
    obtain ⟨M, hM, hL⟩ := Option.bind_eq_some_iff.1 hL
    exact Option.bind_eq_some_iff.2 ⟨M, premisesLineage_mono h hM, ih hL⟩

theorem factLineage_mono {room : Nat} {path : List Literal} {fact : Literal}
    (hL : factLineage s (fun _ x => x) ask room path fact = some L) :
    factLineage s (fun _ x => x) ask' room path fact = some L := by
  induction room generalizing path fact L with
  | zero => exact hL
  | succ room ih =>
    rw [factLineage_succ] at hL ⊢
    refine proofsLineage_mono (fun q M hM => ?_) hL
    rw [askBelow_eq_some_iff] at hM ⊢
    rcases hM with ⟨hn, hM⟩ | ⟨hn, ⟨hq, hM⟩ | hM⟩
    · exact .inl ⟨hn, h q M hM⟩
    · exact .inr ⟨hn, .inl ⟨hq, ih hM⟩⟩
    · exact .inr ⟨hn, .inr hM⟩

end Deepens

/-- More depth yields no other lineages. -/
theorem plainLineage_mono {d d' : Nat} (hle : d ≤ d') (hL : s.plainLineage d l = some L) :
    s.plainLineage d' l = some L := by
  induction d generalizing d' l L with
  | zero => cases hL
  | succ d ih =>
    obtain ⟨e, rfl⟩ : ∃ e, d' = e + 1 := ⟨d' - 1, by omega⟩
    obtain ⟨M, hM, hL⟩ := plainLineage_succ_eq_some_iff.1 hL
    refine plainLineage_succ_eq_some_iff.2 ⟨M, hM.imp_left fun ⟨hp, hM⟩ => ⟨hp, ?_⟩, hL⟩
    exact factLineage_mono (fun q N hN => ih (by omega) hN) hM

theorem deepens_plainLineage (l : Literal) : Deepens (s.plainLineage · l) :=
  fun _ _ _ hle hL => plainLineage_mono hle hL

section Agrees

variable {spec : Nat → Goal → Option Lineage} {ask : Literal → Remember Goal Lineage Option Lineage}
variable {ask' : Nat → Literal → Option Lineage}

theorem agrees_premisesLineage (hask : ∀ q, Agrees spec n (ask q) (ask' · q)) (start : Lineage)
    (body : List Premise) :
    Agrees spec n (premisesLineage ask start body)
      fun d => premisesLineage (ask' d) start body := by
  induction body generalizing start with
  | nil => exact .pure start
  | cons p rest ih =>
    cases p with
    | evaluable _ => exact ih start
    | relational q =>
      refine (hask q).bind (g := fun d M => if (start.and M).formula.isFalse then
        some (start.and M) else premisesLineage (ask' d) (start.and M) rest) fun M => ?_
      dsimp only
      split
      · exact .pure _
      · exact ih _

theorem agrees_proofsLineage (hask : ∀ q, Agrees spec n (ask q) (ask' · q)) (start : Lineage)
    (ranked : List (Nat × Proof)) :
    Agrees spec n (proofsLineage ask start ranked)
      fun d => proofsLineage (ask' d) start ranked := by
  induction ranked generalizing start with
  | nil => exact .pure start
  | cons x rest ih =>
    obtain ⟨i, π⟩ := x
    simp only [proofsLineage_cons]
    exact (agrees_premisesLineage hask _ _).bind fun M => ih _

end Agrees

theorem agrees_factLineage {askNegated : Literal → Remember Goal Lineage Option Lineage}
    (hask : ∀ q, Agrees s.plainFactLineage n (askNegated q) (s.plainLineage · q)) {room : Nat}
    {path : List Literal} {fact : Literal} (hroom : room + path.length = s.facts.length)
    (hfact : fact ∉ path) :
    Agrees s.plainFactLineage n (factLineage s remember askNegated room path fact)
      (s.plainFactLineage · (path, fact)) := by
  -- room and path make up all facts, so the room says how long the path is
  induction room generalizing path fact with
  | zero =>
    have h : (s.plainFactLineage · (path, fact)) = fun _ => some .falsity := by
      funext d
      rw [plainFactLineage, show s.facts.length - path.length = 0 by omega]
      rfl
    rw [h]
    exact .pure _
  | succ room ih =>
    have hlen : (Sorted.insert fact path).length = path.length + 1 :=
      Sorted.length_insert_of_not_mem hfact
    refine Agrees.remember ?_
    -- a fact that is asked for is a goal with one fact more on its path
    have h : (s.plainFactLineage · (path, fact)) = fun d => proofsLineage
        (s.askBelow (fun _ x => x) (s.plainLineage d) room (Sorted.insert fact path)) .falsity
        (s.rankedProofsOf fact) := by
      funext d
      rw [plainFactLineage, show s.facts.length - path.length = room + 1 by omega]
      rfl
    rw [h]
    refine agrees_proofsLineage (fun q => ?_) _ _
    unfold askBelow
    split
    · exact hask q
    split
    next hc =>
      simp only [Bool.and_eq_true, Bool.not_eq_true', List.contains_eq_mem,
        decide_eq_false_iff_not] at hc
      have := ih (by omega) hc.2
      rwa [show (s.plainFactLineage · (Sorted.insert fact path, q)) = fun d => factLineage s
        (fun _ x => x) (s.plainLineage d) room (Sorted.insert fact path) q by
          funext d
          rw [plainFactLineage, show s.facts.length - (Sorted.insert fact path).length = room by
            omega]] at this
    next => exact .pure _

theorem agrees_literalLineage (n : Nat) (l : Literal) :
    Agrees s.plainFactLineage n
      (literalLineage s remember (fun _ => none) s.facts.length n l) (s.plainLineage · l) := by
  induction n generalizing l with
  | zero =>
    exact ⟨deepens_plainLineage l, fun _ _ _ h => (by cases h), fun _ h => (by cases h)⟩
  | succ n ih =>
    rw [literalLineage_succ]
    refine Agrees.succ (y := fun d => (if s.proves l.positive then
      s.plainFactLineage d ([], l.positive) else some .falsity) >>= fun L =>
        pure (if l.negated then L.not else L)) ?_ rfl fun d => literalLineage_succ _ _ _ _ _
    refine Agrees.bind ?_ fun L => .pure _
    split
    · exact agrees_factLineage ih (by simp) (by simp)
    · exact .pure _

/-- **Remembering changes no lineage.** -/
theorem plainLineage_of_lineage? (h : s.lineage? l = some L) :
    ∃ d, s.plainLineage d l = some L := by
  obtain ⟨⟨_, kept⟩, hrun, hL⟩ := Option.bind_eq_some_iff.1 h
  cases hL
  exact ((agrees_literalLineage _ l).right (fun _ _ h => by simp at h) hrun).2

theorem lineage?_of_plainLineage (h : s.plainLineage (s.facts.length + 2) l = some L) :
    s.lineage? l = some L := by
  have hsome : (s.lineage? l).isSome = true := by
    have hnone : IsKept s.plainFactLineage (∅ : Std.TreeMap Goal Lineage) := fun _ _ h => by
      simp at h
    obtain ⟨⟨M, kept⟩, hrun⟩ := Option.isSome_iff_exists.1 ((agrees_literalLineage (s := s)
      (s.facts.length + 2) l).isSome hnone (by simp [h]))
    exact Option.isSome_iff_exists.2 ⟨M, Option.bind_eq_some_iff.2 ⟨_, hrun, rfl⟩⟩
  -- the lineage that is found may be one of more depth, where it is the same
  obtain ⟨M, hM⟩ := Option.isSome_iff_exists.1 hsome
  obtain ⟨d, hd⟩ := plainLineage_of_lineage? hM
  rw [hM, (deepens_plainLineage l).eq hd h]

/-- **There is a lineage where no fact rests on its own negation.** -/
theorem exists_lineage? (h : s.dependencies.Stratified) (l : Literal) :
    ∃ L, s.lineage? l = some L := by
  obtain ⟨L, hL⟩ := exists_plainLineage (within_of_stratified h l.positive)
  exact ⟨L, lineage?_of_plainLineage hL⟩

/-- **A lineage says when a literal holds**, whatever facts hold in a world. -/
theorem holds_lineage? {T : Set Literal} {ω : World}
    (hT : T = consequences (s.active ω) fun b => b ∉ T) (h : s.lineage? l = some L) :
    L.formula.Proper ∧ (L.formula.holds (s.assignment ω) = true ↔
      if l.negated then l.positive ∉ T else l ∈ T) := by
  obtain ⟨d, hd⟩ := plainLineage_of_lineage? h
  exact holds_plainLineage hT hd

end ProofSet

end ProbDatalog
