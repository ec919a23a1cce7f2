import ProbDatalog.Document.Codec
import ProbDatalog.Proofs.Constants

/-!
# Values written and read back

A value that is written as a document reads back as itself, but for the sign of zeros: a finite
number is written as a double, and a double reads back in canonical form. Numbers that were made by
reading doubles or by the operations of the library are canonical, so what is lost is what only a
document can bring in, a negative zero that is given by its bits.

* `Datatype`: the types of values, each with its canonical forms and its constants.
* `Codec.decode?_eq_negativeZero_iff`: where negative zeros come from.
* `Codec.roundTrips`: **every value of the data model reads back with its numbers in canonical
  form**, and so unchanged just where no negative zero occurs in it.
-/

namespace ProbDatalog

open Codec

/-! ## Canonical forms -/

/-- Put the number in canonical form, if the constant is one. -/
def Constant.canonical : Constant → Constant
  | .number x => .number x.canonical
  | c => c

/-- The constant that a term is. -/
def Term.constants (t : Term) : List Constant := t.constant?.toList

/-- Replace all constants. -/
def Clause.mapConstants (φ : Constant → Constant) (c : Clause) : Clause :=
  { c with head := c.head.mapConstants φ, body := c.body.map (·.mapConstants φ) }

namespace Premise

/-- The constants of the literal. -/
def constants (p : Premise) : List Constant := p.literal.constants

/-- Replace all constants. -/
def mapConstants (φ : Constant → Constant) : Premise → Premise
  | relational l => relational (l.mapConstants φ)
  | evaluable l => evaluable (l.mapConstants φ)

end Premise

namespace Proof

/-- The constants of the head and of the premises. -/
def constants (p : Proof) : List Constant := p.head.constants ++ p.body.flatMap Premise.constants

/-- Replace all constants. -/
def mapConstants (φ : Constant → Constant) (p : Proof) : Proof :=
  { p with head := p.head.mapConstants φ, body := p.body.map (·.mapConstants φ) }

end Proof

/-- Replace all constants. -/
def CallPattern.mapConstants (φ : Constant → Constant) (p : CallPattern) : CallPattern :=
  ⟨p.literal.mapConstants φ⟩

section Maps

variable (φ ψ : Constant → Constant)

@[simp] theorem Constant.canonical_canonical (c : Constant) :
    c.canonical.canonical = c.canonical := by
  cases c <;> simp [canonical]

theorem Term.mapConstant_mapConstant (t : Term) :
    (t.mapConstant ψ).mapConstant φ = t.mapConstant (φ ∘ ψ) := by
  cases t <;> rfl

theorem Literal.mapConstants_mapConstants (l : Literal) :
    (l.mapConstants ψ).mapConstants φ = l.mapConstants (φ ∘ ψ) := by
  simp [mapConstants, Function.comp_def, Term.mapConstant_mapConstant]

theorem Clause.mapConstants_mapConstants (c : Clause) :
    (c.mapConstants ψ).mapConstants φ = c.mapConstants (φ ∘ ψ) := by
  simp [mapConstants, Function.comp_def, Literal.mapConstants_mapConstants]

theorem Premise.mapConstants_mapConstants (p : Premise) :
    (p.mapConstants ψ).mapConstants φ = p.mapConstants (φ ∘ ψ) := by
  cases p <;> simp [mapConstants, Literal.mapConstants_mapConstants]

theorem Proof.mapConstants_mapConstants (p : Proof) :
    (p.mapConstants ψ).mapConstants φ = p.mapConstants (φ ∘ ψ) := by
  simp [mapConstants, Function.comp_def, Literal.mapConstants_mapConstants,
    Premise.mapConstants_mapConstants]

end Maps

section Fixed

variable {φ : Constant → Constant}

theorem Number.canonical_eq_self_iff {x : Number} : x.canonical = x ↔ x ≠ negativeZero := by
  refine ⟨fun h => h ▸ canonical_ne_negativeZero x, fun h => if_neg h⟩

/-- The only constant that is not in canonical form is the negative zero. -/
theorem Constant.canonical_eq_self_iff {c : Constant} :
    c.canonical = c ↔ c ≠ .number .negativeZero := by
  cases c with
  | number x =>
    simp only [canonical, number.injEq, ne_eq]
    exact Number.canonical_eq_self_iff
  | boolean b => simp [canonical]
  | string s => simp [canonical]

theorem Term.mapConstant_eq_self_iff {t : Term} :
    t.mapConstant φ = t ↔ ∀ c ∈ t.constants, φ c = c := by
  cases t <;> simp [mapConstant, constants, constant?]

/-- A list stays if nothing happens to its members. -/
theorem map_mapConstants_eq_self_iff {α : Type} {f : α → α} (constants : α → List Constant)
    (h : ∀ a, f a = a ↔ ∀ c ∈ constants a, φ c = c) (l : List α) :
    l.map f = l ↔ ∀ c ∈ l.flatMap constants, φ c = c := by
  have hid : l.map f = l ↔ ∀ a ∈ l, f a = a := by
    conv_lhs => rhs; rw [← List.map_id l]
    exact List.map_inj_left
  simp only [hid, h, List.mem_flatMap]
  grind

theorem Clause.mapConstants_eq_self_iff {c : Clause} :
    c.mapConstants φ = c ↔ ∀ d ∈ c.constants, φ d = d := by
  obtain ⟨head, body, pr⟩ := c
  have hbody := map_mapConstants_eq_self_iff (φ := φ) Literal.constants
    (fun l => Literal.mapConstants_eq_self_iff) body
  simp only [mapConstants, Clause.mk.injEq, and_true, Literal.mapConstants_eq_self_iff, hbody,
    constants, List.flatMap_cons, List.forall_mem_append]

theorem Premise.mapConstants_eq_self_iff {p : Premise} :
    p.mapConstants φ = p ↔ ∀ c ∈ p.constants, φ c = c := by
  cases p <;> simp [mapConstants, constants, literal, Literal.mapConstants_eq_self_iff]

theorem Proof.mapConstants_eq_self_iff {p : Proof} :
    p.mapConstants φ = p ↔ ∀ c ∈ p.constants, φ c = c := by
  obtain ⟨head, body, pr, id⟩ := p
  have hbody := map_mapConstants_eq_self_iff (φ := φ) Premise.constants
    (fun l => Premise.mapConstants_eq_self_iff) body
  simp only [mapConstants, Proof.mk.injEq, and_true, Literal.mapConstants_eq_self_iff, hbody,
    constants, List.forall_mem_append]

theorem CallPattern.mapConstants_eq_self_iff {p : CallPattern} :
    p.mapConstants φ = p ↔ ∀ c ∈ p.literal.constants, φ c = c := by
  obtain ⟨l⟩ := p
  simp [mapConstants, Literal.mapConstants_eq_self_iff]

end Fixed

namespace Codec

/-! ## Reading back -/

theorem decode?_encode_uint32 (n : UInt32) : decode? (encode n) = some n := by
  have hn : n.toNat < UInt32.size := n.toNat_lt
  show (do
    let m ← Document.natural? (.integer n.toNat)
    if m < UInt32.size then return UInt32.ofNat m else none) = some n
  simp [Document.natural?, hn]

theorem decode?_encode_uint64 (n : UInt64) : decode? (encode n) = some n := by
  have hn : n.toNat < UInt64.size := n.toNat_lt
  show (do
    let m ← Document.natural? (.integer n.toNat)
    if m < UInt64.size then return UInt64.ofNat m else none) = some n
  simp [Document.natural?, hn]

theorem decode?_eq_uint64_iff {d : Document} {n : UInt64} :
    decode? d = some n ↔ d = .integer n.toNat := by
  refine ⟨fun h => ?_, fun h => h ▸ decode?_encode_uint64 n⟩
  cases d with
  | integer m =>
    obtain ⟨k, hk, hread⟩ := Option.bind_eq_some_iff.1 h
    have hnatural : 0 ≤ m ∧ m.toNat = k := by simpa [Document.natural?] using hk
    have hbound : k < UInt64.size ∧ UInt64.ofNat k = n := by simpa using hread
    obtain ⟨hlt, rfl⟩ := hbound
    rw [UInt64.toNat_ofNat_of_lt' hlt, ← hnatural.2, Int.toNat_of_nonneg hnatural.1]
  | _ => cases h

/-- A finite number reads back in canonical form, and any other number by its bits. -/
theorem decode?_encode_number (x : Number) : decode? (encode x) = some x.canonical := by
  by_cases hfinite : x.isFinite = true
  · have hencode : encode x = .double x := if_pos hfinite
    rw [hencode]
    rfl
  · have hencode : encode x = .object [("bits", encode x.bits)] := if_neg hfinite
    have hcanonical : x.canonical = x :=
      Number.canonical_eq_self_iff.2 fun h => hfinite (by rw [h]; decide)
    rw [hencode, hcanonical]
    show (decode? (encode x.bits)).map Number.mk = some x
    rw [decode?_encode_uint64]
    rfl

theorem decode?_encode_constant (c : Constant) : decode? (encode c) = some c.canonical := by
  cases c with
  | boolean b => rfl
  | string s => rfl
  | number x => exact congrArg (Option.map Constant.number) (decode?_encode_number x)

theorem decode?_encode_variable (v : Variable) : decode? (encode v) = some v := by
  show (do return ⟨v.name, ← decode? (encode v.scope)⟩ : Option Variable) = some v
  rw [decode?_encode_uint32]
  rfl

theorem decode?_encode_term (t : Term) : decode? (encode t) = some (t.mapConstant .canonical) := by
  cases t with
  | const c => exact congrArg (Option.map Term.const) (decode?_encode_constant c)
  | var v => exact congrArg (Option.map Term.var) (decode?_encode_variable v)

theorem decode?_encode_literal (l : Literal) :
    decode? (encode l) = some (l.mapConstants .canonical) := by
  show (do return ⟨l.predicate, ← decode? (encode l.terms), l.negated⟩ : Option Literal) = _
  rw [decode?_encode_list fun t _ => decode?_encode_term t]
  rfl

theorem decode?_encode_probability (p : Probability) : decode? (encode p) = some p :=
  (Probability.ofNumber?_eq_some_iff p.number p).2 rfl

theorem decode?_encode_clause (c : Clause) :
    decode? (encode c) = some (c.mapConstants .canonical) := by
  show (do return ⟨← decode? (encode c.head), ← decode? (encode c.body),
    ← decode? (encode c.probability)⟩ : Option Clause) = _
  rw [decode?_encode_literal, decode?_encode_list fun l _ => decode?_encode_literal l,
    decode?_encode_probability]
  rfl

theorem decode?_encode_premise (p : Premise) :
    decode? (encode p) = some (p.mapConstants .canonical) := by
  cases p with
  | relational l => exact congrArg (Option.map Premise.relational) (decode?_encode_literal l)
  | evaluable l => exact congrArg (Option.map Premise.evaluable) (decode?_encode_literal l)

theorem decode?_encode_clauseId (id : ClauseId) : decode? (encode id) = some id := by
  show (Document.natural? (.integer id.index)).map ClauseId.mk = some id
  simp [Document.natural?]

theorem decode?_encode_proof (p : Proof) :
    decode? (encode p) = some (p.mapConstants .canonical) := by
  show (do return ⟨← decode? (encode p.head), ← decode? (encode p.body),
    ← decode? (encode p.probability), ← decode? (encode p.clause)⟩ : Option Proof) = _
  rw [decode?_encode_literal, decode?_encode_list fun l _ => decode?_encode_premise l,
    decode?_encode_probability, decode?_encode_clauseId]
  rfl

theorem decode?_encode_pattern (p : CallPattern) :
    decode? (encode p) = some (p.mapConstants .canonical) :=
  congrArg (Option.map CallPattern.mk) (decode?_encode_literal p.literal)

end Codec

/-! ## The types of the data model -/

/-- The types of the values that programs and tables are made of. -/
inductive Datatype where
  | number
  | constant
  | term
  | literal
  | clause
  | premise
  | proof
  | pattern
  deriving DecidableEq, Repr

namespace Datatype

/-- The values of the type. -/
@[reducible] def Value : Datatype → Type
  | number => Number
  | constant => Constant
  | term => Term
  | literal => Literal
  | clause => Clause
  | premise => Premise
  | proof => Proof
  | pattern => CallPattern

instance : (T : Datatype) → Codec T.Value
  | number => inferInstanceAs (Codec Number)
  | constant => inferInstanceAs (Codec Constant)
  | term => inferInstanceAs (Codec Term)
  | literal => inferInstanceAs (Codec Literal)
  | clause => inferInstanceAs (Codec Clause)
  | premise => inferInstanceAs (Codec Premise)
  | proof => inferInstanceAs (Codec Proof)
  | pattern => inferInstanceAs (Codec CallPattern)

/-- The value with all its numbers in canonical form. -/
def canonical : (T : Datatype) → T.Value → T.Value
  | number => Number.canonical
  | constant => Constant.canonical
  | term => Term.mapConstant .canonical
  | literal => Literal.mapConstants .canonical
  | clause => Clause.mapConstants .canonical
  | premise => Premise.mapConstants .canonical
  | proof => Proof.mapConstants .canonical
  | pattern => CallPattern.mapConstants .canonical

/-- The constants of a value. -/
def constants : (T : Datatype) → T.Value → List Constant
  | number => fun x => [.number x]
  | constant => fun c => [c]
  | term => Term.constants
  | literal => Literal.constants
  | clause => Clause.constants
  | premise => Premise.constants
  | proof => Proof.constants
  | pattern => fun p => p.literal.constants

theorem canonical_eq_self_iff (T : Datatype) (v : T.Value) :
    T.canonical v = v ↔ Constant.number .negativeZero ∉ T.constants v := by
  have hfixed : T.canonical v = v ↔ ∀ c ∈ T.constants v, c.canonical = c := by
    cases T with
    | number => simp [canonical, constants, Constant.canonical]
    | constant => simp [canonical, constants]
    | term => exact Term.mapConstant_eq_self_iff
    | literal => exact Literal.mapConstants_eq_self_iff
    | clause => exact Clause.mapConstants_eq_self_iff
    | premise => exact Premise.mapConstants_eq_self_iff
    | proof => exact Proof.mapConstants_eq_self_iff
    | pattern => exact CallPattern.mapConstants_eq_self_iff
  simp only [hfixed, Constant.canonical_eq_self_iff]
  exact List.forall_mem_ne'

theorem canonical_canonical (T : Datatype) (v : T.Value) :
    T.canonical (T.canonical v) = T.canonical v := by
  have hcomp : Constant.canonical ∘ Constant.canonical = Constant.canonical :=
    funext Constant.canonical_canonical
  cases T with
  | number => exact Number.canonical_canonical v
  | constant => exact Constant.canonical_canonical v
  | term => exact (Term.mapConstant_mapConstant _ _ v).trans (by rw [hcomp]; rfl)
  | literal => exact (Literal.mapConstants_mapConstants _ _ v).trans (by rw [hcomp]; rfl)
  | clause => exact (Clause.mapConstants_mapConstants _ _ v).trans (by rw [hcomp]; rfl)
  | premise => exact (Premise.mapConstants_mapConstants _ _ v).trans (by rw [hcomp]; rfl)
  | proof => exact (Proof.mapConstants_mapConstants _ _ v).trans (by rw [hcomp]; rfl)
  | pattern =>
    refine congrArg CallPattern.mk ((Literal.mapConstants_mapConstants _ _ v.literal).trans ?_)
    rw [hcomp]

theorem decode?_encode (T : Datatype) (v : T.Value) :
    decode? (encode v) = some (T.canonical v) := by
  cases T with
  | number => exact decode?_encode_number v
  | constant => exact decode?_encode_constant v
  | term => exact decode?_encode_term v
  | literal => exact decode?_encode_literal v
  | clause => exact decode?_encode_clause v
  | premise => exact decode?_encode_premise v
  | proof => exact decode?_encode_proof v
  | pattern => exact decode?_encode_pattern v

end Datatype

namespace Codec

/-- **Negative zeros come from documents that give their bits.** -/
theorem decode?_eq_negativeZero_iff (d : Document) :
    decode? d = some Number.negativeZero ↔
      ∃ fields, d = .object fields ∧
        Document.find? "bits" fields = some (.integer 0x8000000000000000) := by
  have hdouble : ∀ x? : Option Number, x?.map Number.canonical ≠ some .negativeZero := by
    rintro (- | x) h
    · cases h
    · exact Number.canonical_ne_negativeZero x (Option.some.inj h)
  constructor
  · intro h
    cases d with
    | object fields =>
      have hread : (Document.find? "bits" fields >>= decode?).map Number.mk =
          some .negativeZero := h
      obtain ⟨bits, hbits, hmk⟩ := Option.map_eq_some_iff.1 hread
      cases hmk
      obtain ⟨b, hfind, hdecode⟩ := Option.bind_eq_some_iff.1 hbits
      exact ⟨fields, rfl, hfind.trans (congrArg some (decode?_eq_uint64_iff.1 hdecode))⟩
    | _ => exact absurd h (hdouble _)
  · rintro ⟨fields, rfl, hfind⟩
    show (Document.find? "bits" fields >>= decode?).map Number.mk = some .negativeZero
    rw [hfind]
    rfl

/-- **Every value of the data model reads back with its numbers in canonical form**, so that a value
that was read back once stays as it is. All infinities and all NaNs are canonical, and so is every
number that is read from a double. A value reads back unchanged just where no negative zero occurs
in it, and a document is read as a negative zero just where it gives the bits of one. -/
theorem roundTrips (T : Datatype) (v : T.Value) (d : Document) :
    decode? (encode v) = some (T.canonical v) ∧
    decode? (encode (T.canonical v)) = some (T.canonical v) ∧
    (decode? (encode v) = some v ↔ Constant.number .negativeZero ∉ T.constants v) ∧
    (decode? d = some Number.negativeZero ↔ ∃ fields, d = .object fields ∧
      Document.find? "bits" fields = some (.integer 0x8000000000000000)) := by
  refine ⟨T.decode?_encode v, ?_, ?_, decode?_eq_negativeZero_iff d⟩
  · rw [T.decode?_encode, T.canonical_canonical]
  · rw [T.decode?_encode, Option.some_inj, T.canonical_eq_self_iff]

end Codec

/-! ## Thermometers -/

namespace Thermometers

/-- The document of the fact that the outdoor temperature is zero, with the bits of a zero below
zero. -/
def frost : Document :=
  .object [("predicate", .text "outdoors"),
    ("terms", .array [.object [("Constant", .object
      [("Number", .object [("bits", .integer 0x8000000000000000)])])]]),
    ("negated", .boolean false)]

/-- The temperature outdoors. -/
def outdoors (x : Number) : Literal := .of "outdoors" [.const (.number x)]

/-- A number and a fact that a document gives by the bits of a negative zero are written and read
back as other ones. -/
theorem frost_lost :
    decode? (.object [("bits", .integer 0x8000000000000000)]) = some Number.negativeZero ∧
    decode? (encode Number.negativeZero) = some Number.zero ∧
    decode? frost = some (outdoors .negativeZero) ∧
    decode? (encode (outdoors .negativeZero)) = some (outdoors .zero) ∧
    Number.negativeZero ≠ .zero ∧ outdoors .negativeZero ≠ outdoors .zero := by
  refine ⟨rfl, rfl, rfl, rfl, by decide, by decide⟩

end Thermometers

end ProbDatalog
