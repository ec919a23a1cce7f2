import ProbDatalog.CallPattern
import ProbDatalog.Proof

/-!
# The orders of literals and proofs

The orders by which proofs are sorted are total, and only equal values compare as equal. Products
inherit this from their parts lexicographically; the three types with several constructors are
compared constructor by constructor.

* `TotallyOrdered`: total orders that compare just those values as equal that are.
* `Number.compare_eq_key`: numbers are ordered as the integers that the total order of IEEE 754
  makes of their bits.
* `Proof.instTransOrd`, `Proof.instLawfulEqOrd`: proofs are totally ordered.
-/

namespace ProbDatalog

/-- The order is total, and its `eq` is the equality test. -/
structure TotallyOrdered (α : Type) [Ord α] [BEq α] : Prop where
  total (a b : α) : (compare a b).isLE = true ∨ (compare b a).isLE = true
  antisymm (a b : α) : (compare a b).isLE = true → (compare b a).isLE = true → a = b
  trans (a b c : α) :
    (compare a b).isLE = true → (compare b c).isLE = true → (compare a c).isLE = true
  swap (a b : α) : compare a b = (compare b a).swap
  eq_iff (a b : α) : compare a b = .eq ↔ (a == b) = true

theorem totallyOrdered (α : Type) [Ord α] [BEq α] [LawfulBEq α] [Std.TransOrd α]
    [Std.LawfulEqOrd α] : TotallyOrdered α where
  total a b := by
    rw [Std.OrientedOrd.eq_swap (a := b)]
    cases compare a b <;> simp
  antisymm a b h h' := Std.LawfulEqOrd.eq_of_compare (Std.OrientedCmp.isLE_antisymm h h')
  trans _ _ _ := Std.TransOrd.isLE_trans
  swap _ _ := Std.OrientedOrd.eq_swap
  eq_iff a b := by rw [Std.LawfulEqOrd.compare_eq_iff_eq, beq_iff_eq]

/-! ## Leaves -/

namespace Number

/-- What the total order of IEEE 754 compares as signed integers: the bits of a number, those below
the sign flipped if it is set. -/
def key (x : Number) : BitVec 64 :=
  x.bits.toBitVec ^^^ (x.bits.toBitVec.sshiftRight 63 >>> 1)

theorem isNegative_eq_msb (x : Number) : x.isNegative = x.bits.toBitVec.msb := by
  rw [BitVec.msb_eq_decide]
  rfl

theorem getLsbD_key (x : Number) (i : Nat) :
    x.key.getLsbD i = (x.bits.toBitVec.getLsbD i ^^ (decide (i < 63) && x.isNegative)) := by
  rw [key, BitVec.getLsbD_xor, BitVec.getLsbD_ushiftRight, BitVec.getLsbD_sshiftRight,
    isNegative_eq_msb]
  by_cases hi : i < 63
  · have hsign : ¬(63 + (1 + i) < 64) := by omega
    have hwidth : ¬(64 ≤ 1 + i) := by omega
    simp [hi, hsign, hwidth]
  · have hwidth : 64 ≤ 1 + i := by omega
    simp [hi, hwidth]

theorem key_of_not_negative {x : Number} (h : x.isNegative = false) :
    x.key = x.bits.toBitVec := by
  refine BitVec.eq_of_getLsbD_eq fun i hi => ?_
  rw [getLsbD_key, h, Bool.and_false, Bool.xor_false]

/-- The key of a number with a sign is the complement of the bits below the sign. -/
theorem key_of_negative {x : Number} (h : x.isNegative = true) :
    x.key = ~~~(x.bits.toBitVec &&& 0x7fffffffffffffff) := by
  refine BitVec.eq_of_getLsbD_eq fun i hi => ?_
  have hmask : (0x7fffffffffffffff : BitVec 64).getLsbD i = decide (i < 63) := by
    have hones : (0x7fffffffffffffff : BitVec 64) = BitVec.ofNat 64 (2 ^ 63 - 1) := rfl
    rw [hones, BitVec.getLsbD_ofNat, Nat.testBit_two_pow_sub_one, decide_eq_true hi, Bool.true_and]
  rw [getLsbD_key, h, BitVec.getLsbD_not, BitVec.getLsbD_and, hmask, decide_eq_true hi]
  by_cases hlow : i < 63
  · simp [hlow]
  · -- the sign itself is not flipped, and the complement sets it
    obtain rfl : i = 63 := by omega
    rw [isNegative_eq_msb, BitVec.msb_eq_getLsbD_last] at h
    have hlast : x.bits.toBitVec.getLsbD 63 = true := h
    simp [hlast]

/-- The place of a number is its key as a signed integer. -/
theorem toInt_key (x : Number) : x.key.toInt = x.rank := by
  have hbits := x.bits_toNat
  have hlt : x.magnitude < 2 ^ 63 := Nat.mod_lt _ (by decide)
  cases h : x.isNegative with
  | false =>
    have hmsb : x.bits.toBitVec.msb = false := by rw [← isNegative_eq_msb, h]
    rw [h, if_neg Bool.false_ne_true, Nat.zero_add] at hbits
    rw [key_of_not_negative h, BitVec.toInt_eq_toNat_of_msb hmsb, rank, h,
      if_neg Bool.false_ne_true]
    exact congrArg Nat.cast hbits
  | true =>
    have hmod : (x.bits.toBitVec &&& 0x7fffffffffffffff).toNat = x.magnitude := by
      rw [BitVec.toNat_and]
      exact Nat.and_two_pow_sub_one_eq_mod x.bits.toNat 63
    rw [key_of_negative h, BitVec.toInt_not, hmod, rank, h, if_pos rfl, Int.bmod_def]
    omega

/-- **Numbers are ordered by their keys as signed integers.** -/
theorem compare_eq_key (a b : Number) : compare a b = compare a.key.toInt b.key.toInt := by
  rw [toInt_key, toInt_key]
  rfl

/-- Numbers are equal if their bits are. -/
theorem beq_eq_bits (a b : Number) : (a == b) = (a.bits == b.bits) := by
  cases a
  cases b
  rw [Bool.eq_iff_iff, beq_iff_eq, beq_iff_eq, Number.mk.injEq]

end Number

instance Number.instTransOrd : Std.TransOrd Number :=
  inferInstanceAs (Std.TransCmp (compareOn Number.rank))

instance Number.instLawfulEqOrd : Std.LawfulEqOrd Number where
  compare_self := Std.ReflOrd.compare_self (α := Int)
  eq_of_compare h := Number.rank_injective (Std.LawfulEqOrd.eq_of_compare (α := Int) h)

instance Probability.instTransOrd : Std.TransOrd Probability :=
  inferInstanceAs (Std.TransCmp (compareOn Probability.number))

instance Probability.instLawfulEqOrd : Std.LawfulEqOrd Probability where
  compare_self := Std.ReflOrd.compare_self (α := Number)
  eq_of_compare {p q} h := by
    have hn : p.number = q.number := Std.LawfulEqOrd.eq_of_compare (α := Number) h
    cases p
    cases q
    simpa using hn

instance ClauseId.instTransOrd : Std.TransOrd ClauseId :=
  inferInstanceAs (Std.TransCmp (compareOn ClauseId.index))

instance ClauseId.instLawfulEqOrd : Std.LawfulEqOrd ClauseId where
  compare_self := Std.ReflOrd.compare_self (α := Nat)
  eq_of_compare {a b} h := by
    have hn : a.index = b.index := Std.LawfulEqOrd.eq_of_compare (α := Nat) h
    cases a
    cases b
    simpa using hn

/-! ## Constants, terms and literals -/

/-- A comparison that came out as `gt` does not allow a step upwards. -/
theorem not_isLE_gt {o : Ordering} (h : o.isLE = true) : o ≠ .gt := by
  rintro rfl
  cases h

instance Constant.instTransOrd : Std.TransOrd Constant where
  eq_swap {a b} :=
    match a, b with
    | boolean _, boolean _ => Std.OrientedOrd.eq_swap (α := Bool)
    | number _, number _ => Std.OrientedOrd.eq_swap (α := Number)
    | string _, string _ => Std.OrientedOrd.eq_swap (α := String)
    | boolean _, number _ | boolean _, string _ | number _, string _ => rfl
    | number _, boolean _ | string _, boolean _ | string _, number _ => rfl
  isLE_trans {a b c} h h' :=
    match a, b, c with
    | boolean _, boolean _, boolean _ => Std.TransOrd.isLE_trans (α := Bool) h h'
    | number _, number _, number _ => Std.TransOrd.isLE_trans (α := Number) h h'
    | string _, string _, string _ => Std.TransOrd.isLE_trans (α := String) h h'
    | boolean _, _, number _ | boolean _, _, string _ | number _, _, string _ => rfl
    | number _, boolean _, _ | string _, boolean _, _ | string _, number _, _ =>
      absurd rfl (not_isLE_gt h)
    | _, number _, boolean _ | _, string _, boolean _ | _, string _, number _ =>
      absurd rfl (not_isLE_gt h')

instance Constant.instLawfulEqOrd : Std.LawfulEqOrd Constant where
  eq_of_compare {a b} h :=
    match a, b with
    | boolean _, boolean _ => congrArg _ (Std.LawfulEqOrd.eq_of_compare (α := Bool) h)
    | number _, number _ => congrArg _ (Std.LawfulEqOrd.eq_of_compare (α := Number) h)
    | string _, string _ => congrArg _ (Std.LawfulEqOrd.eq_of_compare (α := String) h)
    | boolean _, number _ | boolean _, string _ | number _, string _ => nomatch h
    | number _, boolean _ | string _, boolean _ | string _, number _ => nomatch h

instance Variable.instTransOrd : Std.TransOrd Variable :=
  inferInstanceAs (Std.TransCmp (compareLex (compareOn Variable.name) (compareOn Variable.scope)))

instance Variable.instLawfulEqOrd : Std.LawfulEqOrd Variable where
  eq_of_compare {a b} h := by
    have ⟨hn, hs⟩ := Ordering.then_eq_eq.1 h
    cases a
    cases b
    rw [Variable.mk.injEq]
    exact ⟨Std.LawfulEqOrd.eq_of_compare hn, Std.LawfulEqOrd.eq_of_compare hs⟩

instance Term.instTransOrd : Std.TransOrd Term where
  eq_swap {a b} :=
    match a, b with
    | const _, const _ => Std.OrientedOrd.eq_swap (α := Constant)
    | var _, var _ => Std.OrientedOrd.eq_swap (α := Variable)
    | const _, var _ | var _, const _ => rfl
  isLE_trans {a b c} h h' :=
    match a, b, c with
    | const _, const _, const _ => Std.TransOrd.isLE_trans (α := Constant) h h'
    | var _, var _, var _ => Std.TransOrd.isLE_trans (α := Variable) h h'
    | const _, _, var _ => rfl
    | var _, const _, _ => absurd rfl (not_isLE_gt h)
    | _, var _, const _ => absurd rfl (not_isLE_gt h')

instance Term.instLawfulEqOrd : Std.LawfulEqOrd Term where
  eq_of_compare {a b} h :=
    match a, b with
    | const _, const _ => congrArg _ (Std.LawfulEqOrd.eq_of_compare (α := Constant) h)
    | var _, var _ => congrArg _ (Std.LawfulEqOrd.eq_of_compare (α := Variable) h)
    | const _, var _ | var _, const _ => nomatch h

instance Literal.instTransOrd : Std.TransOrd Literal :=
  inferInstanceAs (Std.TransCmp (compareLex (compareOn Literal.predicate)
    (compareLex (compareOn Literal.terms) (compareOn Literal.negated))))

instance Literal.instLawfulEqOrd : Std.LawfulEqOrd Literal where
  eq_of_compare {a b} h := by
    have ⟨hp, h⟩ := Ordering.then_eq_eq.1 h
    have ⟨ht, hn⟩ := Ordering.then_eq_eq.1 h
    cases a
    cases b
    rw [Literal.mk.injEq]
    exact ⟨Std.LawfulEqOrd.eq_of_compare hp, Std.LawfulEqOrd.eq_of_compare ht,
      Std.LawfulEqOrd.eq_of_compare hn⟩

instance CallPattern.instTransOrd : Std.TransOrd CallPattern :=
  inferInstanceAs (Std.TransCmp (compareOn CallPattern.literal))

instance CallPattern.instLawfulEqOrd : Std.LawfulEqOrd CallPattern where
  eq_of_compare {a b} h := by
    cases a
    cases b
    rw [CallPattern.mk.injEq]
    exact Std.LawfulEqOrd.eq_of_compare (α := Literal) h

/-! ## Clauses, premises and proofs -/

instance Clause.instTransOrd : Std.TransOrd Clause :=
  inferInstanceAs (Std.TransCmp (compareLex (compareOn Clause.head)
    (compareLex (compareOn Clause.body) (compareOn Clause.probability))))

instance Clause.instLawfulEqOrd : Std.LawfulEqOrd Clause where
  eq_of_compare {a b} h := by
    have ⟨hh, h⟩ := Ordering.then_eq_eq.1 h
    have ⟨hb, hp⟩ := Ordering.then_eq_eq.1 h
    cases a
    cases b
    rw [Clause.mk.injEq]
    exact ⟨Std.LawfulEqOrd.eq_of_compare hh, Std.LawfulEqOrd.eq_of_compare hb,
      Std.LawfulEqOrd.eq_of_compare hp⟩

instance Premise.instTransOrd : Std.TransOrd Premise where
  eq_swap {a b} :=
    match a, b with
    | relational _, relational _ => Std.OrientedOrd.eq_swap (α := Literal)
    | evaluable _, evaluable _ => Std.OrientedOrd.eq_swap (α := Literal)
    | relational _, evaluable _ | evaluable _, relational _ => rfl
  isLE_trans {a b c} h h' :=
    match a, b, c with
    | relational _, relational _, relational _ => Std.TransOrd.isLE_trans (α := Literal) h h'
    | evaluable _, evaluable _, evaluable _ => Std.TransOrd.isLE_trans (α := Literal) h h'
    | relational _, _, evaluable _ => rfl
    | evaluable _, relational _, _ => absurd rfl (not_isLE_gt h)
    | _, evaluable _, relational _ => absurd rfl (not_isLE_gt h')

instance Premise.instLawfulEqOrd : Std.LawfulEqOrd Premise where
  eq_of_compare {a b} h :=
    match a, b with
    | relational _, relational _ => congrArg _ (Std.LawfulEqOrd.eq_of_compare (α := Literal) h)
    | evaluable _, evaluable _ => congrArg _ (Std.LawfulEqOrd.eq_of_compare (α := Literal) h)
    | relational _, evaluable _ | evaluable _, relational _ => nomatch h

instance Proof.instTransOrd : Std.TransOrd Proof :=
  inferInstanceAs (Std.TransCmp (compareLex (compareOn Proof.head) (compareLex
    (compareOn Proof.body) (compareLex (compareOn Proof.probability) (compareOn Proof.clause)))))

instance Proof.instLawfulEqOrd : Std.LawfulEqOrd Proof where
  eq_of_compare {a b} h := by
    have ⟨hh, h⟩ := Ordering.then_eq_eq.1 h
    have ⟨hb, h⟩ := Ordering.then_eq_eq.1 h
    have ⟨hp, hc⟩ := Ordering.then_eq_eq.1 h
    cases a
    cases b
    rw [Proof.mk.injEq]
    exact ⟨Std.LawfulEqOrd.eq_of_compare hh, Std.LawfulEqOrd.eq_of_compare hb,
      Std.LawfulEqOrd.eq_of_compare hp, Std.LawfulEqOrd.eq_of_compare hc⟩

end ProbDatalog
