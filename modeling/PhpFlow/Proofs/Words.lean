import PhpFlow.Proofs.Bounds

/-!
# Integers as words

An integer within 64 bits stands for the word with its bits in two's complement. The bitwise operators work
on rows of bits without an end, and the word of the result comes from the words of the operands. Division
rounds toward zero, and a quotient is an integer only if it is exact.
-/
namespace PhpFlow

namespace Number

variable {a b : Int}

def word (n : Int) : BitVec 64 := BitVec.ofInt 64 n

/-- An integer within 64 bits is the signed reading of its word. -/
theorem toInt_word (h : inRange a = true) : (word a).toInt = a := by
  rw [inRange_iff] at h
  rw [word, BitVec.toInt_ofInt, Int.bmod_eq_of_le (by omega) (by omega)]

section Bitwise

theorem word_ofNat (m : Nat) : word (.ofNat m) = BitVec.ofNat 64 m := BitVec.ofInt_natCast 64 m

theorem word_negSucc (m : Nat) : word (.negSucc m) = ~~~BitVec.ofNat 64 m :=
  BitVec.ofInt_negSucc_eq_not_ofNat

theorem word_bitNot (a : Int) : word (bitNot a) = ~~~word a := by
  cases a with
  | ofNat m =>
    have hnot : bitNot (.ofNat m) = .negSucc m := by
      rw [bitNot, Int.ofNat_eq_natCast]
      omega
    rw [hnot, word_negSucc, word_ofNat]
  | negSucc m =>
    have hnot : bitNot (.negSucc m) = .ofNat m := by
      rw [bitNot, Int.ofNat_eq_natCast]
      omega
    rw [hnot, word_negSucc, word_ofNat, BitVec.not_not]

theorem ofNat_xor_and (m n : Nat) :
    BitVec.ofNat 64 (m ^^^ (m &&& n)) = BitVec.ofNat 64 m &&& ~~~BitVec.ofNat 64 n := by
  rw [BitVec.ofNat_xor, BitVec.ofNat_and]
  ext i hi
  simp only [BitVec.getElem_xor, BitVec.getElem_and, BitVec.getElem_not]
  cases (BitVec.ofNat 64 m)[i] <;> cases (BitVec.ofNat 64 n)[i] <;> rfl

theorem word_bitAnd (a b : Int) : word (bitAnd a b) = word a &&& word b := by
  cases a with
  | ofNat m =>
    cases b with
    | ofNat n => rw [bitAnd, ← Int.ofNat_eq_natCast, word_ofNat, word_ofNat, word_ofNat, BitVec.ofNat_and]
    | negSucc n => rw [bitAnd, ← Int.ofNat_eq_natCast, word_ofNat, word_ofNat, word_negSucc, ofNat_xor_and]
  | negSucc m =>
    cases b with
    | ofNat n =>
      rw [bitAnd, ← Int.ofNat_eq_natCast, word_ofNat, word_ofNat, word_negSucc, ofNat_xor_and, BitVec.and_comm]
    | negSucc n => rw [bitAnd, word_negSucc, word_negSucc, word_negSucc, BitVec.ofNat_or, BitVec.not_or]

theorem word_bitOr (a b : Int) : word (bitOr a b) = word a ||| word b := by
  rw [bitOr, word_bitNot, word_bitAnd, word_bitNot, word_bitNot, BitVec.not_and, BitVec.not_not, BitVec.not_not]

theorem word_bitXor (a b : Int) : word (bitXor a b) = word a ^^^ word b := by
  cases a with
  | ofNat m =>
    cases b with
    | ofNat n => rw [bitXor, ← Int.ofNat_eq_natCast, word_ofNat, word_ofNat, word_ofNat, BitVec.ofNat_xor]
    | negSucc n =>
      rw [bitXor, word_negSucc, word_ofNat, word_negSucc, BitVec.ofNat_xor, BitVec.not_xor_right]
  | negSucc m =>
    cases b with
    | ofNat n => rw [bitXor, word_negSucc, word_negSucc, word_ofNat, BitVec.ofNat_xor, BitVec.not_xor_left]
    | negSucc n =>
      rw [bitXor, ← Int.ofNat_eq_natCast, word_ofNat, word_negSucc, word_negSucc, BitVec.ofNat_xor,
        ← BitVec.not_xor_left, ← BitVec.not_xor_right, BitVec.not_not]

/-- From 64 places on every bit of the integer is lost. -/
theorem shiftLeft_eq (a : Int) (k : Nat) : shiftLeft a k = (word (a * 2 ^ k)).toInt := by
  have hword : (word (a * 2 ^ k)).toInt = (a * (Nat.pow 2 k : Nat)).bmod (Nat.pow 2 64) := by
    rw [word, BitVec.toInt_ofInt]
    push_cast
    rfl
  rw [hword, shiftLeft]
  split
  · next hk =>
    obtain ⟨j, rfl⟩ := Nat.exists_eq_add_of_le hk
    have hpow : Nat.pow 2 (64 + j) = Nat.pow 2 64 * Nat.pow 2 j := Nat.pow_add 2 64 j
    have hfactor : a * (Nat.pow 2 (64 + j) : Nat) = (Nat.pow 2 64 : Nat) * (a * (Nat.pow 2 j : Nat)) := by
      rw [hpow]
      push_cast
      ring
    rw [hfactor, Int.bmod_eq_zero_of_dvd (Int.dvd_mul_right _ _)]
  · rfl

/-- From 64 places on nothing but the sign is left of an integer within 64 bits. -/
theorem shiftRight_eq (h : inRange a = true) (k : Nat) : shiftRight a k = a.fdiv (2 ^ k) := by
  have hpow : ((Nat.pow 2 k : Nat) : Int) = 2 ^ k := Int.natCast_pow 2 k
  rw [Int.fdiv_eq_ediv_of_nonneg a (by positivity), shiftRight, hpow]
  split
  · next hk =>
    have hlarge : (2 ^ 64 : Int) ≤ 2 ^ k := pow_le_pow_right₀ (by decide) hk
    rw [inRange_iff] at h
    split
    · exact ((Int.ediv_emod_unique (r := a + 2 ^ k) (by omega)).mpr ⟨by ring, by omega, by omega⟩).1.symm
    · exact (Int.ediv_eq_zero_of_lt (by omega) (by omega)).symm
  · rfl

end Bitwise

theorem remainder_eq_tmod (a b : Int) : remainder a b = a.tmod b := by
  cases a <;> cases b <;> simp [remainder, Int.tmod]

end Number

/-- In the state both operands fold to integers within 64 bits. -/
structure Operands.Integers (o : Operands) (s : State) (a b : Int) (found : List Issue) : Prop where
  values : ∃ first second, o.leftValue s = (.ok (some (.int a)), first) ∧
    o.rightValue s = (.ok (some (.int b)), second) ∧ found = first ++ second
  left : Number.inRange a = true
  right : Number.inRange b = true

namespace Operator

open Number (word inRange)

variable {o : Operands} {s : State} {a b : Int} {found : List Issue}

theorem integers_constant (range : Option Range) (s : State) (ha : inRange a = true) (hb : inRange b = true) :
    (Operands.constant range (some (.int a)) (some (.int b)) none none none none none).Integers s a b [] :=
  ⟨⟨[], [], rfl, rfl, rfl⟩, ha, hb⟩

theorem onValues_of_integers (h : o.Integers s a b found) (f : Value → Value → Query (Option Value)) :
    onValues o f s = ((f (.int a) (.int b) s).1, found ++ (f (.int a) (.int b) s).2) := by
  obtain ⟨⟨first, second, hleft, hright, rfl⟩, -, -⟩ := h
  simp only [onValues, Bind.bind, Query.bind, hleft, hright, List.append_assoc]

theorem value_bitwise {op : Operator} (hop : op.value o = onValues o (op.bitwiseValue o))
    (h : o.Integers s a b found) : op.value o s = (.ok ((op.bitwiseInts a b).map .int), found) := by
  rw [hop, onValues_of_integers h]
  simp [bitwiseValue, Query.pure]

theorem value_complement {m : Meaning} {issues : List Issue} (h : m.value s = (.ok (some (.int a)), issues)) :
    (Meaning.unary "~" m).value s = (.ok (some (.int (Number.bitNot a))), issues) := by
  simp [Meaning.unary, Meaning.withValue, Bind.bind, Query.bind, h, Meaning.unaryValue, Query.ofExcept]

/-- The bitwise folds of integers are the operations on words of 64 bits. A shift to the left keeps the
lowest 64 bits and one to the right rounds down, by however many places; by a negative number of places
there is none. -/
theorem bitwise_folds_work_on_words (h : o.Integers s a b found) :
    bitAnd.value o s = (.ok (some (.int (word a &&& word b).toInt)), found) ∧
    bitOr.value o s = (.ok (some (.int (word a ||| word b).toInt)), found) ∧
    bitXor.value o s = (.ok (some (.int (word a ^^^ word b).toInt)), found) ∧
    (∀ (m : Meaning) issues, m.value s = (.ok (some (.int a)), issues) →
      (Meaning.unary "~" m).value s = (.ok (some (.int (~~~word a).toInt)), issues)) ∧
    (0 ≤ b →
      shiftLeft.value o s = (.ok (some (.int (word (a * 2 ^ b.toNat)).toInt)), found) ∧
      shiftRight.value o s = (.ok (some (.int (a.fdiv (2 ^ b.toNat)))), found)) ∧
    (b < 0 → shiftLeft.value o s = (.ok none, found) ∧ shiftRight.value o s = (.ok none, found)) := by
  have ha := h.left
  have hb := h.right
  rw [← Number.word_bitAnd, Number.toInt_word (Number.inRange_bitAnd ha hb), ← Number.word_bitOr,
    Number.toInt_word (Number.inRange_bitOr ha hb), ← Number.word_bitXor,
    Number.toInt_word (Number.inRange_bitXor ha hb), ← Number.word_bitNot,
    Number.toInt_word (Number.inRange_bitNot ha), ← Number.shiftLeft_eq, ← Number.shiftRight_eq ha]
  refine ⟨value_bitwise rfl h, value_bitwise rfl h, value_bitwise rfl h, fun m issues hm => value_complement hm,
    fun hpos => ?_, fun hneg => ?_⟩
  · rw [value_bitwise rfl h, value_bitwise rfl h]
    simp [bitwiseInts, Int.not_lt.mpr hpos]
  · rw [value_bitwise rfl h, value_bitwise rfl h]
    simp [bitwiseInts, hneg]

/-- By seventy places, more than a word has, a negative number is shifted to zero and to minus one. -/
theorem shifts_by_seventy :
    let s := State.new {} {} none .discarding
    let o := Operands.constant none (some (.int (-6))) (some (.int 70)) none none none none none
    o.Integers s (-6) 70 [] ∧ bitAnd.value o s = (.ok (some (.int 66)), []) ∧
    shiftLeft.value o s = (.ok (some (.int 0)), []) ∧ shiftRight.value o s = (.ok (some (.int (-1))), []) := by
  intro s o
  have h : o.Integers s (-6) 70 [] := integers_constant none s (by decide) (by decide)
  obtain ⟨hand, -, -, -, hshift, -⟩ := bitwise_folds_work_on_words h
  exact ⟨h, hand, hshift (by decide)⟩

theorem value_modulo (h : o.Integers s a b found) : modulo.value o s =
    if b = 0 then (.ok none, found ++ [⟨.divisionByZero, "Modulo by zero", o.range.map s.position⟩])
    else (.ok (some (.int (a.tmod b))), found) := by
  have hfold : modulo.arithmeticValue o (.int a) (.int b) s =
      if b = 0 then (.ok none, [⟨.divisionByZero, "Modulo by zero", o.range.map s.position⟩])
      else (.ok (some (.int (Number.remainder a b))), []) := by
    change (if b = 0 then _ else _ : Query (Option Value)) s = _
    split <;> rfl
  change onValues o (modulo.arithmeticValue o) s = _
  rw [onValues_of_integers h, hfold, Number.remainder_eq_tmod]
  split <;> simp

def quotient (a b : Int) : Except Fault (Option Value) :=
  (Number.div (.int a) (.int b)).bind fun n => (Value.ofNumber n).map some

theorem value_divide (h : o.Integers s a b found) : divide.value o s =
    if b = 0 then (.ok none, found ++ [⟨.divisionByZero, "Division by zero", o.range.map s.position⟩])
    else (quotient a b, found) := by
  have hzero : (Number.int b).isZero = decide (b = 0) := rfl
  have hfold : divide.arithmeticValue o (.int a) (.int b) s =
      if b = 0 then (.ok none, [⟨.divisionByZero, "Division by zero", o.range.map s.position⟩])
      else (quotient a b, []) := by
    change (if (Number.int b).isZero then _ else _ : Query (Option Value)) s = _
    rw [hzero]
    by_cases hb : b = 0
    · simp [hb]
      rfl
    · simp [hb]
      rfl
  change onValues o (divide.arithmeticValue o) s = _
  rw [onValues_of_integers h, hfold]
  split <;> simp

theorem div_eq_int_iff (hb : b ≠ 0) (q : Int) : Number.div (.int a) (.int b) = .ok (.int q) ↔ q * b = a := by
  unfold Number.div
  dsimp only
  split
  · next hmod =>
    have hdvd : b ∣ a := Int.dvd_of_emod_eq_zero hmod
    rw [Except.ok.injEq, Number.int.injEq, Int.ediv_eq_iff_eq_mul_left hb hdvd, eq_comm]
  · next hmod =>
    refine iff_of_false ?_ ?_
    · split <;> simp
    · rintro rfl
      exact hmod (Int.mul_emod_left q b)

theorem ofNumber_eq_int_iff {n : Number} {q : Int} :
    Value.ofNumber n = .ok (.int q) ↔ n = .int q ∧ inRange q = true := by
  cases n with
  | float x => simp [Value.ofNumber]
  | int m =>
    rw [Value.ofNumber]
    split
    · next hm =>
      simp only [Except.ok.injEq, Value.int.injEq, Number.int.injEq, iff_self_and]
      rintro rfl
      exact hm
    · next hm =>
      refine iff_of_false ?_ ?_
      · cases (Number.int m).toFloat <;> simp [Except.map]
      · rintro ⟨⟨⟩, hq⟩
        exact hm hq

theorem quotient_eq_int_iff (hb : b ≠ 0) (q : Int) :
    quotient a b = .ok (some (.int q)) ↔ q * b = a ∧ inRange q = true := by
  have hsome {r : Except Fault Value} : r.map some = .ok (some (.int q)) ↔ r = .ok (.int q) := by
    cases r <;> simp [Except.map]
  rw [← div_eq_int_iff hb, quotient]
  cases Number.div (.int a) (.int b) with
  | error e => simp [Except.bind]
  | ok n => rw [Except.bind, hsome, ofNumber_eq_int_iff, Except.ok.injEq]

/-- A remainder of integers belongs to the quotient that is rounded toward zero, and a quotient is an integer
just if it is exact and within 64 bits. Neither folds where the divisor is zero, and that is reported once. -/
theorem division_folds_truncate (h : o.Integers s a b found) :
    (b ≠ 0 →
      (∃ r, modulo.value o s = (.ok (some (.int r)), found) ∧ a = b * a.tdiv b + r ∧ r.natAbs < b.natAbs ∧
        (r = 0 ∨ r.sign = a.sign)) ∧
      ((∃ q, divide.value o s = (.ok (some (.int q)), found)) ↔ b ∣ a ∧ inRange (a.tdiv b) = true) ∧
      ∀ q, (divide.value o s).1 = .ok (some (.int q)) → q * b = a) ∧
    (b = 0 →
      modulo.value o s =
        (.ok none, found ++ [⟨.divisionByZero, "Modulo by zero", o.range.map s.position⟩]) ∧
      divide.value o s =
        (.ok none, found ++ [⟨.divisionByZero, "Division by zero", o.range.map s.position⟩])) := by
  rw [value_modulo h, value_divide h]
  refine ⟨fun hb => ?_, fun hb => by simp [hb]⟩
  rw [if_neg hb, if_neg hb]
  have hquotient (q : Int) := quotient_eq_int_iff (a := a) hb q
  refine ⟨⟨a.tmod b, rfl, (Int.mul_tdiv_add_tmod a b).symm, ?_, ?_⟩, ⟨?_, ?_⟩, fun q hq => ((hquotient q).mp hq).1⟩
  · rw [Int.natAbs_tmod]
    exact Nat.mod_lt _ (Int.natAbs_pos.mpr hb)
  · by_cases hdvd : b ∣ a
    · exact .inl (Int.tmod_eq_zero_of_dvd hdvd)
    · exact .inr (by rw [Int.sign_tmod, if_neg hdvd])
  · rintro ⟨q, hq⟩
    obtain ⟨rfl, hrange⟩ := (hquotient q).mp (Prod.mk.inj hq).1
    exact ⟨Int.dvd_mul_left q b, by rwa [Int.mul_tdiv_cancel q hb]⟩
  · rintro ⟨hdvd, hrange⟩
    exact ⟨a.tdiv b, by rw [(hquotient _).mpr ⟨Int.tdiv_mul_cancel hdvd, hrange⟩]⟩

/-- Minus seven by two leaves minus one and is no integer, and by zero both operations are reported. -/
theorem minus_seven_divided :
    let s := State.new {} {} none .discarding
    let halves := Operands.constant none (some (.int (-7))) (some (.int 2)) none none none none none
    let none_ := Operands.constant none (some (.int (-7))) (some (.int 0)) none none none none none
    halves.Integers s (-7) 2 [] ∧ none_.Integers s (-7) 0 [] ∧
    modulo.value halves s = (.ok (some (.int (-1))), []) ∧
    (¬∃ q, divide.value halves s = (.ok (some (.int q)), [])) ∧
    divide.value none_ s = (.ok none, [⟨.divisionByZero, "Division by zero", none⟩]) := by
  intro s halves none_
  have hhalves : halves.Integers s (-7) 2 [] := integers_constant none s (by decide) (by decide)
  have hnone : none_.Integers s (-7) 0 [] := integers_constant none s (by decide) (by decide)
  obtain ⟨-, hquotient, -⟩ := (division_folds_truncate hhalves).1 (by decide)
  refine ⟨hhalves, hnone, rfl, fun h => ?_, ((division_folds_truncate hnone).2 rfl).2⟩
  exact absurd (hquotient.mp h).1 (by decide)

end Operator

end PhpFlow
