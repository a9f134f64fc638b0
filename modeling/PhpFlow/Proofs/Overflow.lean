import Mathlib
import PhpFlow.Proofs.Folding
import PhpFlow.Proofs.ReadBack

/-!
# Overflow

An integer has a nearest double unless it is too large for one; where that begins is said here exactly.
From it follows which constants fold: every operator gives an answer on operands whose integers have 64 bits,
unless it reads a string that spells too large an integer, or a power of integers grows too large.
-/
namespace PhpFlow

open List

/-! ## Which doubles are infinite -/

namespace Number

open Float.Model Float.Model.UnpackedFloat

variable {n k : Nat}

theorem isFinite_unpack {b : BitVec Format.binary64.numBits} (h : unpackExponent b ≠ -1#_) :
    (UnpackedFloat.unpack Format.binary64 b).isFinite = true := by
  rw [UnpackedFloat.unpack, if_neg h]
  split
  · split <;> rfl
  · rfl

theorem isFinite_ofBits {b : UInt64} (h : b.toNat / 2 ^ 52 % 2 ^ 11 ≠ 2047) :
    (Float.ofBits b).isFinite = true := by
  have hexponent : @unpackExponent Format.binary64 b.toBitVec ≠ -1#_ := by
    intro he
    have he := congrArg BitVec.toNat he
    apply h
    simpa [unpackExponent, Nat.shiftRight_eq_div_pow] using he
  have hbits := @pack_unpack Format.binary64 b.toBitVec
  rw [if_neg fun hnan => hexponent (of_decide_eq_true hnan).1] at hbits
  change (UnpackedFloat.unpack Format.binary64 (UnpackedFloat.pack _ _)).isFinite = true
  rw [hbits]
  exact isFinite_unpack hexponent

theorem nearestBits_le (n d : Nat) : nearestBits n d ≤ infinityBits := by
  unfold nearestBits
  split
  · decide
  · exact Nat.min_le_right _ _

theorem isFinite_nearest {d : Nat} (negative : Bool) (h : nearestBits n d ≠ infinityBits) :
    (nearest negative n d).isFinite = true := by
  have hle := nearestBits_le n d
  have hinf : infinityBits = 2047 * 2 ^ 52 := rfl
  have hsign : Nat.pow 2 63 = 2 ^ 63 := rfl
  apply isFinite_ofBits
  rw [UInt64.toNat_ofNat', hsign]
  split <;> omega

theorem isInf_of_isFinite {x : Float} (h : x.isFinite = true) : x.isInf = false := by
  change x.toModel.unpack.isFinite = true at h
  change x.toModel.unpack.isInf = false
  cases hx : x.toModel.unpack <;> simp_all [UnpackedFloat.isFinite, UnpackedFloat.isInf]

/-- Rounding gives infinity just if it gives its bits. -/
theorem isInf_nearest (negative : Bool) (n d : Nat) :
    (nearest negative n d).isInf = decide (nearestBits n d = infinityBits) := by
  by_cases h : nearestBits n d = infinityBits
  · rw [decide_eq_true h, nearest, h]
    cases negative <;> decide
  · rw [decide_eq_false h]
    exact isInf_of_isFinite (isFinite_nearest negative h)

/-! ## Which integers have a double -/

/-- The exponent chosen for `n / d` leaves at most 53 bits before the point. -/
theorem lt_of_scaleOf {d : Nat} (hd : d ≠ 0) :
    n * 2 ^ (-scaleOf n d).toNat < d * 2 ^ (scaleOf n d).toNat * 2 ^ 53 := by
  have hnlt : n < 2 ^ (n.log2 + 1) := Nat.lt_log2_self
  have hdle : 2 ^ d.log2 ≤ d := Nat.log2_self_le hd
  generalize he : scaleOf n d = e
  unfold scaleOf at he
  dsimp only at he
  split at he
  · -- `n < 2 ^ (log2 n + 1)` suffices.
    calc n * 2 ^ (-e).toNat
        < 2 ^ (n.log2 + 1) * 2 ^ (-e).toNat := Nat.mul_lt_mul_of_pos_right hnlt (Nat.two_pow_pos _)
      _ = 2 ^ (n.log2 + 1 + (-e).toNat) := (Nat.pow_add _ _ _).symm
      _ ≤ 2 ^ (d.log2 + e.toNat + 53) := Nat.pow_le_pow_right (by decide) (by omega)
      _ = 2 ^ d.log2 * 2 ^ e.toNat * 2 ^ 53 := by rw [Nat.pow_add, Nat.pow_add]
      _ ≤ d * 2 ^ e.toNat * 2 ^ 53 := by gcongr
  · rename_i htest
    have htest : n * 2 ^ ((d.log2 : Int) - n.log2).toNat < d * 2 ^ ((n.log2 : Int) - d.log2).toNat := by
      have hleft : (-((n.log2 : Int) - d.log2 - 53 + 53)).toNat = ((d.log2 : Int) - n.log2).toNat := by omega
      have hright : ((n.log2 : Int) - d.log2 - 53 + 53).toNat = ((n.log2 : Int) - d.log2).toNat := by omega
      rw [hleft, hright] at htest
      exact Nat.lt_of_not_le htest
    refine Nat.lt_of_mul_lt_mul_right (a := 2 ^ ((d.log2 : Int) - n.log2).toNat) ?_
    calc n * 2 ^ (-e).toNat * 2 ^ ((d.log2 : Int) - n.log2).toNat
        = n * 2 ^ ((d.log2 : Int) - n.log2).toNat * 2 ^ (-e).toNat := Nat.mul_right_comm _ _ _
      _ < d * 2 ^ ((n.log2 : Int) - d.log2).toNat * 2 ^ (-e).toNat :=
        Nat.mul_lt_mul_of_pos_right htest (Nat.two_pow_pos _)
      _ = d * 2 ^ (((n.log2 : Int) - d.log2).toNat + (-e).toNat) := by rw [Nat.pow_add, Nat.mul_assoc]
      _ ≤ d * 2 ^ (e.toNat + 53 + ((d.log2 : Int) - n.log2).toNat) :=
        Nat.mul_le_mul_left _ (Nat.pow_le_pow_right (by decide) (by omega))
      _ = d * 2 ^ e.toNat * 2 ^ 53 * 2 ^ ((d.log2 : Int) - n.log2).toNat := by
        rw [Nat.pow_add, Nat.pow_add, Nat.mul_assoc, Nat.mul_assoc, Nat.mul_assoc]

theorem roundDiv_le {a b : Nat} (h : a < b * k) : roundDiv a b ≤ k := by
  have hq : a / b < k := Nat.div_lt_of_lt_mul h
  unfold roundDiv
  dsimp only
  split <;> omega

/-- No ratio of a number of at most 1023 bits is rounded to infinity. -/
theorem nearestBits_lt {d : Nat} (hlog : n.log2 < 1023) (hd : d ≠ 0) : nearestBits n d < infinityBits := by
  have hinf : infinityBits = 2047 * 2 ^ 52 := rfl
  unfold nearestBits
  split
  · decide
  have hscale : scaleOf n d ≤ 970 := by
    unfold scaleOf
    dsimp only
    split <;> omega
  have hround := roundDiv_le (@lt_of_scaleOf n d hd)
  refine Nat.lt_of_le_of_lt (Nat.min_le_left _ _) ?_
  calc (scaleOf n d + 1074).toNat * 2 ^ 52 + _
      ≤ 2044 * 2 ^ 52 + 2 ^ 53 := Nat.add_le_add (Nat.mul_le_mul_right _ (by omega)) hround
    _ < 2047 * 2 ^ 52 := by decide

/-- The least natural number that is rounded to infinity, half a unit above the greatest double: it is
`2 ^ 1024 - 2 ^ 970`. -/
def overflow : Nat := (2 ^ 54 - 1) * 2 ^ 970

theorem lt_of_log2_lt {j : Nat} (h : n.log2 < j + k) : n < 2 ^ j * 2 ^ k := by
  rw [← Nat.pow_add]
  exact Nat.lt_of_lt_of_le Nat.lt_log2_self (Nat.pow_le_pow_right (by decide) h)

theorem le_of_le_log2 {j : Nat} (hn : n ≠ 0) (h : j + k ≤ n.log2) : 2 ^ j * 2 ^ k ≤ n := by
  rw [← Nat.pow_add]
  exact Nat.le_trans (Nat.pow_le_pow_right (by decide) h) (Nat.log2_self_le hn)

theorem lt_overflow (h : n.log2 < 1023) : n < overflow :=
  Nat.lt_of_lt_of_le (lt_of_log2_lt (j := 53) h) (Nat.mul_le_mul_right _ (by decide))

theorem overflow_le (hn : n ≠ 0) (h : 1024 ≤ n.log2) : overflow ≤ n :=
  Nat.le_trans (Nat.mul_le_mul_right _ (by decide)) (le_of_le_log2 (j := 54) hn h)

theorem scaleOf_one (hn : n ≠ 0) : scaleOf n 1 = (n.log2 : Int) - 52 := by
  have hle : 2 ^ n.log2 ≤ n := Nat.log2_self_le hn
  have hone : (1 : Nat).log2 = 0 := by decide
  unfold scaleOf
  dsimp only
  rw [hone]
  have hzero : (-((n.log2 : Int) - (0 : Nat) - 53 + 53)).toNat = 0 := by omega
  have hlog : ((n.log2 : Int) - (0 : Nat) - 53 + 53).toNat = n.log2 := by omega
  have htest : n * Nat.pow 2 0 ≥ 1 * Nat.pow 2 n.log2 := by
    show 1 * 2 ^ n.log2 ≤ n * 1
    omega
  rw [hzero, hlog, if_pos htest]
  omega

theorem nearestBits_one (hn : n ≠ 0) (hlog : 52 ≤ n.log2) :
    nearestBits n 1 = min ((n.log2 + 1022) * 2 ^ 52 + roundDiv n (2 ^ (n.log2 - 52))) infinityBits := by
  have hzero : (-((n.log2 : Int) - 52)).toNat = 0 := by omega
  have hscale : ((n.log2 : Int) - 52).toNat = n.log2 - 52 := by omega
  have hbias : ((n.log2 : Int) - 52 + 1074).toNat = n.log2 + 1022 := by omega
  unfold nearestBits
  rw [if_neg hn, scaleOf_one hn]
  dsimp only
  rw [hzero, hscale, hbias]
  simp

/-- Rounding carries over to the next power of two from half a unit below it on. -/
theorem roundDiv_lt_iff (h : n < 2 ^ 53 * 2 ^ (k + 1)) :
    roundDiv n (2 ^ (k + 1)) < 2 ^ 53 ↔ n < (2 ^ 54 - 1) * 2 ^ k := by
  have hpos : 0 < 2 ^ k := Nat.two_pow_pos k
  rw [Nat.pow_succ 2 k] at h ⊢
  generalize 2 ^ k = b at h hpos ⊢
  have hdiv := Nat.div_add_mod n (b * 2)
  have hmod : n % (b * 2) < b * 2 := Nat.mod_lt _ (by omega)
  have hq : n / (b * 2) < 2 ^ 53 := Nat.div_lt_of_lt_mul (by rwa [Nat.mul_comm])
  unfold roundDiv
  dsimp only
  generalize n / (b * 2) = q at hdiv hq ⊢
  generalize n % (b * 2) = r at hdiv hmod ⊢
  rcases Nat.lt_or_ge q (2 ^ 53 - 1) with hlt | hge
  · have hmul : b * 2 * q ≤ b * 2 * (2 ^ 53 - 2) := Nat.mul_le_mul_left _ (by omega)
    split <;> omega
  · obtain rfl : q = 2 ^ 53 - 1 := by omega
    split
    · rename_i hup
      simp only [Bool.or_eq_true, Bool.and_eq_true, decide_eq_true_eq] at hup
      omega
    · rename_i hdown
      simp only [Bool.or_eq_true, Bool.and_eq_true, decide_eq_true_eq] at hdown
      omega

theorem le_roundDiv {a b : Nat} (hb : 0 < b) (h : k * b ≤ a) : k ≤ roundDiv a b := by
  have hq : k ≤ a / b := (Nat.le_div_iff_mul_le hb).mpr h
  unfold roundDiv
  dsimp only
  split <;> omega

/-- A natural number is rounded to a finite double just if it is below the least that overflows. -/
theorem nearestBits_one_lt_iff (n : Nat) : nearestBits n 1 < infinityBits ↔ n < overflow := by
  rcases Nat.lt_or_ge n.log2 1023 with hsmall | hlarge
  · exact iff_of_true (nearestBits_lt hsmall (by decide)) (lt_overflow hsmall)
  have hpos : n ≠ 0 := by
    rintro rfl
    exact absurd hlarge (by decide)
  have hinf : infinityBits = 2047 * 2 ^ 52 := rfl
  rw [nearestBits_one hpos (by omega), hinf]
  rcases Nat.lt_or_ge n.log2 1024 with hlt | hge
  · have hround := roundDiv_lt_iff (lt_of_log2_lt (k := 970 + 1) hlt)
    have heq : n.log2 = 1023 := by omega
    rw [overflow, ← hround, heq, show 1023 - 52 = 970 + 1 from rfl]
    generalize roundDiv n (2 ^ (970 + 1)) = m
    omega
  · have hround : 2 ^ 52 ≤ roundDiv n (2 ^ (n.log2 - 52)) := by
      apply le_roundDiv (Nat.two_pow_pos _)
      exact le_of_le_log2 hpos (by omega)
    have hexponent : 2046 * 2 ^ 52 ≤ (n.log2 + 1022) * 2 ^ 52 := Nat.mul_le_mul_right _ (by omega)
    refine iff_of_false ?_ (Nat.not_lt_of_le (overflow_le hpos hge))
    omega

theorem isSome_ofInt? (n : Int) : (ofInt? n).isSome = true ↔ n.natAbs < overflow := by
  rw [← nearestBits_one_lt_iff, ofInt?]
  have hle := nearestBits_le n.natAbs 1
  by_cases h : nearestBits n.natAbs 1 = infinityBits
  · simp [isInf_nearest, h]
  · have hlt : nearestBits n.natAbs 1 < infinityBits := Nat.lt_of_le_of_ne hle h
    simp [isInf_nearest, h, hlt]

theorem isSome_quotient? {a b : Int} (ha : a.natAbs.log2 < 1023) (hb : b ≠ 0) :
    (quotient? a b).isSome = true := by
  have hlt := nearestBits_lt ha (Int.natAbs_ne_zero.mpr hb)
  simp [quotient?, isInf_nearest, hlt.ne]

end Number

/-! ## Arithmetic -/

namespace Number

variable {n : Int} {a b : Number}

theorem natAbs_le_of_inRange (h : inRange n = true) : n.natAbs ≤ 2 ^ 63 := by
  rw [inRange, Bool.and_eq_true, decide_eq_true_iff, decide_eq_true_iff] at h
  unfold minInt maxInt at h
  omega

theorem isWritable_of_inRange (h : inRange n = true) : isWritable n = true := by
  rw [isWritable, hasDigitsWithin_iff (by decide)]
  calc n.natAbs ≤ 2 ^ 63 := natAbs_le_of_inRange h
    _ < 10 ^ 19 := by decide
    _ ≤ 10 ^ digitLimit := Nat.pow_le_pow_right (by decide) (by decide)

theorem lt_overflow_of_lt {n : Nat} (h : n < 2 ^ 127) : n < overflow :=
  Nat.lt_of_lt_of_le h (by decide +kernel)

def fits : Number → Bool
  | int n => n.natAbs < overflow
  | float _ => true

theorem fits_int : (int n).fits = true ↔ n.natAbs < overflow := by
  rw [fits, decide_eq_true_iff]

def isWord : Number → Bool
  | int n => inRange n
  | float _ => true

theorem fits_of_isWord (ha : a.isWord = true) : a.fits = true := by
  cases a with
  | float x => rfl
  | int n =>
    have hn := natAbs_le_of_inRange ha
    exact fits_int.mpr (lt_overflow_of_lt (by omega))

theorem isOk_toFloat (a : Number) : a.toFloat.isOk = a.fits := by
  cases a with
  | float x => rfl
  | int n =>
    rw [Bool.eq_iff_iff, fits_int, ← isSome_ofInt?, toFloat]
    cases ofInt? n <;> simp [Except.isOk, Except.toBool]

theorem exists_toFloat (ha : a.fits = true) : ∃ x, a.toFloat = .ok x := by
  rw [← isOk_toFloat] at ha
  cases h : a.toFloat with
  | error e =>
    rw [h] at ha
    cases ha
  | ok x => exact ⟨x, rfl⟩

/-- What integer arithmetic gives on words fits, if it at most multiplies. -/
theorem exists_lift {f : Int → Int → Int} {g : Float → Float → Float}
    (hf : ∀ m n : Int, m.natAbs ≤ 2 ^ 63 → n.natAbs ≤ 2 ^ 63 → (f m n).natAbs < 2 ^ 127)
    (ha : a.isWord = true) (hb : b.isWord = true) : ∃ c, lift f g a b = .ok c ∧ c.fits = true := by
  obtain ⟨x, hx⟩ := exists_toFloat (fits_of_isWord ha)
  obtain ⟨y, hy⟩ := exists_toFloat (fits_of_isWord hb)
  unfold lift
  split
  · have hlt := hf _ _ (natAbs_le_of_inRange ha) (natAbs_le_of_inRange hb)
    exact ⟨_, rfl, fits_int.mpr (lt_overflow_of_lt hlt)⟩
  · rw [hx, hy]
    exact ⟨_, rfl, rfl⟩

theorem exists_div (ha : a.isWord = true) (hb : b.isWord = true) (hzero : b.isZero = false) :
    ∃ c, a.div b = .ok c ∧ c.fits = true := by
  obtain ⟨x, hx⟩ := exists_toFloat (fits_of_isWord ha)
  obtain ⟨y, hy⟩ := exists_toFloat (fits_of_isWord hb)
  unfold div
  split
  · rename_i m n
    have hm := natAbs_le_of_inRange ha
    have hn : n ≠ 0 := by simpa [isZero, equal] using hzero
    split
    · have hle : (m / n).natAbs ≤ m.natAbs := Int.natAbs_ediv_le_natAbs m n
      exact ⟨_, rfl, fits_int.mpr (lt_overflow_of_lt (by omega))⟩
    · have hlog : m.natAbs.log2 < 1023 := by
        rcases Nat.eq_zero_or_pos m.natAbs with h | h
        · rw [h]
          decide
        · exact Nat.lt_trans ((Nat.log2_lt (by omega)).mpr (by omega : m.natAbs < 2 ^ 64)) (by decide)
      obtain ⟨q, hq⟩ := Option.isSome_iff_exists.mp (isSome_quotient? hlog hn)
      rw [hq]
      exact ⟨_, rfl, rfl⟩
  · rw [hx, hy]
    exact ⟨_, rfl, rfl⟩

/-- The power of two integers reaches overflow; only exponents below 64 are computed exactly. -/
def PowerOverflows (a b : Number) : Prop :=
  ∃ m n, a = int m ∧ b = int n ∧ 0 ≤ n ∧ n < 64 ∧ overflow ≤ m.natAbs ^ n.toNat

theorem pow_eq_float {c : Number} (h : a.pow b = some c)
    (hints : ∀ m n, a = int m → b = int n → ¬ (0 ≤ n && (m.natAbs ≤ 1 || n < 64)) = true) :
    ∃ x, c = float x := by
  unfold pow at h
  split at h
  · rw [if_neg (hints _ _ rfl rfl)] at h
    split at h
    · obtain ⟨x, -, rfl⟩ := Option.map_eq_some_iff.mp h
      exact ⟨x, rfl⟩
    · cases h
  · obtain ⟨_, -, hpow⟩ := Option.bind_eq_some_iff.mp h
    obtain ⟨x, -, rfl⟩ := Option.map_eq_some_iff.mp hpow
    exact ⟨x, rfl⟩
  · obtain ⟨_, -, hpow⟩ := Option.bind_eq_some_iff.mp h
    obtain ⟨x, -, rfl⟩ := Option.map_eq_some_iff.mp hpow
    exact ⟨x, rfl⟩
  · obtain ⟨x, -, rfl⟩ := Option.map_eq_some_iff.mp h
    exact ⟨x, rfl⟩

theorem pow_lt_overflow {m : Nat} (hm : m ≤ 1) (k : Nat) : m ^ k < overflow := by
  have hpow := Nat.pow_le_pow_left hm k
  rw [Nat.one_pow] at hpow
  exact lt_overflow_of_lt (by omega)

theorem fits_pow {c : Number} (h : a.pow b = some c) : c.fits = true ↔ ¬ PowerOverflows a b := by
  by_cases hexact : ∃ m n, a = int m ∧ b = int n ∧ (0 ≤ n && (m.natAbs ≤ 1 || n < 64)) = true
  · obtain ⟨m, n, rfl, rfl, hn⟩ := hexact
    rw [pow, if_pos hn] at h
    cases h
    rw [fits_int]
    change (m ^ _).natAbs < overflow ↔ _
    rw [Int.natAbs_pow]
    by_cases hm : m.natAbs ≤ 1
    · refine iff_of_true (pow_lt_overflow hm _) ?_
      rintro ⟨m', n', hm', -, -, -, hover⟩
      cases hm'
      exact Nat.not_lt_of_le hover (pow_lt_overflow hm _)
    · simp only [hm, decide_false, Bool.false_or, Bool.and_eq_true, decide_eq_true_iff] at hn
      rw [if_neg hm, PowerOverflows]
      simp [hn.1, hn.2]
  · obtain ⟨x, rfl⟩ := pow_eq_float h fun m n ha hb hn => hexact ⟨m, n, ha, hb, hn⟩
    refine iff_of_true rfl ?_
    rintro ⟨m, n, ha, hb, hn, hlt, -⟩
    exact hexact ⟨m, n, ha, hb, by simp [hn, hlt]⟩

end Number

/-! ## Numbers in strings -/

/-- A numeral that spells an integer is read if it is not too long and the integer has a double. -/
def Numeral.isReadable (n : Numeral) : Bool :=
  !n.isInteger || (n.whole.length ≤ Number.digitLimit && natOf n.whole < Number.overflow)

/-- The number that a readable numeral denotes has 64 bits. -/
theorem Numeral.exists_value {n : Numeral} (h : n.isReadable = true) :
    ∃ a, n.value = .ok a ∧ a.isWord = true := by
  unfold value
  split
  · rename_i hinteger
    rw [isReadable, hinteger, Bool.not_true, Bool.false_or, Bool.and_eq_true, decide_eq_true_iff,
      decide_eq_true_iff] at h
    rw [if_neg (Nat.not_lt_of_le h.1)]
    dsimp only
    have habs : (if n.negative then -(natOf n.whole : Int) else natOf n.whole).natAbs = natOf n.whole := by
      split
      · rw [Int.natAbs_neg, Int.natAbs_natCast]
      · rw [Int.natAbs_natCast]
    generalize (if n.negative then -(natOf n.whole : Int) else natOf n.whole) = v at habs
    rw [← habs] at h
    split
    · rename_i hrange
      exact ⟨_, rfl, hrange⟩
    · obtain ⟨x, hx⟩ := Number.exists_toFloat (Number.fits_int.mpr h.2)
      rw [hx]
      exact ⟨_, rfl, rfl⟩
  · exact ⟨_, rfl, rfl⟩

/-- A numeral denotes an integer of 64 bits, or a double that some ratio is rounded to. -/
theorem Numeral.value_cases {n : Numeral} {a : Number} (h : n.value = .ok a) :
    (∃ v, a = .int v ∧ Number.inRange v = true) ∨ ∃ negative p q, a = .float (Number.nearest negative p q) := by
  unfold value at h
  split at h
  · split at h
    · cases h
    dsimp only at h
    generalize (if n.negative then -(natOf n.whole : Int) else natOf n.whole) = v at h
    split at h
    · rename_i hrange
      cases h
      exact .inl ⟨v, rfl, hrange⟩
    · rw [Number.toFloat, Number.ofInt?] at h
      cases hinf : (Number.nearest (v < 0) v.natAbs 1).isInf with
      | true =>
        rw [hinf] at h
        cases h
      | false =>
        rw [hinf] at h
        cases h
        exact .inr ⟨_, _, _, rfl⟩
  · cases h
    right
    unfold toDouble
    dsimp only
    split
    · exact ⟨_, _, _, rfl⟩
    · split <;> exact ⟨_, _, _, rfl⟩

namespace NumericText

/-- The numerals that a string is read as: the one at its front, and the one that it is as a whole. -/
def numerals (s : String) : List Numeral :=
  ((Numeral.scan? (s.toList.dropWhile isPad)).map Prod.fst).toList ++ (Numeral.parse? s.toList).toList

def isReadable (s : String) : Bool := (numerals s).all Numeral.isReadable

/-- What a string is read as, if anything, is a word. -/
theorem exists_leading? {s : String} (h : isReadable s = true) :
    ∃ a, leading? s = .ok a ∧ a.all Number.isWord = true := by
  unfold leading?
  split
  · rename_i n rest hscan
    have hn : n.isReadable = true := all_eq_true.mp h n (by simp [numerals, hscan])
    obtain ⟨a, ha, hword⟩ := n.exists_value hn
    rw [ha]
    exact ⟨some a, rfl, hword⟩
  · exact ⟨none, rfl, rfl⟩

theorem exists_whole? {s : String} (h : isReadable s = true) : ∃ a, whole? s = .ok a := by
  unfold whole?
  split
  · rename_i n hparse
    have hn : n.isReadable = true := all_eq_true.mp h n (by simp [numerals, hparse])
    obtain ⟨a, ha, -⟩ := n.exists_value hn
    rw [ha]
    exact ⟨some a, rfl⟩
  · exact ⟨none, rfl⟩

end NumericText

/-! ## Values -/

namespace Value

variable {v : Value} {entries : List (ArrayKey × Value)}

mutual

/-- The integers in a value, keys of arrays included. -/
def integers : Value → List Int
  | int n => [n]
  | array entries => entryIntegers entries
  | _ => []

def entryIntegers : List (ArrayKey × Value) → List Int
  | [] => []
  | (k, v) :: entries => k.numbers ++ v.integers ++ entryIntegers entries

end

mutual

def strings : Value → List String
  | string s => [s]
  | array entries => entryStrings entries
  | _ => []

def entryStrings : List (ArrayKey × Value) → List String
  | [] => []
  | (_, v) :: entries => v.strings ++ entryStrings entries

end

def IsInRange (v : Value) : Prop := ∀ n ∈ v.integers, Number.inRange n = true

def IsReadable (v : Value) : Prop := ∀ s ∈ v.strings, NumericText.isReadable s = true

/-- As an operand of arithmetic a value is a word, if it is a number at all. -/
theorem exists_toNumber? (hv : v.IsInRange) (hs : v.IsReadable) :
    ∃ a, v.toNumber? = .ok a ∧ a.all Number.isWord = true := by
  cases v with
  | null => exact ⟨_, rfl, by decide⟩
  | bool b => exact ⟨_, rfl, by cases b <;> decide⟩
  | int n => exact ⟨_, rfl, hv n (by simp [integers])⟩
  | float x => exact ⟨_, rfl, rfl⟩
  | string s => exact NumericText.exists_leading? (hs s (by simp [strings]))
  | array entries => exact ⟨none, rfl, rfl⟩
  | object c => exact ⟨none, rfl, rfl⟩

theorem exists_toInt? (hs : v.IsReadable) : ∃ a, v.toInt? = .ok a := by
  cases v with
  | string s =>
    obtain ⟨a, ha, -⟩ := NumericText.exists_leading? (hs s (by simp [strings]))
    rw [toInt?, ha]
    rcases a with _ | (n | x) <;> exact ⟨_, rfl⟩
  | _ => exact ⟨_, rfl⟩

theorem exists_toString? (hv : v.IsInRange) : ∃ a, v.toString? = .ok a := by
  cases v with
  | int n =>
    rw [toString?, Number.write, if_pos (Number.isWritable_of_inRange (hv n (by simp [integers])))]
    exact ⟨_, rfl⟩
  | _ => exact ⟨_, rfl⟩

theorem exists_numberEqualsString {n : Value} {s : String} (hn : n.IsInRange) (hread : n.IsReadable)
    (hs : NumericText.isReadable s = true) : ∃ b, numberEqualsString n s = .ok b := by
  obtain ⟨a, ha, -⟩ := exists_toNumber? hn hread
  obtain ⟨x, hx⟩ := NumericText.exists_whole? hs
  obtain ⟨t, ht⟩ := exists_toString? hn
  unfold numberEqualsString
  split
  · rw [ha, hx]
    rcases a with _ | a <;> rcases x with _ | x <;> exact ⟨_, rfl⟩
  · rw [ht]
    exact ⟨_, rfl⟩

theorem exists_stringEqualsString {s t : String} (hs : NumericText.isReadable s = true)
    (ht : NumericText.isReadable t = true) : ∃ b, stringEqualsString s t = .ok b := by
  obtain ⟨x, hx⟩ := NumericText.exists_whole? hs
  obtain ⟨y, hy⟩ := NumericText.exists_whole? ht
  unfold stringEqualsString
  split
  · rw [hx, hy]
    rcases x with _ | x <;> rcases y with _ | y <;> exact ⟨_, rfl⟩
  · exact ⟨_, rfl⟩

theorem entryIntegers_eq (entries : List (ArrayKey × Value)) :
    entryIntegers entries = entries.flatMap fun e => e.1.numbers ++ e.2.integers := by
  induction entries with
  | nil => rfl
  | cons e entries ih => rw [entryIntegers, ih, flatMap_cons]

theorem entryStrings_eq (entries : List (ArrayKey × Value)) :
    entryStrings entries = entries.flatMap fun e => e.2.strings := by
  induction entries with
  | nil => rfl
  | cons e entries ih => rw [entryStrings, ih, flatMap_cons]

theorem IsInRange.entry (h : (array entries).IsInRange) {e : ArrayKey × Value} (he : e ∈ entries) :
    e.1.isWritable = true ∧ e.2.IsInRange := by
  rw [IsInRange, integers, entryIntegers_eq] at h
  refine ⟨?_, fun n hn => h n (mem_flatMap_of_mem he (mem_append_right _ hn))⟩
  rw [ArrayKey.isWritable_eq_all, all_eq_true]
  exact fun n hn => Number.isWritable_of_inRange (h n (mem_flatMap_of_mem he (mem_append_left _ hn)))

theorem IsReadable.entry (h : (array entries).IsReadable) {e : ArrayKey × Value} (he : e ∈ entries) :
    e.2.IsReadable := by
  rw [IsReadable, strings, entryStrings_eq] at h
  exact fun s hs => h s (mem_flatMap_of_mem he hs)

theorem exists_sameKeys {as bs : List (ArrayKey × Value)} (ha : (array as).IsInRange)
    (hb : (array bs).IsInRange) : ∃ b, sameKeys as bs = .ok b := by
  have hkeys : ((as ++ bs).all fun e => e.1.isWritable) = true := by
    rw [all_append, Bool.and_eq_true, all_eq_true, all_eq_true]
    exact ⟨fun e he => (ha.entry he).1, fun e he => (hb.entry he).1⟩
  rw [sameKeys, if_pos hkeys]
  exact ⟨_, rfl⟩

theorem mem_of_lookup? {k : ArrayKey} (h : lookup? k entries = some v) : (k, v) ∈ entries := by
  induction entries with
  | nil => cases h
  | cons e entries ih =>
    rw [lookup?] at h
    split at h
    · rename_i hk
      cases h
      rw [hk]
      exact mem_cons_self
    · exact mem_cons_of_mem _ (ih h)

mutual

/-- Loose equality is decided, or left open, on readable values of 64 bits. -/
theorem exists_looseEqual (a b : Value) (ha : a.IsInRange) (hb : b.IsInRange) (hra : a.IsReadable)
    (hrb : b.IsReadable) : ∃ v, a.looseEqual b = .ok v := by
  cases a with
  | null => cases b <;> exact ⟨_, rfl⟩
  | bool x => cases b <;> exact ⟨_, rfl⟩
  | object c =>
    rw [looseEqual]
    split <;> exact ⟨_, rfl⟩
  | int n =>
    cases b with
    | string s => exact exists_numberEqualsString ha hra (hrb s (by simp [strings]))
    | _ => exact ⟨_, rfl⟩
  | float x =>
    cases b with
    | string s => exact exists_numberEqualsString ha hra (hrb s (by simp [strings]))
    | _ => exact ⟨_, rfl⟩
  | string s =>
    have hs := hra s (by simp [strings])
    cases b with
    | string t => exact exists_stringEqualsString hs (hrb t (by simp [strings]))
    | int n => exact exists_numberEqualsString hb hrb hs
    | float x => exact exists_numberEqualsString hb hrb hs
    | _ => exact ⟨_, rfl⟩
  | array as =>
    cases b with
    | array bs =>
      obtain ⟨same, hsame⟩ := exists_sameKeys ha hb
      rw [looseEqual, hsame]
      cases same with
      | false => exact ⟨_, rfl⟩
      | true => exact exists_looseEqualEntries bs as (some true) ha hb hra hrb
    | _ => exact ⟨_, rfl⟩

theorem exists_looseEqualEntries (bs as : List (ArrayKey × Value)) (verdict : Option Bool)
    (ha : (array as).IsInRange) (hb : (array bs).IsInRange) (hra : (array as).IsReadable)
    (hrb : (array bs).IsReadable) : ∃ v, looseEqualEntries bs as verdict = .ok v := by
  cases as with
  | nil => exact ⟨_, rfl⟩
  | cons e as =>
    obtain ⟨k, a⟩ := e
    have hasRange : (array as).IsInRange := fun n hn => ha n (by
      rw [integers, entryIntegers]
      exact mem_append_right _ hn)
    have hasRead : (array as).IsReadable := fun s hs => hra s (by
      exact mem_append_right _ hs)
    rw [looseEqualEntries]
    split
    · exact ⟨_, rfl⟩
    · rename_i b hb'
      have hmem := mem_of_lookup? hb'
      obtain ⟨v, hv⟩ := exists_looseEqual a b (ha.entry mem_cons_self).2 (hb.entry hmem).2
        (hra.entry mem_cons_self) (hrb.entry hmem)
      rw [hv]
      rcases v with _ | (_ | _)
      · exact exists_looseEqualEntries bs as none hasRange hb hasRead hrb
      · exact ⟨_, rfl⟩
      · exact exists_looseEqualEntries bs as verdict hasRange hb hasRead hrb

end

end Value

/-! ## Operators -/

namespace Operator

variable {op : Operator} {s : State} {l r : Value} {o : Operands}

def readsNumbers : Operator → Bool
  | add | subtract | multiply | divide | power | modulo | equal | notEqual => true
  | _ => false

def Overflows (op : Operator) (l r : Value) : Prop :=
  op = power ∧ ∃ a b, l.toNumber? = .ok (some a) ∧ r.toNumber? = .ok (some b) ∧ a.PowerOverflows b

theorem not_overflows (h : op ≠ power) (l r : Value) : ¬ op.Overflows l r :=
  fun hop => h hop.1

theorem isOk_fst_bind {α β : Type} {q : Query α} {f : α → Query β} {a : α} (hq : (q s).1 = .ok a)
    (hf : (f a s).1.isOk = true) : ((q >>= f) s).1.isOk = true := by
  rw [Query.fst_bind, hq]
  exact hf

theorem isOk_finish {r : Except Fault Number} {c : Number} (h : r = .ok c) (s : State) :
    (numberValue.finish r s).1.isOk = c.fits := by
  subst h
  cases c with
  | float x => rfl
  | int n =>
    show ((Value.ofNumber (.int n)).map some).isOk = _
    rw [Value.ofNumber]
    split
    · rename_i hn
      exact (Number.fits_of_isWord (a := .int n) hn).symm
    · rw [← Number.isOk_toFloat]
      cases (Number.int n).toFloat <;> rfl

/-- Sums, differences and products of words are values. -/
theorem isOk_finish_lift {f : Int → Int → Int} {g : Float → Float → Float} {a b : Number}
    (hf : ∀ m n : Int, m.natAbs ≤ 2 ^ 63 → n.natAbs ≤ 2 ^ 63 → (f m n).natAbs < 2 ^ 127)
    (ha : a.isWord = true) (hb : b.isWord = true) (s : State) :
    (numberValue.finish (Number.lift f g a b) s).1.isOk = true := by
  obtain ⟨c, hc, hfits⟩ := Number.exists_lift hf ha hb
  rw [isOk_finish hc, hfits]

theorem isOk_power (o : Operands) (a b : Number) (s : State) :
    (power.numberValue o a b s).1.isOk = true ↔ ¬ a.PowerOverflows b := by
  unfold numberValue
  cases hpow : a.pow b with
  | none =>
    refine iff_of_true rfl ?_
    rintro ⟨m, n, rfl, rfl, hn, hlt, -⟩
    simp [Number.pow, hn, hlt] at hpow
  | some c => rw [← Number.fits_pow hpow, isOk_finish rfl]

theorem isOk_divide (o : Operands) {a b : Number} (ha : a.isWord = true) (hb : b.isWord = true) (s : State) :
    (divide.numberValue o a b s).1.isOk = true := by
  unfold numberValue
  cases hzero : b.isZero with
  | true => rfl
  | false =>
    obtain ⟨c, hc, hfits⟩ := Number.exists_div ha hb hzero
    exact (isOk_finish hc s).trans hfits

theorem isOk_moduloValue (o : Operands) (hl : l.IsReadable) (hr : r.IsReadable) (s : State) :
    (moduloValue o l r s).1.isOk = true := by
  obtain ⟨m, hm⟩ := Value.exists_toInt? hl
  obtain ⟨n, hn⟩ := Value.exists_toInt? hr
  refine isOk_fst_bind hm (isOk_fst_bind hn ?_)
  rcases m with _ | m
  · rfl
  · rcases n with _ | n
    · rfl
    · dsimp only
      split <;> rfl

theorem isOk_modulo (o : Operands) (hl : l.IsReadable) (hr : r.IsReadable) (s : State) :
    (modulo.arithmeticValue o l r s).1.isOk = true := by
  unfold arithmeticValue
  split
  · rfl
  · rfl
  · rfl
  · exact isOk_moduloValue o hl hr s

/-- Arithmetic other than a remainder comes out just if it does on the numbers that the operands are. -/
theorem isOk_arithmeticValue (hop : op ≠ modulo) (o : Operands) (hl : ∃ a, l.toNumber? = .ok a)
    (hr : ∃ b, r.toNumber? = .ok b) (s : State) :
    (op.arithmeticValue o l r s).1.isOk = true ↔
      ∀ a b, l.toNumber? = .ok (some a) → r.toNumber? = .ok (some b) →
        (op.numberValue o a b s).1.isOk = true := by
  obtain ⟨a, ha⟩ := hl
  obtain ⟨b, hb⟩ := hr
  unfold arithmeticValue
  split
  · exact iff_of_true rfl fun _ _ h => by cases h
  · exact iff_of_true rfl fun _ _ h => by cases h
  · exact iff_of_true rfl fun _ _ _ h => by cases h
  · rw [if_neg hop, ha, hb]
    rcases a with _ | a
    · exact iff_of_true rfl fun _ _ h => by cases h
    · rcases b with _ | b
      · exact iff_of_true rfl fun _ _ _ h => by cases h
      · show (op.numberValue o a b s).1.isOk = true ↔ _
        simp

theorem isOk_elementary (hop : op = add ∨ op = subtract ∨ op = multiply ∨ op = divide) (o : Operands)
    (hl : l.IsInRange) (hr : r.IsInRange) (hsl : l.IsReadable) (hsr : r.IsReadable) (s : State) :
    (op.arithmeticValue o l r s).1.isOk = true := by
  obtain ⟨a, ha, hwa⟩ := Value.exists_toNumber? hl hsl
  obtain ⟨b, hb, hwb⟩ := Value.exists_toNumber? hr hsr
  rw [isOk_arithmeticValue (by rintro rfl; simp at hop) _ ⟨a, ha⟩ ⟨b, hb⟩]
  intro a' b' ha' hb'
  obtain rfl : a = some a' := Except.ok.inj (ha.symm.trans ha')
  obtain rfl : b = some b' := Except.ok.inj (hb.symm.trans hb')
  have hmul : ∀ m n : Int, m.natAbs ≤ 2 ^ 63 → n.natAbs ≤ 2 ^ 63 → (m * n).natAbs < 2 ^ 127 := by
    intro m n hm hn
    rw [Int.natAbs_mul]
    exact Nat.lt_of_le_of_lt (Nat.mul_le_mul hm hn) (by decide)
  obtain rfl | rfl | rfl | rfl := hop
  · exact isOk_finish_lift (fun m n _ _ => by omega) hwa hwb s
  · exact isOk_finish_lift (fun m n _ _ => by omega) hwa hwb s
  · exact isOk_finish_lift hmul hwa hwb s
  · exact isOk_divide o hwa hwb s

/-- An operator on known values comes out just if what it does with them does. -/
theorem fst_onValues_constant (range : Option Range) (l r : Value) (lt rt : Option TypeUnion)
    (c : Option QualifiedName) (lv rv : Option String) (f : Value → Value → Query (Option Value)) (s : State) :
    (onValues (.constant range (some l) (some r) lt rt c lv rv) f s).1 = (f l r s).1 := rfl

theorem isOk_equality (hop : op = equal ∨ op = notEqual) (o : Operands) (h : ∃ b, l.looseEqual r = .ok b)
    (s : State) : (op.equalityValue o l r s).1.isOk = true := by
  obtain ⟨b, hb⟩ := h
  obtain rfl | rfl := hop
  all_goals
    refine isOk_fst_bind hb ?_
    cases b <;> rfl

theorem isOk_identity (hop : op = identical ∨ op = notIdentical) (o : Operands) (l r : Value) (s : State) :
    (op.equalityValue o l r s).1.isOk = true := by
  obtain rfl | rfl := hop
  all_goals
    refine isOk_fst_bind rfl ?_
    cases l.identical r <;> rfl

theorem isOk_orderingValue (op : Operator) (o : Operands) (l r : Value) (s : State) :
    (op.orderingValue o l r s).1.isOk = true := by
  unfold orderingValue
  split <;> rfl

theorem isOk_spaceshipValue (o : Operands) (l r : Value) (s : State) :
    (spaceshipValue o l r s).1.isOk = true := by
  unfold spaceshipValue
  split <;> rfl

theorem isOk_bitwiseValue (op : Operator) (o : Operands) (l r : Value) (s : State) :
    (op.bitwiseValue o l r s).1.isOk = true := by
  unfold bitwiseValue
  split <;> rfl

theorem isOk_connectiveValue (decisive : Bool) {l r : Option Value} (hl : (o.leftValue s).1 = .ok l)
    (hr : (o.rightValue s).1 = .ok r) : (connectiveValue decisive o s).1.isOk = true := by
  refine isOk_fst_bind hl ?_
  by_cases hleft : l.map Value.truth = some decisive
  · rw [if_pos hleft]
    rfl
  · rw [if_neg hleft]
    refine isOk_fst_bind hr ?_
    split
    · rfl
    · split <;> rfl

theorem isOk_coalesce {l r : Option Value} (hl : (o.leftValue s).1 = .ok l)
    (hr : (o.rightValue s).1 = .ok r) : (coalesce.value o s).1.isOk = true := by
  refine isOk_fst_bind hl ?_
  rcases l with _ | l
  · rfl
  · cases l with
    | null =>
      rw [hr]
      rfl
    | _ => rfl

theorem isOk_concatValue (hl : l.IsInRange) (hr : r.IsInRange) : (concatValue l r).isOk = true := by
  obtain ⟨a, ha⟩ := Value.exists_toString? hl
  obtain ⟨b, hb⟩ := Value.exists_toString? hr
  rw [concatValue, ha, hb]
  rcases a with _ | a <;> rcases b with _ | b <;> rfl

theorem isOk_instanceValue {c : Option QualifiedName} {u : Option TypeUnion} (hc : (o.rightClass s).1 = .ok c)
    (hu : (o.leftType s).1 = .ok u) : (instanceValue o s).1.isOk = true := by
  refine isOk_fst_bind hc (isOk_fst_bind hu ?_)
  rcases c with _ | c
  · rfl
  · rcases u with _ | u
    · rfl
    · refine isOk_fst_bind rfl ?_
      dsimp only
      split
      · rfl
      · split
        · rfl
        · split <;> rfl

end Operator

open Operator in
/-- Constants fold without a fault. If all integers in two values have 64 bits, and the strings in them are
readable where the operator reads them as numbers, then the operator gives an answer, a value or none, just
if it is not a power of integers that is too large for a double. -/
theorem value_isOk_iff_not_overflows (op : Operator) (l r : Value) (range : Option Range)
    (leftType rightType : Option TypeUnion) (rightClass : Option QualifiedName)
    (leftVariable rightVariable : Option String) (s : State) (hl : l.IsInRange) (hr : r.IsInRange)
    (hread : op.readsNumbers = true → l.IsReadable ∧ r.IsReadable) :
    (op.value (.constant range (some l) (some r) leftType rightType rightClass leftVariable rightVariable)
      s).1.isOk = true ↔ ¬ op.Overflows l r := by
  cases op with
  | power =>
    obtain ⟨hsl, hsr⟩ := hread rfl
    obtain ⟨a, ha, -⟩ := Value.exists_toNumber? hl hsl
    obtain ⟨b, hb, -⟩ := Value.exists_toNumber? hr hsr
    rw [value, fst_onValues_constant, isOk_arithmeticValue (by decide) _ ⟨a, ha⟩ ⟨b, hb⟩]
    simp only [isOk_power, Overflows, true_and, not_exists, not_and]
  | add | subtract | multiply | divide =>
    obtain ⟨hsl, hsr⟩ := hread rfl
    refine iff_of_true ?_ (not_overflows (by decide) l r)
    rw [value, fst_onValues_constant]
    exact isOk_elementary (by decide) _ hl hr hsl hsr s
  | modulo =>
    obtain ⟨hsl, hsr⟩ := hread rfl
    exact iff_of_true (isOk_modulo _ hsl hsr s) (not_overflows (by decide) l r)
  | equal | notEqual =>
    obtain ⟨hsl, hsr⟩ := hread rfl
    refine iff_of_true ?_ (not_overflows (by decide) l r)
    rw [value, fst_onValues_constant]
    exact isOk_equality (by decide) _ (Value.exists_looseEqual l r hl hr hsl hsr) s
  | identical | notIdentical =>
    refine iff_of_true ?_ (not_overflows (by decide) l r)
    rw [value, fst_onValues_constant]
    exact isOk_identity (by decide) _ l r s
  | concat => exact iff_of_true (isOk_concatValue hl hr) (not_overflows (by decide) l r)
  | instanceOf => exact iff_of_true (isOk_instanceValue rfl rfl) (not_overflows (by decide) l r)
  | coalesce => exact iff_of_true (isOk_coalesce rfl rfl) (not_overflows (by decide) l r)
  | less | lessOrEqual | greater | greaterOrEqual =>
    exact iff_of_true (isOk_orderingValue _ _ l r s) (not_overflows (by decide) l r)
  | spaceship => exact iff_of_true (isOk_spaceshipValue _ l r s) (not_overflows (by decide) l r)
  | bitAnd | bitOr | bitXor | shiftLeft | shiftRight =>
    exact iff_of_true (isOk_bitwiseValue _ _ l r s) (not_overflows (by decide) l r)
  | wordAnd | boolAnd | wordOr | boolOr =>
    exact iff_of_true (isOk_connectiveValue _ rfl rfl) (not_overflows (by decide) l r)
  | wordXor => exact iff_of_true rfl (not_overflows (by decide) l r)

def State.blank : State := .new {} {} none .discarding

/-- A power of a string of 63 bits folds as long as it has a double. -/
theorem sixteenth_power_folds : (Value.string "9223372036854775807 apples").IsReadable ∧
    (Operator.power.value (.constant none (some (.string "9223372036854775807 apples")) (some (.int 16))
      none none none none none) .blank).1.isOk = true := by
  have hread : (Value.string "9223372036854775807 apples").IsReadable := by
    intro s hs
    rw [Value.strings, mem_singleton] at hs
    subst hs
    decide +kernel
  have hint : (Value.int 16).IsInRange ∧ (Value.int 16).IsReadable := by
    simp [Value.IsInRange, Value.integers, Value.IsReadable, Value.strings]
    decide
  have hnum : (Value.string "9223372036854775807 apples").toNumber? = .ok (some (.int Number.maxInt)) := by
    cbv
  refine ⟨hread, (value_isOk_iff_not_overflows .power _ _ none none none none none none .blank ?_ hint.1
    fun _ => ⟨hread, hint.2⟩).mpr ?_⟩
  · simp [Value.IsInRange, Value.integers]
  · rintro ⟨-, a, b, ha, hb, m, n, rfl, rfl, -, -, hover⟩
    rw [hnum] at ha
    cases ha
    cases hb
    exact absurd hover (by decide +kernel)

/-- A string of too many zeros is not read, though its value is zero. -/
theorem NumericText.leading?_zeros {n : Nat} (h : Number.digitLimit < n) :
    leading? (.ofList (List.replicate n '0')) = .error (.tooManyDigits n) := by
  obtain ⟨k, rfl⟩ : ∃ k, n = k + 1 := Nat.exists_eq_succ_of_ne_zero (by omega)
  have hdigits : ∀ k, Numeral.digits (List.replicate k '0') = (List.replicate k 0, []) := by
    intro k
    induction k with
    | zero => rfl
    | succ k ih =>
      rw [replicate_succ, Numeral.digits, show Text.digitValue? '0' = some 0 by decide, ih, replicate_succ]
  have hscan : Numeral.scan? (List.replicate (k + 1) '0') =
      some (⟨false, List.replicate (k + 1) 0, none, none⟩, []) := by
    have hsign : Numeral.sign (List.replicate (k + 1) '0') = (false, List.replicate (k + 1) '0') := rfl
    unfold Numeral.scan?
    rw [hsign]
    dsimp only
    rw [hdigits]
    rfl
  have hpad : (List.replicate (k + 1) '0').dropWhile isPad = List.replicate (k + 1) '0' := by
    rw [replicate_succ, dropWhile_cons_of_neg (by decide)]
  rw [leading?, String.toList_ofList, hpad, hscan]
  simp [Numeral.value, Numeral.isInteger, h, Except.map]

theorem Operator.add_unread_fails {t : String} (h : (NumericText.leading? t).isOk = false) (s : State) :
    (add.value (.constant none (some (.string t)) (some (.int 0)) none none none none none) s).1.isOk = false := by
  rw [value, fst_onValues_constant, arithmeticValue, if_neg (by decide), Query.fst_bind, Query.ofExcept]
  · cases hread : NumericText.leading? t with
    | ok a => simp [hread, Except.isOk, Except.toBool] at h
    | error e =>
      rw [show (Value.string t).toNumber? = .error e from hread]
      rfl
  all_goals nofun

/-- Without the two conditions folding fails: a power of integers of 64 bits, and strings that spell too
large an integer or have too many digits. -/
theorem folding_faults :
    (Operator.power.value (.constant none (some (.int Number.maxInt)) (some (.int 17))
      none none none none none) .blank).1.isOk = false ∧
    (Operator.add.value (.constant none (some (.string (.ofList ('1' :: List.replicate 309 '0'))))
      (some (.int 0)) none none none none none) .blank).1.isOk = false ∧
    (Operator.add.value (.constant none (some (.string (.ofList (List.replicate 4301 '0'))))
      (some (.int 0)) none none none none none) .blank).1.isOk = false := by
  refine ⟨by decide +kernel, Operator.add_unread_fails ?_ .blank, Operator.add_unread_fails ?_ .blank⟩
  · rw [NumericText.leading?, String.toList_ofList]
    decide +kernel
  · rw [NumericText.leading?_zeros (by decide)]
    rfl

end PhpFlow
